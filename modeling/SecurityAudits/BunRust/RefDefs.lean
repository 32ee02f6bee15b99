import Std.Data.HashSet.Lemmas
import SecurityAudits.Lib.Selection

/-!
# Link reference definitions of a Markdown document

Two places of the parser collect link reference definitions in `ref_defs`: the block parser
(`consume_ref_defs_from_current_block` of `src/md/blocks.rs`) and `build_ref_def_hashtable` of
`src/md/ref_defs.rs`. The first definition of a label wins. The patch replaces the scan of `ref_defs`
for the label by a set, `ref_def_labels`.

Both places are one loop over the definitions that a paragraph begins with (`collect`), so a run is a
fold of the insertion over the definitions it comes to, whichever way the calls are interleaved
(`process_eq`). The scan is the step of `Selection.select`; the set does the same as long as it is
the set of the labels of `ref_defs` (`Indexed`).
-/

open SecurityAudits.Selection

namespace SecurityAudits.BunRust.RefDefs
set_option autoImplicit false

/-- What `parse_ref_def` finds. -/
structure ParsedDef where
  label : List UInt8
  dest : List UInt8
  title : List UInt8

/-- A definition in `ref_defs`; the label is a normalized one. -/
structure RefDef where
  label : List UInt8
  dest : List UInt8
  title : List UInt8
  deriving DecidableEq, Repr

/-- The fields of `Parser` that the two places use. -/
structure Parser where
  refDefs : List RefDef
  refDefLabels : Std.HashSet (List UInt8)

/-- `Parser::new` -/
def Parser.new : Parser where
  refDefs := []
  refDefLabels := ∅

/-- `if self.ref_def_labels.insert(label.clone()) { self.ref_defs.push(..) }` -/
def Parser.insert (p : Parser) (refDef : RefDef) : Parser :=
  let (present, labels) := p.refDefLabels.containsThenInsert refDef.label
  if present then
    { p with refDefLabels := labels }
  else
    { refDefs := p.refDefs ++ [refDef]
      refDefLabels := labels }

/-- The code before the patch: `for existing in self.ref_defs.iter()`, and a push when no label is
equal. -/
def insertByScan (refDefs : List RefDef) (refDef : RefDef) : List RefDef :=
  let alreadyExists := refDefs.any fun existing => existing.label == refDef.label
  if !alreadyExists then refDefs ++ [refDef] else refDefs

/-- The code around the insertions. -/
structure Hooks where
  normalizeLabel : List UInt8 → List UInt8
  /-- The block parser's loop ends at a definition with this normalized label. -/
  endsBlock : List UInt8 → Bool

section

variable {σ : Type} (hooks : Hooks) (insert : σ → RefDef → σ)

/-- The loop over the definitions of a paragraph, which ends early at a label for which `ends`. -/
def collect (ends : List UInt8 → Bool) : σ → List ParsedDef → σ
  | s, [] => s
  | s, found :: defs =>
    let normLabel := hooks.normalizeLabel found.label
    if ends normLabel then s else collect ends (insert s ⟨normLabel, found.dest, found.title⟩) defs

/-- The block parser. -/
def consumeRefDefsFromCurrentBlock : σ → List ParsedDef → σ := collect hooks insert hooks.endsBlock

/-- The consumer: a label of nothing but whitespace ends the paragraph's definitions. -/
def buildRefDefHashtable : σ → List ParsedDef → σ := collect hooks insert List.isEmpty

/-- A paragraph with its definitions, at one of the two places. -/
inductive Call where
  | block (defs : List ParsedDef)
  | hashtable (defs : List ParsedDef)

def call (s : σ) : Call → σ
  | .block defs => consumeRefDefsFromCurrentBlock hooks insert s defs
  | .hashtable defs => buildRefDefHashtable hooks insert s defs

/-- The calls one after another. -/
def process (start : σ) (calls : List Call) : σ := calls.foldl (call hooks insert) start

/-- The definitions that a loop comes to insert. -/
def reached (ends : List UInt8 → Bool) : List ParsedDef → List RefDef
  | [] => []
  | found :: defs =>
    let normLabel := hooks.normalizeLabel found.label
    if ends normLabel then [] else ⟨normLabel, found.dest, found.title⟩ :: reached ends defs

/-- The definitions that a call comes to insert. -/
def Call.reached : Call → List RefDef
  | .block defs => RefDefs.reached hooks hooks.endsBlock defs
  | .hashtable defs => RefDefs.reached hooks List.isEmpty defs

theorem collect_eq (ends : List UInt8 → Bool) (defs : List ParsedDef) (s : σ) :
    collect hooks insert ends s defs = (reached hooks ends defs).foldl insert s := by
  induction defs generalizing s with
  | nil => rfl
  | cons found defs ih =>
    rw [collect, reached]
    split
    · rfl
    · exact ih _

/-- A run is a fold of the insertion over what its calls come to. -/
theorem process_eq (calls : List Call) (start : σ) :
    process hooks insert start calls =
      (calls.flatMap (Call.reached hooks)).foldl insert start := by
  induction calls generalizing start with
  | nil => rfl
  | cons first calls ih =>
    have here : call hooks insert start first = (first.reached hooks).foldl insert start := by
      cases first with
      | block defs => exact collect_eq hooks insert hooks.endsBlock defs start
      | hashtable defs => exact collect_eq hooks insert List.isEmpty defs start
    rw [process, List.foldl_cons, List.flatMap_cons, List.foldl_append, ← here]
    exact ih _

end

/-! ## The index -/

/-- The set is the set of the labels of `ref_defs`. -/
def Indexed (p : Parser) : Prop :=
  ∀ label, label ∈ p.refDefLabels ↔ label ∈ p.refDefs.map RefDef.label

theorem indexed_new : Indexed Parser.new := by simp [Indexed, Parser.new]

theorem insertByScan_eq : insertByScan = add (Differ RefDef.label) := by
  funext refDefs refDef
  refine if_congr ?_ rfl rfl
  simp [Differ]

/-- **The set answers what the scan finds, and follows it.** -/
theorem insert_indexed (p : Parser) (refDef : RefDef) (indexed : Indexed p) :
    Indexed (p.insert refDef) ∧ (p.insert refDef).refDefs = insertByScan p.refDefs refDef := by
  have scan : (p.refDefs.any fun existing => existing.label == refDef.label) =
      p.refDefLabels.contains refDef.label := by
    rw [Bool.eq_iff_iff, Std.HashSet.contains_iff_mem, indexed]
    simp
  have members : ∀ label, label ∈ p.refDefLabels.insert refDef.label ↔
      refDef.label = label ∨ label ∈ p.refDefs.map RefDef.label := by
    intro label
    rw [Std.HashSet.mem_insert, indexed, beq_iff_eq]
  rw [Parser.insert, insertByScan, scan]
  cases present : p.refDefLabels.contains refDef.label with
  | true =>
    have known := (indexed refDef.label).1 (Std.HashSet.contains_iff_mem.1 present)
    simp only [Std.HashSet.containsThenInsert_fst, Std.HashSet.containsThenInsert_snd, present]
    refine ⟨fun label => (members label).trans ?_, rfl⟩
    exact ⟨Or.rec (fun same => same ▸ known) id, Or.inr⟩
  | false =>
    simp only [Std.HashSet.containsThenInsert_fst, Std.HashSet.containsThenInsert_snd, present]
    refine ⟨fun label => (members label).trans ?_, rfl⟩
    simp [or_comm, eq_comm]

theorem foldl_indexed (refDefs : List RefDef) (p : Parser) (indexed : Indexed p) :
    Indexed (refDefs.foldl Parser.insert p) ∧
      (refDefs.foldl Parser.insert p).refDefs = refDefs.foldl insertByScan p.refDefs := by
  induction refDefs generalizing p with
  | nil => exact ⟨indexed, rfl⟩
  | cons refDef refDefs ih =>
    obtain ⟨later, same⟩ := insert_indexed p refDef indexed
    rw [List.foldl_cons, List.foldl_cons, ← same]
    exact ih _ later

/-- **The index and the list, over any calls in any order.** The set is the set of the labels of
`ref_defs`, no two of which are equal, and `ref_defs` is what the scans would have built: of the
definitions that the calls come to, the first of each label, in order. -/
theorem process_indexed (hooks : Hooks) (calls : List Call) :
    let p := process hooks Parser.insert Parser.new calls
    (∀ label, label ∈ p.refDefLabels ↔ ∃ refDef ∈ p.refDefs, refDef.label = label) ∧
      (p.refDefs.map RefDef.label).Nodup ∧
      p.refDefs = process hooks insertByScan [] calls ∧
      p.refDefs = firsts RefDef.label (calls.flatMap (Call.reached hooks)) := by
  intro p
  have scans : process hooks insertByScan [] calls =
      select (Differ RefDef.label) (calls.flatMap (Call.reached hooks)) := by
    rw [process_eq, insertByScan_eq, select]
  obtain ⟨indexed, same⟩ :=
    foldl_indexed (calls.flatMap (Call.reached hooks)) Parser.new indexed_new
  rw [← process_eq] at indexed same
  change p.refDefs = _ at same
  rw [show Parser.new.refDefs = [] from rfl, ← process_eq hooks] at same
  refine ⟨fun label => (indexed label).trans List.mem_map, ?_, same, ?_⟩
  · rw [same, scans, List.Nodup, List.pairwise_map]
    exact pairwise_select (Differ RefDef.label) _
  · rw [same, scans, select_key]

end SecurityAudits.BunRust.RefDefs
