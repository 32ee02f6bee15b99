import Mathlib.Data.List.Basic

/-!
# Escaping

An escape table gives some symbols a word each, and text is escaped by replacing these symbols,
one kind after another, over the whole text. The words all begin with one marker, which is the
first symbol to be replaced, and contain no replaced symbol behind it. `Table` carries these
conditions, and they are what makes the passes one substitution (`Table.replaceAll_eq_escape`),
the substitution reversible (`Table.unescape_escape`) and its result free of replaced symbols
other than markers that begin a word (`Table.not_mem_escape`, `Table.word_at_marker`).
-/

namespace SecurityAudits.Escape
set_option autoImplicit false

variable {α β : Type} [DecidableEq α]

/-- `s` with the word `w` in place of every `c`. -/
def replace (c : α) (w : List α) (s : List α) : List α :=
  s.flatMap fun x => if x = c then w else [x]

/-- The replacements of `entries`, in order, each over what those before it have left. -/
def replaceAll : List (α × List α) → List α → List α
  | [], s => s
  | e :: es, s => replaceAll es (replace e.1 e.2 s)

/-- What one symbol is written as. -/
def codeOf : List (α × List α) → α → List α
  | [], x => [x]
  | e :: es, x => if x = e.1 then e.2 else codeOf es x

/-- A list of replacements whose words can be told from each other and from the rest. -/
structure Table (α : Type) where
  entries : List (α × List α)
  /-- The symbol that every word begins with. -/
  marker : α
  first : entries.head?.map Prod.fst = some marker
  distinct : (entries.map Prod.fst).Nodup
  begins : ∀ e ∈ entries, e.2.head? = some marker
  inner : ∀ e ∈ entries, ∀ f ∈ entries, f.1 ∉ e.2.tail
  prefixFree : ∀ e ∈ entries, ∀ f ∈ entries, e.2 <+: f.2 → e = f

/-- The substitution that the table describes, in one pass. -/
def Table.escape (t : Table α) (s : List α) : List α := s.flatMap (codeOf t.entries)

/-- The entry whose word `s` begins with. -/
def Table.entryAt (t : Table α) (s : List α) : Option (α × List α) :=
  t.entries.find? fun e => decide (e.2 <+: s)

/-- Reads from left to right, past `skip` symbols of the word that is being read. -/
def Table.unescapeFrom (t : Table α) : Nat → List α → List α
  | _, [] => []
  | skip + 1, _ :: s => unescapeFrom t skip s
  | 0, x :: s =>
    match t.entryAt (x :: s) with
    | some e => e.1 :: unescapeFrom t (e.2.length - 1) s
    | none => x :: unescapeFrom t 0 s

/-- Every word of the table, read from left to right, becomes the symbol it stands for. -/
def Table.unescape (t : Table α) (s : List α) : List α := t.unescapeFrom 0 s

section Passes

variable {c x : α} {w : List α} {entries : List (α × List α)}

theorem replace_of_not_mem {s : List α} (absent : c ∉ s) : replace c w s = s := by
  induction s with
  | nil => rfl
  | cons x s ih =>
    have other : x ≠ c := fun same => absent (same ▸ List.mem_cons_self)
    have rest : replace c w s = s := ih fun mem => absent (List.mem_cons_of_mem x mem)
    show (if x = c then w else [x]) ++ replace c w s = x :: s
    rw [if_neg other, rest]
    rfl

theorem replaceAll_of_not_mem {s : List α} (absent : ∀ e ∈ entries, e.1 ∉ s) :
    replaceAll entries s = s := by
  induction entries with
  | nil => rfl
  | cons e es ih =>
    rw [replaceAll, replace_of_not_mem (absent e List.mem_cons_self)]
    exact ih fun f mem => absent f (List.mem_cons_of_mem e mem)

/-- Each replacement works symbol by symbol, so all of them do. -/
theorem replaceAll_flatMap (entries : List (α × List α)) (f : β → List α) (l : List β) :
    replaceAll entries (l.flatMap f) = l.flatMap fun b => replaceAll entries (f b) := by
  induction entries generalizing f with
  | nil => rfl
  | cons e es ih =>
    rw [replaceAll, replace, List.flatMap_assoc]
    exact ih _

theorem replaceAll_singleton (ordered : entries.Pairwise fun e f => f.1 ∉ e.2) (x : α) :
    replaceAll entries [x] = codeOf entries x := by
  induction entries with
  | nil => rfl
  | cons e es ih =>
    obtain ⟨later, rest⟩ := List.pairwise_cons.1 ordered
    have pass : replace e.1 e.2 [x] = if x = e.1 then e.2 else [x] := List.append_nil _
    rw [replaceAll, codeOf, pass]
    by_cases here : x = e.1
    · rw [if_pos here, if_pos here]
      exact replaceAll_of_not_mem later
    · rw [if_neg here, if_neg here]
      exact ih rest

theorem codeOf_cases (entries : List (α × List α)) (x : α) :
    (∃ e ∈ entries, e.1 = x ∧ codeOf entries x = e.2) ∨
      (∀ e ∈ entries, e.1 ≠ x) ∧ codeOf entries x = [x] := by
  induction entries with
  | nil => exact .inr ⟨fun _ mem => absurd mem List.not_mem_nil, rfl⟩
  | cons e es ih =>
    rw [codeOf]
    by_cases here : x = e.1
    · exact .inl ⟨e, List.mem_cons_self, here.symm, if_pos here⟩
    · rw [if_neg here]
      rcases ih with ⟨f, mem, key, code⟩ | ⟨none, code⟩
      · exact .inl ⟨f, List.mem_cons_of_mem e mem, key, code⟩
      · exact .inr ⟨List.forall_mem_cons.2 ⟨fun same => here same.symm, none⟩, code⟩

end Passes

namespace Table

variable {t : Table α} {e : α × List α} {x : α} {s rest : List α}

omit [DecidableEq α] in
theorem marker_key (t : Table α) : ∃ e ∈ t.entries, e.1 = t.marker := by
  obtain ⟨e, front, key⟩ := Option.map_eq_some_iff.1 t.first
  exact ⟨e, List.mem_of_head? front, key⟩

omit [DecidableEq α] in
theorem word_eq (mem : e ∈ t.entries) : e.2 = t.marker :: e.2.tail :=
  (List.cons_head?_tail (t.begins e mem)).symm

omit [DecidableEq α] in
/-- No word contains a symbol that is replaced after it. -/
theorem ordered (t : Table α) : t.entries.Pairwise fun e f => f.1 ∉ e.2 := by
  have absent : ∀ e ∈ t.entries, ∀ f ∈ t.entries, f.1 ≠ t.marker → f.1 ∉ e.2 := by
    intro e memE f memF other mem
    rw [word_eq memE] at mem
    rcases List.mem_cons.1 mem with marker | inTail
    · exact other marker
    · exact t.inner e memE f memF inTail
  have first := t.first
  have distinct := t.distinct
  revert absent first distinct
  generalize t.entries = entries
  intro absent first distinct
  cases entries with
  | nil => exact List.Pairwise.nil
  | cons d es =>
    have marker : d.1 = t.marker := Option.some.inj first
    obtain ⟨unique, -⟩ := List.nodup_cons.1 distinct
    have later : ∀ f ∈ es, f.1 ≠ t.marker := by
      intro f mem same
      rw [← marker] at same
      exact unique (same ▸ List.mem_map_of_mem mem)
    refine List.pairwise_cons.2 ⟨fun f mem => ?_, ?_⟩
    · exact absent d List.mem_cons_self f (List.mem_cons_of_mem d mem) (later f mem)
    · refine List.pairwise_of_forall_mem_list fun e memE f memF => ?_
      exact absent e (List.mem_cons_of_mem d memE) f (List.mem_cons_of_mem d memF) (later f memF)

/-- **The passes.** Replacing the symbols one kind after another is one substitution. -/
theorem replaceAll_eq_escape (t : Table α) (s : List α) : replaceAll t.entries s = t.escape s := by
  have symbols : replaceAll t.entries (s.flatMap fun x => [x]) = t.escape s := by
    rw [replaceAll_flatMap]
    exact List.flatMap_congr fun x _ => replaceAll_singleton t.ordered x
  rwa [List.flatMap_singleton'] at symbols

theorem escape_cons : t.escape (x :: s) = codeOf t.entries x ++ t.escape s := rfl

theorem entryAt_prefix (found : t.entryAt s = some e) : e ∈ t.entries ∧ e.2 <+: s := by
  unfold entryAt at found
  have begins := List.find?_some found
  exact ⟨List.mem_of_find?_eq_some found, of_decide_eq_true begins⟩

/-- A word at the front of a text is found, whatever follows it. -/
theorem entryAt_word (mem : e ∈ t.entries) : t.entryAt (e.2 ++ rest) = some e := by
  have there : (t.entryAt (e.2 ++ rest)).isSome := by
    rw [entryAt, List.find?_isSome]
    exact ⟨e, mem, decide_eq_true (List.prefix_append e.2 rest)⟩
  obtain ⟨f, found⟩ := Option.isSome_iff_exists.1 there
  obtain ⟨memF, begins⟩ := entryAt_prefix found
  rcases List.prefix_or_prefix_of_prefix begins (List.prefix_append e.2 rest) with sub | sub
  · rw [found, t.prefixFree f memF e mem sub]
  · rw [found, t.prefixFree e mem f memF sub]

theorem entryAt_of_ne (other : x ≠ t.marker) : t.entryAt (x :: rest) = none := by
  rw [entryAt, List.find?_eq_none]
  intro e mem begins
  have sub : e.2 <+: x :: rest := of_decide_eq_true begins
  rw [word_eq mem] at sub
  exact other (List.cons_prefix_cons.1 sub).1.symm

theorem unescapeFrom_length (t : Table α) (w rest : List α) :
    t.unescapeFrom w.length (w ++ rest) = t.unescapeFrom 0 rest := by
  induction w with
  | nil => rfl
  | cons _ w ih => exact ih

theorem unescape_word (mem : e ∈ t.entries) :
    t.unescape (e.2 ++ rest) = e.1 :: t.unescape rest := by
  have found : t.entryAt (e.2 ++ rest) = some e := entryAt_word mem
  have length : e.2.length - 1 = e.2.tail.length := List.length_tail.symm
  have cons := congrArg (· ++ rest) (word_eq mem)
  rw [cons, List.cons_append] at found ⊢
  rw [unescape, unescapeFrom, found]
  show e.1 :: t.unescapeFrom (e.2.length - 1) (e.2.tail ++ rest) = _
  rw [length, unescapeFrom_length]
  rfl

theorem unescape_of_ne (other : x ≠ t.marker) :
    t.unescape (x :: rest) = x :: t.unescape rest := by
  rw [unescape, unescapeFrom, entryAt_of_ne other]
  rfl

omit [DecidableEq α] in
theorem ne_marker (plain : ∀ e ∈ t.entries, e.1 ≠ x) : x ≠ t.marker := by
  obtain ⟨e, mem, key⟩ := t.marker_key
  exact fun same => plain e mem (key.trans same.symm)

/-- **The round trip.** Reading the words of the escaped text gives the text. -/
theorem unescape_escape (t : Table α) (s : List α) : t.unescape (t.escape s) = s := by
  induction s with
  | nil => rfl
  | cons x s ih =>
    rw [escape_cons]
    rcases codeOf_cases t.entries x with ⟨e, mem, key, code⟩ | ⟨plain, code⟩
    · rw [code, unescape_word mem, key, ih]
    · rw [code, List.singleton_append, unescape_of_ne (ne_marker plain), ih]

/-- Replaced symbols other than the marker do not occur in escaped text. -/
theorem not_mem_escape (mem : e ∈ t.entries) (other : e.1 ≠ t.marker) : e.1 ∉ t.escape s := by
  intro inText
  obtain ⟨x, -, inCode⟩ := List.mem_flatMap.1 inText
  rcases codeOf_cases t.entries x with ⟨f, memF, key, code⟩ | ⟨plain, code⟩
  · rw [code, word_eq memF] at inCode
    rcases List.mem_cons.1 inCode with marker | inTail
    · exact other marker
    · exact t.inner f memF e mem inTail
  · rw [code, List.mem_singleton] at inCode
    exact plain e mem inCode

/-- Every marker in escaped text begins a word. -/
theorem word_at_marker {before after : List α}
    (split : t.escape s = before ++ t.marker :: after) :
    ∃ e ∈ t.entries, e.2 <+: t.marker :: after := by
  induction s generalizing before with
  | nil => cases before <;> cases split
  | cons x s ih =>
    rw [escape_cons] at split
    rcases List.append_eq_append_iff.1 split with ⟨between, -, rest⟩ | ⟨later, code, rest⟩
    · exact ih rest
    · cases later with
      | nil =>
        have split : t.escape s = [] ++ t.marker :: after := rest.symm
        exact ih split
      | cons y later =>
        obtain ⟨rfl, rfl⟩ := List.cons.inj rest
        rcases codeOf_cases t.entries x with ⟨e, mem, key, word⟩ | ⟨plain, word⟩
        · rw [word] at code
          cases before with
          | nil =>
            refine ⟨e, mem, ?_⟩
            rw [code]
            exact List.cons_prefix_cons.2 ⟨rfl, List.prefix_append later (t.escape s)⟩
          | cons b before =>
            obtain ⟨d, memD, marker⟩ := t.marker_key
            have inTail : t.marker ∈ e.2.tail := by
              rw [code]
              exact List.mem_append_right before List.mem_cons_self
            exact absurd (marker ▸ inTail) (t.inner e mem d memD)
        · rw [word] at code
          have symbol : t.marker ∈ [x] := code ▸ List.mem_append_right before List.mem_cons_self
          exact absurd (List.mem_singleton.1 symbol).symm (ne_marker plain)

end Table
end SecurityAudits.Escape
