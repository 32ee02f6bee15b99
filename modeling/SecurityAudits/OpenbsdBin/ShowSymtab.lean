import SecurityAudits.Lib.CString
import Mathlib.Data.List.Forall2

/-!
# The index of a SysV archive

`show_symtab` (`usr.bin/nm/nm.c`) prints the index that a SysV archive begins with: a count, as many
offsets of members, and as many names, each with its NUL. It has the member of the archive mapped and
walks the offsets and the names side by side. What it finds of the member at an offset comes from the
file, and is a parameter.

A pointer is the list of the bytes from where it points to the end of the mapping, so that a result says
that only these are read.
-/

namespace SecurityAudits.OpenbsdBin.ShowSymtab
set_option autoImplicit false
open SecurityAudits.CString

/-- `p + n` for a pointer to bytes, at most up to the end -/
def advance (p : List UInt8) (n : Nat) : Option (List UInt8) :=
  if n ≤ p.length then some (p.drop n) else none

/-- `betoh32(*ps)` -/
def betoh32 (ps : List UInt8) : Option Nat :=
  if 4 ≤ ps.length then some (bigEndian (ps.take 4)) else none

/-- `printf("%s in %s\n", strtab, p)` -/
structure Line where
  name : List UInt8
  member : List UInt8
  deriving DecidableEq

/-- The loop: what is printed, and `rval`. `member` is the name of the member whose header is at an
offset, none when it cannot be read or is no header. -/
def showEntries (member : Nat → Option (List UInt8)) :
    Nat → List UInt8 → List UInt8 → Option (List Line × Nat)
  | 0, _, _ => some ([], 0)
  | num + 1, ps, strtab => do
    match ← memchr strtab 0 strtab.length with
    | none => return ([], 1)
    | some eos =>
      match member (← betoh32 ps) with
      | none => return ([], 1)
      | some p => do
        let name ← strdup strtab
        let (lines, rval) ← showEntries member num (← advance ps 4) (← advance strtab (eos + 1))
        return (⟨name, p⟩ :: lines, rval)

/-- `show_symtab`, on the `len` bytes that are mapped -/
def showSymtab (member : Nat → Option (List UInt8)) (symtab : List UInt8) :
    Option (List Line × Nat) :=
  if symtab.length < 4 then some ([], 1)
  else do
    let num ← betoh32 symtab
    if num > (symtab.length - 4) / 4 then return ([], 1)
    showEntries member num (← advance symtab 4) (← advance symtab (4 * (num + 1)))

/-! ## The format -/

structure Entry where
  offset : List UInt8
  width : offset.length = 4
  name : CStr

def Entry.names (e : Entry) : List UInt8 := e.name.memory

/-- The bytes are an index of the entries, and something after it. -/
def Encodes (symtab : List UInt8) (index : List Entry) : Prop :=
  ∃ head pad : List UInt8, head.length = 4 ∧ bigEndian head = index.length ∧
    symtab = head ++ (index.flatMap Entry.offset ++ (index.flatMap Entry.names ++ pad))

/-- The line of an entry -/
def Entry.line (member : Nat → Option (List UInt8)) (e : Entry) : Option Line :=
  (member (bigEndian e.offset)).map fun p => ⟨e.name.chars, p⟩

/-- The lines up to the first entry whose member is not found, and whether that is before the end. -/
def shown (member : Nat → Option (List UInt8)) : List Entry → List Line × Nat
  | [] => ([], 0)
  | e :: index =>
    match e.line member with
    | none => ([], 1)
    | some line => (line :: (shown member index).1, (shown member index).2)

/-! ## The loop -/

variable {member : Nat → Option (List UInt8)} {ps strtab rest pad symtab : List UInt8} {e : Entry}
  {index : List Entry} {num : Nat}

theorem advance_append {p q : List UInt8} : advance (p ++ q) p.length = some q := by
  rw [advance, if_pos (by simp), List.drop_left]

/-- An iteration that finds an entry. -/
theorem showEntries_cons (width : rest = e.offset ++ ps) (names : strtab = e.names ++ pad) :
    showEntries member (num + 1) rest strtab =
      match e.line member with
      | none => some ([], 1)
      | some line =>
        (showEntries member num ps pad).map fun (lines, rval) => (line :: lines, rval) := by
  have name : strtab = e.name.chars ++ 0 :: pad := by
    rw [names, Entry.names, CStr.memory, List.append_assoc]
    rfl
  have found : memchr strtab 0 strtab.length = some (some e.name.chars.length) := by
    rw [name]
    exact memchr_found e.name.noNul (by simp)
  have here : betoh32 rest = some (bigEndian e.offset) := by
    rw [width, betoh32, if_pos (by rw [List.length_append, e.width]; omega), ← e.width, List.take_left]
  have next : advance rest 4 = some ps := by
    rw [width, ← e.width, advance_append]
  have behind : advance strtab (e.name.chars.length + 1) = some pad := by
    have length : e.name.chars.length + 1 = e.names.length := by
      rw [Entry.names, CStr.memory, List.length_append]
      rfl
    rw [length, names, advance_append]
  have chars : strdup strtab = some e.name.chars := by
    rw [name, strdup_terminated e.name.noNul]
  rw [showEntries, found, here, Entry.line]
  simp only [Option.bind_eq_bind, Option.bind_some]
  cases member (bigEndian e.offset) with
  | none => rfl
  | some p =>
    simp only [chars, next, behind, Option.map_some, Option.bind_some]
    cases showEntries member num ps pad <;> rfl

/-- The loop on an index. -/
theorem showEntries_index (index : List Entry) (rest pad : List UInt8) :
    showEntries member index.length (index.flatMap Entry.offset ++ rest)
      (index.flatMap Entry.names ++ pad) = some (shown member index) := by
  induction index with
  | nil => rfl
  | cons e index ih =>
    rw [List.length_cons, List.flatMap_cons, List.flatMap_cons, List.append_assoc, List.append_assoc,
      showEntries_cons rfl rfl, ih, shown]
    cases e.line member <;> rfl

/-- The loop on any bytes: it ends within them, and with 0 only on an index. -/
theorem showEntries_total (member : Nat → Option (List UInt8)) (num : Nat) (ps strtab : List UInt8)
    (room : 4 * num ≤ ps.length) :
    ∃ out, showEntries member num ps strtab = some out ∧
      (out.2 = 0 → ∃ (index : List Entry) (rest pad : List UInt8), index.length = num ∧
        ps = index.flatMap Entry.offset ++ rest ∧ strtab = index.flatMap Entry.names ++ pad) := by
  induction num generalizing ps strtab with
  | zero => exact ⟨_, rfl, fun _ => ⟨[], ps, strtab, rfl, rfl, rfl⟩⟩
  | succ num ih =>
    by_cases mem : (0 : UInt8) ∈ strtab
    · obtain ⟨s, behind, names, noNul⟩ := exists_first mem
      let e : Entry := ⟨ps.take 4, List.length_take_of_le (by omega), s, noNul⟩
      have width : ps = e.offset ++ ps.drop 4 := (List.take_append_drop 4 ps).symm
      have names' : strtab = e.names ++ behind := by
        rw [names, Entry.names, CStr.memory, List.append_assoc]
        rfl
      rw [showEntries_cons width names']
      cases e.line member with
      | none => exact ⟨_, rfl, nofun⟩
      | some line =>
        obtain ⟨out, done, encodes⟩ := ih (ps.drop 4) behind
          (by rw [List.length_drop]; omega)
        refine ⟨(line :: out.1, out.2), by simp only [done, Option.map_some], fun zero => ?_⟩
        obtain ⟨index, rest, pad, length, offsets, strings⟩ := encodes zero
        refine ⟨e :: index, rest, pad, by rw [List.length_cons, length], ?_, ?_⟩
        · rw [width, offsets, List.flatMap_cons, List.append_assoc]
        · rw [names', strings, List.flatMap_cons, List.append_assoc]
    · have absent : memchr strtab 0 strtab.length = some none :=
        memchr_absent (Nat.le_refl _) (by rwa [List.take_length])
      refine ⟨([], 1), ?_, nofun⟩
      rw [showEntries, absent]
      rfl

theorem length_offsets (index : List Entry) :
    (index.flatMap Entry.offset).length = 4 * index.length := by
  induction index with
  | nil => rfl
  | cons e index ih =>
    rw [List.flatMap_cons, List.length_append, e.width, ih, List.length_cons]
    omega

/-! ## `show_symtab` -/

/-- On bytes that begin with a count that fits -/
theorem showSymtab_eq {head body : List UInt8} (four : head.length = 4)
    (fits : 4 * bigEndian head ≤ body.length) :
    showSymtab member (head ++ body) =
      showEntries member (bigEndian head) body (body.drop (4 * bigEndian head)) := by
  have length : (head ++ body).length = 4 + body.length := by rw [List.length_append, four]
  have count : betoh32 (head ++ body) = some (bigEndian head) := by
    rw [betoh32, if_pos (by omega), ← four, List.take_left]
  have offsets : advance (head ++ body) 4 = some body := by rw [← four, advance_append]
  have names : advance (head ++ body) (4 * (bigEndian head + 1)) =
      some (body.drop (4 * bigEndian head)) := by
    have position : 4 * (bigEndian head + 1) = head.length + 4 * bigEndian head := by omega
    rw [advance, if_pos (by omega), position, ← List.drop_drop, List.drop_left]
  rw [showSymtab, if_neg (by omega), count]
  simp only [Option.bind_eq_bind, Option.bind_some]
  rw [if_neg (by rw [length]; omega), offsets, names]
  rfl

theorem showSymtab_index {index : List Entry} (encodes : Encodes symtab index) :
    showSymtab member symtab = some (shown member index) := by
  obtain ⟨head, pad, four, count, rfl⟩ := encodes
  have offsets := length_offsets index
  rw [showSymtab_eq four (by rw [count, List.length_append, offsets]; omega), count, ← offsets,
    List.drop_left, showEntries_index]

/-- It returns 0 just when every entry has been shown. -/
theorem shown_zero {index : List Entry} {lines : List Line} :
    shown member index = (lines, 0) ↔ index.mapM (Entry.line member) = some lines := by
  induction index generalizing lines with
  | nil => simp [shown, eq_comm]
  | cons e index ih =>
    rw [shown, List.mapM_cons]
    cases e.line member with
    | none => simp
    | some line =>
      simp only [Option.bind_eq_bind, Option.bind_some, Option.pure_def]
      constructor
      · intro same
        obtain ⟨rfl, zero⟩ := Prod.mk.inj same
        rw [ih.1 (Prod.ext rfl zero)]
        rfl
      · intro all
        cases rest : index.mapM (Entry.line member) with
        | none =>
          rw [rest] at all
          cases all
        | some lines' =>
          rw [rest] at all
          cases all
          rw [ih.2 rest]

/-- **The index that is printed is the one that is there.** On any bytes the walk stays in the mapping
and ends. It returns 0 just when the bytes are an index of which every member is found, and then the
lines are those of its entries, in order; on any index the lines are those of the entries before the
first whose member is not found. -/
theorem showSymtab_spec (member : Nat → Option (List UInt8)) (symtab : List UInt8) :
    (∃ out, showSymtab member symtab = some out) ∧
    (∀ lines, showSymtab member symtab = some (lines, 0) ↔
      ∃ index, Encodes symtab index ∧ index.mapM (Entry.line member) = some lines) ∧
    ∀ index, Encodes symtab index → showSymtab member symtab = some (shown member index) := by
  have total : ∃ out, showSymtab member symtab = some out ∧
      (out.2 = 0 → ∃ index, Encodes symtab index) := by
    by_cases short : symtab.length < 4
    · exact ⟨_, if_pos short, nofun⟩
    obtain ⟨head, body, rfl, four⟩ : ∃ head body, symtab = head ++ body ∧ head.length = 4 :=
      ⟨symtab.take 4, symtab.drop 4, (List.take_append_drop 4 symtab).symm,
        List.length_take_of_le (by omega)⟩
    by_cases fits : 4 * bigEndian head ≤ body.length
    · obtain ⟨out, done, encodes⟩ := showEntries_total member (bigEndian head) body
        (body.drop (4 * bigEndian head)) fits
      refine ⟨out, (showSymtab_eq four fits).trans done, fun zero => ?_⟩
      obtain ⟨index, rest, pad, length, offsets, names⟩ := encodes zero
      have same : body.drop (4 * bigEndian head) = rest := by
        rw [offsets, ← length, ← length_offsets, List.drop_left]
      exact ⟨index, head, pad, four, length.symm, by rw [← names, same, ← offsets]⟩
    · have count : betoh32 (head ++ body) = some (bigEndian head) := by
        rw [betoh32, if_pos (by omega), ← four, List.take_left]
      refine ⟨([], 1), ?_, nofun⟩
      rw [showSymtab, if_neg short, count]
      simp only [Option.bind_eq_bind, Option.bind_some]
      rw [if_pos (by rw [List.length_append, four]; omega)]
      rfl
  obtain ⟨out, done, encodes⟩ := total
  refine ⟨⟨out, done⟩, fun lines => ⟨fun zero => ?_, ?_⟩, fun index => showSymtab_index⟩
  · rw [done] at zero
    obtain rfl := Option.some.inj zero
    obtain ⟨index, here⟩ := encodes rfl
    refine ⟨index, here, shown_zero.1 (Option.some.inj ?_)⟩
    rw [← showSymtab_index here, done]
  · rintro ⟨index, here, all⟩
    rw [showSymtab_index here, shown_zero.2 all]

end SecurityAudits.OpenbsdBin.ShowSymtab
