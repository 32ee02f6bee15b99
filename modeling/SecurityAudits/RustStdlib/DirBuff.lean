import SecurityAudits.Lib.Checked

/-!
# Directory entries on Windows

`DirBuffIter` (`library/std/src/sys/fs/windows.rs`) goes over the entries that a file system driver
has written to a buffer. Each begins with its header, which holds the distance to the next entry and
the length of the name; the name is behind the header. Neither number can be trusted.

The slice that the iterator is left with is given by where it starts in the buffer. `nextBody` is one
entry: `next` calls itself for the names that it passes over.
-/

namespace SecurityAudits.RustStdlib.DirBuff
set_option autoImplicit false
open SecurityAudits.Checked

/-- `FILE_ID_BOTH_DIR_INFO`: where the fields are that are read, which are all before `FileName`. -/
structure Layout where
  nextEntryOffset : Nat
  fileNameLength : Nat
  fileAttributes : Nat
  fileName : Nat
  next_before : nextEntryOffset + 4 ≤ fileName
  length_before : fileNameLength + 4 ≤ fileName
  attributes_before : fileAttributes + 4 ≤ fileName

/-- What `next` yields, with the entry that it is from. -/
structure Item where
  entry : Nat
  entryLen : Nat
  length : Nat
  name : List UInt8
  isDirectory : Bool
  deriving DecidableEq, Repr

variable (l : Layout) (skipped : List UInt8 → Bool) (bytes : List UInt8)

/-- `read_unaligned` of a 32-bit field of the header. -/
def readField (start offset : Nat) : Outcome Nat := do
  return decode (← read bytes (start + offset) 4)

/-- `&buffer[n..]`, which panics when there are fewer bytes. -/
def sliceFrom (start n : Nat) : Outcome Nat :=
  if start + n ≤ bytes.length then .done (start + n) else .fault

/-- What `self.buffer` is behind an entry. -/
def advance (start nextEntry : Nat) : Outcome (Option Nat) :=
  if nextEntry = 0 then return none else return some (← sliceFrom bytes start nextEntry)

/-- `next` up to where it returns or calls itself. `start` is where `self.buffer` starts, if it is
`Some`. -/
def nextBody : Option Nat → Outcome (Option Nat ⊕ (Option Item × Option Nat))
  | none => return .inr (none, none)
  | some start => do
    let len := bytes.length - start
    if len < l.fileName then return .inr (none, none)
    let nextEntry ← readField bytes start l.nextEntryOffset
    let length ← readField bytes start l.fileNameLength
    let entryLen := if nextEntry = 0 then len else nextEntry
    if entryLen > len ∨ entryLen < l.fileName ∨ length % 2 ≠ 0 ∨ length > entryLen - l.fileName then
      return .inr (none, none)
    let attrs ← readField bytes start l.fileAttributes
    let name ← read bytes (start + l.fileName) length
    let rest ← advance bytes start nextEntry
    if skipped name then return .inl rest
    return .inr (some ⟨start, entryLen, length, name, attrs.testBit 4⟩, rest)

/-- `DirBuffIter::next`, with the slice that is left. -/
def next (s : Option Nat) : Outcome (Option Item × Option Nat) :=
  loop (nextBody l skipped bytes) (bytes.length + 2) s

def collectBody (s : List Item × Option Nat) : Outcome ((List Item × Option Nat) ⊕ List Item) := do
  match ← next l skipped bytes s.2 with
  | (none, _) => return .inr s.1
  | (some item, rest) => return .inl (s.1 ++ [item], rest)

/-- The iteration over a buffer: `next` until it yields nothing. -/
def collect : Outcome (List Item) :=
  loop (collectBody l skipped bytes) (bytes.length + 2) ([], some 0)

/-! ## Bounds -/

/-- The value of a field of the header at `start`. -/
def field (start offset : Nat) : Nat := decode ((bytes.drop (start + offset)).take 4)

/-- The entry is in the buffer, and the name, of whole UTF-16 units, in its entry. The entry reaches
to the next one, or to the end of the buffer. -/
structure Item.Valid (item : Item) : Prop where
  extent : item.entryLen = if field bytes item.entry l.nextEntryOffset = 0 then
    bytes.length - item.entry else field bytes item.entry l.nextEntryOffset
  length : item.length = field bytes item.entry l.fileNameLength
  entry : item.entry + item.entryLen ≤ bytes.length
  inEntry : l.fileName + item.length ≤ item.entryLen
  even : item.length % 2 = 0
  name : item.name = (bytes.drop (item.entry + l.fileName)).take item.length

/-- The entry of one item ends before that of another begins. -/
def Item.Before (item later : Item) : Prop := item.entry + item.entryLen ≤ later.entry

/-- A slice of the buffer. -/
def Slice (s : Option Nat) : Prop := ∀ start, s = some start → start ≤ bytes.length

/-- The slice begins at `p` or behind it. -/
def From (p : Nat) (s : Option Nat) : Prop := ∀ start, s = some start → p ≤ start

/-- How many bytes there are to come: a slice that is left counts one more. -/
def left (s : Option Nat) : Nat := s.elim 0 fun start => bytes.length - start + 1

/-- An item, and the slice that is left, of the slice from `start` on. -/
structure Yielded (start : Nat) (item : Item) (rest : Option Nat) : Prop where
  valid : item.Valid l bytes
  ahead : start ≤ item.entry
  slice : Slice bytes rest
  behind : From (item.entry + item.entryLen) rest

/-- What `next` returns. -/
def Returned (s : Option Nat) (r : Option Item × Option Nat) : Prop :=
  ∀ item, r.1 = some item → ∃ start, s = some start ∧ Yielded l bytes start item r.2

variable {l skipped bytes} {s rest : Option Nat} {start : Nat}

theorem readField_safe {offset : Nat} (inside : start + offset + 4 ≤ bytes.length) :
    (readField bytes start offset).Safe fun n => n = field bytes start offset :=
  (safe_read inside).bind fun _ same => congrArg decode same

theorem slice_none : Slice bytes none := fun _ same => by cases same

theorem slice_some (le : start ≤ bytes.length) : Slice bytes (some start) := by
  rintro _ ⟨⟩
  exact le

theorem left_lt (lt : start < bytes.length) (slice : Slice bytes rest)
    (behind : From (start + 1) rest) : left bytes rest < left bytes (some start) := by
  cases rest with
  | none => exact Nat.succ_pos _
  | some start' =>
    have inside := slice start' rfl
    have further := behind start' rfl
    show bytes.length - start' + 1 < bytes.length - start + 1
    omega

theorem returned_none : Returned l bytes s (none, rest) := fun _ same => by cases same

theorem advance_safe {nextEntry entryLen : Nat} (inside : start + entryLen ≤ bytes.length)
    (same : nextEntry ≠ 0 → entryLen = nextEntry) :
    (advance bytes start nextEntry).Safe fun rest =>
      Slice bytes rest ∧ From (start + entryLen) rest := by
  by_cases last : nextEntry = 0
  · rw [advance, if_pos last]
    exact ⟨slice_none, fun _ same => (by cases same)⟩
  · rw [advance, if_neg last, ← same last, sliceFrom, if_pos inside]
    refine ⟨slice_some inside, ?_⟩
    rintro _ ⟨⟩
    exact Nat.le_refl _

/-- One entry: it is passed over, or yielded, or the iteration ends. -/
theorem nextBody_safe (slice : Slice bytes s) :
    (nextBody l skipped bytes s).Safe (Sum.elim
      (fun rest => (Slice bytes rest ∧ ∀ p, From p s → From p rest) ∧ left bytes rest < left bytes s)
      (Returned l bytes s)) := by
  cases s with
  | none => exact returned_none
  | some start =>
    have inside := slice start rfl
    have nextBefore := l.next_before
    have lengthBefore := l.length_before
    have attributesBefore := l.attributes_before
    unfold nextBody
    dsimp only
    split
    · exact returned_none
    refine (readField_safe (by omega)).bind fun nextEntry isNext => ?_
    refine (readField_safe (by omega)).bind fun length isLength => ?_
    obtain ⟨entryLen, chosen⟩ : ∃ n, n = if nextEntry = 0 then bytes.length - start else nextEntry :=
      ⟨_, rfl⟩
    rw [← chosen]
    split
    · exact returned_none
    rename_i accepted
    obtain ⟨fits, header, even, name⟩ : entryLen ≤ bytes.length - start ∧ l.fileName ≤ entryLen ∧
      length % 2 = 0 ∧ length ≤ entryLen - l.fileName := by omega
    refine (readField_safe (by omega)).bind fun attrs _ => ?_
    refine (safe_read (by omega)).bind fun bytes' isName => ?_
    have same : nextEntry ≠ 0 → entryLen = nextEntry := fun other => by rw [chosen, if_neg other]
    refine (advance_safe (by omega) same).bind fun rest after => ?_
    obtain ⟨sliceRest, behind⟩ := after
    split
    · refine ⟨⟨sliceRest, fun p first r here => ?_⟩, left_lt (by omega) sliceRest fun r here => ?_⟩
      · have from' := behind r here
        have first' := first start rfl
        omega
      · have from' := behind r here
        omega
    · rintro _ ⟨⟩
      rw [isNext] at chosen
      exact ⟨start, rfl, ⟨chosen, isLength, by dsimp only; omega, by dsimp only; omega, even,
        isName⟩, Nat.le_refl _, sliceRest, behind⟩

theorem left_le (slice : Slice bytes s) : left bytes s < bytes.length + 2 := by
  cases s with
  | none => exact Nat.succ_pos _
  | some start =>
    show bytes.length - start + 1 < bytes.length + 2
    omega

theorem next_safe (slice : Slice bytes s) :
    (next l skipped bytes s).Safe (Returned l bytes s) := by
  refine safe_loop (fun t => Slice bytes t ∧ ∀ p, From p s → From p t) (left bytes) ?_
    ⟨slice, fun _ first => first⟩ (left_le slice)
  rintro t ⟨sliceT, further⟩
  refine (nextBody_safe sliceT).mono fun r after => ?_
  cases r with
  | inl rest =>
    obtain ⟨⟨sliceRest, ahead⟩, lower⟩ := after
    exact ⟨⟨sliceRest, fun p first => ahead p (further p first)⟩, lower⟩
  | inr r =>
    intro item isItem
    obtain ⟨start, rfl, yielded⟩ := after item isItem
    cases s with
    | none =>
      have beyond := further (start + 1) (fun _ same => by cases same) start rfl
      omega
    | some first =>
      have ahead := further first (fun p same => by cases same; exact Nat.le_refl _) start rfl
      exact ⟨first, rfl, yielded.valid, Nat.le_trans ahead yielded.ahead, yielded.slice,
        yielded.behind⟩

/-- The iteration over a buffer so far. -/
structure Collected (l : Layout) (bytes : List UInt8) (c : List Item × Option Nat) : Prop where
  valid : ∀ item ∈ c.1, item.Valid l bytes
  ordered : c.1.Pairwise Item.Before
  slice : Slice bytes c.2
  ahead : ∀ item ∈ c.1, From (item.entry + item.entryLen) c.2

theorem collected_start : Collected l bytes ([], some 0) :=
  ⟨fun _ member => (by cases member), List.Pairwise.nil, slice_some (Nat.zero_le _),
    fun _ member => (by cases member)⟩

theorem Collected.snoc {items : List Item} {item : Item}
    (collected : Collected l bytes (items, some start))
    (yielded : Yielded l bytes start item rest) : Collected l bytes (items ++ [item], rest) := by
  have ordered : ∀ earlier ∈ items, earlier.Before item := fun earlier member =>
    Nat.le_trans (collected.ahead earlier member start rfl) yielded.ahead
  refine ⟨fun it member => ?_, ?_, yielded.slice, fun it member => ?_⟩
  · rcases List.mem_append.1 member with old | new
    · exact collected.valid it old
    · rw [List.mem_singleton.1 new]
      exact yielded.valid
  · refine List.pairwise_append.2 ⟨collected.ordered, List.pairwise_singleton _ _, ?_⟩
    intro earlier member later new
    rw [List.mem_singleton.1 new]
    exact ordered earlier member
  · rcases List.mem_append.1 member with old | new
    · intro start' here
      have before : it.entry + it.entryLen ≤ item.entry := ordered it old
      have behind := yielded.behind start' here
      omega
    · rw [List.mem_singleton.1 new]
      exact yielded.behind

theorem collectBody_safe {c : List Item × Option Nat} (collected : Collected l bytes c) :
    (collectBody l skipped bytes c).Safe (Sum.elim
      (fun d => Collected l bytes d ∧ left bytes d.2 < left bytes c.2)
      fun items => (∀ item ∈ items, item.Valid l bytes) ∧ items.Pairwise Item.Before) := by
  obtain ⟨items, s⟩ := c
  refine (next_safe collected.slice).bind fun r returned => ?_
  obtain ⟨found, rest⟩ := r
  cases found with
  | none => exact ⟨collected.valid, collected.ordered⟩
  | some item =>
    obtain ⟨start, rfl, yielded⟩ := returned item rfl
    have header := yielded.valid.inEntry
    have entry := yielded.valid.entry
    have before := l.next_before
    have ahead := yielded.ahead
    refine ⟨collected.snoc yielded, left_lt (by omega) yielded.slice fun r here => ?_⟩
    have behind := yielded.behind r here
    omega

/-- **Whatever a driver has written, no name leaves its entry.** The iteration reads inside the
buffer only and ends. Each name that it yields is a whole number of UTF-16 units of one entry, which
lies in the buffer before the entries of the later names. -/
theorem collect_safe (l : Layout) (skipped : List UInt8 → Bool) (bytes : List UInt8) :
    (collect l skipped bytes).Safe fun items =>
      (∀ item ∈ items, item.Valid l bytes) ∧ items.Pairwise Item.Before := by
  have slice : Slice bytes (some 0) := slice_some (Nat.zero_le _)
  exact safe_loop (Collected l bytes) (fun c => left bytes c.2)
    (fun c collected => collectBody_safe collected) collected_start (left_le slice)

end SecurityAudits.RustStdlib.DirBuff
