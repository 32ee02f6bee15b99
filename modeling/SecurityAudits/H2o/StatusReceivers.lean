import Mathlib.Algebra.Order.Ring.Nat
import SecurityAudits.Lib.Memory

/-!
# The receivers of the status handler

`on_context_dispose` (`lib/handler/status.c`) removes the receiver of a context from
`self->receivers` by a `memmove` of the entries behind it. Pointers are counted in entries, the
length of a `memmove` in bytes: `size - i - 1` bytes move, where `sizeof(*entries)` times as many
are behind the receiver.

Memory is that of `Lib.Memory`, byte by byte. A pointer is `ptrSize` bytes.
-/

namespace SecurityAudits.H2o.StatusReceivers
set_option autoImplicit false

open Memory (Buffer move)

/-! ## The function -/

/-- The bytes of a pointer of `ptrSize` bytes. -/
abbrev Ptr (ptrSize : Nat) := { bytes : List UInt8 // bytes.length = ptrSize }

variable {ptrSize : Nat}

def cells (p : Ptr ptrSize) : Buffer UInt8 := p.val.map some

/-- `entries[i]`, if it is inside the memory -/
def entry (ptrSize : Nat) (memory : Buffer UInt8) (entries i : Nat) : Option (Buffer UInt8) :=
  if entries + ptrSize * (i + 1) ≤ memory.length then
    some ((memory.drop (entries + ptrSize * i)).take ptrSize)
  else none

/-- The loop at `i`, with `left` entries to go: the first entry that is `receiver`. It has no result
when there is none (the `assert`). -/
def find (memory : Buffer UInt8) (entries : Nat) (receiver : Ptr ptrSize) :
    (i left : Nat) → Option Nat
  | _, 0 => none
  | i, left + 1 => (entry ptrSize memory entries i).bind fun e =>
      if e = cells receiver then some i else find memory entries receiver (i + 1) left

/-- `on_context_dispose`: the memory and `receivers.size`. -/
def onContextDispose (memory : Buffer UInt8) (entries size : Nat) (receiver : Ptr ptrSize) :
    Option (Buffer UInt8 × Nat) :=
  (find memory entries receiver 0 size).bind fun i =>
    (move memory (entries + ptrSize * i) (entries + ptrSize * (i + 1)) (size - i - 1)).map
      fun memory => (memory, size - 1)

/-! ## Vectors in memory -/

/-- The bytes of a vector. -/
def vector (ps : List (Ptr ptrSize)) : Buffer UInt8 := ps.flatMap cells

variable {before after : Buffer UInt8} {p receiver : Ptr ptrSize} {ps xs ys : List (Ptr ptrSize)}

theorem length_cells (p : Ptr ptrSize) : (cells p).length = ptrSize := by
  rw [cells, List.length_map, p.property]

theorem cells_injective (same : cells p = cells receiver) : p = receiver :=
  Subtype.ext (List.map_injective_iff.2 (Option.some_injective _) same)

theorem vector_nil : vector ([] : List (Ptr ptrSize)) = [] := rfl

theorem vector_cons : vector (p :: ps) = cells p ++ vector ps := List.flatMap_cons

theorem vector_append : vector (xs ++ ys) = vector xs ++ vector ys := List.flatMap_append

theorem length_vector (ps : List (Ptr ptrSize)) : (vector ps).length = ptrSize * ps.length := by
  induction ps with
  | nil => rfl
  | cons p ps ih =>
    rw [vector_cons, List.length_append, length_cells, ih, List.length_cons, Nat.mul_succ,
      Nat.add_comm]

theorem entry_vector (ps : List (Ptr ptrSize)) :
    entry ptrSize (before ++ (vector xs ++ (vector (p :: ps) ++ after))) before.length xs.length =
      some (cells p) := by
  have front : (before ++ (vector xs ++ (vector (p :: ps) ++ after))).drop
      (before.length + ptrSize * xs.length) = vector (p :: ps) ++ after := by
    rw [← length_vector, ← List.drop_drop, List.drop_left, List.drop_left]
  have inside : before.length + ptrSize * (xs.length + 1) ≤
      (before ++ (vector xs ++ (vector (p :: ps) ++ after))).length := by
    rw [List.length_append, List.length_append, length_vector, vector_cons, List.append_assoc,
      List.length_append, length_cells, Nat.mul_succ]
    omega
  rw [entry, if_pos inside, front, vector_cons, List.append_assoc]
  exact congrArg some ((List.take_append_of_le_length (length_cells p).ge).trans
    (List.take_of_length_le (length_cells p).le))

/-- The loop finds the receiver behind entries that are not it. -/
theorem find_vector (done : List (Ptr ptrSize)) (first : receiver ∉ xs) :
    find (before ++ (vector done ++ (vector (xs ++ receiver :: ys) ++ after))) before.length
      receiver done.length (xs ++ receiver :: ys).length = some (done.length + xs.length) := by
  induction xs generalizing done with
  | nil =>
    rw [List.nil_append, List.length_cons, find, entry_vector, Option.bind_some, if_pos rfl]
    rfl
  | cons p xs ih =>
    have other : cells p ≠ cells receiver := fun same =>
      first (cells_injective same ▸ List.mem_cons_self)
    have moved : vector done ++ (vector (p :: xs ++ receiver :: ys) ++ after) =
        vector (done ++ [p]) ++ (vector (xs ++ receiver :: ys) ++ after) := by
      simp only [List.cons_append, vector_append, vector_cons, vector_nil, List.append_assoc,
        List.nil_append]
    have rest := ih (done ++ [p]) fun mem => first (List.mem_cons_of_mem p mem)
    rw [List.length_append, List.length_singleton] at rest
    rw [List.cons_append, List.length_cons, find, entry_vector, Option.bind_some, if_neg other,
      ← List.cons_append, moved, rest, List.length_cons]
    congr 1
    omega

/-! ## The removal -/

/-- The receiver and the entries behind it, after `n` bytes of these have moved over it. -/
def moved (receiver : Ptr ptrSize) (ys : List (Ptr ptrSize)) (n : Nat) : Buffer UInt8 :=
  (vector ys).take n ++ (vector (receiver :: ys)).drop n

/-- What the function does: as many bytes move as there are entries behind the receiver. -/
theorem onContextDispose_eq (ptr : 0 < ptrSize) (first : receiver ∉ xs) :
    onContextDispose (before ++ (vector (xs ++ receiver :: ys) ++ after)) before.length
        (xs ++ receiver :: ys).length receiver =
      some (before ++ (vector xs ++ moved receiver ys ys.length) ++ after, (xs ++ ys).length) := by
  have found := @find_vector ptrSize before after receiver xs ys [] first
  rw [vector_nil, List.nil_append, List.length_nil, Nat.zero_add] at found
  have inside : ptrSize + ys.length ≤ (vector (receiver :: ys)).length := by
    have bytes : ys.length ≤ ptrSize * ys.length := Nat.le_mul_of_pos_left _ ptr
    rw [length_vector, List.length_cons, Nat.mul_succ]
    omega
  have behind : (vector (receiver :: ys)).drop ptrSize = vector ys := by
    rw [vector_cons, List.drop_left' (length_cells receiver)]
  have shifted := Memory.move_window (before ++ vector xs) (vector (receiver :: ys)) after inside
  rw [behind, List.length_append, length_vector] at shifted
  have count : (xs ++ receiver :: ys).length - xs.length - 1 = ys.length := by
    rw [List.length_append, List.length_cons]
    omega
  have fewer : (xs ++ receiver :: ys).length - 1 = (xs ++ ys).length := by
    rw [List.length_append, List.length_append, List.length_cons]
    omega
  have split : before ++ (vector (xs ++ receiver :: ys) ++ after) =
      before ++ vector xs ++ (vector (receiver :: ys) ++ after) := by
    rw [vector_append, List.append_assoc, List.append_assoc]
  rw [onContextDispose, found, Option.bind_some, count, fewer, split, Nat.mul_succ,
    ← Nat.add_assoc, shifted, moved]
  simp only [Option.map_some, List.append_assoc]

theorem length_moved (ptr : 0 < ptrSize) :
    (moved receiver ys ys.length).length = (vector (receiver :: ys)).length := by
  have fewer : ys.length ≤ ptrSize * ys.length := Nat.le_mul_of_pos_left _ ptr
  rw [moved, List.length_append, List.length_take, List.length_drop, length_vector, length_vector,
    List.length_cons, Nat.mul_succ]
  omega

/-- The beginning of `target` in front of the rest of `source` is `target` when it is the same as
`source` from there on. -/
theorem take_append_eq_iff {α : Type} {target source : List α} {n : Nat}
    (fewer : n ≤ target.length) :
    (target.take n ++ source.drop n).take target.length = target ↔
      ∀ k, n ≤ k → k < target.length → source[k]? = target[k]? := by
  have front : (target.take n).length = n := List.length_take_of_le fewer
  have read (k : Nat) (behind : n ≤ k) : (target.take n ++ source.drop n)[k]? = source[k]? := by
    rw [List.getElem?_append_right (front.symm ▸ behind), front, List.getElem?_drop,
      Nat.add_sub_cancel' behind]
  constructor
  · intro same k behind inside
    rw [← read k behind, ← List.getElem?_take_of_lt inside, same]
  · intro same
    refine List.ext_getElem? fun k => ?_
    by_cases inside : k < target.length
    · rw [List.getElem?_take_of_lt inside]
      by_cases behind : n ≤ k
      · rw [read k behind, same k behind inside]
      · rw [List.getElem?_append_left (front.symm ▸ Nat.lt_of_not_le behind),
          List.getElem?_take_of_lt (Nat.lt_of_not_le behind)]
    · have outside := Nat.le_of_not_lt inside
      rw [List.getElem?_eq_none ((List.length_take_le _ _).trans outside),
        List.getElem?_eq_none outside]

/-- **The removal of a receiver.** Nothing changes outside the vector, and the size is one less. The
first entries are the others, in their order, exactly when of the bytes from the receiver on those
that have not moved, from the one whose number is that of the entries behind the receiver, are the
same as the byte a pointer further. -/
theorem onContextDispose_iff (ptr : 0 < ptrSize) (before after : Buffer UInt8)
    (xs ys : List (Ptr ptrSize)) (receiver : Ptr ptrSize) (first : receiver ∉ xs) :
    ∃ stored, stored.length = (vector (xs ++ receiver :: ys)).length ∧
      onContextDispose (before ++ (vector (xs ++ receiver :: ys) ++ after)) before.length
          (xs ++ receiver :: ys).length receiver =
        some (before ++ stored ++ after, (xs ++ ys).length) ∧
      (vector (xs ++ ys) <+: stored ↔ ∀ k, ys.length ≤ k → k < ptrSize * ys.length →
        (vector (receiver :: ys))[k]? = (vector (receiver :: ys))[k + ptrSize]?) := by
  refine ⟨vector xs ++ moved receiver ys ys.length, ?_, onContextDispose_eq ptr first, ?_⟩
  · rw [vector_append, List.length_append, List.length_append, length_moved ptr]
  · have fewer : ys.length ≤ (vector ys).length := by
      rw [length_vector]
      exact Nat.le_mul_of_pos_left _ ptr
    have further (k : Nat) : (vector (receiver :: ys))[k + ptrSize]? = (vector ys)[k]? := by
      rw [vector_cons, List.getElem?_append_right ((length_cells receiver).le.trans (by omega)),
        length_cells, Nat.add_sub_cancel]
    rw [vector_append, List.prefix_append_right_inj, List.prefix_iff_eq_take, eq_comm, moved,
      take_append_eq_iff fewer, length_vector]
    simp only [further]

/-- Eight bytes, the lowest first: a pointer of a 64-bit machine. -/
def ptr64 (low second : UInt8) : Ptr 8 := ⟨[low, second, 0, 0, 0, 0, 0, 0], rfl⟩

/-- Of the receivers at `0x1000` and at `0x2000` the second is removed. -/
theorem onContextDispose_last : ∃ stored,
    onContextDispose (vector [ptr64 0 0x10, ptr64 0 0x20]) 0 2 (ptr64 0 0x20) = some (stored, 1) ∧
      vector [ptr64 0 0x10] <+: stored := by
  obtain ⟨stored, -, returns, others⟩ :=
    onContextDispose_iff (by decide) [] [] [ptr64 0 0x10] [] (ptr64 0 0x20) (by decide)
  rw [List.append_nil, List.append_nil] at returns
  exact ⟨stored, returns, others.2 fun k _ inside => absurd inside (Nat.not_lt_zero k)⟩

/-- The first is removed: one byte moves, and the entry that stays is still the first. -/
theorem onContextDispose_keeps_disposed : ¬ ∃ stored,
    onContextDispose (vector [ptr64 0 0x10, ptr64 0 0x20]) 0 2 (ptr64 0 0x10) = some (stored, 1) ∧
      vector [ptr64 0 0x20] <+: stored := by
  rintro ⟨stored, returns, others⟩
  have same : onContextDispose (vector [ptr64 0 0x10, ptr64 0 0x20]) 0 2 (ptr64 0 0x10) =
      some (vector [ptr64 0 0x10, ptr64 0 0x20], 1) := by decide
  rw [same] at returns
  cases returns
  exact absurd others (by decide)

end SecurityAudits.H2o.StatusReceivers
