import Mathlib.Data.List.Infix

/-!
# Fixed-size buffers

The memory of a C array: a fixed number of cells, each of them unset or with a value. A store
outside the cells has no result, so a program that has one stores in range only.

What a program knows of a buffer is the values in its first cells (`Holds`). The rules say how
that grows: by a store right behind them, by `memcpy` to there, and by a `realloc`, which
keeps them.
-/

namespace SecurityAudits.Memory
set_option autoImplicit false

variable {α : Type}

/-- A cell is `none` until it is written. -/
abbrev Buffer (α : Type) := List (Option α)

/-- `n` cells of fresh memory. -/
def alloc (n : Nat) : Buffer α := List.replicate n none

/-- `b[i] = v`. -/
def store (b : Buffer α) (i : Nat) (v : α) : Option (Buffer α) :=
  if i < b.length then some (b.set i (some v)) else none

/-- `realloc` to `n` cells. -/
def grow (b : Buffer α) (n : Nat) : Buffer α := b.take n ++ alloc (n - b.length)

/-- `memcpy` of `cells` to `b + off`. -/
def copy (b : Buffer α) (off : Nat) (cells : List (Option α)) : Option (Buffer α) :=
  if off + cells.length ≤ b.length then
    some (b.take off ++ cells ++ b.drop (off + cells.length))
  else none

/-- `memmove` of `n` cells from `b + src` to `b + dst`. -/
def move (b : Buffer α) (dst src n : Nat) : Option (Buffer α) :=
  if src + n ≤ b.length then copy b dst ((b.drop src).take n) else none

/-- The C string at `b + start`: the bytes before the first NUL. -/
def string (b : Buffer UInt8) (start : Nat) : List UInt8 :=
  ((b.drop start).takeWhile fun c => c != some 0).filterMap id

/-- The first cells of `b` hold the values `xs`. -/
def Holds (b : Buffer α) (xs : List α) : Prop := xs.map some <+: b

variable {b : Buffer α} {xs : List α} {n : Nat}

@[simp] theorem length_alloc : (alloc n : Buffer α).length = n := List.length_replicate

theorem holds_nil : Holds b [] := List.nil_prefix

theorem Holds.length_le (holds : Holds b xs) : xs.length ≤ b.length := by
  simpa using List.IsPrefix.length_le holds

theorem Holds.take (holds : Holds b xs) : b.take xs.length = xs.map some := by
  obtain ⟨slack, rfl⟩ := holds
  simp

theorem store_append (before after : Buffer α) (old : Option α) (v : α) :
    store (before ++ old :: after) before.length v = some (before ++ some v :: after) := by
  rw [store, if_pos (by simp), List.set_append_right _ _ (Nat.le_refl _), Nat.sub_self,
    List.set_cons_zero]

/-- Of the values held the last is read. -/
theorem Holds.last {v : α} (holds : Holds b (xs ++ [v])) : b[xs.length]? = some (some v) := by
  obtain ⟨slack, rfl⟩ := holds
  simp

theorem Holds.front {ys : List α} (holds : Holds b (xs ++ ys)) : Holds b xs := by
  obtain ⟨slack, rfl⟩ := holds
  exact ⟨ys.map some ++ slack, by simp⟩

/-- The rule of a store right behind the values held. -/
theorem Holds.store (holds : Holds b xs) (v : α) (room : xs.length < b.length) :
    ∃ b', store b xs.length v = some b' ∧ b'.length = b.length ∧ Holds b' (xs ++ [v]) := by
  obtain ⟨slack, rfl⟩ := holds
  cases slack with
  | nil => simp at room
  | cons old slack =>
    have stored := store_append (xs.map some) slack old v
    rw [List.length_map] at stored
    exact ⟨_, stored, by simp, ⟨slack, by simp⟩⟩

theorem Holds.store_two (holds : Holds b xs) (v w : α) (room : xs.length + 1 < b.length) :
    ∃ b', (Memory.store b xs.length v).bind (Memory.store · (xs.length + 1) w) = some b' ∧
      b'.length = b.length ∧ Holds b' (xs ++ [v, w]) := by
  obtain ⟨one, storedOne, sizeOne, heldOne⟩ := holds.store v (by omega)
  obtain ⟨two, storedTwo, sizeTwo, heldTwo⟩ :=
    heldOne.store w (by rw [sizeOne, List.length_append]; exact room)
  rw [List.length_append] at storedTwo
  exact ⟨two, by rw [storedOne]; exact storedTwo, sizeTwo.trans sizeOne, by simpa using heldTwo⟩

theorem Holds.grow (holds : Holds b xs) (le : b.length ≤ n) :
    Holds (grow b n) xs ∧ (grow b n).length = n := by
  obtain ⟨slack, rfl⟩ := holds
  refine ⟨⟨slack ++ alloc (n - (xs.map some ++ slack).length), ?_⟩, ?_⟩
  · rw [Memory.grow, List.take_of_length_le le, List.append_assoc]
  · rw [Memory.grow, List.take_of_length_le le, List.length_append, length_alloc]
    omega

/-- The rule of `memcpy` of `ys` right behind the values held. -/
theorem Holds.copy (holds : Holds b xs) (ys : List α) (room : xs.length + ys.length ≤ b.length) :
    ∃ b', copy b xs.length (ys.map some) = some b' ∧ b'.length = b.length ∧
      Holds b' (xs ++ ys) := by
  refine ⟨_, if_pos (by simpa using room), ?_, ?_⟩
  · simp
    omega
  · rw [holds.take]
    exact ⟨_, by rw [List.map_append]⟩

/-- The rule of `memmove` to the beginning of a buffer. -/
theorem Holds.move (xs : List α) {ys : List α} (holds : Holds b (xs ++ ys)) :
    ∃ b', move b 0 xs.length ys.length = some b' ∧ b'.length = b.length ∧ Holds b' ys := by
  have room := holds.length_le
  rw [List.length_append] at room
  have source : (b.drop xs.length).take ys.length = ys.map some := by
    obtain ⟨slack, rfl⟩ := holds
    simp
  obtain ⟨b', copied, size, held⟩ := (holds_nil (b := b)).copy ys (by rw [List.length_nil]; omega)
  exact ⟨b', by rw [Memory.move, if_pos room, source]; exact copied, size, held⟩

/-- The rule of `memmove` to the beginning of a window: nothing changes around it. -/
theorem move_window (before window after : Buffer α) {src : Nat}
    (inside : src + n ≤ window.length) :
    move (before ++ (window ++ after)) before.length (before.length + src) n =
      some (before ++ ((window.drop src).take n ++ window.drop n ++ after)) := by
  have source : ((before ++ (window ++ after)).drop (before.length + src)).take n =
      (window.drop src).take n := by
    rw [← List.drop_drop, List.drop_left, List.drop_append_of_le_length (by omega),
      List.take_append_of_le_length (by rw [List.length_drop]; omega)]
  have length : ((window.drop src).take n).length = n := by
    rw [List.length_take, List.length_drop]
    omega
  have room : before.length + src + n ≤ (before ++ (window ++ after)).length := by
    rw [List.length_append, List.length_append]
    omega
  rw [Memory.move, if_pos room, source, Memory.copy, length, if_pos (by omega), List.take_left,
    ← List.drop_drop, List.drop_left, List.drop_append_of_le_length (by omega)]
  simp only [List.append_assoc]

/-- The rule of `memmove` of a window to `up` cells further on: the cells that it leaves keep what
they had. -/
theorem move_up (before window after : Buffer α) {up : Nat} (room : up ≤ after.length) :
    move (before ++ (window ++ after)) (before.length + up) before.length window.length =
      some (before ++ ((window ++ after).take up ++ (window ++ after.drop up))) := by
  have source : ((before ++ (window ++ after)).drop before.length).take window.length = window := by
    rw [List.drop_left, List.take_left]
  have front : (before ++ (window ++ after)).take (before.length + up) =
      before ++ (window ++ after).take up := List.take_length_add_append up
  have back : (before ++ (window ++ after)).drop (before.length + up + window.length) =
      after.drop up := by
    rw [Nat.add_assoc, List.drop_length_add_append, Nat.add_comm, List.drop_length_add_append]
  have size : (before ++ (window ++ after)).length =
      before.length + (window.length + after.length) := by
    rw [List.length_append, List.length_append]
  rw [Memory.move, if_pos (by omega), source, Memory.copy, if_pos (by omega), front, back]
  simp only [List.append_assoc]

/-- The string that ends with the first NUL of `xs` or, if it has none, with the terminator. -/
theorem string_terminated (before after : Buffer UInt8) (xs : List UInt8) :
    string (before ++ (xs.map some ++ some 0 :: after)) before.length
      = xs.takeWhile (· != 0) := by
  rw [string, List.drop_left]
  induction xs with
  | nil => simp
  | cons x xs ih =>
    by_cases zero : x = 0
    · simp [zero]
    · simp only [List.map_cons, List.cons_append]
      rw [List.takeWhile_cons_of_pos (by simpa using zero),
        List.takeWhile_cons_of_pos (by simpa using zero),
        List.filterMap_cons_some (f := id) rfl, ih]

theorem Holds.string {b : Buffer UInt8} {xs : List UInt8} (holds : Holds b (xs ++ [0])) :
    string b 0 = xs.takeWhile (· != 0) := by
  obtain ⟨slack, rfl⟩ := holds
  have whole := string_terminated [] slack xs
  simpa using whole

end SecurityAudits.Memory
