import SecurityAudits.Lib.Memory

/-!
# Writing behind a cursor

A C program that builds a text holds a pointer to where the next byte goes. `Writes f out room` says
of a piece of such a program that it writes `out` at the cursor and leaves the cursor behind it,
wherever there is room for `room` bytes; that is more than `out` where a terminator is stored too.

The rules are those of the single stores (`writes_put`, `writes_memcpy`, `writes_sprintf`), of a
sequence (`Writes.bind`) and of a loop (`writes_foldlM`). `Writes.run_alloc` takes the whole program to a
fresh allocation.
-/

namespace SecurityAudits.Writing
set_option autoImplicit false
open SecurityAudits.Memory

structure Cursor where
  base : Buffer UInt8
  dst : Nat

variable {d : Cursor} {n : Nat} {written out out' ys : List UInt8} {room room' : Nat}
  {f g : Cursor → Option Cursor}

/-- `*dst++ = c` -/
def put (c : UInt8) (d : Cursor) : Option Cursor :=
  (store d.base d.dst c).map fun base => ⟨base, d.dst + 1⟩

/-- `memcpy(dst, ys, len); dst += len` -/
def memcpy (ys : List UInt8) (d : Cursor) : Option Cursor :=
  (copy d.base d.dst (ys.map some)).map fun base => ⟨base, d.dst + ys.length⟩

/-- `dst += sprintf(dst, ..)`, where the text is `ys`: the terminator is stored, and then lies behind
the cursor. -/
def sprintf (ys : List UInt8) (d : Cursor) : Option Cursor :=
  (copy d.base d.dst ((ys ++ [0]).map some)).map fun base => ⟨base, d.dst + ys.length⟩

/-- The cursor is behind the bytes `written`, in a buffer of `n` cells. -/
structure Behind (n : Nat) (written : List UInt8) (d : Cursor) : Prop where
  size : d.base.length = n
  dst : d.dst = written.length
  holds : Holds d.base written

structure Writes (f : Cursor → Option Cursor) (out : List UInt8) (room : Nat) : Prop where
  length : out.length ≤ room
  run : ∀ {n : Nat} {written : List UInt8} {d : Cursor}, Behind n written d →
    written.length + room ≤ n → ∃ d', f d = some d' ∧ Behind n (written ++ out) d'

/-- The same text, and more room than is needed. -/
theorem Writes.widen (writes : Writes f out room) (same : out' = out) (le : room ≤ room') :
    Writes f out' room' := by
  subst same
  exact ⟨Nat.le_trans writes.length le,
    fun behind enough => writes.run behind (Nat.le_trans (Nat.add_le_add_left le _) enough)⟩

theorem writes_some : Writes some [] 0 :=
  ⟨Nat.le_refl 0, fun {_ _ d} behind _ => ⟨d, rfl, by rwa [List.append_nil]⟩⟩

theorem writes_put (c : UInt8) : Writes (put c) [c] 1 := by
  refine ⟨Nat.le_refl 1, fun {n written d} behind enough => ?_⟩
  obtain ⟨base, stored, size, holds⟩ := behind.holds.store c (by rw [behind.size]; exact enough)
  refine ⟨⟨base, d.dst + 1⟩, by rw [put, behind.dst, stored]; rfl, size.trans behind.size, ?_, holds⟩
  rw [List.length_append, behind.dst]
  rfl

theorem writes_memcpy (ys : List UInt8) : Writes (memcpy ys) ys ys.length := by
  refine ⟨Nat.le_refl _, fun {n written d} behind enough => ?_⟩
  obtain ⟨base, copied, size, holds⟩ := behind.holds.copy ys (by rw [behind.size]; exact enough)
  refine ⟨⟨base, d.dst + ys.length⟩, by rw [memcpy, behind.dst, copied]; rfl,
    size.trans behind.size, ?_, holds⟩
  rw [List.length_append, behind.dst]

theorem writes_sprintf (ys : List UInt8) : Writes (sprintf ys) ys (ys.length + 1) := by
  refine ⟨Nat.le_succ _, fun {n written d} behind enough => ?_⟩
  have length : (ys ++ [0]).length = ys.length + 1 := List.length_append
  obtain ⟨base, copied, size, holds⟩ :=
    behind.holds.copy (ys ++ [0]) (by rw [behind.size, length]; exact enough)
  refine ⟨⟨base, d.dst + ys.length⟩, by rw [sprintf, behind.dst, copied]; rfl,
    size.trans behind.size, ?_, ?_⟩
  · rw [List.length_append, behind.dst]
  · rw [← List.append_assoc] at holds
    exact holds.front

theorem Writes.bind (first : Writes f out room) (second : Writes g out' room')
    (le : room ≤ out.length + room') :
    Writes (fun d => (f d).bind g) (out ++ out') (out.length + room') := by
  constructor
  · rw [List.length_append]
    exact Nat.add_le_add_left second.length _
  · intro n written d behind enough
    obtain ⟨d₁, done₁, behind₁⟩ := first.run behind (by omega)
    obtain ⟨d₂, done₂, behind₂⟩ := second.run behind₁ (by rw [List.length_append]; omega)
    refine ⟨d₂, ?_, ?_⟩
    · rw [done₁]
      exact done₂
    · rwa [← List.append_assoc]

/-- The rule of a loop whose iterations each write the text of an item. -/
theorem writes_foldlM {β : Type} {body : Cursor → β → Option Cursor} {text : β → List UInt8}
    (step : ∀ b, Writes (fun d => body d b) (text b) (text b).length) (items : List β) :
    Writes (fun d => items.foldlM body d) (items.flatMap text) (items.flatMap text).length := by
  induction items with
  | nil => exact writes_some
  | cons b items ih =>
    have both := (step b).bind ih (Nat.le_add_right _ _)
    rw [List.flatMap_cons, List.length_append]
    exact both

theorem Writes.run_alloc (writes : Writes f out room) (le : room ≤ n) :
    ∃ d, f ⟨alloc n, 0⟩ = some d ∧ Behind n out d := by
  have start : Behind n [] ⟨alloc n, 0⟩ := ⟨length_alloc, rfl, holds_nil⟩
  obtain ⟨d, done, behind⟩ := writes.run start (by rw [List.length_nil, Nat.zero_add]; exact le)
  exact ⟨d, done, behind⟩

end SecurityAudits.Writing
