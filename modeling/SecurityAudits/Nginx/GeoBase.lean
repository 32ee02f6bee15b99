import Mathlib.Algebra.Order.Ring.Nat
import SecurityAudits.Lib.Checked

/-!
# The binary geo base

`ngx_http_geo_include_binary_base` (`src/http/modules/ngx_http_geo_module.c`) loads a file whose
pointers are offsets into it, and relocates them in place: first the values of variables, up to one
without data, then 0x10000 pointers to lists of ranges, then the lists, each up to a null pointer.

A position is the distance of a pointer from `base`. The bytes are read and written through checked
accesses, and each loop has as much fuel as there are bytes, so that a result other than `fault`
says that all accesses are inside and that the loops end.
-/

namespace SecurityAudits.Nginx.GeoBase
set_option autoImplicit false
open SecurityAudits.Checked

/-- The machine that the file is for, which is little-endian: the size of a pointer, where the file is
in memory, and the functions and the data of nginx that are used. -/
structure Machine where
  ptr : Nat
  isPtr : ptr = 4 ∨ ptr = 8
  base : Nat
  geoHeader : List UInt8
  crc32Update : UInt32 → List UInt8 → UInt32

namespace Machine

/-- `sizeof(ngx_http_geo_header_t)` -/
def sizeofHeader (_ : Machine) : Nat := 16

/-- `sizeof(ngx_http_variable_value_t)`: 32 bits with `len` in the lowest 28 of them, and the pointer
`data`, aligned. -/
def sizeofValue (m : Machine) : Nat := 2 * m.ptr

/-- `sizeof(ngx_http_geo_range_t)`: the pointer `value` and two 16-bit numbers, padded. -/
def sizeofRange (m : Machine) : Nat := 2 * m.ptr

end Machine

/-- `ngx_align(d, a)` -/
def ngxAlign (d a : Nat) : Nat := (d + (a - 1)) / a * a

/-- The bytes of the file, the checksum so far, and the pointer that moves over the file: `vv`,
`ranges` or `range`. -/
structure State where
  bytes : List UInt8
  crc : UInt32
  pos : Nat

variable (m : Machine) (size : Nat)

/-- `p += base`, for the pointer `p` at the position `at'`. -/
def relocate (bytes : List UInt8) (at' pointer : Nat) : Outcome (List UInt8) :=
  write bytes at' (encode m.ptr (pointer + m.base))

/-- `ngx_crc32_update` over the next `len` bytes. -/
def update (s : State) (len : Nat) : Outcome UInt32 := do
  let bytes ← read s.bytes s.pos len
  return m.crc32Update s.crc bytes

/-- The loop over the values of variables. -/
def valueBody (s : State) : Outcome (State ⊕ State) := do
  require (¬ s.pos + m.sizeofValue > size)
  let data ← read s.bytes (s.pos + m.ptr) m.ptr
  if decode data = 0 then return .inr s
  let word ← read s.bytes s.pos 4
  let vvLen := decode word % 2 ^ 28
  require (¬ vvLen > size - s.pos - m.sizeofValue)
  let len := ngxAlign (m.sizeofValue + vvLen) m.ptr
  require (¬ s.pos + len > size)
  let crc ← update m s len
  let bytes ← relocate m s.bytes (s.pos + m.ptr) (decode data)
  return .inl ⟨bytes, crc, s.pos + len⟩

/-- `ranges[i]`, where `s.pos` is `&ranges[i]`. -/
def pointerBody (s : State) (_ : Nat) : Outcome State := do
  let crc ← update m s m.ptr
  let pointer ← read s.bytes s.pos m.ptr
  if decode pointer = 0 then return ⟨s.bytes, crc, s.pos + m.ptr⟩
  let bytes ← relocate m s.bytes s.pos (decode pointer)
  return ⟨bytes, crc, s.pos + m.ptr⟩

/-- The loop over the ranges of a list. -/
def rangeBody (s : State) : Outcome (State ⊕ State) := do
  require (¬ s.pos + m.ptr > size)
  let value ← read s.bytes s.pos m.ptr
  if decode value = 0 then return .inr s
  require (¬ s.pos + m.sizeofRange > size)
  let crc ← update m s m.sizeofRange
  let bytes ← relocate m s.bytes s.pos (decode value)
  return .inl ⟨bytes, crc, s.pos + m.sizeofRange⟩

/-- The loop over the lists: `while ((u_char *) range < last)`. -/
def listBody (s : State) : Outcome (State ⊕ State) := do
  if ¬ s.pos < size then return .inr s
  let s ← loop (rangeBody m size) (size + 1) s
  let crc ← update m s m.ptr
  return .inl ⟨s.bytes, crc, s.pos + m.ptr⟩

/-- What follows the values: `count` pointers to lists, and the lists. -/
def relocateRanges (count : Nat) (s : State) : Outcome State := do
  require (¬ s.pos + count * m.ptr > size)
  let range ← (List.range count).foldlM (pointerBody m) s
  loop (listBody m size) (size + 1) range

/-- `ngx_http_geo_include_binary_base` from the check of the size on, up to the end of the walk over
the file. `fail` is `goto invalid`. -/
def includeBinaryBase (bytes : List UInt8) : Outcome State := do
  let size := bytes.length
  require (¬ size < m.sizeofHeader + m.sizeofValue + 0x10000 * m.ptr)
  let header ← read bytes 0 12
  require (m.geoHeader = header)
  let vv ← loop (valueBody m size) (size + 1) ⟨bytes, 0xffffffff, m.sizeofHeader⟩
  let crc ← update m vv m.sizeofValue
  relocateRanges m size 0x10000 ⟨vv.bytes, crc, vv.pos + m.sizeofValue⟩

/-! ## Bounds -/

variable {m size} {s : State}

theorem Machine.ptr_pos : 4 ≤ m.ptr := by
  rcases m.isPtr with four | eight <;> omega

theorem le_ngxAlign {d a : Nat} (pos : 0 < a) : d ≤ ngxAlign d a := by
  have rest := Nat.lt_div_mul_add (a := d + (a - 1)) pos
  rw [ngxAlign]
  omega

theorem safe_update {len : Nat} (inside : s.pos + len ≤ s.bytes.length) :
    (update m s len).Safe fun _ => True :=
  (safe_read inside).bind fun _ _ => trivial

theorem safe_relocate {bytes : List UInt8} {start : Nat} (pointer : Nat)
    (inside : start + m.ptr ≤ bytes.length) :
    (relocate m bytes start pointer).Safe fun bytes' => bytes'.length = bytes.length :=
  safe_write (by rw [length_encode]; exact inside)

/-- The pointer is in the file or at its end. -/
structure Inside (size : Nat) (s : State) : Prop where
  length : s.bytes.length = size
  pos : s.pos ≤ size

/-- There are `n` more bytes at the pointer. -/
structure Room (size n : Nat) (s : State) : Prop where
  length : s.bytes.length = size
  room : s.pos + n ≤ size

theorem Room.inside {n : Nat} (room : Room size n s) : Inside size s :=
  ⟨room.length, Nat.le_of_add_right_le room.room⟩

theorem valueBody_safe (inside : Inside size s) :
    (valueBody m size s).Safe (Sum.elim (fun t => Inside size t ∧ size - t.pos < size - s.pos)
      (Room size m.sizeofValue)) := by
  obtain ⟨length, pos⟩ := inside
  have ptr := m.ptr_pos
  refine (safe_require _).bind fun _ room => ?_
  have two : m.sizeofValue = 2 * m.ptr := rfl
  refine (safe_read (by omega)).bind fun data _ => ?_
  split
  · exact ⟨length, by omega⟩
  refine (safe_read (by omega)).bind fun word _ => ?_
  refine (safe_require _).bind fun _ fits => ?_
  refine (safe_require _).bind fun _ aligned => ?_
  have atLeast := le_ngxAlign (d := m.sizeofValue + decode word % 2 ^ 28) (a := m.ptr) (by omega)
  refine (safe_update (by omega)).bind fun crc _ => ?_
  refine (safe_relocate _ (by omega)).bind fun bytes kept => ?_
  exact ⟨⟨kept.trans length, by dsimp only; omega⟩, by dsimp only; omega⟩

theorem pointerBody_safe (i : Nat) (rest : List Nat)
    (room : Room size ((i :: rest).length * m.ptr) s) :
    (pointerBody m s i).Safe (Room size (rest.length * m.ptr)) := by
  obtain ⟨length, room⟩ := room
  rw [List.length_cons, Nat.succ_mul] at room
  refine (safe_update (by omega)).bind fun crc _ => ?_
  refine (safe_read (by omega)).bind fun pointer _ => ?_
  split
  · exact ⟨length, by dsimp only; omega⟩
  refine (safe_relocate _ (by omega)).bind fun bytes kept => ?_
  exact ⟨kept.trans length, by dsimp only; omega⟩

theorem pointers_safe (n : Nat) (room : Room size (n * m.ptr) s) :
    ((List.range n).foldlM (pointerBody m) s).Safe (Inside size) := by
  have start : Room size ((List.range n).length * m.ptr) s := by rwa [List.length_range]
  have walked := safe_foldlM (fun items t => Room size (items.length * m.ptr) t)
    (fun i rest s room => pointerBody_safe i rest room) start
  exact walked.mono fun t room => room.inside

theorem rangeBody_safe (inside : Inside size s) :
    (rangeBody m size s).Safe (Sum.elim (fun t => Inside size t ∧ size - t.pos < size - s.pos)
      fun t => Room size m.ptr t ∧ t.pos = s.pos) := by
  obtain ⟨length, pos⟩ := inside
  have ptr := m.ptr_pos
  have two : m.sizeofRange = 2 * m.ptr := rfl
  refine (safe_require _).bind fun _ room => ?_
  refine (safe_read (by omega)).bind fun value _ => ?_
  split
  · exact ⟨⟨length, by omega⟩, rfl⟩
  refine (safe_require _).bind fun _ whole => ?_
  refine (safe_update (by omega)).bind fun crc _ => ?_
  refine (safe_relocate _ (by omega)).bind fun bytes kept => ?_
  exact ⟨⟨kept.trans length, by dsimp only; omega⟩, by dsimp only; omega⟩

/-- The walk over a list: it does not go back. -/
theorem list_safe (inside : Inside size s) :
    (loop (rangeBody m size) (size + 1) s).Safe fun t => Room size m.ptr t ∧ s.pos ≤ t.pos := by
  refine safe_loop (fun t => Inside size t ∧ s.pos ≤ t.pos) (fun t => size - t.pos) ?_
    ⟨inside, Nat.le_refl _⟩ (by omega)
  rintro t ⟨insideT, ahead⟩
  refine (rangeBody_safe insideT).mono fun r after => ?_
  cases r with
  | inl u =>
    obtain ⟨insideU, lower⟩ := after
    exact ⟨⟨insideU, by omega⟩, lower⟩
  | inr u =>
    obtain ⟨room, here⟩ := after
    exact ⟨room, by omega⟩

theorem listBody_safe (inside : Inside size s) :
    (listBody m size s).Safe (Sum.elim (fun t => Inside size t ∧ size - t.pos < size - s.pos)
      fun t => t.bytes.length = size ∧ t.pos = size) := by
  have ptr := m.ptr_pos
  have pos := inside.pos
  unfold listBody
  split
  · exact ⟨inside.length, by omega⟩
  refine (list_safe inside).bind fun t after => ?_
  obtain ⟨⟨length, room⟩, ahead⟩ := after
  refine (safe_update (by omega)).bind fun crc _ => ?_
  exact ⟨⟨length, by dsimp only; omega⟩, by dsimp only; omega⟩

theorem relocateRanges_safe (count : Nat) (inside : Inside size s) :
    (relocateRanges m size count s).Safe fun t => t.bytes.length = size ∧ t.pos = size := by
  refine (safe_require _).bind fun _ pointers => ?_
  have all : Room size (count * m.ptr) s := ⟨inside.length, by omega⟩
  refine (pointers_safe count all).bind fun range insideRange => ?_
  exact safe_loop (Inside size) (fun t => size - t.pos) (fun s inside => listBody_safe inside)
    insideRange (by omega)

/-- **The loader stays inside the file.** For every content of the file, all reads and all writes
are to bytes of it and every loop ends. A file that is not refused has been walked to its last
byte. -/
theorem includeBinaryBase_safe (m : Machine) (bytes : List UInt8) :
    (includeBinaryBase m bytes).Safe fun t =>
      t.bytes.length = bytes.length ∧ t.pos = bytes.length := by
  have ptr := m.ptr_pos
  have header : m.sizeofHeader = 16 := rfl
  refine (safe_require _).bind fun _ enough => ?_
  refine (safe_read (by omega)).bind fun _ _ => ?_
  refine (safe_require _).bind fun _ _ => ?_
  have values : (loop (valueBody m bytes.length) (bytes.length + 1)
      ⟨bytes, 0xffffffff, m.sizeofHeader⟩).Safe (Room bytes.length m.sizeofValue) :=
    safe_loop (Inside bytes.length) (fun t => bytes.length - t.pos)
      (fun s inside => valueBody_safe inside) ⟨rfl, by dsimp only; omega⟩ (by omega)
  refine values.bind fun vv terminator => ?_
  have length := terminator.length
  have room := terminator.room
  refine (safe_update (by omega)).bind fun crc _ => ?_
  exact relocateRanges_safe 0x10000 ⟨length, room⟩

end SecurityAudits.Nginx.GeoBase
