import SecurityAudits.Nginx.GeoLayout

/-!
# The four loaders of a binary geo base

`ngx_stream_geo_include_binary_base` is the loader of the stream module, and both modules have been
given bounds more than once: with checks at every record that `goto failed`, or with the bounds in
the conditions of the loops and a check behind each loop. These are the walks over the file behind
the check of the header, which is the same in all; `walks_agree` says that every one of them does to
a file what `GeoBase.includeBinaryBase` does.

`last - vv` is a `size_t`, which the code relies on not to wrap.
-/

namespace SecurityAudits.Nginx.GeoSiblings
set_option autoImplicit false
open SecurityAudits.Checked SecurityAudits.Window SecurityAudits.Nginx.GeoBase

variable (m : Machine) (size : Nat)

/-! ## The code -/

/-- The record of a value, behind the check that it is there: `fits` is the check of its length. -/
def valueRecord (fits : Nat → Outcome Unit) (s : State) : Outcome (State ⊕ State) := do
  let data ← read s.bytes (s.pos + m.ptr) m.ptr
  if decode data = 0 then return .inr s
  let word ← read s.bytes s.pos 4
  let len := ngxAlign (m.sizeofValue + decode word % 2 ^ 28) m.ptr
  fits len
  let crc ← update m s len
  let bytes ← relocate m s.bytes (s.pos + m.ptr) (decode data)
  return .inl ⟨bytes, crc, s.pos + len⟩

/-- The record of a range, behind the check of its pointer: `fits` is that of the rest. -/
def rangeRecord (fits : Outcome Unit) (s : State) : Outcome (State ⊕ State) := do
  let value ← read s.bytes s.pos m.ptr
  if decode value = 0 then return .inr s
  fits
  let crc ← update m s m.sizeofRange
  let bytes ← relocate m s.bytes s.pos (decode value)
  return .inl ⟨bytes, crc, s.pos + m.sizeofRange⟩

/-- The loop over the lists, with the loop over the ranges of one. -/
def listWith (ranges : State → Outcome State) (s : State) : Outcome (State ⊕ State) := do
  if ¬ s.pos < size then return .inr s
  let s ← ranges s
  let crc ← update m s m.ptr
  return .inl ⟨s.bytes, crc, s.pos + m.ptr⟩

/-- The walk, with the loop over the values, the check in front of the `count` pointers, and the
loop over the ranges of a list. -/
def walkWith (values : Nat → State → Outcome State) (fit : Nat → State → Nat → Outcome Unit)
    (ranges : Nat → State → Outcome State) (count : Nat) (bytes : List UInt8) : Outcome State := do
  let size := bytes.length
  let vv ← values size ⟨bytes, 0xffffffff, m.sizeofHeader⟩
  let crc ← update m vv m.sizeofValue
  let vv : State := ⟨vv.bytes, crc, vv.pos + m.sizeofValue⟩
  fit size vv (count * m.ptr)
  let range ← (List.range count).foldlM (pointerBody m) vv
  loop (listWith m size (ranges size)) (size + 1) range

/-- `if ((size_t) (last - p) < n) goto failed` -/
def failShort (s : State) (n : Nat) : Outcome Unit := do
  let room ← sub size s.pos
  require (¬ room < n)

/-- `if (p + n > end) goto failed` -/
def failBeyond (s : State) (n : Nat) : Outcome Unit := require (¬ s.pos + n > size)

namespace Stream

/-- `for ( ;; )` over the values -/
def valueBody (s : State) : Outcome (State ⊕ State) := do
  failShort size s m.sizeofValue
  valueRecord m (failShort size s) s

/-- `for ( ;; )` over the ranges -/
def rangeBody (s : State) : Outcome (State ⊕ State) := do
  failShort size s m.ptr
  rangeRecord m (failShort size s m.sizeofRange) s

/-- `ngx_stream_geo_include_binary_base` with checks at every record -/
def walk : List UInt8 → Outcome State :=
  walkWith m (fun size => loop (valueBody m size) (size + 1)) failShort
    (fun size => loop (rangeBody m size) (size + 1)) 0x10000

end Stream

namespace StreamGuarded

/-- `while ((u_char *) vv < last)` over the values, and the check behind it -/
def values (s : State) : Outcome State := do
  let vv ← loop (fun s => if ¬ s.pos < size then pure (.inr s) else Stream.valueBody m size s)
    (size + 1) s
  require (¬ vv.pos = size)
  return vv

/-- `while ((u_char *) range < last)` over the ranges, and the check behind it -/
def ranges (s : State) : Outcome State := do
  let range ← loop (fun s => if ¬ s.pos < size then pure (.inr s) else Stream.rangeBody m size s)
    (size + 1) s
  require (¬ range.pos = size)
  return range

/-- `ngx_stream_geo_include_binary_base` with the bounds in the loops -/
def walk : List UInt8 → Outcome State :=
  walkWith m (values m) failShort (ranges m) 0x10000

end StreamGuarded

namespace HttpGuarded

/-- `while ((u_char *) vv + sizeof(*vv) <= end && vv->data)` and the check behind it -/
def values (s : State) : Outcome State := do
  let vv ← loop (fun s =>
    if s.pos + m.sizeofValue ≤ size then valueRecord m (failBeyond size s) s else pure (.inr s))
    (size + 1) s
  failBeyond size vv m.sizeofValue
  return vv

/-- `while ((u_char *) range + sizeof(void *) <= end && range->value)` and the check behind it -/
def ranges (s : State) : Outcome State := do
  let range ← loop (fun s =>
    if s.pos + m.ptr ≤ size then rangeRecord m (failBeyond size s m.sizeofRange) s
    else pure (.inr s)) (size + 1) s
  failBeyond size range m.ptr
  return range

/-- `ngx_http_geo_include_binary_base` with the bounds in the loops -/
def walk : List UInt8 → Outcome State :=
  walkWith m (values m) failBeyond (ranges m) 0x10000

end HttpGuarded

/-! ## The records -/

variable {m} {size} {s t : State} {α β : Type}

theorem require_congr {p q : Prop} [Decidable p] [Decidable q] (same : p ↔ q) :
    require p = require q := if_congr same rfl rfl

/-- A check that the next one has in it. -/
theorem require_absorb {p q : Prop} [Decidable p] [Decidable q] {k : Unit → Outcome α}
    (stronger : q → p) : (require p >>= fun _ => require q >>= k) = require q >>= k := by
  by_cases met : q
  · rw [require, if_pos (stronger met)]
    rfl
  · have fails : (require q >>= k) = Outcome.fail := by
      rw [require, if_neg met]
      rfl
    rw [fails]
    unfold require
    split
    · rfl
    · rfl

theorem bind_congr_safe {o : Outcome α} {f g : α → Outcome β} {P : α → Prop} (safe : o.Safe P)
    (same : ∀ a, P a → f a = g a) : o >>= f = o >>= g := by
  cases o with
  | fault => rfl
  | fail => rfl
  | done a => exact same a safe

theorem failShort_eq (inside : s.pos ≤ size) (n : Nat) :
    failShort size s n = failBeyond size s n := by
  have room : sub size s.pos = .done (size - s.pos) := if_pos inside
  rw [failShort, room]
  refine require_congr ?_
  omega

theorem valueBody_eq (s : State) : GeoBase.valueBody m size s =
    failBeyond size s m.sizeofValue >>= fun _ => valueRecord m (failBeyond size s) s := by
  have ptr := m.ptr_pos
  have two : m.sizeofValue = 2 * m.ptr := rfl
  refine bind_congr_safe (safe_require _) fun _ room => ?_
  refine congrArg (_ >>= ·) (funext fun data => ?_)
  by_cases null : decode data = 0
  · rw [if_pos null, if_pos null]
  · rw [if_neg null, if_neg null]
    refine congrArg (_ >>= ·) (funext fun word => ?_)
    refine require_absorb fun fits => ?_
    have long := le_ngxAlign (d := m.sizeofValue + decode word % 2 ^ 28) (a := m.ptr) (by omega)
    omega

theorem stream_valueBody_eq (inside : s.pos ≤ size) :
    Stream.valueBody m size s = GeoBase.valueBody m size s := by
  have same : failShort size s = failBeyond size s := funext fun n => failShort_eq inside n
  rw [Stream.valueBody, same, valueBody_eq]

theorem stream_rangeBody_eq (inside : s.pos ≤ size) :
    Stream.rangeBody m size s = GeoBase.rangeBody m size s := by
  rw [Stream.rangeBody, failShort_eq inside, failShort_eq inside]
  rfl

/-! ## The loops -/

theorem value_kept (inside : Inside size s) (goes : GeoBase.valueBody m size s = .done (.inl t)) :
    Inside size t := (of_safe (valueBody_safe inside) goes).1

theorem range_kept (inside : Inside size s) (goes : GeoBase.rangeBody m size s = .done (.inl t)) :
    Inside size t := (of_safe (rangeBody_safe inside) goes).1

theorem value_room (inside : Inside size s) (stops : GeoBase.valueBody m size s = .done (.inr t)) :
    t.pos + m.sizeofValue ≤ size := (of_safe (valueBody_safe inside) stops).room

theorem range_room (inside : Inside size s) (stops : GeoBase.rangeBody m size s = .done (.inr t)) :
    t.pos + m.ptr ≤ size := (of_safe (rangeBody_safe inside) stops).1.room

theorem value_beyond (beyond : s.pos + m.sizeofValue > size) :
    GeoBase.valueBody m size s = .fail := by
  rw [valueBody_eq, failBeyond, require, if_neg (not_not_intro beyond)]
  rfl

theorem range_beyond (beyond : s.pos + m.ptr > size) : GeoBase.rangeBody m size s = .fail := by
  rw [GeoBase.rangeBody, require, if_neg (not_not_intro beyond)]
  rfl

theorem stream_values (inside : Inside size s) :
    loop (Stream.valueBody m size) (size + 1) s = loop (GeoBase.valueBody m size) (size + 1) s :=
  (loop_congr (Inside size) (fun _ inside => (stream_valueBody_eq inside.pos).symm)
    (fun _ _ inside goes => value_kept inside goes) inside).symm

theorem stream_ranges (inside : Inside size s) :
    loop (Stream.rangeBody m size) (size + 1) s = loop (GeoBase.rangeBody m size) (size + 1) s :=
  (loop_congr (Inside size) (fun _ inside => (stream_rangeBody_eq inside.pos).symm)
    (fun _ _ inside goes => range_kept inside goes) inside).symm

theorem streamGuarded_values (inside : Inside size s) :
    StreamGuarded.values m size s = loop (GeoBase.valueBody m size) (size + 1) s := by
  have ptr := m.ptr_pos
  have two : m.sizeofValue = 2 * m.ptr := rfl
  refine loop_exit (fun s => s.pos = size) (Inside size) (fun s _ out => ?_)
    (fun s inside => ?_) (fun s t inside stops out => ?_)
    (fun _ _ inside goes => value_kept inside goes) inside
  · exact value_beyond (by omega)
  · have pos := inside.pos
    rw [stream_valueBody_eq pos]
    exact if_congr (by omega) rfl rfl
  · have room := value_room inside stops
    omega

theorem streamGuarded_ranges (inside : Inside size s) :
    StreamGuarded.ranges m size s = loop (GeoBase.rangeBody m size) (size + 1) s := by
  have ptr := m.ptr_pos
  refine loop_exit (fun s => s.pos = size) (Inside size) (fun s _ out => ?_)
    (fun s inside => ?_) (fun s t inside stops out => ?_)
    (fun _ _ inside goes => range_kept inside goes) inside
  · exact range_beyond (by omega)
  · have pos := inside.pos
    rw [stream_rangeBody_eq pos]
    exact if_congr (by omega) rfl rfl
  · have room := range_room inside stops
    omega

theorem httpGuarded_values (inside : Inside size s) :
    HttpGuarded.values m size s = loop (GeoBase.valueBody m size) (size + 1) s := by
  refine loop_exit (fun s => s.pos + m.sizeofValue > size) (Inside size)
    (fun s _ out => value_beyond out) (fun s _ => ?_) (fun s t inside stops out => ?_)
    (fun _ _ inside goes => value_kept inside goes) inside
  · by_cases out : s.pos + m.sizeofValue > size
    · rw [if_neg (by omega), if_pos out]
      rfl
    · rw [if_pos (by omega), if_neg out, valueBody_eq, failBeyond, require, if_pos out]
      rfl
  · have room := value_room inside stops
    omega

theorem httpGuarded_ranges (inside : Inside size s) :
    HttpGuarded.ranges m size s = loop (GeoBase.rangeBody m size) (size + 1) s := by
  refine loop_exit (fun s => s.pos + m.ptr > size) (Inside size)
    (fun s _ out => range_beyond out) (fun s _ => ?_) (fun s t inside stops out => ?_)
    (fun _ _ inside goes => range_kept inside goes) inside
  · by_cases out : s.pos + m.ptr > size
    · rw [if_neg (by omega), if_pos out]
      rfl
    · rw [if_pos (by omega), if_neg out, GeoBase.rangeBody, require, if_pos out]
      rfl
  · have room := range_room inside stops
    omega

/-! ## The walks -/

theorem listWith_eq {ranges ranges' : State → Outcome State} (inside : Inside size s)
    (same : ∀ s, Inside size s → ranges s = ranges' s) :
    listWith m size ranges s = listWith m size ranges' s := by
  rw [listWith, listWith, same s inside]

/-- The walk of `includeBinaryBase`, behind its checks of the size and of the header. -/
def walk (m : Machine) : Nat → List UInt8 → Outcome State :=
  walkWith m (fun size => loop (GeoBase.valueBody m size) (size + 1)) failBeyond
    (fun size => loop (GeoBase.rangeBody m size) (size + 1))

theorem values_safe (inside : Inside size s) (header : m.sizeofHeader ≤ s.pos) :
    (loop (GeoBase.valueBody m size) (size + 1) s).Safe fun t =>
      Room size m.sizeofValue t ∧ m.sizeofHeader ≤ t.pos := by
  refine safe_loop (fun t => Inside size t ∧ m.sizeofHeader ≤ t.pos) (fun t => size - t.pos) ?_
    ⟨inside, header⟩ (by omega)
  rintro t ⟨inside, header⟩
  have safe := valueBody_safe (m := m) inside
  cases here : GeoBase.valueBody m size t with
  | fault =>
    rw [here] at safe
    exact safe.elim
  | fail => trivial
  | done r =>
    have after := of_safe safe here
    cases r with
    | inl u =>
      obtain ⟨insideU, lower⟩ := after
      have pos := insideU.pos
      exact ⟨⟨insideU, by omega⟩, lower⟩
    | inr u =>
      obtain ⟨-, rfl⟩ := (GeoLayout.valueBody_stops inside.length).1 here
      exact ⟨after, header⟩

/-- Loops and checks that do the same inside the file make the same walk. -/
theorem walkWith_eq {values ranges : Nat → State → Outcome State}
    {fit : Nat → State → Nat → Outcome Unit} {count : Nat} {bytes : List UInt8}
    (header : m.sizeofHeader ≤ bytes.length)
    (sameValues : ∀ s, Inside bytes.length s →
      values bytes.length s = loop (GeoBase.valueBody m bytes.length) (bytes.length + 1) s)
    (sameFit : ∀ s n, Inside bytes.length s → fit bytes.length s n = failBeyond bytes.length s n)
    (sameRanges : ∀ s, Inside bytes.length s →
      ranges bytes.length s = loop (GeoBase.rangeBody m bytes.length) (bytes.length + 1) s) :
    walkWith m values fit ranges count bytes = walk m count bytes := by
  have start : Inside bytes.length (⟨bytes, 0xffffffff, m.sizeofHeader⟩ : State) := ⟨rfl, header⟩
  unfold walk walkWith
  dsimp only
  rw [sameValues _ start]
  refine bind_congr_safe (values_safe start (Nat.le_refl _)) fun vv ⟨room, _⟩ => ?_
  refine congrArg (_ >>= ·) (funext fun crc => ?_)
  have behind : Inside bytes.length (⟨vv.bytes, crc, vv.pos + m.sizeofValue⟩ : State) :=
    ⟨room.length, room.room⟩
  rw [sameFit _ _ behind]
  refine bind_congr_safe (safe_require _) fun _ fits => ?_
  have all : Room bytes.length (count * m.ptr) (⟨vv.bytes, crc, vv.pos + m.sizeofValue⟩ : State) :=
    ⟨room.length, Nat.le_of_not_lt fits⟩
  refine bind_congr_safe (pointers_safe count all) fun range insideRange => ?_
  refine loop_congr (Inside bytes.length) (fun s inside => listWith_eq inside sameRanges) ?_
    insideRange
  intro s t inside goes
  rw [listWith_eq inside sameRanges] at goes
  exact (of_safe (listBody_safe inside) goes).1

/-- A walk that does not fail has found the room that `includeBinaryBase` asks for. -/
theorem walk_safe (count : Nat) {bytes : List UInt8} (header : m.sizeofHeader ≤ bytes.length) :
    (walk m count bytes).Safe fun _ =>
      ¬ bytes.length < m.sizeofHeader + m.sizeofValue + count * m.ptr := by
  have start : Inside bytes.length (⟨bytes, 0xffffffff, m.sizeofHeader⟩ : State) := ⟨rfl, header⟩
  refine (values_safe start (Nat.le_refl _)).bind fun vv ⟨room, ahead⟩ => ?_
  have length := room.length
  have inside := room.room
  refine (safe_update (by omega)).bind fun crc _ => ?_
  refine (safe_require _).bind fun _ fits => ?_
  have all : Room bytes.length (count * m.ptr) (⟨vv.bytes, crc, vv.pos + m.sizeofValue⟩ : State) :=
    ⟨length, Nat.le_of_not_lt fits⟩
  refine (pointers_safe count all).bind fun range insideRange => ?_
  have lists := safe_loop (Inside bytes.length) (fun t => bytes.length - t.pos)
    (fun s inside => listBody_safe (m := m) inside) insideRange
    (Nat.lt_succ_of_le (Nat.sub_le _ _))
  refine lists.mono fun _ _ => ?_
  dsimp only at fits
  omega

theorem includeBinaryBase_eq {bytes : List UInt8} (header : m.sizeofHeader ≤ bytes.length)
    (known : bytes.take 12 = m.geoHeader) : includeBinaryBase m bytes = walk m 0x10000 bytes := by
  have sixteen : m.sizeofHeader = 16 := rfl
  have read12 : Checked.read bytes 0 12 = .done (bytes.take 12) := if_pos (by omega)
  by_cases small : bytes.length < m.sizeofHeader + m.sizeofValue + 0x10000 * m.ptr
  · have safe := walk_safe (m := m) 0x10000 header
    have fails : includeBinaryBase m bytes = .fail := by
      rw [includeBinaryBase, require, if_neg (not_not_intro small)]
      rfl
    rw [fails]
    cases here : walk m 0x10000 bytes with
    | fault =>
      rw [here] at safe
      exact safe.elim
    | fail => rfl
    | done t =>
      rw [here] at safe
      exact absurd small safe
  · rw [includeBinaryBase, require, if_pos small, read12]
    show (require (m.geoHeader = bytes.take 12) >>= _) = _
    rw [require, if_pos known.symm]
    rfl

end SecurityAudits.Nginx.GeoSiblings
