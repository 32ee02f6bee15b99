import SecurityAudits.Lib.Window
import SecurityAudits.Nginx.GeoBase

/-!
# What the binary geo base is, and what loading makes of it

A file is a header, values that each have a pointer to their data, a value without, 0x10000 pointers
to lists, and the lists of ranges, each up to a null pointer. `Base` says so with the bytes of every
part, and `includeBinaryBase_layout` that the loader of `GeoBase` accepts these files and no others,
that it adds `base` to every pointer other than a null pointer and to nothing else, and that its
checksum is that of the file behind the header as it was, wherever that has been mapped.
-/

namespace SecurityAudits.Nginx.GeoLayout
set_option autoImplicit false
open SecurityAudits.Checked SecurityAudits.Window SecurityAudits.Nginx.GeoBase

variable (m : Machine)

/-- A pointer after the relocation. -/
def rebase (pointer : List UInt8) : List UInt8 :=
  if decode pointer = 0 then pointer else encode m.ptr (decode pointer + m.base)

/-- A value: the bytes up to its pointer, the first four with the length in them, its pointer, and
its text with the padding. -/
structure Value where
  word : List UInt8
  data : List UInt8
  text : List UInt8

namespace Value

def bytes (v : Value) : List UInt8 := v.word ++ (v.data ++ v.text)

def rebased (v : Value) : Value := { v with data := rebase m v.data }

structure Fits (v : Value) : Prop where
  word : v.word.length = m.ptr
  data : v.data.length = m.ptr
  pointer : decode v.data ≠ 0
  whole : v.bytes.length = ngxAlign (m.sizeofValue + decode (v.word.take 4) % 2 ^ 28) m.ptr

end Value

/-- A range: the pointer to its value, and its two numbers with the padding. -/
structure Range where
  value : List UInt8
  numbers : List UInt8

namespace Range

def bytes (r : Range) : List UInt8 := r.value ++ r.numbers

def rebased (r : Range) : Range := { r with value := rebase m r.value }

structure Fits (r : Range) : Prop where
  value : r.value.length = m.ptr
  numbers : r.numbers.length = m.ptr
  pointer : decode r.value ≠ 0

end Range

/-- The bytes of a null pointer. -/
structure Null (pointer : List UInt8) : Prop where
  length : pointer.length = m.ptr
  zero : decode pointer = 0

/-- A list of ranges, and the null pointer behind it. -/
structure Ranges where
  ranges : List Range
  null : List UInt8

namespace Ranges

def bytes (l : Ranges) : List UInt8 := l.ranges.flatMap Range.bytes ++ l.null

def rebased (l : Ranges) : Ranges := { l with ranges := l.ranges.map (Range.rebased m) }

structure Fits (l : Ranges) : Prop where
  ranges : ∀ r ∈ l.ranges, r.Fits m
  null : Null m l.null

end Ranges

structure Base where
  header : List UInt8
  values : List Value
  /-- the first bytes of the value without data -/
  word : List UInt8
  null : List UInt8
  pointers : List (List UInt8)
  lists : List Ranges

namespace Base

/-- What is behind the header. -/
def body (b : Base) : List UInt8 :=
  b.values.flatMap Value.bytes ++
    ((b.word ++ b.null) ++ (b.pointers.flatten ++ b.lists.flatMap Ranges.bytes))

def bytes (b : Base) : List UInt8 := b.header ++ b.body

def rebased (b : Base) : Base :=
  { b with
    values := b.values.map (Value.rebased m)
    pointers := b.pointers.map (rebase m)
    lists := b.lists.map (Ranges.rebased m) }

structure Fits (b : Base) : Prop where
  header : b.header.length = m.sizeofHeader
  geoHeader : b.header.take 12 = m.geoHeader
  values : ∀ v ∈ b.values, v.Fits m
  word : b.word.length = m.ptr
  null : Null m b.null
  count : b.pointers.length = 0x10000
  pointers : ∀ p ∈ b.pointers, p.length = m.ptr
  lists : ∀ l ∈ b.lists, l.Fits m

end Base

/-- The checksum of a text is that of its parts, one after the other. -/
structure Streams (update : UInt32 → List UInt8 → UInt32) : Prop where
  nil : ∀ crc, update crc [] = crc
  append : ∀ crc a b, update (update crc a) b = update crc (a ++ b)

/-! ## Going over the file -/

/-- The loader goes from `s` over `old`, sums it up and leaves `new` in its place. -/
structure Goes (s : State) (old new : List UInt8) (t : State) : Prop where
  put : Replaced s.bytes s.pos old new t.bytes
  length : new.length = old.length
  pos : t.pos = s.pos + old.length
  crc : t.crc = m.crc32Update s.crc old

variable {m} {s t : State} {a b c d old new : List UInt8} {size : Nat}

theorem Goes.kept (goes : Goes m s old new t) : t.bytes.length = s.bytes.length :=
  goes.put.length goes.length

theorem Goes.inside (goes : Goes m s old new t) : t.pos ≤ t.bytes.length := by
  have inside := goes.put.at.inside
  rw [goes.kept, goes.pos]
  exact inside

theorem goes_nil (streams : Streams m.crc32Update) (inside : s.pos ≤ s.bytes.length) :
    Goes m s [] [] s :=
  ⟨(at_nil inside).same, rfl, rfl, (streams.nil s.crc).symm⟩

theorem eq_of_goes {u : State} (goes : Goes m s old new t) (goes' : Goes m s old new u) :
    t = u := by
  have bytes := goes.put.unique goes'.put
  have pos := goes.pos.trans goes'.pos.symm
  have crc := goes.crc.trans goes'.crc.symm
  cases t
  cases u
  exact (State.mk.injEq ..).mpr ⟨bytes, crc, pos⟩

theorem eq_of_goes_nil (streams : Streams m.crc32Update) (goes : Goes m s [] [] t) : t = s :=
  eq_of_goes goes (goes_nil streams (Nat.le_of_add_right_le goes.put.at.inside))

/-- What is gone over up to the end is all that there is. -/
theorem Goes.to_end (goes : Goes m s old new t) (ends : s.bytes.length ≤ t.pos) :
    ∃ before, s.bytes = before ++ old ∧ before.length = s.pos := by
  have pos := goes.pos
  obtain ⟨before, behind, file, -, place⟩ := goes.put
  have length := congrArg List.length file
  rw [List.length_append, List.length_append] at length
  obtain rfl : behind = [] := List.eq_nil_of_length_eq_zero (by omega)
  exact ⟨before, by rw [file, List.append_nil], place⟩

theorem at_take (n : Nat) : At (a ++ b) 0 (a.take n) :=
  ⟨[], a.drop n ++ b, by rw [List.nil_append, ← List.append_assoc, List.take_append_drop], rfl⟩

theorem goes_append (streams : Streams m.crc32Update) (same : b.length = a.length) :
    Goes m s (a ++ c) (b ++ d) t ↔ ∃ u, Goes m s a b u ∧ Goes m u c d t := by
  constructor
  · intro goes
    obtain ⟨text, first, second⟩ := goes.put.split same
    have length := goes.length
    have pos := goes.pos
    rw [List.length_append, List.length_append] at length
    rw [List.length_append] at pos
    refine ⟨⟨text, m.crc32Update s.crc a, s.pos + a.length⟩, ⟨first, same, rfl, rfl⟩, second,
      ?_, ?_, ?_⟩
    · omega
    · dsimp only
      omega
    · rw [goes.crc, streams.append]
  · rintro ⟨u, first, second⟩
    have put := second.put
    rw [first.pos] at put
    refine ⟨first.put.append same put, ?_, ?_, ?_⟩
    · rw [List.length_append, List.length_append, first.length, second.length]
    · rw [second.pos, first.pos, List.length_append, Nat.add_assoc]
    · rw [second.crc, first.crc, streams.append]

/-- A loop over records that each are gone over as `goes` says, up to where `Stop` says. -/
theorem ends_iff {R : Type} {bytes new : R → List UInt8} {Fits : R → Prop} {Stop : State → Prop}
    {body : State → Outcome (State ⊕ State)} (streams : Streams m.crc32Update)
    (same : ∀ r, Fits r → (new r).length = (bytes r).length)
    (goes : ∀ s t, s.bytes.length = size → s.pos ≤ size →
      (body s = .done (.inl t) ↔ ∃ r, Fits r ∧ Goes m s (bytes r) (new r) t))
    (stops : ∀ s t, s.bytes.length = size → s.pos ≤ size →
      (body s = .done (.inr t) ↔ Stop s ∧ t = s))
    (length : s.bytes.length = size) (inside : s.pos ≤ size) :
    Ends body s t ↔ ∃ rs : List R, (∀ r ∈ rs, Fits r) ∧
      Goes m s (rs.flatMap bytes) (rs.flatMap new) t ∧ Stop t := by
  constructor
  · intro ends
    induction ends with
    | last ends =>
      obtain ⟨stop, rfl⟩ := (stops _ _ length inside).1 ends
      exact ⟨[], List.forall_mem_nil _, goes_nil streams (length ▸ inside), stop⟩
    | next here later ih =>
      obtain ⟨r, fits, first⟩ := (goes _ _ length inside).1 here
      have size := first.kept.trans length
      obtain ⟨rs, all, rest, stop⟩ := ih size (size ▸ first.inside)
      refine ⟨r :: rs, List.forall_mem_cons.2 ⟨fits, all⟩, ?_, stop⟩
      exact (goes_append streams (same r fits)).2 ⟨_, first, rest⟩
  · rintro ⟨rs, all, whole, stop⟩
    induction rs generalizing s with
    | nil =>
      obtain rfl := eq_of_goes_nil streams whole
      exact .last ((stops _ _ length inside).2 ⟨stop, rfl⟩)
    | cons r rs ih =>
      obtain ⟨fits, all⟩ := List.forall_mem_cons.1 all
      obtain ⟨u, first, rest⟩ := (goes_append streams (same r fits)).1 whole
      have size := first.kept.trans length
      exact .next ((goes _ _ length inside).2 ⟨r, fits, first⟩)
        (ih size (size ▸ first.inside) all rest)

/-! ## The parts -/

theorem exists_parts {p q : Nat} (chunk : List UInt8) (enough : p + q ≤ chunk.length) :
    ∃ x y z, chunk = x ++ (y ++ z) ∧ x.length = p ∧ y.length = q := by
  refine ⟨chunk.take p, (chunk.drop p).take q, (chunk.drop p).drop q, ?_, ?_, ?_⟩
  · rw [List.take_append_drop, List.take_append_drop]
  · exact List.length_take_of_le (by omega)
  · exact List.length_take_of_le (by rw [List.length_drop]; omega)

theorem length_rebase {pointer : List UInt8} (length : pointer.length = m.ptr) :
    (rebase m pointer).length = m.ptr := by
  unfold rebase
  split
  · exact length
  · exact length_encode _ _

theorem Value.Fits.same {v : Value} (fits : v.Fits m) :
    (v.rebased m).bytes.length = v.bytes.length := by
  simp [Value.bytes, Value.rebased, length_rebase fits.data, fits.data]

theorem Range.Fits.same {r : Range} (fits : r.Fits m) :
    (r.rebased m).bytes.length = r.bytes.length := by
  simp [Range.bytes, Range.rebased, length_rebase fits.value, fits.value]

/-- A checked sum of what stands at the pointer. -/
theorem update_eq_done {len : Nat} {crc : UInt32} :
    update m s len = .done crc ↔
      ∃ items, At s.bytes s.pos items ∧ items.length = len ∧ m.crc32Update s.crc items = crc := by
  constructor
  · intro done
    obtain ⟨items, here, sum⟩ := bind_eq_done.1 done
    obtain ⟨here, length⟩ := read_eq_done.1 here
    exact ⟨items, here, length, Outcome.done.inj sum⟩
  · rintro ⟨items, here, length, rfl⟩
    exact bind_eq_done.2 ⟨items, read_eq_done.2 ⟨here, length⟩, rfl⟩

/-- A pointer that is not null is rebased where it stands. -/
theorem relocate_eq_done {bytes bytes' pointer : List UInt8} {pos : Nat}
    (here : At bytes pos pointer) (length : pointer.length = m.ptr) (some_p : decode pointer ≠ 0) :
    relocate m bytes pos (decode pointer) = .done bytes' ↔
      Replaced bytes pos pointer (rebase m pointer) bytes' := by
  rw [rebase, if_neg some_p]
  exact write_eq_done here (by rw [length_encode, length])

/-- Where a value stands, its length and its pointer stand. -/
theorem Value.Fits.stands {v : Value} {text : List UInt8} {pos : Nat} (fits : v.Fits m)
    (here : At text pos v.bytes) : At text pos (v.word.take 4) ∧ (v.word.take 4).length = 4 ∧
      At text (pos + m.ptr) v.data := by
  have ptr := m.ptr_pos
  obtain ⟨word, behind⟩ := at_append.1 here
  have first : At text pos (v.word.take 4 ++ v.word.drop 4) := by rwa [List.take_append_drop]
  rw [fits.word] at behind
  refine ⟨(at_append.1 first).1, List.length_take_of_le ?_, (at_append.1 behind).1⟩
  rw [fits.word]
  exact ptr

theorem Value.Fits.put {v : Value} {text text' : List UInt8} {pos : Nat} (fits : v.Fits m)
    (here : At text pos v.bytes)
    (moved : relocate m text (pos + m.ptr) (decode v.data) = .done text') :
    Replaced text pos v.bytes (v.rebased m).bytes text' := by
  have put := (relocate_eq_done (fits.stands here).2.2 fits.data fits.pointer).1 moved
  rw [← fits.word] at put
  exact put.widen here

theorem Value.Fits.parts {v : Value} (fits : v.Fits m) :
    v.bytes.length = m.sizeofValue + v.text.length := by
  have two : m.sizeofValue = 2 * m.ptr := rfl
  rw [Value.bytes, List.length_append, List.length_append, fits.word, fits.data]
  omega

/-- `valueBody` goes on over a value with data. -/
theorem valueBody_goes (length : s.bytes.length = size) :
    valueBody m size s = .done (.inl t) ↔
      ∃ v : Value, v.Fits m ∧ Goes m s v.bytes (v.rebased m).bytes t := by
  have ptr := m.ptr_pos
  have two : m.sizeofValue = 2 * m.ptr := rfl
  have atLeast := fun n => le_ngxAlign (d := m.sizeofValue + n) (a := m.ptr) (by omega)
  constructor
  · intro done
    obtain ⟨_, room, done⟩ := bind_eq_done.1 done
    obtain ⟨data, isData, done⟩ := bind_eq_done.1 done
    split at done
    · cases done
    next pointer =>
    obtain ⟨word, isWord, done⟩ := bind_eq_done.1 done
    obtain ⟨_, _, done⟩ := bind_eq_done.1 done
    obtain ⟨_, _, done⟩ := bind_eq_done.1 done
    obtain ⟨crc, summed, done⟩ := bind_eq_done.1 done
    obtain ⟨bytes, moved, done⟩ := bind_eq_done.1 done
    obtain rfl := Sum.inl.inj (Outcome.done.inj done)
    obtain ⟨isData, lengthData⟩ := read_eq_done.1 isData
    obtain ⟨isWord, lengthWord⟩ := read_eq_done.1 isWord
    obtain ⟨chunk, isChunk, lengthChunk, rfl⟩ := update_eq_done.1 summed
    have long := atLeast (decode word % 2 ^ 28)
    obtain ⟨front, data', text, rfl, lengthFront, lengthData'⟩ :=
      exists_parts (p := m.ptr) (q := m.ptr) chunk (by omega)
    -- the pointer and the length are parts of what was summed up
    obtain ⟨isFront, isBehind⟩ := at_append.1 isChunk
    rw [lengthFront] at isBehind
    obtain rfl : data' = data :=
      (at_append.1 isBehind).1.unique isData (lengthData'.trans lengthData.symm)
    have first : front.take 4 = word := by
      have isFirst : At s.bytes s.pos (front.take 4 ++ front.drop 4) := by
        rwa [List.take_append_drop]
      refine (at_append.1 isFirst).1.unique isWord ?_
      rw [List.length_take_of_le (by omega), lengthWord]
    have fits : Value.Fits m ⟨front, data', text⟩ :=
      ⟨lengthFront, lengthData, pointer, by rw [first]; exact lengthChunk⟩
    refine ⟨_, fits, fits.put isChunk moved, fits.same, ?_, rfl⟩
    exact congrArg (s.pos + ·) lengthChunk.symm
  · rintro ⟨v, fits, goes⟩
    have here := goes.put.at
    obtain ⟨isWord, lengthWord, isData⟩ := fits.stands here
    have room := here.inside
    have whole := fits.whole
    have parts := fits.parts
    have long := atLeast (decode (v.word.take 4) % 2 ^ 28)
    obtain ⟨bytes, put⟩ := isData.replaced (rebase m v.data)
    have moved := (relocate_eq_done isData fits.data fits.pointer).2 put
    refine bind_eq_done.2 ⟨(), require_eq_done.2 (by omega), ?_⟩
    refine bind_eq_done.2 ⟨v.data, read_eq_done.2 ⟨isData, fits.data⟩, ?_⟩
    rw [if_neg fits.pointer]
    refine bind_eq_done.2 ⟨v.word.take 4, read_eq_done.2 ⟨isWord, lengthWord⟩, ?_⟩
    refine bind_eq_done.2 ⟨(), require_eq_done.2 (by omega), ?_⟩
    refine bind_eq_done.2 ⟨(), require_eq_done.2 (by omega), ?_⟩
    refine bind_eq_done.2 ⟨_, update_eq_done.2 ⟨v.bytes, here, whole, rfl⟩, ?_⟩
    refine bind_eq_done.2 ⟨bytes, moved, ?_⟩
    have same : bytes = t.bytes := (fits.put here moved).unique goes.put
    rw [same, ← goes.crc, ← whole, ← goes.pos]
    rfl

/-- The first bytes of a value without data, and its null pointer. -/
def AtLast (m : Machine) (s : State) : Prop :=
  ∃ word null, word.length = m.ptr ∧ Null m null ∧ At s.bytes s.pos (word ++ null)

theorem valueBody_stops (length : s.bytes.length = size) :
    valueBody m size s = .done (.inr t) ↔ AtLast m s ∧ t = s := by
  have two : m.sizeofValue = 2 * m.ptr := rfl
  constructor
  · intro done
    obtain ⟨_, room, done⟩ := bind_eq_done.1 done
    obtain ⟨data, isData, done⟩ := bind_eq_done.1 done
    have room := require_eq_done.1 room
    obtain ⟨isData, lengthData⟩ := read_eq_done.1 isData
    split at done
    next zero =>
      obtain rfl := Sum.inr.inj (Outcome.done.inj done)
      have inside : s.pos + m.ptr ≤ s.bytes.length := by omega
      obtain ⟨word, isWord, lengthWord⟩ := exists_at inside
      refine ⟨⟨word, data, lengthWord, ⟨lengthData, zero⟩, at_append.2 ⟨isWord, ?_⟩⟩, rfl⟩
      rwa [lengthWord]
    · obtain ⟨_, _, done⟩ := bind_eq_done.1 done
      obtain ⟨_, _, done⟩ := bind_eq_done.1 done
      obtain ⟨_, _, done⟩ := bind_eq_done.1 done
      obtain ⟨_, _, done⟩ := bind_eq_done.1 done
      obtain ⟨_, _, done⟩ := bind_eq_done.1 done
      cases done
  · rintro ⟨⟨word, null, lengthWord, isNull, here⟩, rfl⟩
    have room := here.inside
    obtain ⟨-, isData⟩ := at_append.1 here
    rw [List.length_append, isNull.length] at room
    rw [lengthWord] at isData
    refine bind_eq_done.2 ⟨(), require_eq_done.2 (by omega), ?_⟩
    refine bind_eq_done.2 ⟨null, read_eq_done.2 ⟨isData, isNull.length⟩, ?_⟩
    rw [if_pos isNull.zero]
    rfl

/-- `pointerBody` goes over a pointer. -/
theorem pointerBody_goes (i : Nat) :
    pointerBody m s i = .done t ↔ ∃ p, p.length = m.ptr ∧ Goes m s p (rebase m p) t := by
  constructor
  · intro done
    obtain ⟨crc, summed, done⟩ := bind_eq_done.1 done
    obtain ⟨p, isP, done⟩ := bind_eq_done.1 done
    obtain ⟨p', isP', lengthP', rfl⟩ := update_eq_done.1 summed
    obtain ⟨isP, lengthP⟩ := read_eq_done.1 isP
    obtain rfl := isP'.unique isP (lengthP'.trans lengthP.symm)
    have same : (rebase m p').length = p'.length := (length_rebase lengthP).trans lengthP.symm
    split at done
    next zero =>
      obtain rfl := Outcome.done.inj done
      have kept : rebase m p' = p' := if_pos zero
      exact ⟨p', lengthP, kept.symm ▸ isP.same, same, congrArg (s.pos + ·) lengthP.symm, rfl⟩
    next some_p =>
      obtain ⟨bytes, moved, done⟩ := bind_eq_done.1 done
      obtain rfl := Outcome.done.inj done
      have put := (relocate_eq_done isP lengthP some_p).1 moved
      exact ⟨p', lengthP, put, same, congrArg (s.pos + ·) lengthP.symm, rfl⟩
  · rintro ⟨p, length, goes⟩
    have here := goes.put.at
    refine bind_eq_done.2 ⟨_, update_eq_done.2 ⟨p, here, length, rfl⟩, ?_⟩
    refine bind_eq_done.2 ⟨p, read_eq_done.2 ⟨here, length⟩, ?_⟩
    rw [← goes.crc, ← length, ← goes.pos]
    by_cases zero : decode p = 0
    · have put := goes.put
      rw [show rebase m p = p from if_pos zero] at put
      rw [if_pos zero, here.same.unique put]
      rfl
    · rw [if_neg zero]
      exact bind_eq_done.2 ⟨t.bytes, (relocate_eq_done here length zero).2 goes.put, rfl⟩

/-- Any number of steps of `pointerBody` -/
theorem pointers_goes (streams : Streams m.crc32Update) (inside : s.pos ≤ s.bytes.length)
    (items : List Nat) :
    items.foldlM (pointerBody m) s = .done t ↔
      ∃ ps : List (List UInt8), ps.length = items.length ∧ (∀ p ∈ ps, p.length = m.ptr) ∧
        Goes m s ps.flatten (ps.map (rebase m)).flatten t := by
  induction items generalizing s with
  | nil =>
    constructor
    · intro done
      obtain rfl := Outcome.done.inj done
      exact ⟨[], rfl, List.forall_mem_nil _, goes_nil streams inside⟩
    · rintro ⟨ps, none, -, goes⟩
      obtain rfl := List.eq_nil_of_length_eq_zero none
      exact congrArg Outcome.done (eq_of_goes_nil streams goes).symm
  | cons i items ih =>
    rw [List.foldlM_cons, bind_eq_done]
    constructor
    · rintro ⟨u, here, later⟩
      obtain ⟨p, length, first⟩ := (pointerBody_goes i).1 here
      obtain ⟨ps, count, all, rest⟩ := (ih first.inside).1 later
      refine ⟨p :: ps, congrArg (· + 1) count, List.forall_mem_cons.2 ⟨length, all⟩, ?_⟩
      exact (goes_append streams first.length).2 ⟨u, first, rest⟩
    · rintro ⟨ps, count, all, whole⟩
      cases ps with
      | nil => cases count
      | cons p ps =>
        obtain ⟨length, all⟩ := List.forall_mem_cons.1 all
        have same : (rebase m p).length = p.length := (length_rebase length).trans length.symm
        obtain ⟨u, first, rest⟩ := (goes_append streams same).1 whole
        exact ⟨u, (pointerBody_goes i).2 ⟨p, length, first⟩,
          (ih first.inside).2 ⟨ps, Nat.succ.inj count, all, rest⟩⟩

/-- `rangeBody` goes on over a range. -/
theorem rangeBody_goes (length : s.bytes.length = size) :
    rangeBody m size s = .done (.inl t) ↔
      ∃ r : Range, r.Fits m ∧ Goes m s r.bytes (r.rebased m).bytes t := by
  have two : m.sizeofRange = 2 * m.ptr := rfl
  constructor
  · intro done
    obtain ⟨_, _, done⟩ := bind_eq_done.1 done
    obtain ⟨value, isValue, done⟩ := bind_eq_done.1 done
    split at done
    · cases done
    next pointer =>
    obtain ⟨_, _, done⟩ := bind_eq_done.1 done
    obtain ⟨crc, summed, done⟩ := bind_eq_done.1 done
    obtain ⟨bytes, moved, done⟩ := bind_eq_done.1 done
    obtain rfl := Sum.inl.inj (Outcome.done.inj done)
    obtain ⟨isValue, lengthValue⟩ := read_eq_done.1 isValue
    obtain ⟨chunk, isChunk, lengthChunk, rfl⟩ := update_eq_done.1 summed
    obtain ⟨value', numbers, none, rfl, lengthValue', lengthNumbers⟩ :=
      exists_parts (p := m.ptr) (q := m.ptr) chunk (by omega)
    obtain rfl : none = [] := by
      rw [List.length_append, List.length_append] at lengthChunk
      exact List.eq_nil_of_length_eq_zero (by omega)
    rw [List.append_nil] at isChunk lengthChunk ⊢
    obtain rfl : value' = value :=
      (at_append.1 isChunk).1.unique isValue (lengthValue'.trans lengthValue.symm)
    have fits : Range.Fits m ⟨value', numbers⟩ := ⟨lengthValue, lengthNumbers, pointer⟩
    have put := (relocate_eq_done isValue lengthValue pointer).1 moved
    have whole := put.widen (a := []) (c := numbers) isChunk
    exact ⟨_, fits, whole, fits.same, congrArg (s.pos + ·) lengthChunk.symm, rfl⟩
  · rintro ⟨r, fits, goes⟩
    have here := goes.put.at
    have whole : r.bytes.length = m.sizeofRange := by
      rw [Range.bytes, List.length_append, fits.value, fits.numbers]
      omega
    have room := here.inside
    have isValue := (at_append.1 here).1
    obtain ⟨bytes, put⟩ := isValue.replaced (rebase m r.value)
    have same : bytes = t.bytes := (put.widen (a := []) (c := r.numbers) here).unique goes.put
    have moved := (relocate_eq_done isValue fits.value fits.pointer).2 put
    refine bind_eq_done.2 ⟨(), require_eq_done.2 (by omega), ?_⟩
    refine bind_eq_done.2 ⟨r.value, read_eq_done.2 ⟨isValue, fits.value⟩, ?_⟩
    rw [if_neg fits.pointer]
    refine bind_eq_done.2 ⟨(), require_eq_done.2 (by omega), ?_⟩
    refine bind_eq_done.2 ⟨_, update_eq_done.2 ⟨r.bytes, here, whole, rfl⟩, ?_⟩
    refine bind_eq_done.2 ⟨bytes, moved, ?_⟩
    rw [same, ← goes.crc, ← whole, ← goes.pos]
    rfl

def AtNull (m : Machine) (s : State) : Prop := ∃ null, Null m null ∧ At s.bytes s.pos null

theorem rangeBody_stops (length : s.bytes.length = size) :
    rangeBody m size s = .done (.inr t) ↔ AtNull m s ∧ t = s := by
  constructor
  · intro done
    obtain ⟨_, _, done⟩ := bind_eq_done.1 done
    obtain ⟨value, isValue, done⟩ := bind_eq_done.1 done
    obtain ⟨isValue, lengthValue⟩ := read_eq_done.1 isValue
    split at done
    next zero =>
      obtain rfl := Sum.inr.inj (Outcome.done.inj done)
      exact ⟨⟨value, ⟨lengthValue, zero⟩, isValue⟩, rfl⟩
    · obtain ⟨_, _, done⟩ := bind_eq_done.1 done
      obtain ⟨_, _, done⟩ := bind_eq_done.1 done
      obtain ⟨_, _, done⟩ := bind_eq_done.1 done
      cases done
  · rintro ⟨⟨null, isNull, here⟩, rfl⟩
    have room := here.inside
    rw [isNull.length] at room
    refine bind_eq_done.2 ⟨(), require_eq_done.2 (by omega), ?_⟩
    refine bind_eq_done.2 ⟨null, read_eq_done.2 ⟨here, isNull.length⟩, ?_⟩
    rw [if_pos isNull.zero]
    rfl

/-! ## The loops -/

theorem values_goes (streams : Streams m.crc32Update) (length : s.bytes.length = size)
    (inside : s.pos ≤ size) :
    loop (valueBody m size) (size + 1) s = .done t ↔
      ∃ vs : List Value, (∀ v ∈ vs, v.Fits m) ∧
        Goes m s (vs.flatMap Value.bytes) (vs.flatMap fun v => (v.rebased m).bytes) t ∧
        AtLast m t := by
  have safe : (loop (valueBody m size) (size + 1) s).Safe (Room size m.sizeofValue) :=
    safe_loop (Inside size) (fun t => size - t.pos) (fun s inside => valueBody_safe inside)
      ⟨length, inside⟩ (by omega)
  rw [loop_iff safe]
  exact ends_iff streams (fun _ fits => fits.same) (fun _ _ length _ => valueBody_goes length)
    (fun _ _ length _ => valueBody_stops length) length inside

theorem ranges_goes (streams : Streams m.crc32Update) (length : s.bytes.length = size)
    (inside : s.pos ≤ size) :
    loop (rangeBody m size) (size + 1) s = .done t ↔
      ∃ rs : List Range, (∀ r ∈ rs, r.Fits m) ∧
        Goes m s (rs.flatMap Range.bytes) (rs.flatMap fun r => (r.rebased m).bytes) t ∧
        AtNull m t := by
  rw [loop_iff (list_safe ⟨length, inside⟩)]
  exact ends_iff streams (fun _ fits => fits.same) (fun _ _ length _ => rangeBody_goes length)
    (fun _ _ length _ => rangeBody_stops length) length inside

theorem Ranges.rebased_bytes (l : Ranges) :
    (l.rebased m).bytes = (l.ranges.flatMap fun r => (r.rebased m).bytes) ++ l.null :=
  congrArg (· ++ l.null) (List.flatMap_map _ _ _)

theorem length_flatMap_same {R : Type} {bytes new : R → List UInt8} {rs : List R}
    (same : ∀ r ∈ rs, (new r).length = (bytes r).length) :
    (rs.flatMap new).length = (rs.flatMap bytes).length := by
  induction rs with
  | nil => rfl
  | cons r rs ih =>
    obtain ⟨here, later⟩ := List.forall_mem_cons.1 same
    rw [List.flatMap_cons, List.flatMap_cons, List.length_append, List.length_append, here,
      ih later]

theorem Ranges.Fits.same {l : Ranges} (fits : l.Fits m) :
    (l.rebased m).bytes.length = l.bytes.length := by
  have ranges := length_flatMap_same fun r mem => (fits.ranges r mem).same
  rw [Ranges.rebased_bytes, Ranges.bytes, List.length_append, List.length_append, ranges]

/-- A sum of what stays as it is. -/
theorem goes_update {u : State} {kept : List UInt8} {len : Nat} (here : At u.bytes u.pos kept)
    (length : kept.length = len) :
    Goes m u kept kept ⟨u.bytes, m.crc32Update u.crc kept, u.pos + len⟩ :=
  ⟨here.same, rfl, congrArg (u.pos + ·) length.symm, rfl⟩

/-- `listBody` goes on over a list and its null pointer. -/
theorem listBody_goes (streams : Streams m.crc32Update) (length : s.bytes.length = size)
    (inside : s.pos ≤ size) :
    listBody m size s = .done (.inl t) ↔
      ∃ l : Ranges, l.Fits m ∧ Goes m s l.bytes (l.rebased m).bytes t := by
  constructor
  · intro done
    unfold listBody at done
    split at done
    · cases done
    obtain ⟨u, ranges, done⟩ := bind_eq_done.1 done
    obtain ⟨crc, summed, done⟩ := bind_eq_done.1 done
    obtain rfl := Sum.inl.inj (Outcome.done.inj done)
    obtain ⟨rs, all, goes, null, isNull, here⟩ := (ranges_goes streams length inside).1 ranges
    obtain ⟨null', here', length', rfl⟩ := update_eq_done.1 summed
    obtain rfl := here'.unique here (length'.trans isNull.length.symm)
    refine ⟨⟨rs, null'⟩, ⟨all, isNull⟩, ?_⟩
    rw [Ranges.rebased_bytes]
    refine (goes_append streams ?_).2 ⟨u, goes, goes_update here isNull.length⟩
    exact length_flatMap_same fun r mem => (all r mem).same
  · rintro ⟨l, fits, goes⟩
    have ptr := m.ptr_pos
    have here := goes.put.at
    have room := here.inside
    rw [Ranges.bytes, List.length_append, fits.null.length] at room
    rw [Ranges.rebased_bytes] at goes
    have same := length_flatMap_same fun r mem => (fits.ranges r mem).same
    obtain ⟨u, first, rest⟩ := (goes_append streams same).1 goes
    have atNull := rest.put.at
    have ranges := (ranges_goes streams length inside).2
      ⟨l.ranges, fits.ranges, first, l.null, fits.null, atNull⟩
    have last := eq_of_goes (goes_update atNull fits.null.length) rest
    unfold listBody
    rw [if_neg (by omega)]
    refine bind_eq_done.2 ⟨u, ranges, ?_⟩
    refine bind_eq_done.2 ⟨_, update_eq_done.2 ⟨l.null, atNull, fits.null.length, rfl⟩, ?_⟩
    rw [← last]
    rfl

theorem listBody_stops : listBody m size s = .done (.inr t) ↔ ¬ s.pos < size ∧ t = s := by
  unfold listBody
  constructor
  · intro done
    split at done
    next stop => exact ⟨stop, (Sum.inr.inj (Outcome.done.inj done)).symm⟩
    · obtain ⟨_, _, done⟩ := bind_eq_done.1 done
      obtain ⟨_, _, done⟩ := bind_eq_done.1 done
      cases done
  · rintro ⟨stop, rfl⟩
    rw [if_pos stop]
    rfl

theorem lists_goes (streams : Streams m.crc32Update) (length : s.bytes.length = size)
    (inside : s.pos ≤ size) :
    loop (listBody m size) (size + 1) s = .done t ↔
      ∃ ls : List Ranges, (∀ l ∈ ls, l.Fits m) ∧
        Goes m s (ls.flatMap Ranges.bytes) (ls.flatMap fun l => (l.rebased m).bytes) t ∧
        ¬ t.pos < size := by
  have safe : (loop (listBody m size) (size + 1) s).Safe
      fun t => t.bytes.length = size ∧ t.pos = size :=
    safe_loop (Inside size) (fun t => size - t.pos) (fun s inside => listBody_safe inside)
      ⟨length, inside⟩ (by omega)
  rw [loop_iff safe]
  exact ends_iff streams (fun _ fits => fits.same)
    (fun _ _ length inside => listBody_goes streams length inside) (fun _ _ _ _ => listBody_stops)
    length inside

/-! ## The file -/

theorem Base.rebased_body (b : Base) :
    (b.rebased m).body = (b.values.flatMap fun v => (v.rebased m).bytes) ++
      ((b.word ++ b.null) ++ ((b.pointers.map (rebase m)).flatten ++
        b.lists.flatMap fun l => (l.rebased m).bytes)) := by
  unfold Base.body Base.rebased
  rw [List.flatMap_map, List.flatMap_map]

theorem length_flatten {n : Nat} {ps : List (List UInt8)} (all : ∀ p ∈ ps, p.length = n) :
    ps.flatten.length = ps.length * n := by
  induction ps with
  | nil => exact (Nat.zero_mul n).symm
  | cons p ps ih =>
    obtain ⟨here, later⟩ := List.forall_mem_cons.1 all
    rw [List.flatten_cons, List.length_append, here, ih later, List.length_cons, Nat.succ_mul,
      Nat.add_comm]

theorem length_map_rebase {ps : List (List UInt8)} (all : ∀ p ∈ ps, p.length = m.ptr) :
    (ps.map (rebase m)).flatten.length = ps.flatten.length := by
  rw [length_flatten all, length_flatten, List.length_map]
  exact List.forall_mem_map.2 fun p mem => length_rebase (all p mem)

theorem relocateRanges_goes (streams : Streams m.crc32Update) (length : s.bytes.length = size)
    (inside : s.pos ≤ size) (count : Nat) :
    relocateRanges m size count s = .done t ↔
      ∃ (ps : List (List UInt8)) (ls : List Ranges), ps.length = count ∧
        (∀ p ∈ ps, p.length = m.ptr) ∧ (∀ l ∈ ls, l.Fits m) ∧
        Goes m s (ps.flatten ++ ls.flatMap Ranges.bytes)
          ((ps.map (rebase m)).flatten ++ ls.flatMap fun l => (l.rebased m).bytes) t ∧
        ¬ t.pos < size := by
  have pointers := fun u => pointers_goes (t := u) streams (length.symm ▸ inside) (List.range count)
  constructor
  · intro done
    obtain ⟨_, _, done⟩ := bind_eq_done.1 done
    obtain ⟨u, first, rest⟩ := bind_eq_done.1 done
    obtain ⟨ps, counted, all, first⟩ := (pointers u).1 first
    have kept := first.kept.trans length
    obtain ⟨ls, fits, rest, stop⟩ := (lists_goes streams kept (kept ▸ first.inside)).1 rest
    rw [List.length_range] at counted
    exact ⟨ps, ls, counted, all, fits, (goes_append streams first.length).2 ⟨u, first, rest⟩, stop⟩
  · rintro ⟨ps, ls, counted, all, fits, goes, stop⟩
    obtain ⟨u, first, rest⟩ := (goes_append streams (length_map_rebase all)).1 goes
    have room := first.put.at.inside
    rw [length_flatten all, counted] at room
    have kept := first.kept.trans length
    refine bind_eq_done.2 ⟨(), require_eq_done.2 (by omega), ?_⟩
    refine bind_eq_done.2 ⟨u, (pointers u).2 ⟨ps, ?_, all, first⟩, ?_⟩
    · rw [List.length_range, counted]
    · exact (lists_goes streams kept (kept ▸ first.inside)).2 ⟨ls, fits, rest, stop⟩

theorem Base.Fits.sameValues {b : Base} (fits : b.Fits m) :
    (b.values.flatMap fun v => (v.rebased m).bytes).length =
      (b.values.flatMap Value.bytes).length :=
  length_flatMap_same fun v mem => (fits.values v mem).same

theorem Base.Fits.same {b : Base} (fits : b.Fits m) :
    (b.rebased m).body.length = b.body.length := by
  have lists := length_flatMap_same fun l mem => (fits.lists l mem).same
  rw [Base.rebased_body, Base.body]
  simp only [List.length_append]
  rw [fits.sameValues, length_map_rebase fits.pointers, lists]

theorem Base.Fits.large {b : Base} (fits : b.Fits m) :
    m.sizeofHeader + m.sizeofValue + 0x10000 * m.ptr ≤ b.bytes.length := by
  have two : m.sizeofValue = 2 * m.ptr := rfl
  rw [Base.bytes, Base.body]
  simp only [List.length_append]
  rw [fits.header, fits.word, fits.null.length, length_flatten fits.pointers, fits.count]
  omega

/-- The loader goes over a base behind its header. -/
theorem Base.Fits.goes {b : Base} (fits : b.Fits m) :
    Goes m ⟨b.bytes, 0xffffffff, m.sizeofHeader⟩ b.body (b.rebased m).body
      ⟨(b.rebased m).bytes, m.crc32Update 0xffffffff b.body, b.bytes.length⟩ := by
  refine ⟨⟨b.header, [], ?_, ?_, fits.header⟩, fits.same, ?_, rfl⟩
  · rw [List.append_nil]
    rfl
  · rw [List.append_nil]
    rfl
  · rw [← fits.header]
    exact List.length_append

/-- Such a file is walked to its end. -/
theorem Base.Fits.loads (streams : Streams m.crc32Update) {b : Base} (fits : b.Fits m) :
    includeBinaryBase m b.bytes =
      .done ⟨(b.rebased m).bytes, m.crc32Update 0xffffffff b.body, b.bytes.length⟩ := by
  have two : m.sizeofValue = 2 * m.ptr := rfl
  have sixteen : m.sizeofHeader = 16 := rfl
  have large := fits.large
  have goes := fits.goes
  rw [Base.rebased_body] at goes
  obtain ⟨vv, goesVs, rest⟩ := (goes_append streams fits.sameValues).1 goes
  obtain ⟨u, goesLast, goesRest⟩ := (goes_append streams rfl).1 rest
  have here := goesLast.put.at
  have lengthLast : (b.word ++ b.null).length = m.sizeofValue := by
    rw [List.length_append, fits.word, fits.null.length]
    omega
  obtain rfl := eq_of_goes (goes_update here lengthLast) goesLast
  have kept := goesLast.kept.trans goesVs.kept
  have long : 12 ≤ b.header.length := by
    rw [fits.header]
    omega
  have isHeader : At b.bytes 0 (b.header.take 12) := at_take 12
  have lengthHeader := List.length_take_of_le long
  refine bind_eq_done.2 ⟨(), require_eq_done.2 (by omega), ?_⟩
  refine bind_eq_done.2 ⟨_, read_eq_done.2 ⟨isHeader, lengthHeader⟩, ?_⟩
  refine bind_eq_done.2 ⟨(), require_eq_done.2 fits.geoHeader.symm, ?_⟩
  refine bind_eq_done.2 ⟨vv, (values_goes streams rfl (by dsimp only; omega)).2 ?_, ?_⟩
  · exact ⟨b.values, fits.values, goesVs, b.word, b.null, fits.word, fits.null, here⟩
  refine bind_eq_done.2 ⟨_, update_eq_done.2 ⟨_, here, lengthLast, rfl⟩, ?_⟩
  refine (relocateRanges_goes streams kept (kept ▸ goesLast.inside) 0x10000).2 ?_
  exact ⟨b.pointers, b.lists, fits.count, fits.pointers, fits.lists, goesRest, Nat.lt_irrefl _⟩

/-- **What the loader accepts and leaves.** The files that it accepts are those that are laid out as
a base, of whatever values, pointers and lists. Then every pointer that is not null has moved by
`base`, all else is as it was, and the checksum is that of the file behind the header before it. -/
theorem includeBinaryBase_layout (streams : Streams m.crc32Update) (bytes : List UInt8)
    (t : State) :
    includeBinaryBase m bytes = .done t ↔
      ∃ b : Base, b.Fits m ∧ b.bytes = bytes ∧
        t = ⟨(b.rebased m).bytes, m.crc32Update 0xffffffff b.body, bytes.length⟩ := by
  have two : m.sizeofValue = 2 * m.ptr := rfl
  have sixteen : m.sizeofHeader = 16 := rfl
  constructor
  · intro done
    obtain ⟨_, room, done⟩ := bind_eq_done.1 done
    obtain ⟨header, isHeader, done⟩ := bind_eq_done.1 done
    obtain ⟨_, same, done⟩ := bind_eq_done.1 done
    obtain ⟨vv, values, done⟩ := bind_eq_done.1 done
    obtain ⟨crc, summed, done⟩ := bind_eq_done.1 done
    have room := require_eq_done.1 room
    obtain ⟨isHeader, lengthHeader⟩ := read_eq_done.1 isHeader
    obtain ⟨vs, fits, goesVs, word, null, lengthWord, isNull, here⟩ :=
      (values_goes streams rfl (by dsimp only; omega)).1 values
    have lengthLast : (word ++ null).length = m.sizeofValue := by
      rw [List.length_append, lengthWord, isNull.length]
      omega
    obtain ⟨last, isLast, lengthLast', rfl⟩ := update_eq_done.1 summed
    obtain rfl := isLast.unique here (lengthLast'.trans lengthLast.symm)
    have goesLast := goes_update (m := m) here lengthLast
    have kept := goesLast.kept.trans goesVs.kept
    obtain ⟨ps, ls, count, all, lists, goesRest, stop⟩ :=
      (relocateRanges_goes streams kept (kept ▸ goesLast.inside) 0x10000).1 done
    have sameVs := length_flatMap_same fun v mem => (fits v mem).same
    have whole := (goes_append streams sameVs).2
      ⟨vv, goesVs, (goes_append streams rfl).2 ⟨_, goesLast, goesRest⟩⟩
    obtain ⟨before, rfl, place⟩ := whole.to_end (Nat.le_of_not_lt stop)
    have long : 12 ≤ before.length := by
      rw [show before.length = 16 from place]
      decide
    have first : before.take 12 = header := by
      refine (at_take 12).unique isHeader ?_
      rw [List.length_take_of_le long, lengthHeader]
    have base : Base.Fits m ⟨before, vs, word, null, ps, ls⟩ := ⟨place,
      first.trans (require_eq_done.1 same).symm, fits, lengthWord, isNull, count, all, lists⟩
    rw [← Base.rebased_body ⟨before, vs, word, null, ps, ls⟩] at whole
    exact ⟨_, base, rfl, eq_of_goes whole base.goes⟩
  · rintro ⟨b, fits, rfl, rfl⟩
    exact fits.loads streams

/-! ## A base -/

/-- A byte of a CRC-32, eight steps of the division -/
def crc32Byte (crc : UInt32) (c : UInt8) : UInt32 :=
  (List.range 8).foldl (fun r _ => if r &&& 1 = 1 then (r >>> 1) ^^^ 0xedb88320 else r >>> 1)
    (crc ^^^ c.toUInt32)

theorem streams_crc32 : Streams (List.foldl crc32Byte) where
  nil _ := rfl
  append _ _ _ := List.foldl_append.symm

def machine : Machine where
  ptr := 8
  isPtr := .inr rfl
  base := 0x1000
  geoHeader := [0x47, 0x45, 0x4f, 0x52, 0x4e, 0x47, 0, 8, 0x78, 0x56, 0x34, 0x12]
  crc32Update := List.foldl crc32Byte

/-- One value `a`, at 32, and one list of one range, behind `n` null pointers. -/
def small (n : Nat) : Base where
  header := [0x47, 0x45, 0x4f, 0x52, 0x4e, 0x47, 0, 8, 0x78, 0x56, 0x34, 0x12, 1, 2, 3, 4]
  values := [⟨[1, 0, 0, 0, 0, 0, 0, 0], [32, 0, 0, 0, 0, 0, 0, 0], [0x61, 0, 0, 0, 0, 0, 0, 0]⟩]
  word := [0, 0, 0, 0, 0, 0, 0, 0]
  null := [0, 0, 0, 0, 0, 0, 0, 0]
  pointers := [0x38, 0, 8, 0, 0, 0, 0, 0] :: List.replicate n [0, 0, 0, 0, 0, 0, 0, 0]
  lists := [⟨[⟨[16, 0, 0, 0, 0, 0, 0, 0], [0, 0, 255, 255, 0, 0, 0, 0]⟩], [0, 0, 0, 0, 0, 0, 0, 0]⟩]

theorem small_fits {n : Nat} (count : n + 1 = 0x10000) : (small n).Fits machine where
  header := rfl
  geoHeader := rfl
  values := List.forall_mem_singleton.2 ⟨rfl, rfl, by decide, rfl⟩
  word := rfl
  null := ⟨rfl, rfl⟩
  count := (congrArg (· + 1) List.length_replicate).trans count
  pointers := by
    refine List.forall_mem_cons.2 ⟨rfl, fun p mem => ?_⟩
    rw [List.eq_of_mem_replicate mem]
    rfl
  lists := List.forall_mem_singleton.2
    ⟨List.forall_mem_singleton.2 ⟨rfl, rfl, by decide⟩, ⟨rfl, rfl⟩⟩

theorem includeBinaryBase_layout_small :
    (∃ n, includeBinaryBase machine (small n).bytes = .done ⟨((small n).rebased machine).bytes,
        machine.crc32Update 0xffffffff (small n).body, (small n).bytes.length⟩) ∧
      ((small 0).rebased machine).values.map Value.data = [[0x20, 0x10, 0, 0, 0, 0, 0, 0]] := by
  refine ⟨⟨0xffff, ?_⟩, by decide⟩
  exact (includeBinaryBase_layout (m := machine) streams_crc32 _ _).2
    ⟨small 0xffff, small_fits rfl, rfl, rfl⟩

end SecurityAudits.Nginx.GeoLayout
