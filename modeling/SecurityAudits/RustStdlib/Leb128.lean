import Mathlib.Algebra.Order.Ring.Nat
import Mathlib.Data.Nat.Digits.Defs

/-!
# LEB128 integers of a DWARF table

`read_uleb128` and `read_sleb128` (`library/std/src/sys/personality/dwarf/mod.rs`) read an integer
that is encoded in groups of seven bits, the lowest first. The last byte of an encoding is the first
one without the bit 0x80.

Both decode into 64 bits, which ten bytes exceed by six. `read_uleb128` refuses an eleventh byte, and
`read_sleb128` stops behind the tenth one. An encoding `init` and `last` is read back up to nine
bytes, and at ten if the bits of `last` that are lost are redundant (`readers_right_iff`).
-/

namespace SecurityAudits.RustStdlib.Leb128
set_option autoImplicit false

/-- How a reader ends: it needs more bytes than there are, it panics, or it has a value, and the
bytes that are left. -/
inductive Read (α : Type) where
  | behind
  | panicked
  | value (a : α) (rest : List UInt8)
  deriving DecidableEq, Repr

def u64Bits : Nat := 64

/-- `result |= ((byte & 0x7F) as u64) << shift`, where the `u64` has a value below `2 ^ 64`. -/
def addGroup (result : Nat) (byte : UInt8) (shift : Nat) : Nat :=
  result ||| ((byte &&& 0x7f).toNat <<< shift % 2 ^ u64Bits)

/-- The loop of `read_uleb128`. -/
def ulebLoop (result shift : Nat) : List UInt8 → Read Nat
  | [] => .behind
  | byte :: rest =>
    if ¬ shift < u64Bits then .panicked
    else
      if byte &&& 0x80 = 0 then .value (addGroup result byte shift) rest
      else ulebLoop (addGroup result byte shift) (shift + 7) rest

/-- `DwarfReader::read_uleb128` -/
def readUleb128 (bytes : List UInt8) : Read Nat := ulebLoop 0 0 bytes

/-- What `read_sleb128` makes of the result, the shift and the last byte behind the loop. -/
abbrev Extend := Nat → Nat → UInt8 → Int

/-- The loop of `read_sleb128`. A shift by 64 bits or more would panic. -/
def slebLoop (extend : Extend) (result shift : Nat) : List UInt8 → Read Int
  | [] => .behind
  | byte :: rest =>
    if ¬ shift < u64Bits then .panicked
    else
      if byte &&& 0x80 = 0 ∨ shift + 7 ≥ u64Bits then
        .value (extend (addGroup result byte shift) (shift + 7) byte) rest
      else slebLoop extend (addGroup result byte shift) (shift + 7) rest

/-- `DwarfReader::read_sleb128` -/
def readSleb128 (extend : Extend) (bytes : List UInt8) : Read Int := slebLoop extend 0 0 bytes

/-- `result as i64` -/
def asI64 (result : Nat) : Int := if result < 2 ^ 63 then result else result - 2 ^ 64

/-- What is relied on: the sign is extended where there are bits above the groups that were read, and
otherwise the result is taken as it is. -/
structure SignExtends (extend : Extend) : Prop where
  below : ∀ result shift byte, shift < 64 → result < 2 ^ shift →
    extend result shift byte =
      if byte &&& 0x40 = 0 then (result : Int) else (result : Int) - 2 ^ shift
  full : ∀ result shift byte, 64 ≤ shift → extend result shift byte = asI64 result

/-! ## The format -/

/-- The integer of an unsigned encoding. -/
def unsigned (code : List UInt8) : Nat := Nat.ofDigits 128 (code.map fun b => b.toNat % 128)

/-- The integer of a signed one, whose highest bit is bit 6 of the last byte. -/
def signed (init : List UInt8) (last : UInt8) : Int :=
  if last &&& 0x40 = 0 then unsigned (init ++ [last])
  else (unsigned (init ++ [last]) : Int) - 128 ^ (init.length + 1)

/-- The bytes are an encoding: the last one, and only that, has no continuation bit. -/
structure Encoding (init : List UInt8) (last : UInt8) : Prop where
  continued : ∀ b ∈ init, b &&& 0x80 ≠ 0
  stop : last &&& 0x80 = 0

/-- The reader panics, or takes the encoding of `a` and no more. -/
def Right {α : Type} (r : Read α) (a : α) (rest : List UInt8) : Prop :=
  r = .panicked ∨ r = .value a rest

variable {init : List UInt8} {last b : UInt8} {code : List UInt8}

theorem and_7f (b : UInt8) : (b &&& 0x7f).toNat = b.toNat % 128 := by
  rw [UInt8.toNat_and]
  exact Nat.and_two_pow_sub_one_eq_mod b.toNat 7

theorem and_80 (b : UInt8) : b &&& 0x80 = 0 ↔ b.toNat < 128 := by
  have all : ∀ n : Fin 256, UInt8.ofFin n &&& 0x80 = 0 ↔ n.val < 128 := by decide +kernel
  exact all b.toFin

theorem and_40 (stop : b.toNat < 128) : b &&& 0x40 = 0 ↔ b.toNat < 64 := by
  have all : ∀ n : Fin 256, n.val < 128 → (UInt8.ofFin n &&& 0x40 = 0 ↔ n.val < 64) := by
    decide +kernel
  exact all b.toFin stop

theorem unsigned_snoc (code : List UInt8) (b : UInt8) :
    unsigned (code ++ [b]) = unsigned code + 2 ^ (7 * code.length) * (b.toNat % 128) := by
  rw [unsigned, List.map_append, Nat.ofDigits_append, List.length_map, Nat.pow_mul]
  simp [unsigned]

theorem unsigned_lt (code : List UInt8) : unsigned code < 2 ^ (7 * code.length) := by
  have lt := @Nat.ofDigits_lt_base_pow_length 128 (code.map fun b => b.toNat % 128) (by decide)
    (by simp; omega)
  rw [List.length_map] at lt
  rw [Nat.pow_mul]
  exact lt

/-- A group that is added to a result below it: what is above 64 bits is lost. -/
theorem addGroup_eq {result shift : Nat} (below : result < 2 ^ shift) (fits : shift ≤ 64)
    (b : UInt8) :
    addGroup result b shift = (result + 2 ^ shift * (b.toNat % 128)) % 2 ^ 64 := by
  obtain ⟨k, width⟩ := Nat.exists_eq_add_of_le fits
  have positive : 0 < 2 ^ shift := Nat.two_pow_pos shift
  have split : 2 ^ 64 = 2 ^ k * 2 ^ shift := by rw [width, Nat.pow_add, Nat.mul_comm]
  have kept : (b.toNat % 128) <<< shift % 2 ^ u64Bits = 2 ^ shift * (b.toNat % 128 % 2 ^ k) := by
    rw [Nat.shiftLeft_eq, u64Bits, split, Nat.mul_mod_mul_right, Nat.mul_comm]
  have whole : (result + 2 ^ shift * (b.toNat % 128)) % 2 ^ 64 =
      result + 2 ^ shift * (b.toNat % 128 % 2 ^ k) := by
    rw [split, Nat.mul_comm (2 ^ k), Nat.mod_mul, Nat.add_mul_mod_self_left,
      Nat.mod_eq_of_lt below, Nat.add_mul_div_left _ _ positive, Nat.div_eq_of_lt below,
      Nat.zero_add]
  rw [addGroup, and_7f, kept, whole, Nat.or_comm, ← Nat.two_pow_add_eq_or_of_lt below, Nat.add_comm]

/-- The result behind one more byte. -/
theorem addGroup_unsigned {read : List UInt8} (short : read.length ≤ 9) (b : UInt8) :
    addGroup (unsigned read) b (7 * read.length) = unsigned (read ++ [b]) % 2 ^ 64 := by
  rw [addGroup_eq (unsigned_lt read) (by omega), unsigned_snoc]

/-- Up to nine bytes no bit is lost. -/
theorem unsigned_mod {read : List UInt8} (short : read.length ≤ 9) :
    unsigned read % 2 ^ 64 = unsigned read := by
  refine Nat.mod_eq_of_lt (Nat.lt_of_lt_of_le (unsigned_lt read) ?_)
  exact Nat.pow_le_pow_right (by decide) (by omega)

/-! ## The loops -/

theorem Encoding.more (encoding : Encoding (b :: init) last) : b &&& 0x80 ≠ 0 :=
  encoding.continued b List.mem_cons_self

theorem Encoding.tail (encoding : Encoding (b :: init) last) : Encoding init last :=
  ⟨fun c member => encoding.continued c (List.mem_cons_of_mem b member), encoding.stop⟩

theorem length_snoc (read : List UInt8) (b : UInt8) : (read ++ [b]).length = read.length + 1 := by
  rw [List.length_append, List.length_singleton]

theorem shift_snoc (read : List UInt8) (b : UInt8) :
    7 * read.length + 7 = 7 * (read ++ [b]).length := by
  rw [length_snoc]
  omega

theorem shift_lt {read : List UInt8} (short : read.length ≤ 9) : ¬ ¬ 7 * read.length < u64Bits := by
  rw [u64Bits]
  omega

theorem ulebLoop_spec (encoding : Encoding init last) (rest : List UInt8) {read : List UInt8}
    (short : read.length ≤ 9) :
    ulebLoop (unsigned read) (7 * read.length) (init ++ last :: rest) =
      if read.length + init.length ≤ 9 then
        .value (unsigned (read ++ init ++ [last]) % 2 ^ 64) rest
      else .panicked := by
  induction init generalizing read with
  | nil =>
    rw [List.nil_append, ulebLoop, if_neg (shift_lt short), if_pos encoding.stop,
      addGroup_unsigned short, List.length_nil, Nat.add_zero, if_pos short, List.append_nil]
  | cons b init ih =>
    rw [List.cons_append, ulebLoop, if_neg (shift_lt short), if_neg encoding.more,
      addGroup_unsigned short, List.length_cons]
    by_cases tenth : read.length = 9
    · -- The byte behind the tenth one is not decoded.
      rw [if_neg (by omega), tenth]
      cases init <;> rfl
    · have short' : (read ++ [b]).length ≤ 9 := by
        rw [length_snoc]
        omega
      rw [unsigned_mod short', shift_snoc read b, ih encoding.tail short', length_snoc,
        Nat.add_assoc, Nat.add_comm 1, List.append_cons read b init]

variable {extend : Extend}

theorem slebLoop_next {read : List UInt8} (more : b &&& 0x80 ≠ 0) (short : read.length ≤ 8)
    (bytes : List UInt8) :
    slebLoop extend (unsigned read) (7 * read.length) (b :: bytes) =
      slebLoop extend (unsigned (read ++ [b])) (7 * (read ++ [b]).length) bytes := by
  have goesOn : ¬ (b &&& 0x80 = 0 ∨ 7 * read.length + 7 ≥ u64Bits) := by
    rw [u64Bits]
    rintro (stops | full)
    · exact more stops
    · omega
  have short' : (read ++ [b]).length ≤ 9 := by
    rw [length_snoc]
    omega
  rw [slebLoop, if_neg (shift_lt (by omega)), if_neg goesOn, addGroup_unsigned (by omega),
    unsigned_mod short', shift_snoc read b]

theorem slebLoop_short (encoding : Encoding init last) (rest : List UInt8) {read : List UInt8}
    (short : read.length + init.length ≤ 9) :
    slebLoop extend (unsigned read) (7 * read.length) (init ++ last :: rest) =
      .value (extend (unsigned (read ++ init ++ [last]) % 2 ^ 64)
        (7 * (read.length + init.length + 1)) last) rest := by
  induction init generalizing read with
  | nil =>
    rw [List.length_nil] at short
    rw [List.nil_append, slebLoop, if_neg (shift_lt short), if_pos (.inl encoding.stop),
      addGroup_unsigned short, List.append_nil]
    rfl
  | cons b init ih =>
    rw [List.length_cons] at short
    have short' : (read ++ [b]).length + init.length ≤ 9 := by
      rw [length_snoc]
      omega
    rw [List.cons_append, slebLoop_next encoding.more (by omega), ih encoding.tail short',
      length_snoc, List.length_cons, Nat.add_assoc read.length 1, Nat.add_comm 1 init.length,
      List.append_cons read b init]

/-- An encoding of more than ten bytes is left in the middle. -/
theorem slebLoop_long (encoding : Encoding init last) (rest : List UInt8) {read : List UInt8}
    (short : read.length ≤ 9) (long : 9 < read.length + init.length) :
    ∃ a rest', slebLoop extend (unsigned read) (7 * read.length) (init ++ last :: rest) =
      .value a rest' ∧ rest.length < rest'.length := by
  induction init generalizing read with
  | nil =>
    rw [List.length_nil] at long
    omega
  | cons b init ih =>
    rw [List.length_cons] at long
    rw [List.cons_append]
    by_cases tenth : read.length = 9
    · rw [slebLoop, if_neg (shift_lt short), if_pos (.inr (by rw [u64Bits]; omega))]
      refine ⟨_, _, rfl, ?_⟩
      rw [List.length_append, List.length_cons]
      omega
    · rw [slebLoop_next encoding.more (by omega)]
      refine ih encoding.tail ?_ ?_
      · rw [length_snoc]
        omega
      · rw [length_snoc]
        omega

/-! ## The readers -/

theorem readUleb128_eq (encoding : Encoding init last) (rest : List UInt8) :
    readUleb128 (init ++ last :: rest) =
      if init.length ≤ 9 then .value (unsigned (init ++ [last]) % 2 ^ 64) rest else .panicked := by
  have loop := @ulebLoop_spec init last encoding rest [] (by decide)
  rw [List.length_nil, Nat.zero_add, List.nil_append] at loop
  exact loop

theorem readSleb128_short (encoding : Encoding init last) (rest : List UInt8)
    (short : init.length ≤ 9) :
    readSleb128 extend (init ++ last :: rest) =
      .value (extend (unsigned (init ++ [last]) % 2 ^ 64) (7 * (init.length + 1)) last) rest := by
  have loop := @slebLoop_short init last extend encoding rest []
    (by rw [List.length_nil, Nat.zero_add]; exact short)
  rw [List.length_nil, Nat.zero_add, List.nil_append] at loop
  exact loop

theorem readSleb128_long (encoding : Encoding init last) (rest : List UInt8)
    (long : 9 < init.length) :
    ∃ a rest', readSleb128 extend (init ++ last :: rest) = .value a rest' ∧
      rest.length < rest'.length :=
  @slebLoop_long init last extend encoding rest [] (by decide)
    (by rw [List.length_nil, Nat.zero_add]; exact long)

theorem right_value {α : Type} {a a' : α} {rest : List UInt8} :
    Right (.value a rest) a' rest ↔ a = a' := by
  constructor
  · rintro (panics | same)
    · cases panics
    · cases same
      rfl
  · rintro rfl
    exact .inr rfl

/-- The tenth byte of an encoding adds its bits from bit 63 on. -/
theorem unsigned_tenth (encoding : Encoding init last) (tenth : init.length = 9) :
    unsigned init < 2 ^ 63 ∧ unsigned (init ++ [last]) = unsigned init + 2 ^ 63 * last.toNat := by
  have low := unsigned_lt init
  have value := unsigned_snoc init last
  rw [tenth] at low value
  rw [Nat.mod_eq_of_lt ((and_80 last).1 encoding.stop)] at value
  exact ⟨low, value⟩

/-- `read_uleb128` is right unless the tenth byte is the last one and more than 1. -/
theorem readUleb128_iff (encoding : Encoding init last) (rest : List UInt8) :
    Right (readUleb128 (init ++ last :: rest)) (unsigned (init ++ [last])) rest ↔
      (init.length = 9 → last.toNat ≤ 1) := by
  rw [readUleb128_eq encoding rest]
  rcases Nat.lt_trichotomy init.length 9 with shorter | tenth | longer
  · have short : (init ++ [last]).length ≤ 9 := by
      rw [length_snoc]
      omega
    rw [if_pos (Nat.le_of_lt shorter), right_value, unsigned_mod short]
    exact ⟨fun _ nine => by omega, fun _ => rfl⟩
  · obtain ⟨low, value⟩ := unsigned_tenth encoding tenth
    rw [if_pos (Nat.le_of_eq tenth), right_value, value]
    constructor
    · intro same _
      omega
    · intro small
      have bit := small tenth
      omega
  · rw [if_neg (Nat.not_le_of_lt longer)]
    exact ⟨fun _ nine => by omega, fun _ => .inl rfl⟩

theorem signed_short (lawful : SignExtends extend) (short : init.length ≤ 8) :
    extend (unsigned (init ++ [last])) (7 * (init.length + 1)) last = signed init last := by
  have low := unsigned_lt (init ++ [last])
  rw [length_snoc] at low
  rw [lawful.below _ _ _ (by omega) low, signed, Int.pow_mul]
  rfl

/-- `read_sleb128` is right for up to nine bytes, and for ten when the tenth only repeats the sign. -/
theorem readSleb128_iff (lawful : SignExtends extend) (encoding : Encoding init last)
    (rest : List UInt8) :
    Right (readSleb128 extend (init ++ last :: rest)) (signed init last) rest ↔
      init.length ≤ 8 ∨ (init.length = 9 ∧ (last.toNat = 0 ∨ last.toNat = 127)) := by
  rcases Nat.lt_trichotomy init.length 9 with shorter | tenth | longer
  · have short : (init ++ [last]).length ≤ 9 := by
      rw [length_snoc]
      omega
    rw [readSleb128_short encoding rest (Nat.le_of_lt shorter), right_value, unsigned_mod short]
    exact ⟨fun _ => .inl (by omega), fun _ => signed_short lawful (by omega)⟩
  · obtain ⟨low, value⟩ := unsigned_tenth encoding tenth
    have small := (and_80 last).1 encoding.stop
    have sign := and_40 small
    rw [readSleb128_short encoding rest (Nat.le_of_eq tenth), right_value,
      lawful.full _ _ _ (by omega), signed, value, tenth, asI64]
    have groups : (128 : Int) ^ (9 + 1) = 2 ^ 70 := by decide
    by_cases positive : last.toNat < 64
    · rw [if_pos (sign.2 positive)]
      split <;> omega
    · rw [if_neg (fun clear => positive (sign.1 clear)), groups]
      split <;> omega
  · obtain ⟨a, rest', ends, more⟩ := @readSleb128_long init last extend encoding rest longer
    rw [ends]
    constructor
    · rintro (panics | same)
      · cases panics
      · cases same
        omega
    · omega

/-- **Where the readers are right.** A reader that neither panics nor takes the whole encoding with
its value does so on these encodings only: `read_uleb128` on those of ten bytes whose last byte is
more than 1, and `read_sleb128` on all of more than ten bytes and on those of ten whose last byte
does not repeat the sign. -/
theorem readers_right_iff (lawful : SignExtends extend) (encoding : Encoding init last)
    (rest : List UInt8) :
    (Right (readUleb128 (init ++ last :: rest)) (unsigned (init ++ [last])) rest ↔
      (init.length = 9 → last.toNat ≤ 1)) ∧
    (Right (readSleb128 extend (init ++ last :: rest)) (signed init last) rest ↔
      init.length ≤ 8 ∨ (init.length = 9 ∧ (last.toNat = 0 ∨ last.toNat = 127))) :=
  ⟨readUleb128_iff encoding rest, readSleb128_iff lawful encoding rest⟩

/-- `if shift < u64::BITS && (byte & 0x40) != 0 { result |= (!0 as u64) << shift; }` and
`result as i64` -/
def signExtend : Extend := fun result shift byte =>
  asI64 (if shift < u64Bits ∧ byte &&& 0x40 ≠ 0 then
    result ||| ((2 ^ u64Bits - 1) <<< shift % 2 ^ u64Bits) else result)

theorem ones_shiftLeft {shift : Nat} (inRange : shift < 64) :
    (2 ^ u64Bits - 1) <<< shift % 2 ^ u64Bits = 2 ^ shift * (2 ^ (64 - shift) - 1) := by
  obtain ⟨k, width⟩ := Nat.exists_eq_add_of_le (Nat.le_of_lt inRange)
  have split : 2 ^ u64Bits = 2 ^ k * 2 ^ shift := by
    rw [u64Bits, width, Nat.pow_add, Nat.mul_comm]
  have positive : 0 < 2 ^ shift := Nat.two_pow_pos shift
  have low : 2 ^ k * 2 ^ shift - 1 = 2 ^ k - 1 + 2 ^ k * (2 ^ shift - 1) := by
    have most : 2 ^ k ≤ 2 ^ k * 2 ^ shift := Nat.le_mul_of_pos_right _ positive
    have some' : 0 < 2 ^ k := Nat.two_pow_pos k
    rw [Nat.mul_sub_one]
    omega
  have ones : (2 ^ k * 2 ^ shift - 1) % 2 ^ k = 2 ^ k - 1 := by
    rw [low, Nat.add_mul_mod_self_left, Nat.mod_eq_of_lt (Nat.sub_one_lt (Nat.two_pow_pos k).ne')]
  have rest : 64 - shift = k := by omega
  rw [Nat.shiftLeft_eq, split, Nat.mul_mod_mul_right, ones, Nat.mul_comm, rest]

theorem signExtend_extends : SignExtends signExtend where
  below result shift byte inRange small := by
    have half : 2 ^ shift ≤ 2 ^ 63 := Nat.pow_le_pow_right (by decide) (by omega)
    by_cases clear : byte &&& 0x40 = 0
    · rw [signExtend, if_neg (fun both => both.2 clear), if_pos clear, asI64, if_pos (by omega)]
    · have width : 2 ^ shift * 2 ^ (64 - shift) = 2 ^ 64 := by
        rw [← Nat.pow_add]
        congr 1
        omega
      rw [signExtend, if_pos ⟨inRange, clear⟩, if_neg clear, ones_shiftLeft inRange, Nat.or_comm,
        ← Nat.two_pow_add_eq_or_of_lt small, Nat.mul_sub, Nat.mul_one, width, asI64,
        if_neg (by omega)]
      have cast : ((2 ^ shift : Nat) : Int) = 2 ^ shift := Int.natCast_pow 2 shift
      omega
  full result shift byte outside := by
    rw [signExtend, if_neg (fun both => by rw [u64Bits] at both; omega)]

theorem readers_right_iff_short :
    (Right (readUleb128 ([0x80] ++ 0x7f :: [5])) (unsigned ([0x80] ++ [0x7f])) [5] ↔
      (([0x80] : List UInt8).length = 9 → (0x7f : UInt8).toNat ≤ 1)) ∧
    (Right (readSleb128 signExtend ([0x80] ++ 0x7f :: [5])) (signed [0x80] 0x7f) [5] ↔
      ([0x80] : List UInt8).length ≤ 8 ∨
        (([0x80] : List UInt8).length = 9 ∧
          ((0x7f : UInt8).toNat = 0 ∨ (0x7f : UInt8).toNat = 127))) :=
  readers_right_iff signExtend_extends ⟨by decide +kernel, by decide +kernel⟩ [5]

/-- The tenth byte adds 2 ^ 64, which is lost; ten zeros with a continuation bit are taken for an
integer that goes on. -/
theorem readers_wrong :
    ¬ Right (readUleb128 (List.replicate 9 0x80 ++ 2 :: []))
      (unsigned (List.replicate 9 0x80 ++ [2])) [] ∧
    ¬ Right (readSleb128 signExtend (List.replicate 10 0x80 ++ 0 :: []))
      (signed (List.replicate 10 0x80) 0) [] := by
  unfold Right
  decide

end SecurityAudits.RustStdlib.Leb128
