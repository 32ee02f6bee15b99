import SecurityAudits.Lib.CString

/-!
# Numbers written as bytes, the most significant one first

`encode n v` writes the low `n` bytes of `v`. What `CString.bigEndian` reads and what `encode` writes are
inverse up to what does not fit (`bigEndian_encode`, `encode_bigEndian`), so a field of `n` bytes may be
taken for the number it is.
-/

namespace SecurityAudits.BigEndian
set_option autoImplicit false
open SecurityAudits.CString

def encode : Nat → Nat → List UInt8
  | 0, _ => []
  | n + 1, v => UInt8.ofNat (v / 256 ^ n) :: encode n v

variable {n v w : Nat}

@[simp] theorem length_encode (n v : Nat) : (encode n v).length = n := by
  induction n with
  | zero => rfl
  | succ n ih => rw [encode, List.length_cons, ih]

/-- What is written reads back, less what did not fit. -/
theorem bigEndian_encode (n v : Nat) : bigEndian (encode n v) = v % 256 ^ n := by
  induction n with
  | zero => exact (Nat.mod_one v).symm
  | succ n ih =>
    have digit : (UInt8.ofNat (v / 256 ^ n)).toNat = v / 256 ^ n % 256 := UInt8.toNat_ofNat'
    rw [encode, bigEndian, ih, length_encode, digit, Nat.pow_succ, Nat.mod_mul, Nat.mul_comm,
      Nat.add_comm]

theorem bigEndian_encode_of_lt (fits : v < 256 ^ n) : bigEndian (encode n v) = v := by
  rw [bigEndian_encode, Nat.mod_eq_of_lt fits]

/-- Numbers that fit are told apart by their bytes. -/
theorem encode_injective (fits : v < 256 ^ n) (fits' : w < 256 ^ n)
    (same : encode n v = encode n w) : v = w := by
  rw [← bigEndian_encode_of_lt fits, same, bigEndian_encode_of_lt fits']

/-- A multiple of what the `n` bytes can hold is not seen in them. -/
theorem encode_add_mul (n v k : Nat) : encode n (k * 256 ^ n + v) = encode n v := by
  induction n generalizing k with
  | zero => rfl
  | succ n ih =>
    have high : (k * 256 ^ (n + 1) + v) / 256 ^ n = v / 256 ^ n + k * 256 := by
      rw [Nat.pow_succ', ← Nat.mul_assoc, Nat.add_comm,
        Nat.add_mul_div_right _ _ (Nat.pow_pos (by decide))]
    have low : k * 256 ^ (n + 1) + v = k * 256 * 256 ^ n + v := by rw [Nat.pow_succ', Nat.mul_assoc]
    have digit : UInt8.ofNat (v / 256 ^ n + k * 256) = UInt8.ofNat (v / 256 ^ n) := by
      rw [← UInt8.toNat_inj, UInt8.toNat_ofNat', UInt8.toNat_ofNat', Nat.add_mul_mod_self_right]
    rw [encode, high, low, ih, digit, encode]

/-- What is read writes back as the same bytes. -/
theorem encode_bigEndian (bytes : List UInt8) : encode bytes.length (bigEndian bytes) = bytes := by
  induction bytes with
  | nil => rfl
  | cons b bytes ih =>
    have top : (b.toNat * 256 ^ bytes.length + bigEndian bytes) / 256 ^ bytes.length = b.toNat := by
      rw [Nat.add_comm, Nat.add_mul_div_right _ _ (Nat.pow_pos (by decide)),
        Nat.div_eq_of_lt (bigEndian_lt bytes), Nat.zero_add]
    rw [List.length_cons, encode, bigEndian, top, encode_add_mul, ih, UInt8.ofNat_toNat]

end SecurityAudits.BigEndian
