import Mathlib.Algebra.Order.Floor.Div
import Mathlib.Algebra.Order.Ring.Nat

/-!
# `AffixAllocator`

An `AffixAllocator` asks its parent for the bytes of a block and, around them, for a prefix and a
suffix, which is at the next address that its type allows. The patched `reallocate` computes what it
asks for with `addu` of `core.checkedint`, which sets a flag when a sum does not fit and never clears
it, and gives up when the flag is set.

A `size_t` has any width `w`. `actualSize` is the size over the natural numbers, and the flag is set
exactly when a `size_t` does not have it (`checkedActualAllocationSize_exact`), so a slice that
`reallocate` returns is inside the block that it asked for (`reallocate_within`).
-/

namespace SecurityAudits.DlangPhobos.AffixAllocator
set_option autoImplicit false

/-- What an instance of the template knows of its `Prefix` and its `Suffix`. -/
structure Affixes (w : Nat) where
  prefixSize : BitVec w
  /-- `stateSize!Suffix`; it is zero when there is no suffix. -/
  suffixSize : BitVec w
  /-- `Suffix.alignof` -/
  suffixAlign : BitVec w
  powerOfTwo : ∃ k, suffixAlign.toNat = 2 ^ k

/-- A `void[]` that is not null. -/
structure Slice (w : Nat) where
  ptr : BitVec w
  length : BitVec w
  deriving DecidableEq, Repr

/-- The parent's `reallocate`, which also answers with the block as it is then, and the functions of
the allocator that are not changed; `Heap` is the state of the parent. -/
structure Functions (w : Nat) (Heap : Type) where
  parentReallocate : Heap → Slice w → BitVec w → Bool × Slice w × Heap
  allocate : Heap → BitVec w → Option (Slice w) × Heap
  actualAllocation : Slice w → Slice w

variable {w : Nat} {Heap : Type}

/-- `core.checkedint.addu`: the sum modulo `2 ^ w`, and the flag, which stays set. -/
def addu (x y : BitVec w) (overflow : Bool) : BitVec w × Bool :=
  (x + y, overflow || x.uaddOverflow y)

/-- The next multiple of `Suffix.alignof` -/
def roundUpChecked (affixes : Affixes w) : BitVec w × Bool → BitVec w × Bool
  | (result, overflow) =>
    if overflow then (result, overflow)
    else
      let rem := result % affixes.suffixAlign
      if rem ≠ 0 then addu result (affixes.suffixAlign - rem) overflow else (result, overflow)

/-- `if (!overflow) result = addu(result, stateSize!Suffix, overflow);` -/
def addSuffixChecked (affixes : Affixes w) : BitVec w × Bool → BitVec w × Bool
  | (result, overflow) =>
    if overflow then (result, overflow) else addu result affixes.suffixSize overflow

/-- `checkedActualAllocationSize`: what it returns, and its `out` parameter. It has no result when
the assertion fails. -/
def checkedActualAllocationSize (affixes : Affixes w) (s : BitVec w) : Option (Bool × BitVec w) :=
  if s > 0 then
    let sum := addu s affixes.prefixSize false
    let (result, overflow) :=
      if affixes.suffixSize ≠ 0 then addSuffixChecked affixes (roundUpChecked affixes sum) else sum
    some (!overflow, result)
  else none

/-- The patched `reallocate`: what it returns, the caller's slice and the parent's state. -/
def reallocate (affixes : Affixes w) (functions : Functions w Heap) (heap : Heap) (s : BitVec w) :
    Option (Slice w) → Option (Bool × Option (Slice w) × Heap)
  | none =>
    let (b, heap) := functions.allocate heap s
    some (b.elim 0 Slice.length == s, b, heap)
  | some b => do
    let (fits, actualSize) ← checkedActualAllocationSize affixes s
    if fits then
      let t := functions.actualAllocation b
      let (result, t, heap) := functions.parentReallocate heap t actualSize
      if result then return (true, some ⟨t.ptr + affixes.prefixSize, s⟩, heap)
      else return (false, some b, heap)
    else return (false, some b, heap)

/-! ## The exact size -/

/-- The least multiple of `align` that is at least `n`. -/
def roundUp (n align : Nat) : Nat := align * (n ⌈/⌉ align)

/-- The bytes for `s` bytes with the affixes around them. -/
def actualSize (affixes : Affixes w) (s : Nat) : Nat :=
  let start := s + affixes.prefixSize.toNat
  if affixes.suffixSize = 0 then start
  else roundUp start affixes.suffixAlign.toNat + affixes.suffixSize.toNat

theorem Affixes.align_pos (affixes : Affixes w) : 0 < affixes.suffixAlign.toNat := by
  obtain ⟨k, power⟩ := affixes.powerOfTwo
  rw [power]
  exact Nat.two_pow_pos k

theorem roundUp_eq {n align : Nat} (pos : 0 < align) :
    roundUp n align = if n % align = 0 then n else n + (align - n % align) := by
  have small := Nat.mod_lt n pos
  have parts := Nat.mod_add_div n align
  have next : (n / align + 1) * align = align * (n / align) + align := by
    rw [Nat.succ_mul, Nat.mul_comm]
  rw [roundUp, Nat.ceilDiv_eq_add_pred_div]
  split
  case isTrue zero =>
    have quotient : (n + align - 1) / align = n / align :=
      Nat.div_eq_of_lt_le (by rw [Nat.mul_comm]; omega) (by omega)
    rw [quotient]
    omega
  case isFalse rest =>
    have quotient : (n + align - 1) / align = n / align + 1 :=
      Nat.div_eq_of_lt_le (by omega) (by rw [Nat.succ_mul, next]; omega)
    rw [quotient, Nat.mul_succ]
    omega

/-! ## The flag -/

/-- A result and its flag stand for the number `n`: the flag is set exactly when `n` does not fit. -/
def Stands (r : BitVec w × Bool) (n : Nat) : Prop :=
  (r.2 = true ↔ 2 ^ w ≤ n) ∧ (r.2 = false → r.1.toNat = n)

/-- The rule of `addu` when nothing has overflown. -/
theorem addu_stands (x y : BitVec w) : Stands (addu x y false) (x.toNat + y.toNat) := by
  refine ⟨by simp [addu, BitVec.uaddOverflow], fun fits => ?_⟩
  exact BitVec.toNat_add_of_not_uaddOverflow (by simpa [addu] using fits)

/-- A flag that is set stays right when the number grows. -/
theorem Stands.grow {result : BitVec w} {n m : Nat} (stands : Stands (result, true) n) (le : n ≤ m) :
    Stands (result, true) m :=
  ⟨iff_of_true rfl (Nat.le_trans (stands.1.1 rfl) le), fun unset => by cases unset⟩

theorem roundUpChecked_stands (affixes : Affixes w) {r : BitVec w × Bool} {n : Nat}
    (stands : Stands r n) :
    Stands (roundUpChecked affixes r) (roundUp n affixes.suffixAlign.toNat) := by
  obtain ⟨result, overflow⟩ := r
  rw [roundUp_eq affixes.align_pos, roundUpChecked]
  cases overflow with
  | true =>
    refine stands.grow ?_
    split
    · exact Nat.le_refl n
    · exact Nat.le_add_right n _
  | false =>
    have value : result.toNat = n := stands.2 rfl
    have rem : (result % affixes.suffixAlign).toNat = n % affixes.suffixAlign.toNat := by
      rw [BitVec.toNat_umod, value]
    have zero : result % affixes.suffixAlign = 0 ↔ n % affixes.suffixAlign.toNat = 0 := by
      rw [← BitVec.toNat_inj, rem]
      rfl
    change Stands (if result % affixes.suffixAlign ≠ 0 then
      addu result (affixes.suffixAlign - result % affixes.suffixAlign) false else (result, false)) _
    by_cases aligned : n % affixes.suffixAlign.toNat = 0
    · rw [if_pos aligned, if_neg (not_not_intro (zero.2 aligned))]
      exact stands
    · have le : result % affixes.suffixAlign ≤ affixes.suffixAlign := by
        rw [BitVec.le_def, rem]
        exact Nat.le_of_lt (Nat.mod_lt n affixes.align_pos)
      have added := addu_stands result (affixes.suffixAlign - result % affixes.suffixAlign)
      rw [BitVec.toNat_sub_of_le le, rem, value] at added
      rw [if_neg aligned, if_pos (mt zero.1 aligned)]
      exact added

theorem addSuffixChecked_stands (affixes : Affixes w) {r : BitVec w × Bool} {n : Nat}
    (stands : Stands r n) :
    Stands (addSuffixChecked affixes r) (n + affixes.suffixSize.toNat) := by
  obtain ⟨result, overflow⟩ := r
  rw [addSuffixChecked]
  cases overflow with
  | true => exact stands.grow (Nat.le_add_right n _)
  | false =>
    have added := addu_stands result affixes.suffixSize
    rw [show result.toNat = n from stands.2 rfl] at added
    exact added

/-- **The function returns true exactly when a `size_t` has the exact size**, and stores it then. -/
theorem checked_exact (affixes : Affixes w) {s : BitVec w} (positive : s > 0) :
    ∃ fits result, checkedActualAllocationSize affixes s = some (fits, result) ∧
      (fits = true ↔ actualSize affixes s.toNat < 2 ^ w) ∧
      (fits = true → result.toNat = actualSize affixes s.toNat) := by
  have stands : Stands
      (if affixes.suffixSize ≠ 0 then
        addSuffixChecked affixes (roundUpChecked affixes (addu s affixes.prefixSize false))
      else addu s affixes.prefixSize false) (actualSize affixes s.toNat) := by
    have sum := addu_stands s affixes.prefixSize
    rw [actualSize]
    by_cases noSuffix : affixes.suffixSize = 0
    · rw [if_pos noSuffix, if_neg (not_not_intro noSuffix)]
      exact sum
    · rw [if_neg noSuffix, if_pos noSuffix]
      exact addSuffixChecked_stands affixes (roundUpChecked_stands affixes sum)
  refine ⟨_, _, by rw [checkedActualAllocationSize, if_pos positive], ?_, fun fits => ?_⟩
  · rw [Bool.not_eq_true', ← Nat.not_le, ← stands.1, Bool.not_eq_true]
  · exact stands.2 (by simpa using fits)

theorem actualSize_ge (affixes : Affixes w) (s : Nat) :
    affixes.prefixSize.toNat + s + affixes.suffixSize.toNat ≤ actualSize affixes s := by
  rw [actualSize]
  split
  case isTrue noSuffix =>
    have none' : affixes.suffixSize.toNat = 0 := by simp [noSuffix]
    omega
  case isFalse =>
    rw [roundUp_eq affixes.align_pos]
    split <;> omega

/-- A slice that `reallocate` returns is inside the block that it asked its parent for. -/
theorem reallocate_within (affixes : Affixes w) (functions : Functions w Heap) {heap heap' : Heap}
    {s : BitVec w} {b : Slice w} {b' : Option (Slice w)}
    (reallocated : reallocate affixes functions heap s (some b) = some (true, b', heap')) :
    ∃ size t, functions.parentReallocate heap (functions.actualAllocation b) size = (true, t, heap') ∧
      b' = some ⟨t.ptr + affixes.prefixSize, s⟩ ∧
      affixes.prefixSize.toNat + s.toNat + affixes.suffixSize.toNat ≤ size.toNat := by
  obtain ⟨⟨fits, size⟩, checked, rest⟩ := Option.bind_eq_some_iff.1 reallocated
  have positive : s > 0 := by
    by_contra zero
    rw [checkedActualAllocationSize, if_neg zero] at checked
    cases checked
  obtain ⟨fits', size', checked', -, stored⟩ := checked_exact affixes positive
  cases checked.symm.trans checked'
  cases fits with
  | false => cases rest
  | true =>
    rcases answer : functions.parentReallocate heap (functions.actualAllocation b) size with
      ⟨result, t, after⟩
    cases result with
    | false =>
      simp only [answer, if_true] at rest
      cases rest
    | true =>
      simp only [answer, if_true] at rest
      cases rest
      refine ⟨size, t, answer, rfl, ?_⟩
      rw [stored rfl]
      exact actualSize_ge affixes s.toNat

/-- **`reallocate` asks for exactly the bytes that it needs, or leaves everything as it was.** -/
theorem checkedActualAllocationSize_exact (affixes : Affixes w) {s : BitVec w} (positive : s > 0) :
    ∃ fits result, checkedActualAllocationSize affixes s = some (fits, result) ∧
      (fits = true ↔ actualSize affixes s.toNat < 2 ^ w) ∧
      (fits = true → result.toNat = actualSize affixes s.toNat) ∧
      (fits = false → ∀ (Heap : Type) (functions : Functions w Heap) (heap : Heap) (b : Slice w),
        reallocate affixes functions heap s (some b) = some (false, some b, heap)) := by
  obtain ⟨fits, result, checked, representable, stored⟩ := checked_exact affixes positive
  refine ⟨fits, result, checked, representable, stored, ?_⟩
  rintro rfl Heap functions heap b
  rw [reallocate, checked]
  rfl

/-- Eight bits, a prefix of 8 bytes and a suffix of 3 bytes at multiples of 4: 240 bytes need 251, and
250 bytes need 263. -/
theorem checkedActualAllocationSize_exact_byte :
    let affixes : Affixes 8 := ⟨8, 3, 4, 2, rfl⟩
    let functions : Functions 8 Unit := ⟨fun _ t _ => (true, t, ()), fun _ _ => (none, ()), id⟩
    checkedActualAllocationSize affixes 240 = some (true, 251) ∧
      reallocate affixes functions () 250 (some ⟨16, 32⟩) = some (false, some ⟨16, 32⟩, ()) := by
  intro affixes functions
  refine ⟨by decide, ?_⟩
  obtain ⟨fits, result, -, representable, -, unchanged⟩ :=
    checkedActualAllocationSize_exact affixes (by decide : (250 : BitVec 8) > 0)
  have large : ¬ actualSize affixes (250 : BitVec 8).toNat < 2 ^ 8 := by decide
  exact unchanged (Bool.eq_false_iff.2 (mt representable.1 large)) Unit functions () ⟨16, 32⟩

end SecurityAudits.DlangPhobos.AffixAllocator
