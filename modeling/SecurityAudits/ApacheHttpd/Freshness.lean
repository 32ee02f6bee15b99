import SecurityAudits.Lib.Checked

/-!
# The freshness of a cached response

`cache_freshness_lifetime_is_fresh` of `modules/cache/cache_util.c` compares the age of a response
with its lifetime, both moved by what the request and the response allow. A request chooses its
`max-stale` freely, so the additions are made in the type where they cannot overflow: in unsigned
arithmetic, or in signed arithmetic when the lifetime is negative.

An addition whose sum the type does not have is a fault. The function has none, and answers the
comparison of the integers (`isFresh_iff`).
-/

open SecurityAudits.Checked SecurityAudits.Checked.Outcome

namespace SecurityAudits.ApacheHttpd.Freshness
set_option autoImplicit false

/-- An addition of `apr_uint64_t` -/
def addUnsigned (a b : UInt64) : Outcome UInt64 :=
  if a.toNat + b.toNat < UInt64.size then .done (a + b) else .fault

/-- An addition of `apr_int64_t` -/
def addSigned (a b : Int64) : Outcome Int64 :=
  if Int64.minValue.toInt ≤ a.toInt + b.toInt ∧ a.toInt + b.toInt ≤ Int64.maxValue.toInt then
    .done (a + b)
  else .fault

/-- `cache_freshness_lifetime_is_fresh` -/
def cacheFreshnessLifetimeIsFresh (age lifetime maxstale minfresh : Int64) : Outcome Bool :=
  if age < 0 ∨ maxstale < 0 ∨ minfresh < 0 then pure false
  else do
    let adjustedAge ← addUnsigned age.toUInt64 minfresh.toUInt64
    if lifetime < 0 then do
      let adjustedLifetime ← addSigned lifetime maxstale
      pure (decide (adjustedLifetime > 0) && decide (adjustedAge < adjustedLifetime.toUInt64))
    else do
      let adjustedLifetime ← addUnsigned lifetime.toUInt64 maxstale.toUInt64
      pure (decide (adjustedAge < adjustedLifetime))

theorem total_addUnsigned {a b : UInt64} (fits : a.toNat + b.toNat < UInt64.size) :
    (addUnsigned a b).Total fun sum => sum.toNat = a.toNat + b.toNat :=
  ⟨a + b, if_pos fits, (UInt64.toNat_add a b).trans (Nat.mod_eq_of_lt fits)⟩

theorem total_addSigned {a b : Int64} (above : Int64.minValue.toInt ≤ a.toInt + b.toInt)
    (below : a.toInt + b.toInt ≤ Int64.maxValue.toInt) :
    (addSigned a b).Total fun sum => sum.toInt = a.toInt + b.toInt :=
  ⟨a + b, if_pos ⟨above, below⟩,
    (Int64.toInt_add a b).trans (Int.bmod_eq_of_le above (Int.lt_add_one_of_le below))⟩

/-- The conversion to `apr_uint64_t` keeps a number that is not negative. -/
theorem toNat_toUInt64 {a : Int64} (nonneg : 0 ≤ a) : (a.toUInt64.toNat : Int) = a.toInt := by
  rw [Int64.toNat_toUInt64_of_le nonneg, Int64.cast_toNatClampNeg a nonneg]

/-- Two numbers that are not negative have a sum in `apr_uint64_t`. -/
theorem total_addConverted {a b : Int64} (nonneg : 0 ≤ a) (nonneg' : 0 ≤ b) :
    (addUnsigned a.toUInt64 b.toUInt64).Total fun sum => (sum.toNat : Int) = a.toInt + b.toInt := by
  have value := toNat_toUInt64 nonneg
  have value' := toNat_toUInt64 nonneg'
  have small := a.toInt_lt
  have small' := b.toInt_lt
  have fits : a.toUInt64.toNat + b.toUInt64.toNat < UInt64.size := by
    rw [UInt64.size]
    omega
  obtain ⟨sum, added, exact'⟩ := total_addUnsigned fits
  exact ⟨sum, added, by omega⟩

/-- The branch of a negative lifetime: the sum of the lifetime and `maxstale` may be negative too. -/
theorem total_negativeLifetime {adjustedAge : UInt64} {lifetime maxstale : Int64}
    (negative : lifetime < 0) (nonneg : 0 ≤ maxstale) :
    Total (fun fresh => fresh = true ↔ (adjustedAge.toNat : Int) < lifetime.toInt + maxstale.toInt)
      (addSigned lifetime maxstale >>= fun adjustedLifetime =>
        pure (decide (adjustedLifetime > 0) &&
          decide (adjustedAge < adjustedLifetime.toUInt64))) := by
  rw [Int64.lt_iff_toInt_lt, Int64.toInt_zero] at negative
  rw [Int64.le_iff_toInt_le, Int64.toInt_zero] at nonneg
  have least := lifetime.le_toInt
  have most := maxstale.toInt_lt
  refine (total_addSigned ?_ ?_).bind fun adjustedLifetime sum => total_pure ?_
  · rw [Int64.toInt_minValue]
    omega
  · rw [Int64.toInt_maxValue]
    omega
  · rw [Bool.and_eq_true, decide_eq_true_eq, decide_eq_true_eq, ← sum, gt_iff_lt,
      UInt64.lt_iff_toNat_lt]
    by_cases positive : 0 < adjustedLifetime
    · have value := toNat_toUInt64 (Int64.le_of_lt positive)
      rw [and_iff_right positive]
      omega
    · rw [Int64.lt_iff_toInt_lt, Int64.toInt_zero] at positive
      exact iff_of_false (fun both => positive (Int64.lt_iff_toInt_lt.1 both.1)) (by omega)

/-- **No addition overflows, and the answer is the comparison of the integers**, for arguments that
are not negative; for others the response is not fresh. -/
theorem isFresh_iff (age lifetime maxstale minfresh : Int64) :
    ∃ fresh, cacheFreshnessLifetimeIsFresh age lifetime maxstale minfresh = .done fresh ∧
      (fresh = true ↔ (0 ≤ age.toInt ∧ 0 ≤ maxstale.toInt ∧ 0 ≤ minfresh.toInt) ∧
        age.toInt + minfresh.toInt < lifetime.toInt + maxstale.toInt) := by
  have nonneg_iff : ∀ a : Int64, 0 ≤ a.toInt ↔ 0 ≤ a := by
    intro a
    rw [Int64.le_iff_toInt_le, Int64.toInt_zero]
  rw [nonneg_iff, nonneg_iff, nonneg_iff, cacheFreshnessLifetimeIsFresh]
  split
  case isTrue negative =>
    refine ⟨false, rfl, iff_of_false Bool.false_ne_true fun both => ?_⟩
    obtain ⟨⟨ageValid, maxstaleValid, minfreshValid⟩, -⟩ := both
    rcases negative with below | below | below
    · exact Int64.not_le.2 below ageValid
    · exact Int64.not_le.2 below maxstaleValid
    · exact Int64.not_le.2 below minfreshValid
  case isFalse valid =>
    rw [not_or, not_or, Int64.not_lt, Int64.not_lt, Int64.not_lt] at valid
    obtain ⟨ageValid, maxstaleValid, minfreshValid⟩ := valid
    rw [and_iff_right ⟨ageValid, maxstaleValid, minfreshValid⟩]
    refine (total_addConverted ageValid minfreshValid).bind fun adjustedAge ageSum => ?_
    rw [← ageSum]
    split
    case isTrue negative => exact total_negativeLifetime negative maxstaleValid
    case isFalse positive =>
      rw [Int64.not_lt] at positive
      refine (total_addConverted positive maxstaleValid).bind fun adjustedLifetime lifeSum =>
        total_pure ?_
      rw [decide_eq_true_eq, ← lifeSum, UInt64.lt_iff_toNat_lt, Int.ofNat_lt]

end SecurityAudits.ApacheHttpd.Freshness
