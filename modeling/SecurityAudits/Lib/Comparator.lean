import Mathlib.Data.Int.Order.Basic

/-!
# Three-way comparison functions

A C comparison function says by the sign of an `int` which of two things comes first. What it says
of them in one order and in the other has to be `Opposite`.
-/

namespace SecurityAudits.Comparator
set_option autoImplicit false

/-- The signs of `r` and `r'` are opposite. -/
def Opposite (r r' : Int) : Prop := r'.sign = -r.sign

variable {r r' : Int}

theorem opposite_neg (r : Int) : Opposite r (-r) := Int.sign_neg r

theorem opposite_sub (x y : Int) : Opposite (x - y) (y - x) := by
  rw [← Int.neg_sub x y]
  exact opposite_neg _

/-- Only nothing is its own opposite. -/
theorem opposite_self_iff : Opposite r r ↔ r = 0 := by
  rw [Opposite, ← Int.sign_eq_zero_iff_zero]
  omega

theorem Opposite.not_neg (opposite : Opposite r r') (neg : r < 0) : ¬ r' < 0 := by
  rw [← Int.sign_eq_neg_one_iff_neg, opposite, Int.sign_eq_neg_one_of_neg neg]
  decide

end SecurityAudits.Comparator
