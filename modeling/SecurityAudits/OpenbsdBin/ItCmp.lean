import Mathlib.Data.Fintype.Prod
import Mathlib.Data.Fintype.Card
import SecurityAudits.Lib.Comparator

/-!
# The comparison of types

`it_cmp` of `ctfconv` (`usr.bin/ctfconv/parse.c`) orders the types of a program for a red-black
tree. Anonymous types are compared by the types that they refer to, which may lead in a circle: the
pairs on the way are kept, and one that comes back counts as equal.

The tests of the size, the elements and the names are not in the patch, and a parameter.
`itCmpRecur_ends` says that the comparison ends, and `itCmp_consistent_iff` when it is consistent.
-/

namespace SecurityAudits.OpenbsdBin.ItCmp
set_option autoImplicit false

open Comparator (Opposite opposite_self_iff)

/-! ## The function -/

/-- The types that are compared. -/
structure Types (κ : Type) where
  itType : κ → Nat
  /-- `it_flags & ITF_ANON` -/
  anon : κ → Bool
  itRefp : κ → Option κ
  /-- What the tests that are not shown return, if one of them does. -/
  unshown : κ → κ → Option Int
  unshown_opposite : ∀ a b, (unshown b a).map Int.sign = (unshown a b).map fun r => -r.sign
  /-- The condition behind them, that one of the two is anonymous. -/
  oneAnon : κ → κ → Bool
  oneAnon_comm : ∀ a b, oneAnon a b = oneAnon b a
  oneAnon_ne : ∀ a b, oneAnon a b = true → anon a ≠ anon b

variable {κ : Type} [DecidableEq κ]

/-- `it_cmp_recur` with `depth` calls to go, where `seen` are the pairs of the calls that have not
returned. The last `return 0` of the function is not reached. -/
def itCmpRecur (types : Types κ) : (depth : Nat) → (a b : κ) → (seen : List (κ × κ)) → Option Int
  | 0, _, _, _ => none
  | depth + 1, a, b, seen =>
    if (a, b) ∈ seen then some 0
    else if types.itType a > types.itType b then some 1
    else if types.itType a < types.itType b then some (-1)
    else
      match types.unshown a b with
      | some r => some r
      | none =>
        if types.oneAnon a b then some (if types.anon a then -1 else 1)
        else
          match types.itRefp a, types.itRefp b with
          | some refA, some refB => itCmpRecur types depth refA refB ((a, b) :: seen)
          | none, _ => some (-1)
          | some _, none => some 1

/-- `it_cmp`. -/
def itCmp (types : Types κ) (depth : Nat) (a b : κ) : Option Int :=
  itCmpRecur types depth a b []

/-! ## One call -/

variable {types : Types κ} {depth : Nat} {a b refA refB : κ} {seen : List (κ × κ)}

/-- All tests before the references tie. -/
structure Ties (types : Types κ) (a b : κ) : Prop where
  itType : types.itType a = types.itType b
  unshown : types.unshown a b = none
  oneAnon : types.oneAnon a b = false

omit [DecidableEq κ] in
theorem Ties.symm (ties : Ties types a b) : Ties types b a where
  itType := ties.itType.symm
  unshown := by
    have opposite := types.unshown_opposite a b
    rw [ties.unshown] at opposite
    exact Option.map_eq_none_iff.1 opposite
  oneAnon := by rw [types.oneAnon_comm, ties.oneAnon]

theorem itCmpRecur_of_ties (ties : Ties types a b) (new : (a, b) ∉ seen) :
    itCmpRecur types (depth + 1) a b seen =
      match types.itRefp a, types.itRefp b with
      | some refA, some refB => itCmpRecur types depth refA refB ((a, b) :: seen)
      | none, _ => some (-1)
      | some _, none => some 1 := by
  have same := ties.itType
  rw [itCmpRecur, if_neg new, if_neg (Nat.not_lt_of_ge same.le), if_neg (Nat.not_lt_of_ge same.ge),
    ties.unshown]
  exact if_neg (by rw [ties.oneAnon]; exact Bool.false_ne_true)

/-- What is returned where a test before the references does not tie. -/
def untied (types : Types κ) (a b : κ) : Int :=
  if types.itType a > types.itType b then 1
  else if types.itType a < types.itType b then -1
  else
    match types.unshown a b with
    | some r => r
    | none => if types.anon a then -1 else 1

theorem itCmpRecur_of_not_ties (differ : ¬ Ties types a b) (new : (a, b) ∉ seen) :
    itCmpRecur types (depth + 1) a b seen = some (untied types a b) := by
  rw [itCmpRecur, if_neg new, untied]
  by_cases more : types.itType a > types.itType b
  · rw [if_pos more, if_pos more]
  · rw [if_neg more, if_neg more]
    by_cases less : types.itType a < types.itType b
    · rw [if_pos less, if_pos less]
    · rw [if_neg less, if_neg less]
      cases tests : types.unshown a b with
      | some r => rfl
      | none =>
        have one : types.oneAnon a b = true := by
          by_contra no
          exact differ ⟨Nat.le_antisymm (Nat.le_of_not_lt more) (Nat.le_of_not_lt less), tests,
            Bool.not_eq_true _ ▸ no⟩
        exact if_pos one

omit [DecidableEq κ] in
/-- This is opposite in both orders. -/
theorem untied_opposite (differ : ¬ Ties types a b) :
    Opposite (untied types a b) (untied types b a) := by
  rw [untied, untied]
  rcases Nat.lt_trichotomy (types.itType a) (types.itType b) with less | same | more
  · rw [if_neg (Nat.lt_asymm less), if_pos less, if_pos less]
    rfl
  · rw [if_neg (Nat.not_lt_of_ge same.le), if_neg (Nat.not_lt_of_ge same.ge),
      if_neg (Nat.not_lt_of_ge same.ge), if_neg (Nat.not_lt_of_ge same.le)]
    have opposite := types.unshown_opposite a b
    cases tests : types.unshown a b with
    | some r =>
      rw [tests] at opposite
      obtain ⟨r', tests', sign⟩ := Option.map_eq_some_iff.1 opposite
      rw [tests']
      exact sign
    | none =>
      rw [tests] at opposite
      have one : types.oneAnon a b = true := by
        by_contra no
        exact differ ⟨same, tests, Bool.not_eq_true _ ▸ no⟩
      have ne := types.oneAnon_ne a b one
      rw [Option.map_eq_none_iff.1 opposite]
      cases first : types.anon a with
      | true =>
        rw [first] at ne
        dsimp only
        rw [if_pos rfl, if_neg ne.symm]
        rfl
      | false =>
        rw [first] at ne
        dsimp only
        rw [if_neg Bool.false_ne_true, if_pos (Bool.not_eq_false _ ▸ ne.symm)]
        rfl
  · rw [if_pos more, if_neg (Nat.lt_asymm more), if_pos more]
    rfl

/-! ## When it ends -/

/-- No pair is kept twice, so there are no more calls than pairs. -/
theorem itCmpRecur_ends [Fintype κ] (nodup : seen.Nodup)
    (deep : Fintype.card (κ × κ) < depth + seen.length) :
    ∃ r, itCmpRecur types depth a b seen = some r := by
  induction depth generalizing a b seen with
  | zero =>
    have few := nodup.length_le_card
    omega
  | succ depth ih =>
    by_cases old : (a, b) ∈ seen
    · exact ⟨0, if_pos old⟩
    · by_cases ties : Ties types a b
      · rw [itCmpRecur_of_ties ties old]
        cases types.itRefp a with
        | none => exact ⟨-1, rfl⟩
        | some refA =>
          cases types.itRefp b with
          | none => exact ⟨1, rfl⟩
          | some refB =>
            refine ih (List.nodup_cons.2 ⟨old, nodup⟩) ?_
            rw [List.length_cons]
            omega
      · exact ⟨_, itCmpRecur_of_not_ties ties old⟩

/-- Room for more calls changes nothing. -/
theorem itCmpRecur_deeper {r : Int} (returns : itCmpRecur types depth a b seen = some r)
    {depth' : Nat} (more : depth ≤ depth') : itCmpRecur types depth' a b seen = some r := by
  induction depth generalizing a b seen depth' with
  | zero => cases returns
  | succ depth ih =>
    obtain ⟨deeper, rfl⟩ : ∃ deeper, depth' = deeper + 1 := ⟨depth' - 1, by omega⟩
    by_cases old : (a, b) ∈ seen
    · rw [itCmpRecur, if_pos old] at returns ⊢
      exact returns
    · by_cases ties : Ties types a b
      · rw [itCmpRecur_of_ties ties old] at returns ⊢
        cases fromA : types.itRefp a with
        | none =>
          rw [fromA] at returns
          exact returns
        | some refA =>
          cases fromB : types.itRefp b with
          | none =>
            rw [fromA, fromB] at returns
            exact returns
          | some refB =>
            rw [fromA, fromB] at returns
            exact ih returns (Nat.le_of_succ_le_succ more)
      · rw [itCmpRecur_of_not_ties ties old] at returns ⊢
        exact returns

/-! ## When it is consistent -/

/-- The references of `a` and `b`, followed side by side, come after `n` steps, all of which tie, to
two types that tie and both have no reference. -/
def EndsIn (types : Types κ) : (n : Nat) → (a b : κ) → Prop
  | 0, a, b => Ties types a b ∧ types.itRefp a = none ∧ types.itRefp b = none
  | n + 1, a, b => Ties types a b ∧ ∃ refA refB,
      types.itRefp a = some refA ∧ types.itRefp b = some refB ∧ EndsIn types n refA refB

/-- The references of `a` and `b` end together. -/
def EndTogether (types : Types κ) (a b : κ) : Prop := ∃ n, EndsIn types n a b

omit [DecidableEq κ] in
theorem EndsIn.ties {n : Nat} (ends : EndsIn types n a b) : Ties types a b := by
  cases n with
  | zero => exact ends.1
  | succ n => exact ends.1

omit [DecidableEq κ] in
theorem EndsIn.symm {n : Nat} (ends : EndsIn types n a b) : EndsIn types n b a := by
  induction n generalizing a b with
  | zero => exact ⟨ends.1.symm, ends.2.2, ends.2.1⟩
  | succ n ih =>
    obtain ⟨ties, refA, refB, fromA, fromB, later⟩ := ends
    exact ⟨ties.symm, refB, refA, fromB, fromA, ih later⟩

omit [DecidableEq κ] in
theorem EndsIn.unique {n m : Nat} (ends : EndsIn types n a b) (ends' : EndsIn types m a b) :
    n = m := by
  induction n generalizing a b m with
  | zero =>
    cases m with
    | zero => rfl
    | succ m =>
      obtain ⟨-, refA, -, fromA, -⟩ := ends'
      rw [ends.2.1] at fromA
      cases fromA
  | succ n ih =>
    obtain ⟨-, refA, refB, fromA, fromB, later⟩ := ends
    cases m with
    | zero =>
      rw [ends'.2.1] at fromA
      cases fromA
    | succ m =>
      obtain ⟨-, refA', refB', fromA', fromB', later'⟩ := ends'
      obtain rfl := Option.some.inj (fromA.symm.trans fromA')
      obtain rfl := Option.some.inj (fromB.symm.trans fromB')
      rw [ih later later']

/-- References that end together give `-1`: the pairs on the way are farther from the end, and so
none of them comes back. -/
theorem itCmpRecur_of_endsIn {n : Nat} (ends : EndsIn types n a b)
    (farther : ∀ p ∈ seen, ∃ m, n < m ∧ EndsIn types m p.1 p.2) {r : Int}
    (returns : itCmpRecur types depth a b seen = some r) : r = -1 := by
  induction depth generalizing a b seen n with
  | zero => cases returns
  | succ depth ih =>
    have new : (a, b) ∉ seen := by
      intro old
      obtain ⟨m, less, ends'⟩ := farther _ old
      exact absurd (ends.unique ends') less.ne
    rw [itCmpRecur_of_ties ends.ties new] at returns
    cases n with
    | zero =>
      rw [ends.2.1] at returns
      exact (Option.some.inj returns).symm
    | succ n =>
      obtain ⟨-, refA, refB, fromA, fromB, later⟩ := id ends
      rw [fromA, fromB] at returns
      refine ih later (fun p mem => ?_) returns
      rcases List.mem_cons.1 mem with rfl | mem
      · exact ⟨n + 1, Nat.lt_succ_self n, ends⟩
      · obtain ⟨m, less, ends'⟩ := farther p mem
        exact ⟨m, Nat.lt_of_succ_lt less, ends'⟩

/-- Otherwise the results in both orders are opposite. -/
theorem itCmpRecur_opposite (apart : ¬ EndTogether types a b) {r r' : Int}
    (returns : itCmpRecur types depth a b seen = some r)
    (returns' : itCmpRecur types depth b a (seen.map Prod.swap) = some r') : Opposite r r' := by
  induction depth generalizing a b seen with
  | zero => cases returns
  | succ depth ih =>
    have swapped : (b, a) ∈ seen.map Prod.swap ↔ (a, b) ∈ seen := by
      rw [List.mem_map]
      constructor
      · rintro ⟨⟨x, y⟩, mem, same⟩
        cases same
        exact mem
      · intro mem
        exact ⟨(a, b), mem, rfl⟩
    by_cases old : (a, b) ∈ seen
    · rw [itCmpRecur, if_pos old] at returns
      rw [itCmpRecur, if_pos (swapped.2 old)] at returns'
      cases returns
      cases returns'
      rfl
    · have old' := mt swapped.1 old
      by_cases ties : Ties types a b
      · rw [itCmpRecur_of_ties ties old] at returns
        rw [itCmpRecur_of_ties ties.symm old'] at returns'
        cases fromA : types.itRefp a with
        | none =>
          cases fromB : types.itRefp b with
          | none => exact absurd ⟨0, ties, fromA, fromB⟩ apart
          | some refB =>
            rw [fromA, fromB] at returns returns'
            cases returns
            cases returns'
            rfl
        | some refA =>
          cases fromB : types.itRefp b with
          | none =>
            rw [fromA, fromB] at returns returns'
            cases returns
            cases returns'
            rfl
          | some refB =>
            rw [fromA, fromB] at returns returns'
            refine ih (fun ⟨n, ends⟩ => apart ⟨n + 1, ties, refA, refB, fromA, fromB, ends⟩)
              returns ?_
            rw [List.map_cons]
            exact returns'
      · rw [itCmpRecur_of_not_ties ties old] at returns
        rw [itCmpRecur_of_not_ties (fun ties' => ties ties'.symm) old'] at returns'
        cases returns
        cases returns'
        exact untied_opposite ties

/-- With room for more calls than there are pairs of types the comparison of `a` and `b` returns
`r`. -/
def Returns [Fintype κ] (types : Types κ) (a b : κ) (r : Int) : Prop :=
  ∀ depth, Fintype.card (κ × κ) < depth → itCmp types depth a b = some r

theorem exists_returns [Fintype κ] (types : Types κ) (a b : κ) : ∃ r, Returns types a b r := by
  have deep : Fintype.card (κ × κ) <
      Fintype.card (κ × κ) + 1 + ([] : List (κ × κ)).length := Nat.lt_succ_self _
  obtain ⟨r, returns⟩ := @itCmpRecur_ends κ _ types _ a b [] _ List.nodup_nil deep
  exact ⟨r, fun depth more => itCmpRecur_deeper returns more⟩

/-- Two types in both orders. -/
theorem returns_opposite_iff [Fintype κ] {r r' : Int} (returns : Returns types a b r)
    (returns' : Returns types b a r') : Opposite r r' ↔ ¬ EndTogether types a b := by
  have result := returns _ (Nat.lt_succ_self _)
  have result' := returns' _ (Nat.lt_succ_self _)
  refine ⟨?_, fun apart => itCmpRecur_opposite apart result result'⟩
  rintro opposite ⟨n, ends⟩
  have none' : ∀ p ∈ ([] : List (κ × κ)), ∃ m, n < m ∧ EndsIn types m p.1 p.2 :=
    fun p mem => absurd mem List.not_mem_nil
  obtain rfl := itCmpRecur_of_endsIn ends none' result
  obtain rfl := itCmpRecur_of_endsIn ends.symm none' result'
  exact absurd (opposite_self_iff.1 opposite) (by decide)

/-- **The comparison ends.** It calls a type equal to itself, and gives opposite results for two
types in both orders, exactly when the references of the two do not end together. -/
theorem itCmp_consistent_iff [Fintype κ] (types : Types κ) :
    (∀ a, ∃ r, Returns types a a r ∧ (r = 0 ↔ ¬ EndTogether types a a)) ∧
      ∀ a b, ∃ r r', Returns types a b r ∧ Returns types b a r' ∧
        (Opposite r r' ↔ ¬ EndTogether types a b) := by
  constructor
  · intro a
    obtain ⟨r, returns⟩ := exists_returns types a a
    exact ⟨r, returns, opposite_self_iff.symm.trans (returns_opposite_iff returns returns)⟩
  · intro a b
    obtain ⟨r, returns⟩ := exists_returns types a b
    obtain ⟨r', returns'⟩ := exists_returns types b a
    exact ⟨r, r', returns, returns', returns_opposite_iff returns returns'⟩

/-- One anonymous type without a reference. -/
def oneType : Types Unit where
  itType _ := 0
  anon _ := true
  itRefp _ := none
  unshown _ _ := none
  unshown_opposite _ _ := rfl
  oneAnon _ _ := false
  oneAnon_comm _ _ := rfl
  oneAnon_ne _ _ := by simp

/-- It comes before itself. -/
theorem itCmp_not_reflexive : ¬ Returns oneType () () 0 := by
  intro returns
  exact absurd (returns 2 (by decide)) (by decide)

end SecurityAudits.OpenbsdBin.ItCmp
