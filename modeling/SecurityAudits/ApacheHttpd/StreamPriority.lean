import SecurityAudits.Lib.Comparator

/-!
# The order of HTTP/2 streams

`spri_cmp` (`modules/http2/h2_session.c`) compares two streams of the priority tree: it goes up from
both until their parents are one stream, and compares the weights there; a stream that comes to the
root first is the first. After 1000 levels it compares the stream ids.

Streams under different parents of one weight are equal, also to streams that differ from one
another, and where some comparisons are cut off and others are not there are circles
(`spriCmp_not_transitive`). `spriCmp_ordered` says what holds.
-/

namespace SecurityAudits.ApacheHttpd.StreamPriority
set_option autoImplicit false

open Comparator (Opposite opposite_sub)

/-! ## The function -/

/-- What the comparison reads of the streams: `nghttp2_stream_get_parent`,
`nghttp2_stream_get_weight` and the ids. -/
structure Streams (σ : Type) where
  parent : σ → Option σ
  weight : σ → Int
  sid : σ → Int
  sid_injective : ∀ s1 s2, sid s1 = sid s2 → s1 = s2

variable {σ : Type} [DecidableEq σ]

/-- The loop, with `left` levels to go; it has no result when they are used up. -/
def levels (streams : Streams σ) : (left : Nat) → (s1 s2 : σ) → Option Int
  | 0, _, _ => none
  | left + 1, s1, s2 =>
    if streams.parent s1 = streams.parent s2 then some (streams.weight s2 - streams.weight s1)
    else
      match streams.parent s1, streams.parent s2 with
      | none, _ => some (-1)
      | some _, none => some 1
      | some p1, some p2 => levels streams left p1 p2

/-- `spri_cmp`. -/
def spriCmp (streams : Streams σ) (s1 s2 : σ) : Int :=
  (levels streams 1000 s1 s2).getD (streams.sid s1 - streams.sid s2)

/-- The comparison is not cut off. -/
def Decided (streams : Streams σ) (s1 s2 : σ) : Prop := (levels streams 1000 s1 s2).isSome = true

/-! ## One level -/

variable {streams : Streams σ} {left : Nat} {s1 s2 a b c p q : σ} {x y : Int}

theorem levels_siblings (same : streams.parent s1 = streams.parent s2) :
    levels streams (left + 1) s1 s2 = some (streams.weight s2 - streams.weight s1) := by
  rw [levels, if_pos same]

theorem levels_first (root : streams.parent s1 = none) (other : streams.parent s2 = some q) :
    levels streams (left + 1) s1 s2 = some (-1) := by
  rw [levels, root, other, if_neg (by simp)]

theorem levels_second (other : streams.parent s1 = some p) (root : streams.parent s2 = none) :
    levels streams (left + 1) s1 s2 = some 1 := by
  rw [levels, root, other, if_neg (by simp)]

theorem levels_up (ne : p ≠ q) (up1 : streams.parent s1 = some p)
    (up2 : streams.parent s2 = some q) :
    levels streams (left + 1) s1 s2 = levels streams left p q := by
  rw [levels, up1, up2, if_neg fun same => ne (Option.some.inj same)]

omit [DecidableEq σ] in
/-- The exits of a level: siblings, a root on either side, or the parents. -/
theorem level_cases (streams : Streams σ) (s1 s2 : σ) :
    streams.parent s1 = streams.parent s2 ∨
      (streams.parent s1 = none ∧ ∃ q, streams.parent s2 = some q) ∨
      ((∃ p, streams.parent s1 = some p) ∧ streams.parent s2 = none) ∨
      ∃ p q, p ≠ q ∧ streams.parent s1 = some p ∧ streams.parent s2 = some q := by
  cases up1 : streams.parent s1 with
  | none =>
    cases up2 : streams.parent s2 with
    | none => exact .inl rfl
    | some q => exact .inr (.inl ⟨rfl, q, rfl⟩)
  | some p =>
    cases up2 : streams.parent s2 with
    | none => exact .inr (.inr (.inl ⟨⟨p, rfl⟩, rfl⟩))
    | some q =>
      by_cases same : p = q
      · exact .inl (congrArg some same)
      · exact .inr (.inr (.inr ⟨p, q, same, rfl, rfl⟩))

/-! ## Both orders -/

/-- Both orders are cut off, or their results are opposite. -/
theorem levels_opposite (streams : Streams σ) (left : Nat) (s1 s2 : σ) :
    levels streams left s1 s2 = none ∧ levels streams left s2 s1 = none ∨
      ∃ r r', levels streams left s1 s2 = some r ∧ levels streams left s2 s1 = some r' ∧
        Opposite r r' := by
  induction left generalizing s1 s2 with
  | zero => exact .inl ⟨rfl, rfl⟩
  | succ left ih =>
    rcases level_cases streams s1 s2 with same | ⟨root, q, up⟩ | ⟨⟨p, up⟩, root⟩ |
      ⟨p, q, ne, up1, up2⟩
    · exact .inr ⟨_, _, levels_siblings same, levels_siblings same.symm, opposite_sub _ _⟩
    · exact .inr ⟨-1, 1, levels_first root up, levels_second up root, rfl⟩
    · exact .inr ⟨1, -1, levels_second up root, levels_first root up, rfl⟩
    · rw [levels_up ne up1 up2, levels_up ne.symm up2 up1]
      exact ih p q

theorem spriCmp_opposite (streams : Streams σ) (s1 s2 : σ) :
    Opposite (spriCmp streams s1 s2) (spriCmp streams s2 s1) := by
  rw [spriCmp, spriCmp]
  rcases levels_opposite streams 1000 s1 s2 with ⟨first, second⟩ | ⟨r, r', first, second, opposite⟩
  · rw [first, second]
    exact opposite_sub _ _
  · rw [first, second]
    exact opposite

/-! ## Less -/

/-- No two streams come before each other. -/
theorem levels_asymm (less : levels streams left a b = some x) (first : x < 0)
    (less' : levels streams left b a = some y) : ¬ y < 0 := by
  rcases levels_opposite streams left a b with ⟨cut, -⟩ | ⟨r, r', result, result', opposite⟩
  · rw [cut] at less
    cases less
  · rw [result] at less
    rw [result'] at less'
    cases less
    cases less'
    exact opposite.not_neg first

/-- What does not come before a stream with a parent has one too. -/
theorem parent_of_result (result : levels streams (left + 1) a b = some x) (low : x ≤ 0)
    (up : streams.parent a = some p) : ∃ q, streams.parent b = some q := by
  cases root : streams.parent b with
  | some q => exact ⟨q, rfl⟩
  | none =>
    rw [levels_second up root] at result
    obtain rfl := Option.some.inj result
    exact absurd low (by decide)

/-- Behind a sibling: the comparison is that of the sibling, or of the weights. -/
theorem levels_trans_sibling (same : streams.parent a = streams.parent b)
    (first : streams.weight b - streams.weight a < 0)
    (less' : levels streams (left + 1) b c = some y) (second : y < 0) :
    ∃ z, levels streams (left + 1) a c = some z ∧ z < 0 := by
  rcases level_cases streams b c with same' | ⟨root, q, up⟩ | ⟨⟨p, up⟩, root⟩ | ⟨p, q, ne, up1, up2⟩
  · rw [levels_siblings same'] at less'
    obtain rfl := Option.some.inj less'
    exact ⟨_, levels_siblings (same.trans same'), by omega⟩
  · exact ⟨-1, levels_first (same.trans root) up, by decide⟩
  · obtain ⟨q, up'⟩ := parent_of_result less' (Int.le_of_lt second) up
    rw [root] at up'
    cases up'
  · rw [levels_up ne up1 up2] at less'
    exact ⟨y, by rw [levels_up ne (same.trans up1) up2, less'], second⟩

/-- **Less is transitive** among comparisons that are not cut off. -/
theorem levels_trans (less : levels streams left a b = some x) (first : x < 0)
    (less' : levels streams left b c = some y) (second : y < 0) :
    ∃ z, levels streams left a c = some z ∧ z < 0 := by
  induction left generalizing a b c with
  | zero => cases less
  | succ left ih =>
    rcases level_cases streams a b with same | ⟨root, q, up⟩ | ⟨⟨p, up⟩, root⟩ |
      ⟨p, q, ne, up1, up2⟩
    · rw [levels_siblings same] at less
      obtain rfl := Option.some.inj less
      exact levels_trans_sibling same first less' second
    · obtain ⟨r, up'⟩ := parent_of_result less' (Int.le_of_lt second) up
      exact ⟨-1, levels_first root up', by decide⟩
    · obtain ⟨q, up'⟩ := parent_of_result less (Int.le_of_lt first) up
      rw [root] at up'
      cases up'
    · obtain ⟨r, up3⟩ := parent_of_result less' (Int.le_of_lt second) up2
      rw [levels_up ne up1 up2] at less
      by_cases same : q = r
      · rw [← same] at up3
        exact ⟨x, by rw [levels_up ne up1 up3, less], first⟩
      · rw [levels_up same up2 up3] at less'
        -- `c` is not a sibling of `a`, or `a` and `b` would come before each other
        have back : p ≠ r := by
          rintro rfl
          exact levels_asymm less first less' second
        rw [levels_up back up1 up3]
        exact ih less less'

/-! ## Equal -/

/-- At the level `level`, and at none before, the parents of `a` and `b` are one stream, or none. -/
def Meets (streams : Streams σ) : (level : Nat) → (a b : σ) → Prop
  | 0, a, b => streams.parent a = streams.parent b
  | level + 1, a, b => ∃ p q, p ≠ q ∧ streams.parent a = some p ∧ streams.parent b = some q ∧
      Meets streams level p q

/-- `a` and `c` meet below where each of them meets `b`. -/
def MeetBelow (streams : Streams σ) (a b c : σ) : Prop :=
  ∃ i j k, Meets streams i a b ∧ Meets streams j b c ∧ Meets streams k a c ∧ k < i ∧ k < j

theorem exists_meets (equal : levels streams left a b = some 0) : ∃ i, Meets streams i a b := by
  induction left generalizing a b with
  | zero => cases equal
  | succ left ih =>
    rcases level_cases streams a b with same | ⟨root, q, up⟩ | ⟨⟨p, up⟩, root⟩ |
      ⟨p, q, ne, up1, up2⟩
    · exact ⟨0, same⟩
    · rw [levels_first root up] at equal
      cases equal
    · rw [levels_second up root] at equal
      cases equal
    · rw [levels_up ne up1 up2] at equal
      obtain ⟨i, meets⟩ := ih equal
      exact ⟨i + 1, p, q, ne, up1, up2, meets⟩

/-- Behind a sibling of the same weight. -/
theorem levels_equal_sibling (same : streams.parent a = streams.parent b)
    (weights : streams.weight b - streams.weight a = 0)
    (equal : levels streams (left + 1) b c = some 0) :
    levels streams (left + 1) a c = some 0 := by
  rcases level_cases streams b c with same' | ⟨root, q, up⟩ | ⟨⟨p, up⟩, root⟩ | ⟨p, q, ne, up1, up2⟩
  · rw [levels_siblings same', Option.some.injEq] at equal
    rw [levels_siblings (same.trans same'), Option.some.injEq]
    omega
  · rw [levels_first root up] at equal
    cases equal
  · rw [levels_second up root] at equal
    cases equal
  · rw [levels_up ne up1 up2] at equal
    rw [levels_up ne (same.trans up1) up2, equal]

/-- **Equal is transitive** unless the first and the third meet below the second. -/
theorem levels_equal_trans (equal : levels streams left a b = some 0)
    (equal' : levels streams left b c = some 0) :
    levels streams left a c = some 0 ∨ MeetBelow streams a b c := by
  induction left generalizing a b c with
  | zero => cases equal
  | succ left ih =>
    rcases level_cases streams a b with same | ⟨root, q, up⟩ | ⟨⟨p, up⟩, root⟩ |
      ⟨p, q, ne, up1, up2⟩
    · rw [levels_siblings same, Option.some.injEq] at equal
      exact .inl (levels_equal_sibling same equal equal')
    · rw [levels_first root up] at equal
      cases equal
    · rw [levels_second up root] at equal
      cases equal
    · obtain ⟨r, up3⟩ := parent_of_result equal' (Int.le_refl 0) up2
      rw [levels_up ne up1 up2] at equal
      by_cases same : q = r
      · rw [← same] at up3
        exact .inl (by rw [levels_up ne up1 up3, equal])
      · rw [levels_up same up2 up3] at equal'
        by_cases back : p = r
        · -- `a` and `c` are siblings, and `b` is farther from both
          obtain ⟨i, meets⟩ := exists_meets equal
          obtain ⟨j, meets'⟩ := exists_meets equal'
          exact .inr ⟨i + 1, j + 1, 0, ⟨p, q, ne, up1, up2, meets⟩,
            ⟨q, r, same, up2, up3, meets'⟩, by rw [Meets, up1, up3, back], Nat.succ_pos i,
            Nat.succ_pos j⟩
        · rw [levels_up back up1 up3]
          refine (ih equal equal').imp_right ?_
          rintro ⟨i, j, k, meets, meets', meets'', low, low'⟩
          exact ⟨i + 1, j + 1, k + 1, ⟨p, q, ne, up1, up2, meets⟩,
            ⟨q, r, same, up2, up3, meets'⟩, ⟨p, r, back, up1, up3, meets''⟩,
            Nat.succ_lt_succ low, Nat.succ_lt_succ low'⟩

/-- Two streams are equal at some level: where the comparison is cut off, their ids differ. -/
theorem spriCmp_eq_zero_iff : spriCmp streams a b = 0 ↔ levels streams 1000 a b = some 0 := by
  rw [spriCmp]
  cases result : levels streams 1000 a b with
  | some r => rw [Option.getD_some, Option.some.injEq]
  | none =>
    rw [Option.getD_none]
    refine ⟨fun same => ?_, fun none' => nomatch none'⟩
    obtain rfl := streams.sid_injective a b (by omega)
    rw [levels_siblings rfl] at result
    cases result

/-! ## The order -/

/-- `s` has fewer than `n` ancestors. -/
def Shallow (streams : Streams σ) : (n : Nat) → (s : σ) → Prop
  | 0, _ => False
  | n + 1, s => ∀ p, streams.parent s = some p → Shallow streams n p

theorem levels_of_shallow (shallow : Shallow streams left a) (b : σ) :
    (levels streams left a b).isSome = true := by
  induction left generalizing a b with
  | zero => exact absurd shallow id
  | succ left ih =>
    rcases level_cases streams a b with same | ⟨root, q, up⟩ | ⟨⟨p, up⟩, root⟩ |
      ⟨p, q, ne, up1, up2⟩
    · rw [levels_siblings same]
      rfl
    · rw [levels_first root up]
      rfl
    · rw [levels_second up root]
      rfl
    · rw [levels_up ne up1 up2]
      exact ih (shallow p up1) q

theorem spriCmp_of_decided (decided : Decided streams a b) :
    levels streams 1000 a b = some (spriCmp streams a b) := by
  obtain ⟨r, result⟩ := Option.isSome_iff_exists.1 decided
  rw [spriCmp, result, Option.getD_some]

theorem spriCmp_of_cut (cut : ¬ Decided streams a b) :
    spriCmp streams a b = streams.sid a - streams.sid b := by
  rw [spriCmp, Option.not_isSome_iff_eq_none.1 cut, Option.getD_none]

/-- Comparisons of which all are decided, or all cut off. -/
def AllOrNone (streams : Streams σ) (a b c : σ) : Prop :=
  Decided streams a b ∧ Decided streams b c ∨
    ¬ Decided streams a b ∧ ¬ Decided streams b c ∧ ¬ Decided streams a c

theorem spriCmp_trans (together : AllOrNone streams a b c) (first : spriCmp streams a b < 0)
    (second : spriCmp streams b c < 0) : spriCmp streams a c < 0 := by
  rcases together with ⟨decided, decided'⟩ | ⟨cut, cut', cut''⟩
  · obtain ⟨z, result, less⟩ :=
      levels_trans (spriCmp_of_decided decided) first (spriCmp_of_decided decided') second
    rw [spriCmp, result, Option.getD_some]
    exact less
  · rw [spriCmp_of_cut cut] at first
    rw [spriCmp_of_cut cut'] at second
    rw [spriCmp_of_cut cut'']
    omega

/-- **The order of the streams.** Both orders of two streams have opposite results. Less is
transitive among comparisons of which none, or each, is cut off; it is among streams with fewer than
1000 ancestors. Equal is transitive unless the first and the third stream meet below where they meet
the second. -/
theorem spriCmp_ordered (streams : Streams σ) :
    (∀ s1 s2, Opposite (spriCmp streams s1 s2) (spriCmp streams s2 s1)) ∧
      (∀ a b c, AllOrNone streams a b c → spriCmp streams a b < 0 → spriCmp streams b c < 0 →
        spriCmp streams a c < 0) ∧
      (∀ a b c, Shallow streams 1000 a → Shallow streams 1000 b → AllOrNone streams a b c) ∧
      ∀ a b c, spriCmp streams a b = 0 → spriCmp streams b c = 0 →
        spriCmp streams a c = 0 ∨ MeetBelow streams a b c := by
  refine ⟨spriCmp_opposite streams, fun a b c => spriCmp_trans, fun a b c shallow shallow' => ?_,
    fun a b c equal equal' => ?_⟩
  · exact .inl ⟨levels_of_shallow shallow b, levels_of_shallow shallow' c⟩
  · rw [spriCmp_eq_zero_iff] at equal equal' ⊢
    exact levels_equal_trans equal equal'

/-- The root has the id 0, and the streams of a client have odd ones. -/
def clientId (s : Nat) : Int := if s = 0 then 0 else 2 * s - 1

theorem clientId_injective (s1 s2 : Nat) (same : clientId s1 = clientId s2) : s1 = s2 := by
  rw [clientId, clientId] at same
  split at same <;> split at same <;> omega

/-- Two children `1` and `2` of the root `0`, of one weight, and their children `3` and `4`, of
different weights, and `5`. -/
def family : Streams Nat where
  parent s := match s with
    | 1 => some 0
    | 2 => some 0
    | 3 => some 1
    | 4 => some 1
    | 5 => some 2
    | _ => none
  weight s := if s = 4 then 20 else 10
  sid := clientId
  sid_injective := clientId_injective

/-- The streams `0` to `1001`, each the parent of the next, and `2000`, a heavy sibling of
`1000`. -/
def deep : Streams Nat where
  parent s := if s = 2000 then some 999 else if s = 0 ∨ 1001 < s then none else some (s - 1)
  weight s := if s = 2000 then 20 else 10
  sid := clientId
  sid_injective := clientId_injective

theorem levels_deep {n s : Nat} (low : n ≤ s) (high : s ≤ 1000) :
    levels deep n s (s + 1) = none := by
  induction n generalizing s with
  | zero => rfl
  | succ n ih =>
    obtain ⟨p, rfl⟩ : ∃ p, s = p + 1 := ⟨s - 1, by omega⟩
    have up : deep.parent (p + 1) = some p := by
      simp only [deep]
      rw [if_neg (by omega), if_neg (by omega), Nat.add_sub_cancel]
    have up' : deep.parent (p + 1 + 1) = some (p + 1) := by
      simp only [deep]
      rw [if_neg (by omega), if_neg (by omega), Nat.add_sub_cancel]
    rw [levels_up (Nat.ne_of_lt (Nat.lt_succ_self p)) up up']
    exact ih (by omega) (by omega)

/-- `2000` comes before `1000` by its weight, this before `1001` by its id, where it is cut off, and
`1001` before `2000` likewise. -/
theorem deep_circle :
    spriCmp deep 2000 1000 < 0 ∧ spriCmp deep 1000 1001 < 0 ∧ 0 < spriCmp deep 2000 1001 := by
  have cut : levels deep 1000 1000 1001 = none := levels_deep (Nat.le_refl 1000) (by omega)
  have cut' : levels deep 1000 2000 1001 = none := by
    have up : deep.parent 2000 = some 999 := rfl
    have up' : deep.parent 1001 = some 1000 := rfl
    rw [levels_up (by omega) up up']
    exact levels_deep (Nat.le_refl 999) (by omega)
  refine ⟨by decide, ?_, ?_⟩
  · rw [spriCmp, cut]
    decide
  · rw [spriCmp, cut']
    decide

/-- Neither equal nor less is transitive: in `family`, `3` and `5` are equal, and so are `5` and
`4`, but not `3` and `4`. -/
theorem spriCmp_not_transitive :
    ¬ (∀ a b c, spriCmp family a b = 0 → spriCmp family b c = 0 → spriCmp family a c = 0) ∧
      ¬ ∀ a b c, spriCmp deep a b < 0 → spriCmp deep b c < 0 → spriCmp deep a c < 0 := by
  refine ⟨fun transitive => ?_, fun transitive => ?_⟩
  · exact absurd (transitive 3 5 4 (by decide) (by decide)) (by decide)
  · obtain ⟨first, second, third⟩ := deep_circle
    exact absurd (transitive 2000 1000 1001 first second) (Int.lt_asymm third)

end SecurityAudits.ApacheHttpd.StreamPriority
