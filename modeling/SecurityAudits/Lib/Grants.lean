import Mathlib.Data.Nat.Init

/-!
# Requests that may be refused

A computation with errors asks for resources, allocations for instance, one after another. Which
requests are granted is an oracle, and a counter in the state numbers them.

`Follows` says that the computation does nothing with the oracle but ask for its next request and
fail when that is refused: it succeeds exactly where it would if every request were granted, and
those it makes are. The rules follow the computation, so what it does can be found out for the
oracle that refuses nothing.
-/

namespace SecurityAudits.Grants
set_option autoImplicit false

variable {ε σ α β : Type}

/-- The oracle that refuses nothing. -/
abbrev all : Nat → Bool := fun _ => true

theorem bind_eq_ok {x : Except ε α} {f : α → Except ε β} {b : β} :
    (x >>= f) = .ok b ↔ ∃ a, x = .ok a ∧ f a = .ok b := by
  cases x with
  | error e => exact ⟨fun eq => (by cases eq), fun ⟨a, eq, _⟩ => (by cases eq)⟩
  | ok a => exact ⟨fun eq => ⟨a, rfl, eq⟩, fun ⟨_, same, eq⟩ => by cases same; exact eq⟩

/-- What every step that succeeds preserves holds of the result. -/
theorem foldlM_invariant {f : σ → α → Except ε σ} {P : σ → Prop}
    (preserved : ∀ s a t, P s → f s a = .ok t → P t) {as : List α} {s t : σ} (start : P s)
    (run : as.foldlM f s = .ok t) : P t := by
  induction as generalizing s with
  | nil =>
    cases run
    exact start
  | cons a as ih =>
    obtain ⟨u, first, rest⟩ := bind_eq_ok.1 run
    exact ih (preserved s a u start first) rest

/-- `m`, whose first request is the `n`th, only asks and fails. -/
structure Follows (count : σ → Nat) (n : Nat) (m : (Nat → Bool) → Except ε σ) : Prop where
  le : ∀ t, m all = .ok t → n ≤ count t
  ok_iff : ∀ granted t, m granted = .ok t ↔
    m all = .ok t ∧ ∀ k, n ≤ k → k < count t → granted k = true

variable {count : σ → Nat} {n : Nat} {m : (Nat → Bool) → Except ε σ}

/-- A computation that asks for nothing. -/
theorem Follows.const {x : Except ε σ} (same : ∀ t, x = .ok t → count t = n) :
    Follows count n fun _ => x where
  le t run := Nat.le_of_eq (same t run).symm
  ok_iff granted t := by
    refine ⟨fun run => ⟨run, fun k le less => ?_⟩, And.left⟩
    rw [same t run] at less
    exact absurd less (Nat.not_lt_of_le le)

theorem Follows.ok {s : σ} (same : count s = n) :
    Follows count n fun _ => (.ok s : Except ε σ) := by
  refine .const fun t run => ?_
  cases run
  exact same

theorem Follows.error {e : ε} : Follows count n fun _ => .error e :=
  .const fun t run => (by cases run)

/-- A single request. -/
theorem Follows.ask {s : σ} {e : ε} (next : count s = n + 1) :
    Follows count n fun granted => if granted n then .ok s else .error e where
  le t run := by
    cases run
    omega
  ok_iff granted t := by
    by_cases grant : granted n = true
    · rw [if_pos grant, if_pos rfl]
      refine ⟨fun run => ⟨run, fun k le less => ?_⟩, And.left⟩
      cases run
      have same : k = n := by omega
      rw [same]
      exact grant
    · rw [if_neg grant, if_pos rfl]
      refine ⟨fun run => (by cases run), fun ⟨run, grants⟩ => ?_⟩
      cases run
      exact absurd (grants n (Nat.le_refl n) (by omega)) grant

/-- One computation after another. -/
theorem Follows.bind {f : (Nat → Bool) → σ → Except ε σ} (first : Follows count n m)
    (second : ∀ s, m all = .ok s → Follows count (count s) fun granted => f granted s) :
    Follows count n fun granted => m granted >>= f granted where
  le t run := by
    obtain ⟨s, run, rest⟩ := bind_eq_ok.1 run
    exact Nat.le_trans (first.le s run) ((second s run).le t rest)
  ok_iff granted t := by
    constructor
    · intro run
      obtain ⟨s, run, rest⟩ := bind_eq_ok.1 run
      obtain ⟨run, grants⟩ := (first.ok_iff granted s).1 run
      obtain ⟨rest, later⟩ := ((second s run).ok_iff granted t).1 rest
      refine ⟨bind_eq_ok.2 ⟨s, run, rest⟩, fun k le less => ?_⟩
      rcases Nat.lt_or_ge k (count s) with before | after
      · exact grants k le before
      · exact later k after less
    · rintro ⟨run, grants⟩
      obtain ⟨s, run, rest⟩ := bind_eq_ok.1 run
      have le := first.le s run
      have le' := (second s run).le t rest
      refine bind_eq_ok.2 ⟨s, (first.ok_iff granted s).2 ⟨run, fun k low high => ?_⟩,
        ((second s run).ok_iff granted t).2 ⟨rest, fun k low high => ?_⟩⟩
      · exact grants k low (by omega)
      · exact grants k (by omega) high

/-- A value that does not depend on the oracle comes first. -/
theorem Follows.after {x : Except ε α} {f : (Nat → Bool) → α → Except ε σ}
    (rest : ∀ a, x = .ok a → Follows count n fun granted => f granted a) :
    Follows count n fun granted => x >>= f granted := by
  cases x with
  | error e => exact .error
  | ok a => exact rest a rfl

/-- The rule of loops. -/
theorem Follows.foldlM {f : (Nat → Bool) → σ → α → Except ε σ}
    (body : ∀ s a, Follows count (count s) fun granted => f granted s a) (as : List α) (s : σ) :
    Follows count (count s) fun granted => as.foldlM (f granted) s := by
  induction as generalizing s with
  | nil => exact .ok rfl
  | cons a as ih => exact (body s a).bind fun t _ => ih t

end SecurityAudits.Grants
