import Mathlib.Data.List.Infix

/-!
# Runs of a partial step function

A system of interleaved parties is a function `step : σ → α → Option σ`: the action says
which party moves and what the outside world answers, and `none` means that the action
is not enabled. A run is the list of its actions, so a schedule is a value and a
concrete one evaluates.

Every fact about reachable states comes from one of the rules below: an invariant
(`exec_invariant`), an invariant kept by the steps that meet a guard
(`exec_invariant_along`), which may also be what enables them (`exec_of_obeys`,
`exec_isSome_iff`), the exact version for a guard whose failure breaks the property at once
(`always_iff_along`), and the comparison of two systems, by a simulation (`exec_simulation`,
`loop_simulation`) or up to a guard (`exec_congr_along`). A `while` loop is a run too: what holds at
the head of every iteration is `loop_invariant`, and that it ends is `loop_ends`, or
`loop_ends_ranked` where the rank is not computed from the state. So is a loop that counts, whose
actions are the indices (`exec_range`).
-/

namespace SecurityAudits.Run
set_option autoImplicit false

variable {σ α : Type}

/-- The state after the actions `as`, in order, from `s`; `none` when one of them is not
enabled where it is taken. -/
def exec (step : σ → α → Option σ) : σ → List α → Option σ
  | s, [] => some s
  | s, a :: as => (step s a).bind fun t => exec step t as

/-- Every action of `as` that is taken meets `ok` in the state it is taken in. -/
def Along (step : σ → α → Option σ) (ok : σ → α → Prop) : σ → List α → Prop
  | _, [] => True
  | s, a :: as => ∀ t, step s a = some t → ok s a ∧ Along step ok t as

/-- `P` holds in every state the run visits, the first and the last included. -/
def Always (step : σ → α → Option σ) (P : σ → Prop) (s : σ) (as : List α) : Prop :=
  ∀ pre, pre <+: as → ∀ t, exec step s pre = some t → P t

/-- Every action of `as` that the run comes to meets `ok`, also one that is not enabled: what is
asked of a caller whose calls must not get stuck. -/
def Obeys (step : σ → α → Option σ) (ok : σ → α → Prop) : σ → List α → Prop
  | _, [] => True
  | s, a :: as => ok s a ∧ ∀ t, step s a = some t → Obeys step ok t as

variable {step : σ → α → Option σ} {s t : σ} {a : α} {as bs : List α}

@[simp] theorem exec_nil : exec step s [] = some s := rfl

theorem exec_cons : exec step s (a :: as) = (step s a).bind fun t => exec step t as := rfl

theorem exec_cons_eq_some :
    exec step s (a :: as) = some t ↔ ∃ m, step s a = some m ∧ exec step m as = some t := by
  rw [exec_cons, Option.bind_eq_some_iff]

theorem exec_append :
    exec step s (as ++ bs) = (exec step s as).bind fun t => exec step t bs := by
  induction as generalizing s with
  | nil => rfl
  | cons a as ih =>
    rw [List.cons_append, exec_cons, exec_cons]
    cases step s a with
    | none => rfl
    | some m => exact ih

/-- The run rule: what every step preserves holds wherever a run ends. -/
theorem exec_invariant {Inv : σ → Prop}
    (preserved : ∀ s a t, Inv s → step s a = some t → Inv t)
    (start : Inv s) (run : exec step s as = some t) : Inv t := by
  induction as generalizing s with
  | nil => cases run; exact start
  | cons a as ih =>
    obtain ⟨m, first, rest⟩ := exec_cons_eq_some.1 run
    exact ih (preserved s a m start first) rest

/-- The run rule for an invariant that only the steps meeting `ok` preserve. -/
theorem exec_invariant_along {Inv : σ → Prop} {ok : σ → α → Prop}
    (preserved : ∀ s a t, Inv s → ok s a → step s a = some t → Inv t)
    (start : Inv s) (guarded : Along step ok s as) (run : exec step s as = some t) : Inv t := by
  induction as generalizing s with
  | nil => cases run; exact start
  | cons a as ih =>
    obtain ⟨m, first, rest⟩ := exec_cons_eq_some.1 run
    obtain ⟨here, later⟩ := guarded m first
    exact ih (preserved s a m start here first) later rest

/-- The run rule for steps that are enabled whenever they meet `ok`. -/
theorem exec_of_obeys {Inv : σ → Prop} {ok : σ → α → Prop}
    (enabled : ∀ s a, Inv s → ok s a → ∃ t, step s a = some t ∧ Inv t)
    (start : Inv s) (obeys : Obeys step ok s as) : ∃ t, exec step s as = some t ∧ Inv t := by
  induction as generalizing s with
  | nil => exact ⟨s, rfl, start⟩
  | cons a as ih =>
    obtain ⟨here, later⟩ := obeys
    obtain ⟨m, first, inv⟩ := enabled s a start here
    obtain ⟨t, rest, end'⟩ := ih inv (later m first)
    exact ⟨t, exec_cons_eq_some.2 ⟨m, first, rest⟩, end'⟩

/-- The run rule for steps that are always enabled. -/
theorem exec_total {Inv : σ → Prop} (enabled : ∀ s a, Inv s → ∃ t, step s a = some t ∧ Inv t)
    (start : Inv s) (as : List α) : ∃ t, exec step s as = some t ∧ Inv t := by
  induction as generalizing s with
  | nil => exact ⟨s, rfl, start⟩
  | cons a as ih =>
    obtain ⟨m, first, inv⟩ := enabled s a start
    obtain ⟨t, rest, end'⟩ := ih inv
    exact ⟨t, exec_cons_eq_some.2 ⟨m, first, rest⟩, end'⟩

/-- A run gets to its end when each of its actions is enabled where it comes. -/
theorem exec_isSome_iff :
    (exec step s as).isSome = true ↔ Obeys step (fun s a => (step s a).isSome = true) s as := by
  induction as generalizing s with
  | nil => exact ⟨fun _ => trivial, fun _ => rfl⟩
  | cons a as ih =>
    rw [exec_cons]
    cases first : step s a with
    | none =>
      refine ⟨fun ends => (by cases ends), fun obeys => ?_⟩
      have enabled : (step s a).isSome = true := obeys.1
      rw [first] at enabled
      cases enabled
    | some m =>
      refine ⟨fun ends => ⟨congrArg Option.isSome first, fun t taken => ?_⟩,
        fun obeys => ih.2 (obeys.2 m first)⟩
      rw [← Option.some.inj (first.symm.trans taken)]
      exact ih.1 ends

theorem along_cons {ok : σ → α → Prop} {m : σ} (first : step s a = some m) :
    Along step ok s (a :: as) ↔ ok s a ∧ Along step ok m as := by
  refine ⟨fun guarded => guarded m first, fun both t taken => ?_⟩
  rw [← Option.some.inj (first.symm.trans taken)]
  exact both

instance Along.decidable {ok : σ → α → Prop} [∀ s a, Decidable (ok s a)] :
    ∀ s as, Decidable (Along step ok s as)
  | _, [] => .isTrue trivial
  | s, a :: as =>
    match first : step s a with
    | none => .isTrue fun t taken => by rw [first] at taken; cases taken
    | some m =>
      have : Decidable (Along step ok m as) := Along.decidable m as
      decidable_of_iff _ (along_cons first).symm

theorem Along.and {ok ok' : σ → α → Prop} (guarded : Along step ok s as)
    (guarded' : Along step ok' s as) : Along step (fun s a => ok s a ∧ ok' s a) s as := by
  induction as generalizing s with
  | nil => trivial
  | cons a as ih =>
    intro m first
    obtain ⟨here, later⟩ := guarded m first
    obtain ⟨here', later'⟩ := guarded' m first
    exact ⟨⟨here, here'⟩, ih later later'⟩

/-- The run rule for what steps meet: where every step meets `ok`, it meets `ok'` too. -/
theorem Along.imp {Inv : σ → Prop} {ok ok' : σ → α → Prop}
    (preserved : ∀ s a t, Inv s → ok s a → step s a = some t → Inv t)
    (meets : ∀ s a, Inv s → ok s a → ok' s a)
    (start : Inv s) (guarded : Along step ok s as) : Along step ok' s as := by
  induction as generalizing s with
  | nil => trivial
  | cons a as ih =>
    intro m first
    obtain ⟨here, later⟩ := guarded m first
    exact ⟨meets s a start here, ih (preserved s a m start here first) later⟩

theorem along_of_mem {ok : σ → α → Prop} (all : ∀ a ∈ as, ∀ s, ok s a) : Along step ok s as := by
  induction as generalizing s with
  | nil => trivial
  | cons a as ih =>
    exact fun m _ => ⟨all a List.mem_cons_self s,
      ih fun b member => all b (List.mem_cons_of_mem a member)⟩

theorem Along.append_right {ok : σ → α → Prop} (guarded : Along step ok s (as ++ bs))
    (run : exec step s as = some t) : Along step ok t bs := by
  induction as generalizing s with
  | nil => cases run; exact guarded
  | cons a as ih =>
    obtain ⟨m, first, rest⟩ := exec_cons_eq_some.1 run
    exact ih (guarded m first).2 rest

/-- A prefix of a guarded run is guarded. -/
theorem Along.of_prefix {ok : σ → α → Prop} (guarded : Along step ok s as) (pre : bs <+: as) :
    Along step ok s bs := by
  induction bs generalizing s as with
  | nil => trivial
  | cons b bs ih =>
    obtain ⟨rest, rfl⟩ := pre
    intro m first
    obtain ⟨here, later⟩ := guarded m first
    exact ⟨here, ih later (List.prefix_append bs rest)⟩

/-- The rule of a loop that counts up to `n`. -/
theorem exec_range {step : σ → Nat → Option σ} {Inv : Nat → σ → Prop} {n : Nat}
    (each : ∀ i s, i < n → Inv i s → ∃ t, step s i = some t ∧ Inv (i + 1) t)
    (start : Inv 0 s) : ∃ t, exec step s (List.range n) = some t ∧ Inv n t := by
  induction n with
  | zero => exact ⟨s, rfl, start⟩
  | succ n ih =>
    obtain ⟨m, before, inv⟩ := ih fun i s below => each i s (Nat.lt_succ_of_lt below)
    obtain ⟨t, last, inv'⟩ := each n m (Nat.lt_succ_self n) inv
    refine ⟨t, ?_, inv'⟩
    rw [List.range_succ, exec_append, before]
    exact exec_cons_eq_some.2 ⟨t, last, rfl⟩

/-- The simulation rule: where `Inv` makes every step of one system, seen through `f`, the
step of another, their runs agree through `f`, also on where they get stuck. -/
theorem exec_simulation {τ : Type} {step' : τ → α → Option τ} {f : σ → τ} {Inv : σ → Prop}
    (preserved : ∀ s a t, Inv s → step s a = some t → Inv t)
    (simulates : ∀ s a, Inv s → (step s a).map f = step' (f s) a)
    (start : Inv s) : (exec step s as).map f = exec step' (f s) as := by
  induction as generalizing s with
  | nil => rfl
  | cons a as ih =>
    rw [exec_cons, exec_cons, ← simulates s a start]
    cases first : step s a with
    | none => rfl
    | some m => exact ih (preserved s a m start first)

/-- Two systems that agree on the steps meeting `ok` have the same runs where a run of the
first meets it. -/
theorem exec_congr_along {step' : σ → α → Option σ} {Inv : σ → Prop} {ok : σ → α → Prop}
    (preserved : ∀ s a t, Inv s → ok s a → step s a = some t → Inv t)
    (agrees : ∀ s a, Inv s → ok s a → step' s a = step s a)
    (stuck : ∀ s a, step s a = none → step' s a = none)
    (start : Inv s) (guarded : Along step ok s as) : exec step' s as = exec step s as := by
  induction as generalizing s with
  | nil => rfl
  | cons a as ih =>
    rw [exec_cons, exec_cons]
    cases first : step s a with
    | none => rw [stuck s a first]; rfl
    | some m =>
      obtain ⟨here, later⟩ := guarded m first
      rw [agrees s a start here, first]
      exact ih (preserved s a m start here first) later

/-- A `while` loop run for `n` iterations; the body answers `none` when the loop is over. -/
def loop (body : σ → Option σ) (n : Nat) (s : σ) : Option σ :=
  exec (fun s (_ : Unit) => body s) s (List.replicate n ())

/-- `exec_simulation` for loops: they agree after any number of iterations, so one is over
exactly when the other is. -/
theorem loop_simulation {τ : Type} {body : σ → Option σ} {body' : τ → Option τ} {f : σ → τ}
    {Inv : σ → Prop} (preserved : ∀ s t, Inv s → body s = some t → Inv t)
    (simulates : ∀ s, Inv s → (body s).map f = body' (f s))
    (start : Inv s) (n : Nat) : (loop body n s).map f = loop body' n (f s) :=
  exec_simulation (fun s _ t inv first => preserved s t inv first)
    (fun s _ inv => simulates s inv) start

/-- The `while` rule: what every iteration keeps holds at the head of every iteration. -/
theorem loop_invariant {body : σ → Option σ} {Inv : σ → Prop}
    (preserved : ∀ s t, Inv s → body s = some t → Inv t) (start : Inv s) {n : Nat}
    (run : loop body n s = some t) : Inv t :=
  exec_invariant (fun s _ t inv running => preserved s t inv running) start run

/-- The `while` rule for total correctness: a loop whose every iteration lowers a rank, which the
invariant carries, is over after no more iterations than the rank is at the start. -/
theorem loop_ends_ranked {body : σ → Option σ} {Inv : Nat → σ → Prop}
    (lowers : ∀ m s t, Inv m s → body s = some t → ∃ m' < m, Inv m' t) {m : Nat}
    (start : Inv m s) :
    ∃ n t m', n ≤ m ∧ loop body n s = some t ∧ body t = none ∧ Inv m' t := by
  induction m using Nat.strong_induction_on generalizing s with
  | _ m ih =>
    cases running : body s with
    | none => exact ⟨0, s, m, Nat.zero_le _, rfl, running, start⟩
    | some t =>
      obtain ⟨m', lower, inv⟩ := lowers m s t start running
      obtain ⟨n, u, last, few, run, over', inv⟩ := ih m' lower inv
      refine ⟨n + 1, u, last, Nat.lt_of_le_of_lt few lower, ?_, over', inv⟩
      rw [loop, List.replicate_succ, exec_cons, running]
      exact run

/-- The same with a measure of the state for a rank. -/
theorem loop_ends {body : σ → Option σ} {Inv : σ → Prop} {measure : σ → Nat}
    (preserved : ∀ s t, Inv s → body s = some t → Inv t)
    (lowers : ∀ s t, Inv s → body s = some t → measure t < measure s) (start : Inv s) :
    ∃ n t, n ≤ measure s ∧ loop body n s = some t ∧ body t = none ∧ Inv t := by
  have ranked : ∀ m s t, (Inv s ∧ measure s = m) → body s = some t →
      ∃ m' < m, Inv t ∧ measure t = m' := by
    rintro m s t ⟨inv, rfl⟩ running
    exact ⟨measure t, lowers s t inv running, preserved s t inv running, rfl⟩
  obtain ⟨n, t, -, few, run, over', inv, -⟩ := loop_ends_ranked ranked ⟨start, rfl⟩
  exact ⟨n, t, few, run, over', inv⟩

theorem always_cons {P : σ → Prop} :
    Always step P s (a :: as) ↔ P s ∧ ∀ m, step s a = some m → Always step P m as := by
  constructor
  · intro h
    refine ⟨h [] (List.nil_prefix) s rfl, fun m first pre sub t run => ?_⟩
    exact h (a :: pre) (List.cons_prefix_cons.2 ⟨rfl, sub⟩) t
      (exec_cons_eq_some.2 ⟨m, first, run⟩)
  · rintro ⟨here, later⟩ pre sub t run
    cases pre with
    | nil => cases run; exact here
    | cons b pre =>
      obtain ⟨rfl, subTail⟩ := List.cons_prefix_cons.1 sub
      obtain ⟨m, first, rest⟩ := exec_cons_eq_some.1 run
      exact later m first pre subTail t rest

/-- The exact rule for a guard: `P` holds all along a run if and only if every step of it
meets `ok`, when `Inv` carries `P` over the steps that do and a step that does not ends in
a state without `P`. -/
theorem always_iff_along {Inv P : σ → Prop} {ok : σ → α → Prop}
    (sound : ∀ s, Inv s → P s)
    (preserved : ∀ s a t, Inv s → ok s a → step s a = some t → Inv t)
    (broken : ∀ s a t, Inv s → ¬ ok s a → step s a = some t → ¬ P t)
    (start : Inv s) : Always step P s as ↔ Along step ok s as := by
  constructor
  · intro h
    induction as generalizing s with
    | nil => trivial
    | cons a as ih =>
      intro m first
      have later := (always_cons.1 h).2 m first
      have here : ok s a := by
        by_contra fails
        exact broken s a m start fails first (later [] List.nil_prefix m rfl)
      exact ⟨here, ih (preserved s a m start here first) later⟩
  · intro guarded pre sub t run
    exact sound t (exec_invariant_along preserved start (guarded.of_prefix sub) run)

end SecurityAudits.Run
