import SecurityAudits.Lib.Run

/-!
# Operations that take effect at one step

In a run of interleaved parties each operation takes many steps. `effect s a` lists what takes
effect when `a` is taken in `s`, with the results, and `spec` says what that does to the
shared state when it happens at once. `order` is then a serial order of the operations, each
at a step of its own, and two rules carry the facts about single steps over to runs.

`replay_of_run`: the operations in this order, one after another, leave the state that the
run leaves. `account_of_run`: what a party counts as done is what it has in this order.
-/

namespace SecurityAudits.Linearize
set_option autoImplicit false
open SecurityAudits.Run

variable {σ α ε μ β : Type}

/-- The operations of a run, in the order in which they take effect. -/
def order (step : σ → α → Option σ) (effect : σ → α → List ε) : σ → List α → List ε
  | _, [] => []
  | s, a :: as =>
    match step s a with
    | some t => effect s a ++ order step effect t as
    | none => []

/-- The operations one after another; `none` when one of them does not give its result. -/
def replay (spec : ε → μ → Option μ) : μ → List ε → Option μ
  | m, [] => some m
  | m, e :: es => (spec e m).bind fun m => replay spec m es

variable {step : σ → α → Option σ} {effect : σ → α → List ε} {spec : ε → μ → Option μ}
  {Inv : σ → Prop} {s t : σ} {as : List α} {m : μ}

theorem replay_append (es fs : List ε) :
    replay spec m (es ++ fs) = (replay spec m es).bind fun m => replay spec m fs := by
  induction es generalizing m with
  | nil => rfl
  | cons e es ih =>
    rw [List.cons_append, replay, replay]
    cases spec e m with
    | none => rfl
    | some u => exact ih

/-- **The serial order gives the state of the run**, when every step does to the shared state
what takes effect at it does at once. -/
theorem replay_of_run (view : σ → μ)
    (preserved : ∀ s a t, Inv s → step s a = some t → Inv t)
    (atomic : ∀ s a t, Inv s → step s a = some t →
      replay spec (view s) (effect s a) = some (view t))
    (start : Inv s) (run : exec step s as = some t) :
    replay spec (view s) (order step effect s as) = some (view t) := by
  induction as generalizing s with
  | nil => cases run; rfl
  | cons a as ih =>
    obtain ⟨u, first, rest⟩ := exec_cons_eq_some.1 run
    rw [order, first, replay_append, atomic s a u start first, Option.bind_some]
    exact ih (preserved s a u start first) rest

/-- **Nothing is lost and nothing happens twice**, when every step adds to an account what
takes effect at it. -/
theorem account_of_run (account : σ → List β) {pick : ε → Option β}
    (preserved : ∀ s a t, Inv s → step s a = some t → Inv t)
    (added : ∀ s a t, Inv s → step s a = some t →
      account t = account s ++ (effect s a).filterMap pick)
    (start : Inv s) (run : exec step s as = some t) :
    account t = account s ++ (order step effect s as).filterMap pick := by
  induction as generalizing s with
  | nil => cases run; exact (List.append_nil _).symm
  | cons a as ih =>
    obtain ⟨u, first, rest⟩ := exec_cons_eq_some.1 run
    rw [order, first, ih (preserved s a u start first) rest, added s a u start first,
      List.filterMap_append, List.append_assoc]

end SecurityAudits.Linearize
