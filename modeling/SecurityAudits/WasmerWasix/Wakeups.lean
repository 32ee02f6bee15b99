import SecurityAudits.WasmerWasix.Factory

/-!
# Wake-ups of the callers that wait for a startup

The waiter's block clones the stored `Notify` under the mutex, but the `Notified` future is
created after the mutex has been released. `notify_waiters` keeps no permit, so a starter
that publishes in between fires a `Notify` nobody listens to yet, and the future created
afterwards is never woken (`lost_wakeup`). Apart from that window nothing is lost:
`waiters_served_iff` says that the waiters of a run are all served exactly when each future
is created while its `Notify` is still the one stored for the shard.
-/

namespace SecurityAudits.WasmerWasix.Factory
set_option autoImplicit false
open SecurityAudits.Run

variable {Task Shard Inst Error : Type} [DecidableEq Task] [DecidableEq Shard]

/-- No waiter is lost: whoever waits and is not woken waits on a `Notify` that has not been
fired, is the one stored for its shard, and whose starter is still running. -/
def WaitersServed (shardOf : Task → Shard) (c : Config Task Shard Inst Error) : Prop :=
  ∀ t n, c.pc t = .wait n false →
    c.fired n = false ∧ c.state.starting (shardOf t) = some n ∧
      ∃ u, (c.pc u).reservation = some n

/-- A `Notified` future is created while its `Notify` is still stored in `starting`. -/
def SubscribesInTime (shardOf : Task → Shard) (c : Config Task Shard Inst Error)
    (a : Action Task Shard Inst Error) : Prop :=
  ∀ t n, a = .notified t → c.pc t = .subscribe n → c.state.starting (shardOf t) = some n

/-- The starter publishes between the waiter's clone and the creation of its future. -/
def lateSubscriber : List (Action Bool Unit String String) :=
  [.enter false, .enter true, .spinUpReturns false (.ok "runner"), .publish false, .notified true]

/-- After `lateSubscriber` the second caller waits, not woken, on a `Notify` that has been
fired, and no reservation is left that would fire another one. -/
theorem lost_wakeup :
    ∃ c, exec (Factory.step fun _ : Bool => ()) initial lateSubscriber = some c ∧
      ¬ WaitersServed (fun _ => ()) c ∧
      c.pc true = .wait 0 false ∧ c.fired 0 = true ∧ c.state.starting () = none := by
  refine ⟨_, rfl, ?_, rfl, rfl, rfl⟩
  intro served
  exact absurd (served true 0 rfl).1 (by decide)

/-- The invariant of the runs that subscribe in time. -/
structure WakeInv (shardOf : Task → Shard) (c : Config Task Shard Inst Error) : Prop
    extends Inv shardOf c where
  stored_notify : ∀ t n, c.pc t = .wait n false → c.state.starting (shardOf t) = some n
  unfired : ∀ s n, c.state.starting s = some n → c.fired n = false
  fresh_unfired : ∀ n, c.fresh ≤ n → c.fired n = false

variable {shardOf : Task → Shard} {c d : Config Task Shard Inst Error} {t : Task}

omit [DecidableEq Task] in
theorem wake_inv_initial : WakeInv shardOf (initial : Config Task Shard Inst Error) where
  toInv := inv_initial shardOf
  stored_notify _ _ waits := by cases waits
  unfired _ _ found := by cases found
  fresh_unfired _ _ := rfl

omit [DecidableEq Task] in
theorem WakeInv.served (h : WakeInv shardOf c) : WaitersServed shardOf c := by
  intro t n waits
  have found := h.stored_notify t n waits
  obtain ⟨u, held, -⟩ := h.owned _ n found
  exact ⟨h.unfired _ n found, found, u, held⟩

/-- A move that does not start a wait keeps the waiters. -/
theorem WakeInv.goto (h : WakeInv shardOf c) {pc : Pc Inst Error}
    (inv : Inv shardOf (c.goto t pc))
    (waits : ∀ n, pc = .wait n false → c.state.starting (shardOf t) = some n) :
    WakeInv shardOf (c.goto t pc) where
  toInv := inv
  stored_notify u n hu := by
    by_cases here : u = t
    · subst here
      exact waits n (by simpa [Config.goto] using hu)
    · exact h.stored_notify u n (by simpa [Config.goto, here] using hu)
  unfired := h.unfired
  fresh_unfired := h.fresh_unfired

/-- A new reservation stores a `Notify` that nobody waits on and that has not been fired. -/
theorem WakeInv.reserve (h : WakeInv shardOf c) (uncached : c.state.instances (shardOf t) = none)
    (unreserved : c.state.starting (shardOf t) = none) :
    WakeInv shardOf (c.reserve t (shardOf t)) := by
  refine ⟨h.toInv.reserve uncached unreserved, ?_, ?_, fun n above => ?_⟩
  · intro u n waits
    by_cases here : u = t
    · subst here
      rw [Config.reserve_pc_self] at waits
      cases waits
    · rw [Config.reserve_pc_other here] at waits
      have found := h.stored_notify u n waits
      rw [Config.reserve_starting_other (elsewhere unreserved found)]
      exact found
  · intro s n found
    rcases Config.starting_of_reserve found with ⟨-, rfl⟩ | ⟨-, found⟩
    · exact h.fresh_unfired c.fresh (Nat.le_refl _)
    · exact h.unfired s n found
  · exact h.fresh_unfired n (Nat.le_of_succ_le above)

theorem WakeInv.enter_block (h : WakeInv shardOf c) (at_enter : c.pc t = .enter) :
    WakeInv shardOf (c.enterBlock t (shardOf t)) := by
  have inv := h.toInv.enter_block at_enter
  rcases enter_block_cases (shardOf t) h.unpoisoned with
    ⟨inst, same⟩ | ⟨n, same⟩ | ⟨uncached, unreserved, same⟩ <;> rw [same] at inv ⊢
  · exact h.goto inv nofun
  · exact h.goto inv nofun
  · exact h.reserve uncached unreserved

/-- Firing a `Notify` wakes everyone who waits on it, and only its own shard waits on it. -/
theorem WakeInv.release (h : WakeInv shardOf c) {n : NotifyId}
    (held : (c.pc t).reservation = some n) (result : Except Error Inst) :
    WakeInv shardOf (c.release t (shardOf t) n result) := by
  have mine := h.reserved t n held
  have kept : ∀ m, m ≠ n → c.fired m = false →
      (c.release t (shardOf t) n result).fired m = false := fun m other unfired =>
    (Function.update_of_ne other ..).trans unfired
  refine ⟨h.toInv.release held result, ?_, ?_, ?_⟩
  · intro u m waits
    have away : u ≠ t := by
      intro here
      subst here
      rw [Config.release_pc_self] at waits
      cases waits
    have before : c.pc u = .wait m false ∧ m ≠ n := by
      rw [Config.release_pc_other away] at waits
      cases at_u : c.pc u <;> rw [at_u] at waits <;> simp [Pc.wake] at waits
      obtain ⟨rfl, asleep, other⟩ := waits
      exact ⟨by rw [asleep], other⟩
    have found := h.stored_notify u m before.1
    have elsewhere : shardOf u ≠ shardOf t := by
      intro same
      rw [same, mine] at found
      exact before.2 (Option.some.inj found).symm
    rw [Config.release_starting_other elsewhere]
    exact found
  · intro s m found
    obtain ⟨here, before⟩ := Config.starting_of_release found
    have other : m ≠ n := by
      intro same
      subst same
      obtain ⟨u, reserved, rfl⟩ := h.owned s m before
      exact here (by rw [h.single u t m reserved held])
    exact kept m other (h.unfired s m before)
  · intro m above
    have other : m ≠ n := by
      intro same
      subst same
      exact absurd (h.below _ m mine) (Nat.not_lt.2 above)
    exact kept m other (h.fresh_unfired m above)

theorem WakeInv.step (h : WakeInv shardOf c) {a : Action Task Shard Inst Error}
    (inTime : SubscribesInTime shardOf c a) (taken : Factory.step shardOf c a = some d) :
    WakeInv shardOf d := by
  have inv := h.toInv.step taken
  rcases step_cases taken with ⟨t, -, at_pc, rfl⟩ | ⟨t, n, r, -, at_pc, rfl⟩ |
    ⟨t, n, r, -, at_pc, rfl⟩ | ⟨t, n, rfl, at_pc, rfl⟩ | ⟨t, n, -, at_pc, rfl⟩ | ⟨shard, -, rfl⟩
  · exact h.enter_block at_pc
  · exact h.goto inv nofun
  · rw [h.publish_block at_pc]
    exact h.release (by rw [at_pc]; rfl) r
  · refine h.goto inv fun m same => ?_
    cases same
    exact inTime t n rfl at_pc
  · exact h.goto inv nofun
  · exact ⟨inv, h.stored_notify, h.unfired, h.fresh_unfired⟩

/-- A future created too late is not served. -/
theorem late_subscriber_lost {a : Action Task Shard Inst Error}
    (late : ¬ SubscribesInTime shardOf c a) (taken : Factory.step shardOf c a = some d) :
    ¬ WaitersServed shardOf d := by
  intro served
  apply late
  rintro t n rfl at_pc
  simp only [Factory.step, at_pc, Option.some.injEq] at taken
  subst taken
  exact (served t n (by simp [Config.goto])).2.1

/-- **Exactly the late subscribers are lost.** All waiters are served in every state of a run
if and only if the run creates each `Notified` future while its `Notify` is still stored. -/
theorem waiters_served_iff (shardOf : Task → Shard) (as : List (Action Task Shard Inst Error)) :
    Always (Factory.step shardOf) (WaitersServed shardOf) initial as ↔
      Along (Factory.step shardOf) (SubscribesInTime shardOf) initial as :=
  always_iff_along (fun _ h => h.served) (fun _ _ _ h inTime taken => h.step inTime taken)
    (fun _ _ _ _ late taken => late_subscriber_lost late taken) wake_inv_initial

end SecurityAudits.WasmerWasix.Factory
