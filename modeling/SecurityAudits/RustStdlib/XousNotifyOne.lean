import SecurityAudits.RustStdlib.XousCondvar

/-!
# Notifying one waiter on Xous

A call of `notify_some(1)` that delivers to nobody leaves no waiter behind that was registered
with the server when it was called: `notify_one_wakes`. A waiter that is counted but not
registered yet it may leave behind, when the time-out of another one is credited to it.
-/

namespace SecurityAudits.RustStdlib.XousCondvar
set_option autoImplicit false
open SecurityAudits.Run

variable {Thread : Type} [DecidableEq Thread]

def Pc.isRegistered : Pc → Bool
  | .registered .. => true
  | _ => false

/-- The server has woken nobody for this request yet. -/
def Pc.wokeNone : Pc → Bool
  | .sending _ _ notified => notified == 0
  | _ => false

/-- The server answers a `NotifyCondition` with 0 only when no waiter is registered. -/
def Eager (c : Config Thread) : Action Thread → Prop
  | .reply t => (c.pc t).wokeNone = true → ∀ u, (c.pc u).isRegistered = false
  | _ => True

/-- A call of `notify_some(1)` by `t`, in a run: it starts in `c` and has returned in `e`. -/
structure NotifyOne (target : Target) (t : Thread) (before during : List (Action Thread))
    (c d e : Config Thread) : Prop where
  reached : exec (step target) initial before = some c
  called : step target c (.notify t 1) = some d
  ran : exec (step target) d during = some e
  inside : Along (step target) (fun s _ => s.pc t ≠ .locked) d during
  returned : e.pc t = .locked

/-- The wait `w` has timed out. -/
def TimedOut (c : Config Thread) (w : Nat) : Prop :=
  ∃ s, c.waits[w]? = some s ∧ s.timedOut = true

/-- The notifier of one waiter in a call that has delivered nothing. -/
def Pc.Unheard : Pc → Prop
  | .swapFirst n | .subFirst n _ | .loadCounter n => n = 1
  | .sending _ _ notified => notified = 0
  | .locked | .send .. | .subNotified .. | .swap .. | .sub .. => True
  | _ => False

/-- The notifier has been answered at least once, or is done. -/
def Pc.Asked (target : Target) : Pc → Prop
  | .send _ left | .sending _ left _ => left + 1 < target.tries
  | .swapFirst _ | .subFirst .. | .loadCounter _ => False
  | _ => True

/-- What the call has done so far for the waiters that were registered in `c`, when it began. -/
structure During (target : Target) (c : Config Thread) (t : Thread) (s : Config Thread) :
    Prop where
  inv : Inv target s
  unheard : (s.pc t).Unheard
  fate : ∀ u w ms, c.pc u = .registered w ms → s.pc u = .registered w ms ∨ TimedOut s w
  asked : (s.pc t).Asked target → ∀ u w ms, c.pc u = .registered w ms → TimedOut s w

section Call

variable {target : Target} {c d s s' : Config Thread} {t u : Thread} {a : Action Thread}
  {w ms : Nat}

theorem Pc.Unheard.holds {pc : Pc} (unheard : pc.Unheard) : pc.Holds := by
  cases pc <;> trivial

/-- A wait that has timed out stays so. -/
theorem TimedOut.turn (inv : Inv target s) (turn : Turn target s a s') (lost : TimedOut s w) :
    TimedOut s' w := by
  obtain ⟨r, found, timedOut⟩ := lost
  cases turn with
  | inner t before pc holder here moved => subst moved; exact ⟨r, found, timedOut⟩
  | wait t ms here fits moved =>
    subst moved
    have old := (List.getElem?_eq_some_iff.1 found).1
    exact ⟨r, (List.getElem?_append_left old).trans found, timedOut⟩
  | mark u before pc w' q q' n here ticket goes transit free sound marks moved =>
    subst moved here
    have mine := inv.tickets.mine u w' q ticket
    by_cases same : w' = w
    · subst same
      refine ⟨q', List.getElem?_set_self (List.getElem?_eq_some_iff.1 found).1, ?_⟩
      rcases marks with ⟨_, rfl, _⟩ | ⟨_, rfl, _⟩ <;> rfl
    · exact ⟨r, (List.getElem?_set_ne same).trans found, timedOut⟩
  | deliver t u remaining left notified w' ms notifier waiter less action moved =>
    subst moved
    have mine := inv.tickets.mine u w' .waiting (by rw [waiter]; rfl)
    have other : w' ≠ w := by
      rintro rfl
      rw [mine] at found
      cases found
      cases timedOut
    exact ⟨r, (List.getElem?_set_ne other).trans found, timedOut⟩
  | swap t before pc here holds told wait transit sound moved =>
    subst moved
    refine ⟨r.reconcile, ?_, ?_⟩
    · rw [List.getElem?_map, found]; rfl
    · cases r <;> first | rfl | cases timedOut
  | subtract t before pc here holds wait transit sound moved =>
    subst moved; exact ⟨r, found, timedOut⟩

/-- A registered waiter stays registered until it is woken or times out. -/
theorem registered_turn (inv : Inv target s) (turn : Turn target s a s')
    (undelivered : ∀ t v, a ≠ .deliver t v) (here : s.pc u = .registered w ms) :
    s'.pc u = .registered w ms ∨ TimedOut s' w := by
  have kept : ∀ {t before pc}, s.pc t = before → before ≠ .registered w ms →
      Function.update s.pc t pc u = .registered w ms := by
    intro t before pc there other
    refine (Function.update_of_ne ?_ ..).trans here
    rintro rfl
    exact other (there.symm.trans here)
  cases turn with
  | inner t before pc holder there moved wait transit sound awake mutex =>
    subst moved
    exact Or.inl (kept there (awake w ms))
  | wait t ms' there fits moved =>
    subst moved
    exact Or.inl (kept there nofun)
  | mark v before pc w' q q' n there ticket goes transit free sound marks moved =>
    subst moved
    by_cases same : before = .registered w ms
    · have mine := inv.tickets.mine v w' q (by rw [there]; exact ticket)
      rw [same] at ticket
      cases ticket
      refine Or.inr ⟨q', List.getElem?_set_self (List.getElem?_eq_some_iff.1 mine).1, ?_⟩
      rcases marks with ⟨_, rfl, _⟩ | ⟨_, rfl, _⟩ <;> rfl
    · exact Or.inl (kept there same)
  | deliver t v remaining left notified w' ms' notifier waiter less action moved =>
    exact absurd action (undelivered t v)
  | swap t before pc there holds told wait transit sound moved =>
    subst moved
    exact Or.inl (kept there fun same => by rw [same] at holds; exact holds)
  | subtract t before pc there holds wait transit sound moved =>
    subst moved
    exact Or.inl (kept there fun same => by rw [same] at holds; exact holds)

theorem move_other {v : Thread} (other : t ≠ v) (taken : move target s v = some s') :
    s'.pc t = s.pc t := by
  simp only [move] at taken
  split at taken
  all_goals try split at taken
  all_goals try split at taken
  all_goals
    cases taken
    try exact Function.update_of_ne other ..

/-- A thread starts its calls, and gives the mutex back, with nothing under way. -/
theorem call_locked (taken : step target s a = some s')
    (call : a = .unlock u ∨ (∃ ms, a = .wait u ms) ∨ ∃ n, a = .notify u n) : s.pc u = .locked := by
  rcases call with rfl | ⟨ms, rfl⟩ | ⟨n, rfl⟩
  all_goals
    simp only [step] at taken
    split at taken
    · assumption
    · cases taken

/-- The other threads and the server do not move a notifier that is inside its call. -/
theorem notifier_step (inv : Inv target s) (unheard : (s.pc t).Unheard)
    (inside : s.pc t ≠ .locked) (undelivered : ∀ v, a ≠ .deliver t v)
    (taken : step target s a = some s') :
    a = .move t ∨ a = .reply t ∨
      (s'.pc t = s.pc t ∧ Fits target s a ∧ ∀ v u, a ≠ .deliver v u) := by
  have mutex : ∀ v, (s.pc v).Holds → v = t := fun v holds =>
    Option.some.inj ((inv.mutex v holds).symm.trans (inv.mutex t unheard.holds))
  have held := inv.mutex t unheard.holds
  have locked : ∀ v, s.pc v ≠ .locked := by
    intro v here
    rw [mutex v (by rw [here]; trivial)] at here
    exact inside here
  cases a with
  | lock v =>
    rw [step, held] at taken
    split at taken
    · rename_i free; cases free
    · cases taken
  | unlock v => exact absurd (call_locked taken (Or.inl rfl)) (locked v)
  | wait v ms => exact absurd (call_locked taken (Or.inr (Or.inl ⟨ms, rfl⟩))) (locked v)
  | notify v n => exact absurd (call_locked taken (Or.inr (Or.inr ⟨n, rfl⟩))) (locked v)
  | move v =>
    by_cases same : v = t
    · exact Or.inl (by rw [same])
    · refine Or.inr (Or.inr ⟨?_, trivial, fun _ _ same => by cases same⟩)
      exact move_other (Ne.symm same) taken
  | expire v =>
    simp only [step] at taken
    split at taken <;> cases taken
    rename_i w ms here
    refine Or.inr (Or.inr ⟨Function.update_of_ne ?_ .., trivial, fun _ _ same => by cases same⟩)
    rintro rfl
    rw [here] at unheard
    exact unheard
  | deliver v u =>
    simp only [step] at taken
    split at taken
    · rename_i here _
      exact absurd (by rw [mutex v (by rw [here]; trivial)]) (undelivered u)
    · cases taken
  | reply v =>
    simp only [step] at taken
    split at taken
    · rename_i here
      exact Or.inr (Or.inl (by rw [mutex v (by rw [here]; trivial)]))
    · cases taken

omit [DecidableEq Thread] in
theorem no_registered (inv : Inv target s) (zero : s.counter = 0) (u : Thread)
    (w ms : Nat) : s.pc u ≠ .registered w ms := by
  intro here
  have found := inv.tickets.mine u w .waiting (by rw [here]; rfl)
  have counted : 0 < s.waits.countP Status.pending :=
    List.countP_pos_iff.2 ⟨_, List.mem_of_getElem? found, rfl⟩
  have balance := inv.balance
  omega

/-- A step of the notifier's own. -/
theorem During.move (during : During target c t s) (inside : s.pc t ≠ .locked)
    (taken : move target s t = some s') (lost : ∀ {w}, TimedOut s w → TimedOut s' w) :
    (s'.pc t).Unheard ∧
      ((s'.pc t).Asked target → ∀ u w ms, c.pc u = .registered w ms → TimedOut s' w) := by
  have unheard := during.unheard
  have asked : (s.pc t).Asked target →
      ∀ u w ms, c.pc u = .registered w ms → TimedOut s' w :=
    fun asked u w ms here => lost (during.asked asked u w ms here)
  cases here : s.pc t with
  | idle | counted _ _ | unlocked _ _ | registered _ _ | expired _ | relock _ =>
    rw [here] at unheard
    exact unheard.elim
  | locked => exact absurd here inside
  | swapFirst n | subFirst n _ =>
    rw [here] at unheard
    simp only [XousCondvar.move, here] at taken
    cases taken
    simp only [Config.goto, Function.update_self]
    exact ⟨unheard, False.elim⟩
  | loadCounter n =>
    rw [here] at unheard
    simp only [XousCondvar.move, here] at taken
    split at taken
    · rename_i zero
      cases taken
      simp only [Config.goto, Function.update_self]
      refine ⟨trivial, fun _ u w ms registered => lost ?_⟩
      rcases during.fate u w ms registered with still | timedOut
      · exact absurd still (no_registered during.inv zero u w ms)
      · exact timedOut
    · rename_i some
      split at taken
      · rename_i none
        rw [show n = 1 from unheard] at none
        omega
      · cases taken
        obtain ⟨fewer, all⟩ := Nat.exists_eq_succ_of_ne_zero (Nat.ne_of_gt target.tries_pos)
        simp only [Config.goto, Function.update_self, all, attempt]
        exact ⟨trivial, fun asked => absurd asked (by rw [Pc.Asked, all]; exact Nat.lt_irrefl _)⟩
  | send remaining left =>
    rw [here] at asked
    simp only [XousCondvar.move, here] at taken
    cases taken
    simp only [Config.goto, Function.update_self]
    exact ⟨rfl, asked⟩
  | sending _ _ _ => simp only [XousCondvar.move, here] at taken; cases taken
  | subNotified _ _ _ | swap _ _ =>
    rw [here] at asked
    simp only [XousCondvar.move, here] at taken
    cases taken
    simp only [Config.goto, Function.update_self]
    exact ⟨trivial, fun _ => asked trivial⟩
  | sub remaining left timedOut =>
    rw [here] at asked
    simp only [XousCondvar.move, here] at taken
    cases taken
    simp only [Config.goto, Function.update_self]
    refine ⟨?_, fun _ => asked trivial⟩
    split
    · trivial
    · rcases attempt_cases (remaining - timedOut) left with same | ⟨_, _, same⟩ <;>
        rw [same] <;> trivial

/-- The server's answer, which is 0 and so finds no waiter registered. -/
theorem During.reply (during : During target c t s) (eager : Eager s (.reply t))
    (taken : step target s (.reply t) = some s') :
    (s'.pc t).Unheard ∧
      ((s'.pc t).Asked target → ∀ u w ms, c.pc u = .registered w ms → TimedOut s' w) := by
  have unheard := during.unheard
  simp only [step] at taken
  split at taken <;> cases taken
  rename_i remaining left notified here
  rw [here] at unheard
  obtain rfl : notified = 0 := unheard
  rw [Eager, here] at eager
  simp only [Config.goto, Function.update_self]
  refine ⟨trivial, fun _ u w ms registered => ?_⟩
  rcases during.fate u w ms registered with still | timedOut
  · have nobody := eager rfl u
    rw [still] at nobody
    cases nobody
  · exact timedOut

theorem During.step (during : During target c t s) (inside : s.pc t ≠ .locked)
    (eager : Eager s a) (undelivered : ∀ v, a ≠ .deliver t v)
    (taken : step target s a = some s') : During target c t s' := by
  have moves := notifier_step during.inv during.unheard inside undelivered taken
  have fits : Fits target s a := by
    rcases moves with rfl | rfl | ⟨_, fits, _⟩
    · trivial
    · trivial
    · exact fits
  have quiet : ∀ v u, a ≠ .deliver v u := by
    rcases moves with rfl | rfl | ⟨_, _, quiet⟩
    · nofun
    · nofun
    · exact quiet
  have turn := turn_of_step during.inv fits taken
  have lost : ∀ {w}, TimedOut s w → TimedOut s' w := fun lost => lost.turn during.inv turn
  have fate : ∀ u w ms, c.pc u = .registered w ms →
      s'.pc u = .registered w ms ∨ TimedOut s' w := by
    intro u w ms here
    rcases during.fate u w ms here with still | timedOut
    · exact registered_turn during.inv turn quiet still
    · exact Or.inr (lost timedOut)
  have goes : (s'.pc t).Unheard ∧
      ((s'.pc t).Asked target → ∀ u w ms, c.pc u = .registered w ms → TimedOut s' w) := by
    rcases moves with own | own | ⟨same, _, _⟩
    · subst own; exact during.move inside taken lost
    · subst own; exact during.reply eager taken
    · rw [same]
      exact ⟨during.unheard, fun asked u w ms here => lost (during.asked asked u w ms here)⟩
  exact ⟨during.inv.turn turn, goes.1, fate, goes.2⟩

end Call

/-- **No registered waiter is passed over.** When a call of `notify_some(1)` returns, either it
has delivered a notification, or every waiter that was registered with the server when it was
called has timed out. -/
theorem notify_one_wakes (target : Target) (t : Thread) (before during : List (Action Thread))
    (c d e : Config Thread) (call : NotifyOne target t before during c d e)
    (fits : Along (step target) (Fits target) initial before)
    (eager : Along (step target) Eager d during) :
    (∃ u, .deliver t u ∈ during) ∨ ∀ u w ms, c.pc u = .registered w ms → TimedOut e w := by
  by_cases delivered : ∃ u, .deliver t u ∈ during
  · exact Or.inl delivered
  have inv := inv_of_run fits call.reached
  have here : c.pc t = .locked ∧ d = c.goto t (.swapFirst 1) := by
    have called := call.called
    simp only [step] at called
    split at called <;> cases called
    exact ⟨by assumption, rfl⟩
  obtain ⟨here, rfl⟩ := here
  have start : During target c t (c.goto t (.swapFirst 1)) := by
    have fits : Fits target c (.notify t 1) := trivial
    refine ⟨inv.step fits call.called, ?_, fun u w ms registered => Or.inl ?_, ?_⟩
    · rw [show (c.goto t (.swapFirst 1)).pc t = _ from Function.update_self ..]; rfl
    · have other : u ≠ t := by rintro rfl; cases here.symm.trans registered
      exact (Function.update_of_ne other ..).trans registered
    · rw [show (c.goto t (.swapFirst 1)).pc t = _ from Function.update_self ..]; exact False.elim
  have undelivered : Along (step target) (fun _ a => ∀ v, a ≠ .deliver t v)
      (c.goto t (.swapFirst 1)) during := by
    refine along_of_mem fun a member _ v same => delivered ⟨v, ?_⟩
    rwa [← same]
  have finish : During target c t e :=
    exec_invariant_along (fun _ _ _ during ok taken => during.step ok.1 ok.2.1 ok.2.2 taken) start
      (call.inside.and (eager.and undelivered)) call.ran
  refine Or.inr (finish.asked ?_)
  rw [call.returned]
  trivial

instance {p : Party → Prop} [DecidablePred p] : Decidable (∀ u, p u) :=
  decidable_of_iff (p .first ∧ p .second ∧ p .notifier)
    ⟨fun ⟨first, second, notifier⟩ u => match u with
      | .first => first
      | .second => second
      | .notifier => notifier, fun all => ⟨all _, all _, all _⟩⟩

instance (c : Config Party) (a : Action Party) : Decidable (Eager c a) :=
  match a with
  | .reply t => inferInstanceAs (Decidable ((c.pc t).wokeNone = true → ∀ _, _))
  | .lock _ | .unlock _ | .wait _ _ | .notify _ _ | .move _ | .expire _ | .deliver _ _ =>
    .isTrue trivial

/-- The first thread is registered, the second one is counted, and the notifier has the
mutex. -/
def twoWaiters : List (Action Party) :=
  [.lock .first, .wait .first 5, .move .first, .move .first, .lock .second, .wait .second 0,
    .move .second, .lock .notifier]

/-- The first thread times out before `NotifyCondition` is sent, and its time-out is credited to
the request; the second one registers too late for it. -/
def creditedTimeout : List (Action Party) :=
  [.move .notifier, .move .notifier, .move .notifier, .expire .first, .move .notifier,
    .reply .notifier, .move .notifier, .move .first, .move .notifier, .move .second,
    .move .notifier]

theorem notify_one_wakes_twoWaiters : ∃ c d e,
    NotifyOne xous .notifier twoWaiters creditedTimeout c d e ∧ c.pc .first = .registered 0 5 ∧
    ((∃ u, .deliver .notifier u ∈ creditedTimeout) ∨
      ∀ u w ms, c.pc u = .registered w ms → TimedOut e w) :=
  have call : NotifyOne xous .notifier twoWaiters creditedTimeout _ _ _ :=
    ⟨rfl, rfl, rfl, by decide +kernel, rfl⟩
  ⟨_, _, _, call, rfl, notify_one_wakes xous Party.notifier _ _ _ _ _ call (by decide +kernel)
    (by decide +kernel)⟩

/-- Where `counter` is 0 the call returns at once. -/
theorem notifyOne_of_zero {target : Target} {t : Thread} {before : List (Action Thread)}
    {c : Config Thread} (reached : exec (step target) initial before = some c)
    (here : c.pc t = .locked) (zero : c.counter = 0) :
    ∃ d e, NotifyOne target t before [.move t, .move t, .move t] c d e ∧ e.pc = c.pc := by
  have locked : Function.update c.pc t .locked = c.pc := by rw [← here, Function.update_eq_self]
  refine ⟨c.goto t (.swapFirst 1), { c with timedOut := 0, waits := c.waits.map Status.reconcile },
    ⟨reached, by simp only [step, here], ?_, ?_, here⟩, rfl⟩
  · simp [exec_cons, step, move, Config.goto, zero, locked]
  · simp [Along, step, move, Config.goto]

/-- Thread `false` waits; so many time-outs of `true` pile up that `counter` is 0 again. -/
def wrappedCounter : List (Action Bool) :=
  [.lock false, .wait false 0, .move false, .move false] ++
    ((List.replicate 4294967295 (timedOutWait true)).flatten ++ [.lock true])

theorem wrapped_passed_over :
    ∃ c d e, NotifyOne xous true wrappedCounter [.move true, .move true, .move true] c d e ∧
      c.pc false = .registered 0 0 ∧ e.pc false = .registered 0 0 := by
  obtain ⟨c, first, free, idle, one, none, blocked⟩ : ∃ c : Config Bool,
      exec (step xous) initial [.lock false, .wait false 0, .move false, .move false] = some c ∧
      c.holder = none ∧ c.pc true = .idle ∧ c.counter = 1 ∧ c.timedOut = 0 ∧
      c.pc false = .registered 0 0 := ⟨_, rfl, rfl, rfl, rfl, rfl, rfl⟩
  obtain ⟨l, piled⟩ := exec_timedOutWaits xous true 4294967295 c free idle
    (by rw [one]; decide) (by rw [none]; decide)
  rw [one, none] at piled
  have wraps : (1 + 4294967295) % xous.usize = 0 := by decide
  have counts : (0 + 4294967295) % xous.usize = 4294967295 := by decide
  rw [wraps, counts] at piled
  have reached : exec (step xous) initial wrappedCounter =
      some ⟨0, 4294967295, some true, Function.update c.pc true .locked, l⟩ := by
    rw [wrappedCounter, exec_append, first, Option.bind_some, exec_append, piled, Option.bind_some,
      exec_cons, step, idle]
    rfl
  obtain ⟨d, e, call, same⟩ := notifyOne_of_zero reached (t := true) rfl rfl
  exact ⟨_, d, e, call, blocked, same ▸ blocked⟩

/-- A waiter that is counted but not registered is left waiting, without a notification and
without having timed out; and when as many time-outs as `usize` can count have piled up, one
that is registered. -/
theorem waiter_passed_over :
    (∃ c d e, NotifyOne xous .notifier twoWaiters creditedTimeout c d e ∧
      Along (step xous) Eager d creditedTimeout ∧ (∀ u, .deliver .notifier u ∉ creditedTimeout) ∧
      c.pc .second = .unlocked 1 0 ∧ e.pc .second = .registered 1 0) ∧
    ∃ c d e, NotifyOne xous true wrappedCounter [.move true, .move true, .move true] c d e ∧
      c.pc false = .registered 0 0 ∧ e.pc false = .registered 0 0 :=
  ⟨⟨_, _, _, ⟨rfl, rfl, rfl, by decide +kernel, rfl⟩, by decide +kernel, by decide +kernel,
    rfl, rfl⟩, wrapped_passed_over⟩

end SecurityAudits.RustStdlib.XousCondvar
