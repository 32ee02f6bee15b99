import SecurityAudits.Lib.Run
import Mathlib.Logic.Function.Basic

/-!
# The condition variable on Xous

`wait_ms` counts the waiter under the mutex, unlocks it, and only then asks the ticktimer
server to block it; a wait that timed out is recorded in `timed_out`. `notify_some` asks the
server to wake waiters, a few times over, and takes off `counter` what was woken and what has
timed out. Every access to the two counters and every message is a step of its own.
-/

namespace SecurityAudits.RustStdlib.XousCondvar
set_option autoImplicit false
open SecurityAudits.Run

/-- The number of values of `usize`, and `NOTIFY_TRIES`. -/
structure Target where
  usize : Nat
  tries : Nat
  usize_pos : 0 < usize
  tries_pos : 0 < tries

/-- What has become of a wait: not woken yet, woken by a `NotifyCondition`, timed out, recorded
in `timed_out`, taken from `timed_out` by a notifier. -/
inductive Status
  | waiting
  | delivered
  | expired
  | recorded
  | reconciled
  deriving DecidableEq

/-- Neither delivered nor reconciled. -/
def Status.pending : Status → Bool
  | waiting | expired | recorded => true
  | delivered | reconciled => false

/-- Its thread has still to be woken, or to record that it was not. -/
def Status.blocked : Status → Bool
  | waiting | expired => true
  | _ => false

def Status.timedOut : Status → Bool
  | expired | recorded | reconciled => true
  | _ => false

/-- A notifier takes all of `timed_out`. -/
def Status.reconcile : Status → Status
  | recorded => reconciled
  | s => s

/-- Where a thread stands: outside with or without the mutex; in `wait_ms`, before
`mutex.unlock`, before `WaitForCondition`, in the server, before `timed_out.fetch_add`, and
before `mutex.lock`; and in `notify_some` before each of its steps, where `left` counts the
tries after this one. -/
inductive Pc
  | idle
  | locked
  | counted (wait ms : Nat)
  | unlocked (wait ms : Nat)
  | registered (wait ms : Nat)
  | expired (wait : Nat)
  | relock (awoken : Bool)
  | swapFirst (toNotify : Nat)
  | subFirst (toNotify timedOut : Nat)
  | loadCounter (toNotify : Nat)
  | send (remaining left : Nat)
  | sending (remaining left notified : Nat)
  | subNotified (remaining left notified : Nat)
  | swap (remaining left : Nat)
  | sub (remaining left timedOut : Nat)
  deriving DecidableEq

/-- The thread holds the mutex. -/
def Pc.Holds : Pc → Prop
  | .idle | .unlocked .. | .registered .. | .expired _ | .relock _ => False
  | _ => True

/-- The wait a thread is blocked in. -/
def Pc.wait : Pc → Option (Nat × Status)
  | .counted w _ | .unlocked w _ | .registered w _ => some (w, .waiting)
  | .expired w => some (w, .expired)
  | _ => none

/-- What a notifier has been told and has not taken off `counter` yet. -/
def Pc.transit : Pc → Nat
  | .subFirst _ n | .sending _ _ n | .subNotified _ _ n | .sub _ _ n => n
  | _ => 0

/-- The condition variable and its mutex, the threads, and what became of every call of
`wait_ms` so far. -/
structure Config (Thread : Type) where
  counter : Nat
  timedOut : Nat
  holder : Option Thread
  pc : Thread → Pc
  waits : List Status

/-- What a thread calls, what the server does, and `move` for the next step of a thread's
own. -/
inductive Action (Thread : Type)
  | lock (t : Thread)
  | unlock (t : Thread)
  | wait (t : Thread) (ms : Nat)
  | notify (t : Thread) (toNotify : Nat)
  | move (t : Thread)
  | expire (u : Thread)
  | deliver (t u : Thread)
  | reply (t : Thread)
  deriving DecidableEq

variable {Thread : Type} [DecidableEq Thread]

def Config.goto (c : Config Thread) (t : Thread) (pc : Pc) : Config Thread :=
  { c with pc := Function.update c.pc t pc }

/-- The head of the loop of `notify_some` with `left` tries to go. -/
def attempt (remaining : Nat) : Nat → Pc
  | 0 => .locked
  | left + 1 => .send remaining left

/-- The next step of a thread that does not depend on the server. -/
def move (target : Target) (c : Config Thread) (t : Thread) : Option (Config Thread) :=
  match c.pc t with
  | .counted w ms => some { c.goto t (.unlocked w ms) with holder := none }
  | .unlocked w ms => some (c.goto t (.registered w ms))
  | .expired w =>
    some { c.goto t (.relock false) with
      timedOut := (c.timedOut + 1) % target.usize, waits := c.waits.set w .recorded }
  | .relock _ =>
    match c.holder with
    | none => some { c.goto t .locked with holder := some t }
    | some _ => none
  | .swapFirst toNotify =>
    some { c.goto t (.subFirst toNotify c.timedOut) with
      timedOut := 0, waits := c.waits.map .reconcile }
  | .subFirst toNotify timedOut =>
    some { c.goto t (.loadCounter toNotify) with counter := c.counter - timedOut }
  | .loadCounter toNotify =>
    if c.counter = 0 then some (c.goto t .locked)
    else
      let remaining := min c.counter toNotify
      if remaining = 0 then some (c.goto t .locked)
      else some (c.goto t (attempt remaining target.tries))
  | .send remaining left => some (c.goto t (.sending remaining left 0))
  | .subNotified remaining left notified =>
    some { c.goto t (.swap ((remaining + target.usize - notified) % target.usize) left) with
      counter := c.counter - notified }
  | .swap remaining left =>
    some { c.goto t (.sub remaining left c.timedOut) with
      timedOut := 0, waits := c.waits.map .reconcile }
  | .sub remaining left timedOut =>
    let remaining := remaining - timedOut
    some { c.goto t (if remaining = 0 then .locked else attempt remaining left) with
      counter := c.counter - timedOut }
  | _ => none

/-- The server wakes only registered waiters, for one request no more than it asks for, and
lets a wait of 0 ms go on for ever. -/
def step (target : Target) (c : Config Thread) : Action Thread → Option (Config Thread)
  | .lock t =>
    match c.pc t, c.holder with
    | .idle, none => some { c.goto t .locked with holder := some t }
    | _, _ => none
  | .unlock t =>
    match c.pc t with
    | .locked => some { c.goto t .idle with holder := none }
    | _ => none
  | .wait t ms =>
    match c.pc t with
    | .locked =>
      some { c.goto t (.counted c.waits.length ms) with
        counter := (c.counter + 1) % target.usize, waits := c.waits ++ [.waiting] }
    | _ => none
  | .notify t toNotify =>
    match c.pc t with
    | .locked => some (c.goto t (.swapFirst toNotify))
    | _ => none
  | .move t => move target c t
  | .expire u =>
    match c.pc u with
    | .registered w (_ + 1) =>
      some { c.goto u (.expired w) with waits := c.waits.set w .expired }
    | _ => none
  | .deliver t u =>
    match c.pc t, c.pc u with
    | .sending remaining left notified, .registered w _ =>
      if notified < remaining then
        some { (c.goto t (.sending remaining left (notified + 1))).goto u (.relock true) with
          waits := c.waits.set w .delivered }
      else none
    | _, _ => none
  | .reply t =>
    match c.pc t with
    | .sending remaining left notified => some (c.goto t (.subNotified remaining left notified))
    | _ => none

def initial : Config Thread := ⟨0, 0, none, fun _ => .idle, []⟩

/-- The assertion of `Drop`. -/
def dropAssertion (c : Config Thread) : Bool := c.counter == c.timedOut

/-- `counter.fetch_add(1)` does not wrap. -/
def Fits (target : Target) (c : Config Thread) : Action Thread → Prop
  | .wait _ _ => c.counter + 1 < target.usize
  | _ => True

/-- What the notifier has been told and has not taken off `counter` yet. -/
def Config.transit (c : Config Thread) : Nat :=
  match c.holder with
  | none => 0
  | some t => (c.pc t).transit

/-! ## Counting waits -/

section Waits

variable {l : List Status} {i : Nat} {s s' : Status}

theorem countP_set_add (p : Status → Bool) (s' : Status) (found : l[i]? = some s) :
    (l.set i s').countP p + (p s).toNat = l.countP p + (p s').toNat := by
  obtain ⟨inside, rfl⟩ := List.getElem?_eq_some_iff.1 found
  have counted : (p l[i]).toNat ≤ l.countP p := by
    cases holds : p l[i] with
    | false => exact Nat.zero_le _
    | true => exact List.countP_pos_iff.2 ⟨_, List.getElem_mem inside, holds⟩
  have toNat : ∀ b : Bool, (if b = true then 1 else 0) = b.toNat := by decide
  rw [List.countP_set inside, toNat, toNat]
  omega

theorem count_recorded_le : l.count .recorded ≤ l.countP Status.pending := by
  refine List.countP_mono_left fun s _ recorded => ?_
  rw [eq_of_beq recorded]; rfl

/-- Where every wait has been delivered, recorded or reconciled, those neither delivered nor
reconciled are the recorded ones. -/
theorem countP_pending_of_settled (settled : ∀ s ∈ l, s.blocked = false) :
    l.countP Status.pending = l.count .recorded := by
  refine List.countP_congr fun s member => ?_
  have settled := settled s member
  cases s <;> simp_all [Status.pending, Status.blocked]

theorem countP_reconcile :
    (l.map Status.reconcile).countP Status.pending + l.count .recorded =
      l.countP Status.pending := by
  induction l with
  | nil => rfl
  | cons s l ih =>
    rw [List.countP_map] at ih ⊢
    rw [List.countP_cons, List.countP_cons, List.count_cons]
    cases s <;> simp [Status.reconcile, Status.pending] <;> omega

theorem count_recorded_reconcile : (l.map Status.reconcile).count Status.recorded = 0 := by
  refine List.count_eq_zero.2 fun member => ?_
  obtain ⟨s, _, recorded⟩ := List.mem_map.1 member
  cases s <;> cases recorded

theorem reconcile_eq_blocked (blocked : s.blocked = true) : s'.reconcile = s ↔ s' = s := by
  cases s <;> cases s' <;> simp_all [Status.reconcile, Status.blocked]

end Waits

/-! ## The waits that threads are blocked in -/

/-- Each wait that is blocked belongs to one thread, which knows what has become of it. -/
structure Tickets (pc : Thread → Pc) (waits : List Status) : Prop where
  mine : ∀ t w s, (pc t).wait = some (w, s) → waits[w]? = some s
  owner : ∀ w s, waits[w]? = some s → s.blocked = true → ∃ t, (pc t).wait = some (w, s)
  unique : ∀ t u w s s', (pc t).wait = some (w, s) → (pc u).wait = some (w, s') → t = u

section Tickets

variable {pc : Thread → Pc} {waits : List Status} {t : Thread} {next : Pc} {w : Nat}
  {s s' : Status}

theorem Pc.blocked_of_wait {pc : Pc} (ticket : pc.wait = some (w, s)) : s.blocked = true := by
  cases pc <;> cases ticket <;> rfl

theorem Tickets.keep (tickets : Tickets pc waits) (same : next.wait = (pc t).wait) :
    Tickets (Function.update pc t next) waits := by
  have wait_eq : ∀ u, (Function.update pc t next u).wait = (pc u).wait :=
    (Function.forall_update_iff pc fun u p => p.wait = (pc u).wait).2 ⟨same, fun _ _ => rfl⟩
  refine ⟨fun u => ?_, fun w s found blocked => ?_, fun u v => ?_⟩
  · rw [wait_eq u]; exact tickets.mine u
  · obtain ⟨u, ticket⟩ := tickets.owner w s found blocked
    exact ⟨u, (wait_eq u).trans ticket⟩
  · rw [wait_eq u, wait_eq v]; exact tickets.unique u v

/-- A thread that is in no wait starts one. -/
theorem Tickets.append (tickets : Tickets pc waits) (out : (pc t).wait = none)
    (starts : next.wait = some (waits.length, .waiting)) :
    Tickets (Function.update pc t next) (waits ++ [.waiting]) := by
  have old : ∀ u w s, (pc u).wait = some (w, s) → w < waits.length := fun u w s ticket =>
    (List.getElem?_eq_some_iff.1 (tickets.mine u w s ticket)).1
  have cases : ∀ u w s, (Function.update pc t next u).wait = some (w, s) →
      (u = t ∧ w = waits.length ∧ s = .waiting) ∨ (pc u).wait = some (w, s) := by
    intro u w s ticket
    by_cases same : u = t
    · subst same
      rw [Function.update_self, starts] at ticket
      cases ticket
      exact Or.inl ⟨rfl, rfl, rfl⟩
    · rw [Function.update_of_ne same] at ticket
      exact Or.inr ticket
  refine ⟨fun u w s ticket => ?_, fun w s found blocked => ?_, fun u v w s s' first second => ?_⟩
  · rcases cases u w s ticket with ⟨_, rfl, rfl⟩ | before
    · exact List.getElem?_concat_length
    · rw [List.getElem?_append_left (old u w s before)]
      exact tickets.mine u w s before
  · rcases Nat.lt_or_ge w waits.length with before | new
    · rw [List.getElem?_append_left before] at found
      obtain ⟨u, ticket⟩ := tickets.owner w s found blocked
      have other : u ≠ t := by rintro rfl; rw [out] at ticket; cases ticket
      exact ⟨u, by rw [Function.update_of_ne other]; exact ticket⟩
    · rw [List.getElem?_append_right new, List.getElem?_singleton] at found
      split at found <;> cases found
      have last : w = waits.length := by omega
      exact ⟨t, by rw [Function.update_self, starts, last]⟩
  · rcases cases u w s first with ⟨rfl, rfl, _⟩ | before
    · rcases cases v _ s' second with ⟨rfl, _⟩ | before
      · rfl
      · exact absurd (old v _ s' before) (Nat.lt_irrefl _)
    · rcases cases v w s' second with ⟨rfl, rfl, _⟩ | before'
      · exact absurd (old u _ s before) (Nat.lt_irrefl _)
      · exact tickets.unique u v w s s' before before'

/-- What has become of the wait of a thread changes. -/
theorem Tickets.set (tickets : Tickets pc waits) (ticket : (pc t).wait = some (w, s))
    (goes : next.wait = if s'.blocked then some (w, s') else none) :
    Tickets (Function.update pc t next) (waits.set w s') := by
  have inside := (List.getElem?_eq_some_iff.1 (tickets.mine t w s ticket)).1
  have cases : ∀ u v r, (Function.update pc t next u).wait = some (v, r) →
      (u = t ∧ v = w ∧ r = s') ∨ (u ≠ t ∧ v ≠ w ∧ (pc u).wait = some (v, r)) := by
    intro u v r now
    by_cases same : u = t
    · subst same
      rw [Function.update_self, goes] at now
      split at now <;> cases now
      exact Or.inl ⟨rfl, rfl, rfl⟩
    · rw [Function.update_of_ne same] at now
      refine Or.inr ⟨same, ?_, now⟩
      rintro rfl
      exact same (tickets.unique u t v r s now ticket)
  refine ⟨fun u v r now => ?_, fun v r found blocked => ?_, fun u u' v r r' first second => ?_⟩
  · rcases cases u v r now with ⟨_, rfl, rfl⟩ | ⟨_, other, before⟩
    · exact List.getElem?_set_self inside
    · rw [List.getElem?_set_ne (Ne.symm other)]
      exact tickets.mine u v r before
  · by_cases same : v = w
    · subst same
      rw [List.getElem?_set_self inside] at found
      cases found
      exact ⟨t, by rw [Function.update_self, goes, if_pos blocked]⟩
    · rw [List.getElem?_set_ne (Ne.symm same)] at found
      obtain ⟨u, before⟩ := tickets.owner v r found blocked
      have other : u ≠ t := by
        rintro rfl
        rw [ticket] at before
        cases before
        exact same rfl
      exact ⟨u, by rw [Function.update_of_ne other]; exact before⟩
  · rcases cases u v r first with ⟨rfl, rfl, _⟩ | ⟨_, other, before⟩
    · rcases cases u' _ r' second with ⟨rfl, _⟩ | ⟨_, other, _⟩
      · rfl
      · exact absurd rfl other
    · rcases cases u' v r' second with ⟨_, rfl, _⟩ | ⟨_, _, before'⟩
      · exact absurd rfl other
      · exact tickets.unique u u' v r r' before before'

omit [DecidableEq Thread] in
theorem Tickets.reconcile (tickets : Tickets pc waits) :
    Tickets pc (waits.map Status.reconcile) := by
  refine ⟨fun u w s ticket => ?_, fun w s found blocked => ?_, tickets.unique⟩
  · rw [List.getElem?_map, tickets.mine u w s ticket]
    exact congrArg some ((reconcile_eq_blocked (Pc.blocked_of_wait ticket)).2 rfl)
  · rw [List.getElem?_map] at found
    obtain ⟨s', before, same⟩ := Option.map_eq_some_iff.1 found
    exact tickets.owner w s (((reconcile_eq_blocked blocked).1 same) ▸ before) blocked

end Tickets

/-! ## The steps -/

/-- A notifier asks for no more than `usize` holds, and is told of no more than it asked for. -/
def Pc.Sound (target : Target) : Pc → Prop
  | .send remaining _ | .swap remaining _ | .sub remaining _ _ => remaining < target.usize
  | .sending remaining _ notified | .subNotified remaining _ notified =>
    remaining < target.usize ∧ notified ≤ remaining
  | _ => True

/-- The balance: `counter` is what is neither delivered nor reconciled and what a notifier has
still to take off, and `timed_out` is what is recorded. -/
structure Inv (target : Target) (c : Config Thread) : Prop where
  balance : c.counter = c.waits.countP Status.pending + c.transit
  recorded : c.timedOut = c.waits.count .recorded
  bounded : c.counter < target.usize
  mutex : ∀ t, (c.pc t).Holds → c.holder = some t
  sound : ∀ t, (c.pc t).Sound target
  tickets : Tickets c.pc c.waits

/-- What a step can do: nothing to the counters, start a wait, go on with what has become of
one, deliver one, take `timed_out`, or take off `counter` what the notifier was told. -/
inductive Turn (target : Target) (c : Config Thread) (a : Action Thread) (d : Config Thread) : Prop
  | inner (t : Thread) (before pc : Pc) (holder : Option Thread) (here : c.pc t = before)
      (moved : d = { c.goto t pc with holder := holder })
      (wait : pc.wait = before.wait) (transit : pc.transit = before.transit)
      (sound : pc.Sound target) (awake : ∀ w ms, before ≠ .registered w ms)
      (mutex : (holder = c.holder ∧ (pc.Holds → before.Holds)) ∨
        (c.holder = none ∧ holder = some t ∧ pc.transit = 0) ∨
        (before.Holds ∧ holder = none ∧ ¬ pc.Holds ∧ pc.transit = 0))
  | wait (t : Thread) (ms : Nat) (here : c.pc t = .locked)
      (fits : c.counter + 1 < target.usize)
      (moved : d = { c.goto t (.counted c.waits.length ms) with
        counter := (c.counter + 1) % target.usize, waits := c.waits ++ [.waiting] })
  | mark (u : Thread) (before pc : Pc) (w : Nat) (s s' : Status) (timedOut : Nat)
      (here : c.pc u = before) (ticket : before.wait = some (w, s))
      (goes : pc.wait = if s'.blocked then some (w, s') else none)
      (transit : pc.transit = before.transit) (free : ¬ pc.Holds) (sound : pc.Sound target)
      (marks : (s = .waiting ∧ s' = .expired ∧ timedOut = c.timedOut) ∨
        (s = .expired ∧ s' = .recorded ∧ timedOut = (c.timedOut + 1) % target.usize))
      (moved : d = { c.goto u pc with timedOut := timedOut, waits := c.waits.set w s' })
  | deliver (t u : Thread) (remaining left notified w ms : Nat)
      (notifier : c.pc t = .sending remaining left notified)
      (waiter : c.pc u = .registered w ms) (less : notified < remaining) (action : a = .deliver t u)
      (moved : d = { (c.goto t (.sending remaining left (notified + 1))).goto u (.relock true) with
        waits := c.waits.set w .delivered })
  | swap (t : Thread) (before pc : Pc) (here : c.pc t = before) (holds : before.Holds)
      (told : before.transit = 0) (wait : pc.wait = before.wait)
      (transit : pc.transit = c.timedOut) (sound : pc.Sound target)
      (moved : d = { c.goto t pc with
        timedOut := 0, waits := c.waits.map Status.reconcile })
  | subtract (t : Thread) (before pc : Pc) (here : c.pc t = before) (holds : before.Holds)
      (wait : pc.wait = before.wait) (transit : pc.transit = 0) (sound : pc.Sound target)
      (moved : d = { c.goto t pc with counter := c.counter - before.transit })

section Steps

variable {target : Target} {c d : Config Thread} {t u : Thread} {pc : Pc} {a : Action Thread}

theorem attempt_cases (remaining left : Nat) :
    attempt remaining left = .locked ∨
      ∃ fewer, left = fewer + 1 ∧ attempt remaining left = .send remaining fewer := by
  cases left with
  | zero => exact Or.inl rfl
  | succ left => exact Or.inr ⟨left, rfl, rfl⟩

theorem transit_of_free (free : ¬ pc.Holds) : pc.transit = 0 := by
  cases pc <;> first | rfl | exact absurd trivial free

/-- Where the loop of `notify_some` goes on. -/
theorem attempt_spec {remaining : Nat} (less : remaining < target.usize) (left : Nat) :
    (attempt remaining left).wait = none ∧ (attempt remaining left).transit = 0 ∧
      (attempt remaining left).Holds ∧ (attempt remaining left).Sound target := by
  rcases attempt_cases remaining left with same | ⟨fewer, _, same⟩
  · rw [same]; exact ⟨rfl, rfl, trivial, trivial⟩
  · rw [same]; exact ⟨rfl, rfl, trivial, less⟩

theorem turn_of_loadCounter {toNotify : Nat} (inv : Inv target c)
    (here : c.pc t = .loadCounter toNotify) (taken : move target c t = some d) :
    Turn target c a d := by
  have stop : Turn target c a (c.goto t .locked) :=
    .inner t _ .locked c.holder here rfl rfl rfl trivial nofun (Or.inl ⟨rfl, fun _ => trivial⟩)
  simp only [move, here] at taken
  split at taken
  · cases taken; exact stop
  · split at taken
    · cases taken; exact stop
    · cases taken
      obtain ⟨wait, transit, _, sound⟩ := attempt_spec
        (Nat.lt_of_le_of_lt (Nat.min_le_left c.counter toNotify) inv.bounded) target.tries
      exact .inner t _ _ c.holder here rfl wait transit sound nofun
        (Or.inl ⟨rfl, fun _ => trivial⟩)

theorem turn_of_sub {remaining left timedOut : Nat} (inv : Inv target c)
    (here : c.pc t = .sub remaining left timedOut) (taken : move target c t = some d) :
    Turn target c a d := by
  have less : remaining - timedOut < target.usize := by
    have sound := inv.sound t
    rw [here] at sound
    exact Nat.lt_of_le_of_lt (Nat.sub_le ..) sound
  simp only [move, here] at taken
  cases taken
  obtain ⟨wait, transit, _, sound⟩ := attempt_spec less left
  split
  · exact .subtract t _ .locked here trivial rfl rfl trivial rfl
  · exact .subtract t _ _ here trivial wait transit sound rfl

theorem turn_of_move (inv : Inv target c) (taken : move target c t = some d) :
    Turn target c a d := by
  have sound := inv.sound t
  cases here : c.pc t with
  | counted w ms =>
    simp only [move, here] at taken
    cases taken
    exact .inner t _ (.unlocked w ms) none here rfl rfl rfl trivial nofun
      (Or.inr (Or.inr ⟨trivial, rfl, id, rfl⟩))
  | unlocked w ms =>
    simp only [move, here] at taken
    cases taken
    exact .inner t _ (.registered w ms) c.holder here rfl rfl rfl trivial nofun
      (Or.inl ⟨rfl, False.elim⟩)
  | expired w =>
    simp only [move, here] at taken
    cases taken
    exact .mark t _ (.relock false) w .expired .recorded _ here rfl rfl rfl id trivial
      (Or.inr ⟨rfl, rfl, rfl⟩) rfl
  | relock awoken =>
    simp only [move, here] at taken
    split at taken <;> cases taken
    rename_i free
    exact .inner t _ .locked (some t) here rfl rfl rfl trivial nofun
      (Or.inr (Or.inl ⟨free, rfl, rfl⟩))
  | swapFirst toNotify =>
    simp only [move, here] at taken
    cases taken
    exact .swap t _ (.subFirst toNotify c.timedOut) here trivial rfl rfl rfl trivial rfl
  | subFirst toNotify timedOut =>
    simp only [move, here] at taken
    cases taken
    exact .subtract t _ (.loadCounter toNotify) here trivial rfl rfl trivial rfl
  | loadCounter toNotify => exact turn_of_loadCounter inv here taken
  | send remaining left =>
    rw [here] at sound
    simp only [move, here] at taken
    cases taken
    exact .inner t _ (.sending remaining left 0) c.holder here rfl rfl rfl
      ⟨sound, Nat.zero_le _⟩ nofun (Or.inl ⟨rfl, fun _ => trivial⟩)
  | subNotified remaining left notified =>
    simp only [move, here] at taken
    cases taken
    exact .subtract t _ (.swap _ left) here trivial rfl rfl (Nat.mod_lt _ target.usize_pos) rfl
  | swap remaining left =>
    rw [here] at sound
    simp only [move, here] at taken
    cases taken
    exact .swap t _ (.sub remaining left c.timedOut) here trivial rfl rfl rfl sound rfl
  | sub remaining left timedOut => exact turn_of_sub inv here taken
  | idle | locked | registered _ _ | sending _ _ _ =>
    simp only [move, here] at taken
    cases taken

theorem turn_of_step (inv : Inv target c) (fits : Fits target c a)
    (taken : step target c a = some d) : Turn target c a d := by
  cases a with
  | lock t =>
    simp only [step] at taken
    split at taken <;> cases taken
    rename_i here free
    exact .inner t _ .locked (some t) here rfl rfl rfl trivial nofun
      (Or.inr (Or.inl ⟨free, rfl, rfl⟩))
  | unlock t =>
    simp only [step] at taken
    split at taken <;> cases taken
    rename_i here
    exact .inner t _ .idle none here rfl rfl rfl trivial nofun
      (Or.inr (Or.inr ⟨trivial, rfl, id, rfl⟩))
  | wait t ms =>
    simp only [step] at taken
    split at taken <;> cases taken
    rename_i here
    exact .wait t ms here fits rfl
  | notify t toNotify =>
    simp only [step] at taken
    split at taken <;> cases taken
    rename_i here
    exact .inner t _ (.swapFirst toNotify) c.holder here rfl rfl rfl trivial nofun
      (Or.inl ⟨rfl, fun _ => trivial⟩)
  | move t => exact turn_of_move inv taken
  | expire u =>
    simp only [step] at taken
    split at taken <;> cases taken
    rename_i w ms here
    exact .mark u _ (.expired w) w .waiting .expired c.timedOut here rfl rfl rfl id trivial
      (Or.inl ⟨rfl, rfl, rfl⟩) rfl
  | deliver t u =>
    simp only [step] at taken
    split at taken
    · rename_i remaining left notified w ms notifier waiter
      split at taken <;> cases taken
      rename_i less
      exact .deliver t u remaining left notified w ms notifier waiter less rfl rfl
    · cases taken
  | reply t =>
    have sound := inv.sound t
    simp only [step] at taken
    split at taken <;> cases taken
    rename_i remaining left notified here
    rw [here] at sound
    exact .inner t _ (.subNotified remaining left notified) c.holder here rfl rfl rfl sound nofun
      (Or.inl ⟨rfl, fun _ => trivial⟩)

end Steps

/-! ## The invariant -/

section Invariant

variable {target : Target} {c d : Config Thread} {t u : Thread} {pc : Pc}

omit [DecidableEq Thread] in
theorem Inv.transit_of_holds (inv : Inv target c) (holds : (c.pc t).Holds) :
    c.transit = (c.pc t).transit := by
  rw [Config.transit, inv.mutex t holds]

theorem transit_goto (same : pc.transit = (c.pc t).transit) :
    (c.goto t pc).transit = c.transit := by
  simp only [Config.transit, Config.goto]
  split
  · rfl
  · rename_i u _
    by_cases equal : u = t
    · rw [equal, Function.update_self, same]
    · rw [Function.update_of_ne equal]

theorem Inv.mutex_goto (inv : Inv target c) (fewer : pc.Holds → (c.pc t).Holds) :
    ∀ u, ((c.goto t pc).pc u).Holds → c.holder = some u :=
  (Function.forall_update_iff c.pc fun u p => p.Holds → c.holder = some u).2
    ⟨fun holds => inv.mutex t (fewer holds), fun u _ => inv.mutex u⟩

theorem Inv.sound_goto (inv : Inv target c) (sound : pc.Sound target) :
    ∀ u, ((c.goto t pc).pc u).Sound target :=
  (Function.forall_update_iff c.pc fun _ p => p.Sound target).2
    ⟨sound, fun u _ => inv.sound u⟩

omit [DecidableEq Thread] in
theorem inv_initial : Inv target (initial : Config Thread) where
  balance := rfl
  recorded := rfl
  bounded := target.usize_pos
  mutex _ holds := holds.elim
  sound _ := trivial
  tickets := ⟨nofun, nofun, nofun⟩

theorem Inv.inner (inv : Inv target c) {holder : Option Thread}
    (wait : pc.wait = (c.pc t).wait) (transit : pc.transit = (c.pc t).transit)
    (sound : pc.Sound target)
    (mutex : (holder = c.holder ∧ (pc.Holds → (c.pc t).Holds)) ∨
      (c.holder = none ∧ holder = some t ∧ pc.transit = 0) ∨
      ((c.pc t).Holds ∧ holder = none ∧ ¬ pc.Holds ∧ pc.transit = 0)) :
    Inv target { c.goto t pc with holder := holder } := by
  have balance := inv.balance
  refine ⟨?_, inv.recorded, inv.bounded, ?_, inv.sound_goto sound, inv.tickets.keep wait⟩
  · rcases mutex with ⟨rfl, _⟩ | ⟨free, rfl, zero⟩ | ⟨holds, rfl, _, zero⟩
    · exact balance.trans (congrArg _ (transit_goto transit).symm)
    · have before : c.transit = 0 := by rw [Config.transit, free]
      rw [before] at balance
      simp only [Config.transit, Config.goto, Function.update_self, zero]
      exact balance
    · rw [inv.transit_of_holds holds, ← transit, zero] at balance
      exact balance
  · rcases mutex with ⟨rfl, fewer⟩ | ⟨free, rfl, _⟩ | ⟨holds, rfl, free, _⟩
    · exact inv.mutex_goto fewer
    · refine (Function.forall_update_iff c.pc fun u p => p.Holds → some t = some u).2
        ⟨fun _ => rfl, fun u _ holds => ?_⟩
      rw [inv.mutex u holds] at free
      cases free
    · refine (Function.forall_update_iff c.pc fun u p => p.Holds → none = some u).2
        ⟨fun holds => absurd holds free, fun u other theirs => ?_⟩
      exact absurd (Option.some.inj ((inv.mutex u theirs).symm.trans (inv.mutex t holds))) other

theorem Inv.wait (inv : Inv target c) {ms : Nat} (here : c.pc t = .locked)
    (fits : c.counter + 1 < target.usize) :
    Inv target { c.goto t (.counted c.waits.length ms) with
      counter := (c.counter + 1) % target.usize, waits := c.waits ++ [.waiting] } := by
  have same : (Pc.counted c.waits.length ms).transit = (c.pc t).transit := by rw [here]; rfl
  refine ⟨?_, ?_, Nat.mod_lt _ target.usize_pos, inv.mutex_goto fun _ => by rw [here]; trivial,
    inv.sound_goto trivial, inv.tickets.append (by rw [here]; rfl) rfl⟩
  · have transit : Config.transit { c.goto t (.counted c.waits.length ms) with
        counter := (c.counter + 1) % target.usize, waits := c.waits ++ [.waiting] } = c.transit :=
      transit_goto same
    rw [transit, List.countP_append, Nat.mod_eq_of_lt fits, inv.balance]
    exact Nat.add_right_comm ..
  · exact inv.recorded.trans (by rw [List.count_append]; rfl)

theorem Inv.mark (inv : Inv target c) {w timedOut : Nat} {s s' : Status}
    (ticket : (c.pc u).wait = some (w, s))
    (goes : pc.wait = if s'.blocked then some (w, s') else none)
    (transit : pc.transit = (c.pc u).transit) (free : ¬ pc.Holds) (sound : pc.Sound target)
    (marks : (s = .waiting ∧ s' = .expired ∧ timedOut = c.timedOut) ∨
      (s = .expired ∧ s' = .recorded ∧ timedOut = (c.timedOut + 1) % target.usize)) :
    Inv target { c.goto u pc with timedOut := timedOut, waits := c.waits.set w s' } := by
  have found := inv.tickets.mine u w s ticket
  have counts := countP_set_add Status.pending s' found
  have records := countP_set_add (· == .recorded) s' found
  have within := count_recorded_le (l := c.waits.set w s')
  have recorded := inv.recorded
  have balance := inv.balance
  have bounded := inv.bounded
  rw [List.count] at within recorded
  have same : (c.waits.set w s').countP Status.pending = c.waits.countP Status.pending := by
    rcases marks with ⟨rfl, rfl, _⟩ | ⟨rfl, rfl, _⟩ <;> exact Nat.add_right_cancel counts
  refine ⟨?_, ?_, bounded, inv.mutex_goto fun holds => absurd holds free,
    inv.sound_goto sound, inv.tickets.set ticket goes⟩
  · rw [show Config.transit { c.goto u pc with
      timedOut := timedOut, waits := c.waits.set w s' } = c.transit from transit_goto transit, same]
    exact balance
  · rw [List.count]
    rcases marks with ⟨rfl, rfl, rfl⟩ | ⟨rfl, rfl, rfl⟩
    · exact recorded.trans (Nat.add_right_cancel records).symm
    · have grows : (c.waits.set w .recorded).countP (· == .recorded) = c.timedOut + 1 := by
        rw [recorded]; exact records
      rw [grows] at within ⊢
      exact Nat.mod_eq_of_lt (by omega)

theorem Inv.deliver (inv : Inv target c) {remaining left notified w ms : Nat}
    (notifier : c.pc t = .sending remaining left notified)
    (waiter : c.pc u = .registered w ms) (less : notified < remaining) :
    Inv target { (c.goto t (.sending remaining left (notified + 1))).goto u (.relock true) with
      waits := c.waits.set w .delivered } := by
  have other : u ≠ t := by rintro rfl; rw [notifier] at waiter; cases waiter
  have kept : (c.goto t (.sending remaining left (notified + 1))).pc u = .registered w ms :=
    (Function.update_of_ne other ..).trans waiter
  have ticket : (c.pc u).wait = some (w, .waiting) := by rw [waiter]; rfl
  have found := inv.tickets.mine u w _ ticket
  have counts := countP_set_add Status.pending .delivered found
  have records := countP_set_add (· == .recorded) .delivered found
  have holds : (c.pc t).Holds := by rw [notifier]; trivial
  have holder := inv.mutex t holds
  have sound := inv.sound t
  rw [notifier] at sound
  refine ⟨?_, inv.recorded.trans (Nat.add_right_cancel records).symm, inv.bounded, ?_, ?_, ?_⟩
  · have balance := inv.balance
    rw [inv.transit_of_holds holds, notifier] at balance
    simp only [Config.transit, Config.goto, holder, Function.update_of_ne (Ne.symm other),
      Function.update_self]
    simp only [Pc.transit] at balance ⊢
    simp only [Status.pending, Bool.toNat_true, Bool.toNat_false] at counts
    omega
  · refine (Function.forall_update_iff _ fun v (p : Pc) => p.Holds → c.holder = some v).2
      ⟨False.elim, fun v _ => inv.mutex_goto (fun _ => holds) v⟩
  · refine (Function.forall_update_iff _ fun _ (p : Pc) => p.Sound target).2
      ⟨trivial, fun v _ => inv.sound_goto (t := t) ?_ v⟩
    exact ⟨sound.1, less⟩
  · have still : ((c.goto t (.sending remaining left (notified + 1))).pc u).wait =
        some (w, .waiting) := by rw [kept]; rfl
    exact Tickets.set (inv.tickets.keep (by rw [notifier]; rfl)) still rfl

theorem Inv.swap (inv : Inv target c) (holds : (c.pc t).Holds) (told : (c.pc t).transit = 0)
    (wait : pc.wait = (c.pc t).wait) (transit : pc.transit = c.timedOut)
    (sound : pc.Sound target) :
    Inv target { c.goto t pc with timedOut := 0, waits := c.waits.map Status.reconcile } := by
  refine ⟨?_, count_recorded_reconcile.symm, inv.bounded, inv.mutex_goto fun _ => holds,
    inv.sound_goto sound, (inv.tickets.keep wait).reconcile⟩
  have balance := inv.balance
  have recorded := inv.recorded
  have taken := countP_reconcile (l := c.waits)
  rw [inv.transit_of_holds holds, told] at balance
  simp only [Config.transit, Config.goto, inv.mutex t holds, Function.update_self, transit]
  omega

theorem Inv.subtract (inv : Inv target c) (holds : (c.pc t).Holds)
    (wait : pc.wait = (c.pc t).wait) (transit : pc.transit = 0) (sound : pc.Sound target) :
    Inv target { c.goto t pc with counter := c.counter - (c.pc t).transit } := by
  refine ⟨?_, inv.recorded, Nat.lt_of_le_of_lt (Nat.sub_le ..) inv.bounded,
    inv.mutex_goto fun _ => holds, inv.sound_goto sound, inv.tickets.keep wait⟩
  have balance := inv.balance
  rw [inv.transit_of_holds holds] at balance
  simp only [Config.transit, Config.goto, inv.mutex t holds, Function.update_self, transit]
  omega

theorem Inv.turn (inv : Inv target c) {a : Action Thread} (turn : Turn target c a d) :
    Inv target d := by
  cases turn with
  | inner t before pc holder here moved wait transit sound awake mutex =>
    subst here
    exact moved ▸ inv.inner wait transit sound mutex
  | wait t ms here fits moved => exact moved ▸ inv.wait here fits
  | mark u before pc w s s' timedOut here ticket goes transit free sound marks moved =>
    subst here
    exact moved ▸ inv.mark ticket goes transit free sound marks
  | deliver t u remaining left notified w ms notifier waiter less action moved =>
    exact moved ▸ inv.deliver notifier waiter less
  | swap t before pc here holds told wait transit sound moved =>
    subst here
    exact moved ▸ inv.swap holds told wait transit sound
  | subtract t before pc here holds wait transit sound moved =>
    subst here
    exact moved ▸ inv.subtract holds wait transit sound

theorem Inv.step (inv : Inv target c) {a : Action Thread} (fits : Fits target c a)
    (taken : XousCondvar.step target c a = some d) : Inv target d :=
  inv.turn (turn_of_step inv fits taken)

theorem inv_of_run {actions : List (Action Thread)}
    (fits : Along (XousCondvar.step target) (Fits target) initial actions)
    (run : exec (XousCondvar.step target) initial actions = some c) : Inv target c :=
  exec_invariant_along (fun _ _ _ inv fits taken => inv.step fits taken) inv_initial fits run

end Invariant

/-- **The balance of the two counters.** In every run whose `counter.fetch_add` does not wrap,
in every state: `counter` is the number of waits neither delivered nor reconciled and of what
the notifier has been told and has not taken off yet; it is never below `timed_out`; no
subtraction of `notify_some` goes below zero; and when no thread is in a call the assertion of
`Drop` holds. -/
theorem counter_balance (target : Target) (actions : List (Action Thread)) (c : Config Thread)
    (fits : Along (step target) (Fits target) initial actions)
    (run : exec (step target) initial actions = some c) :
    c.counter = c.waits.countP Status.pending + c.transit ∧
    c.timedOut ≤ c.counter ∧
    (∀ t, (c.pc t).transit ≤ c.counter) ∧
    (∀ t remaining left notified, c.pc t = .subNotified remaining left notified →
      notified ≤ remaining) ∧
    ((∀ t, c.pc t = .idle ∨ c.pc t = .locked) → dropAssertion c = true) := by
  have inv := inv_of_run fits run
  refine ⟨inv.balance, ?_, fun t => ?_, fun t remaining left notified here => ?_, fun out => ?_⟩
  · rw [inv.recorded, inv.balance]
    exact Nat.le_trans count_recorded_le (Nat.le_add_right ..)
  · by_cases holds : (c.pc t).Holds
    · rw [inv.balance, inv.transit_of_holds holds]
      exact Nat.le_add_left ..
    · exact Nat.le_trans (Nat.le_of_eq (transit_of_free holds)) (Nat.zero_le _)
  · have sound := inv.sound t
    rw [here] at sound
    exact sound.2
  · have settled : ∀ s ∈ c.waits, s.blocked = false := by
      intro s member
      refine Bool.eq_false_iff.2 fun blocked => ?_
      obtain ⟨w, found⟩ := List.mem_iff_getElem?.1 member
      obtain ⟨t, ticket⟩ := inv.tickets.owner w s found blocked
      rcases out t with here | here <;> rw [here] at ticket <;> cases ticket
    have quiet : c.transit = 0 := by
      rw [Config.transit]
      split
      · rfl
      · rename_i t _
        rcases out t with here | here <;> rw [here] <;> rfl
    rw [dropAssertion, beq_iff_eq, inv.balance, quiet, countP_pending_of_settled settled,
      inv.recorded, Nat.add_zero]

/-- `usize` has 32 bits on this target. -/
def xous : Target := ⟨4294967296, 3, by decide, by decide⟩

instance (target : Target) (c : Config Thread) (a : Action Thread) :
    Decidable (Fits target c a) :=
  match a with
  | .wait _ _ => inferInstanceAs (Decidable (_ < _))
  | .lock _ | .unlock _ | .notify _ _ | .move _ | .expire _ | .deliver _ _ | .reply _ =>
    .isTrue trivial

/-- The threads of the runs below. -/
inductive Party
  | first
  | second
  | notifier
  deriving DecidableEq

/-- The first thread waits and is woken, the second one waits and times out meanwhile. -/
def wokenRun : List (Action Party) :=
  [.lock .first, .wait .first 0, .move .first, .move .first, .lock .second, .wait .second 5,
    .move .second, .move .second, .lock .notifier, .notify .notifier 1, .move .notifier,
    .move .notifier, .expire .second, .move .notifier, .move .notifier,
    .deliver .notifier .first, .reply .notifier]

theorem counter_balance_wokenRun : ∃ c : Config Party,
    exec (step xous) initial wokenRun = some c ∧ c.transit = 1 ∧
    c.counter = c.waits.countP Status.pending + c.transit ∧ c.timedOut ≤ c.counter :=
  have balance := counter_balance xous wokenRun _ (by decide +kernel) rfl
  ⟨_, rfl, rfl, balance.1, balance.2.1⟩

/-- A thread waits for a millisecond, and nobody notifies it. -/
def timedOutWait (t : Thread) : List (Action Thread) :=
  [.lock t, .wait t 1, .move t, .move t, .expire t, .move t, .move t, .unlock t]

section TimedOut

variable {target : Target} {t : Thread} {pc : Thread → Pc} {counter timedOut w : Nat}
  {waits : List Status}

/-- Up to the time-out. -/
theorem exec_expires (idle : pc t = .idle) :
    exec (step target) ⟨counter, timedOut, none, pc, waits⟩
        [.lock t, .wait t 1, .move t, .move t, .expire t] =
      some ⟨(counter + 1) % target.usize, timedOut, none,
        Function.update pc t (.expired waits.length),
        (waits ++ [Status.waiting]).set waits.length .expired⟩ := by
  simp [exec_cons, step, move, Config.goto, idle]

/-- The thread records the time-out and takes the mutex back. -/
theorem exec_records :
    exec (step target) ⟨counter, timedOut, none, Function.update pc t (.expired w), waits⟩
        [.move t, .move t, .unlock t] =
      some ⟨counter, (timedOut + 1) % target.usize, none, Function.update pc t .idle,
        waits.set w .recorded⟩ := by
  simp [exec_cons, step, move, Config.goto]

end TimedOut

theorem exec_timedOutWait (target : Target) (t : Thread) (c : Config Thread)
    (free : c.holder = none) (here : c.pc t = .idle) :
    ∃ l, exec (step target) c (timedOutWait t) =
      some ⟨(c.counter + 1) % target.usize, (c.timedOut + 1) % target.usize, none, c.pc, l⟩ := by
  have idle : Function.update c.pc t .idle = c.pc := by rw [← here, Function.update_eq_self]
  obtain ⟨counter, timedOut, holder, pc, waits⟩ := c
  cases free
  have split : timedOutWait t = [.lock t, .wait t 1, .move t, .move t, .expire t] ++
      [.move t, .move t, .unlock t] := rfl
  refine ⟨((waits ++ [Status.waiting]).set waits.length .expired).set waits.length .recorded, ?_⟩
  rw [split, exec_append, exec_expires here, Option.bind_some, exec_records, idle]

/-- Time-outs pile up in both counters until a notifier takes them. -/
theorem exec_timedOutWaits (target : Target) (t : Thread) (k : Nat) (c : Config Thread)
    (free : c.holder = none) (here : c.pc t = .idle) (less : c.counter < target.usize)
    (less' : c.timedOut < target.usize) :
    ∃ l, exec (step target) c (List.replicate k (timedOutWait t)).flatten =
      some ⟨(c.counter + k) % target.usize, (c.timedOut + k) % target.usize, none, c.pc, l⟩ := by
  induction k generalizing c with
  | zero =>
    refine ⟨c.waits, ?_⟩
    rw [Nat.add_zero, Nat.add_zero, Nat.mod_eq_of_lt less, Nat.mod_eq_of_lt less', ← free]
    rfl
  | succ k ih =>
    obtain ⟨l, first⟩ := exec_timedOutWait target t c free here
    obtain ⟨l', rest⟩ := ih ⟨_, _, none, c.pc, l⟩ rfl here
      (Nat.mod_lt (c.counter + 1) target.usize_pos) (Nat.mod_lt (c.timedOut + 1) target.usize_pos)
    refine ⟨l', ?_⟩
    rw [List.replicate_succ, List.flatten_cons, exec_append, first, Option.bind_some, rest,
      Nat.mod_add_mod, Nat.mod_add_mod, Nat.add_assoc, Nat.add_assoc, Nat.add_comm 1 k]

/-- The balance without what is in transit fails after each delivery, and when the time-outs of
as many waits as `usize` can count have piled up, `counter` falls below `timed_out`. -/
theorem counter_out_of_balance :
    (∃ c : Config Party, exec (step xous) initial wokenRun = some c ∧
      c.counter ≠ c.waits.countP Status.pending) ∧
    ∃ c : Config Unit, exec (step xous) initial
        ((List.replicate 4294967295 (timedOutWait ())).flatten ++
          [.lock (), .wait () 1]) = some c ∧
      c.counter < c.timedOut := by
  refine ⟨⟨_, rfl, by decide +kernel⟩, ?_⟩
  obtain ⟨l, run⟩ := exec_timedOutWaits xous () 4294967295 initial rfl rfl (by decide : 0 < _)
    (by decide : 0 < _)
  have piled : exec (step xous) initial (List.replicate 4294967295 (timedOutWait ())).flatten =
      some ⟨4294967295, 4294967295, none, fun _ => .idle, l⟩ := run
  have wraps : (4294967295 + 1) % xous.usize < 4294967295 := by decide
  exact ⟨_, exec_append.trans ((congrArg (Option.bind · _) piled).trans rfl), wraps⟩

end SecurityAudits.RustStdlib.XousCondvar
