import SecurityAudits.Lib.Run
import Mathlib.Data.Fintype.Basic

/-!
# `TcpListener::accept` on Xous

A listening socket of the net server turns into the stream of the connection that it accepts, so
`accept` binds another one for the next call and puts its handle into `fd`, which all clones of the
`TcpListener` share. Any number of threads do so at once: a step is an access to `fd` or a message to
the server. The call that finds `fd` changed since it loaded it closes the socket that it has bound.

`accept_owned` is about the runs in which the handle of a new socket is not one that a call still has
in mind (`Fresh`). The server cannot know that: it may give the handle of a closed socket out again,
and a call that has loaded the old one then takes it for the same socket.
-/

namespace SecurityAudits.RustStdlib.XousAccept
set_option autoImplicit false
open SecurityAudits.Run

variable {Thread Fd : Type}

/-- Where a thread is in `accept`, with the local variables. -/
inductive Pc (Fd : Type) where
  /-- Not in a call. -/
  | idle
  /-- Before the answer to `StdTcpAccept(fd)`. -/
  | accepting (fd : Fd)
  /-- Before `TcpListener::bind_inner`. -/
  | binding (fd : Fd)
  /-- Before `compare_exchange(fd, new_fd)`. -/
  | exchanging (fd newFd : Fd)
  /-- Before `StdTcpClose(new_fd)`. -/
  | closing (newFd : Fd)

/-- The handle that a call has loaded and will compare. -/
def Pc.loaded : Pc Fd → Option Fd
  | .accepting fd | .binding fd | .exchanging fd _ => some fd
  | _ => none

/-- The handle that a call has accepted on and not replaced yet. -/
def Pc.accepted : Pc Fd → Option Fd
  | .binding fd | .exchanging fd _ => some fd
  | _ => none

/-- The handle that only this call has. -/
def Pc.bound : Pc Fd → Option Fd
  | .exchanging _ newFd | .closing newFd => some newFd
  | _ => none

structure State (Thread Fd : Type) where
  /-- `self.fd` -/
  fd : Fd
  pc : Thread → Pc Fd
  /-- The server's listening sockets. -/
  listening : Fd → Bool
  /-- A call has returned with the error of `bind_inner`. -/
  bindFailed : Bool

inductive Action (Thread Fd : Type) where
  | load (t : Thread)
  /-- The server's answer to `StdTcpAccept`: a connection, or an error or timeout -/
  | accept (t : Thread) (accepted : Bool)
  /-- The answer of `bind_inner`, none for an error -/
  | bind (t : Thread) (newFd : Option Fd)
  | compareExchange (t : Thread)
  | close (t : Thread)

variable [DecidableEq Thread] [DecidableEq Fd]

def State.goto (s : State Thread Fd) (t : Thread) (pc : Pc Fd) : State Thread Fd :=
  { s with pc := Function.update s.pc t pc }

def State.listen (s : State Thread Fd) (fd : Fd) (on : Bool) : State Thread Fd :=
  { s with listening := Function.update s.listening fd on }

/-- `accept`, a step at a time -/
def step (s : State Thread Fd) : Action Thread Fd → Option (State Thread Fd)
  | .load t =>
    match s.pc t with
    | .idle => some (s.goto t (.accepting s.fd))
    | _ => none
  | .accept t accepted =>
    match s.pc t with
    | .accepting fd =>
      some (if accepted then (s.goto t (.binding fd)).listen fd false else s.goto t .idle)
    | _ => none
  | .bind t newFd =>
    match s.pc t with
    | .binding fd =>
      match newFd with
      | none => some { s.goto t .idle with bindFailed := true }
      | some newFd => some ((s.goto t (.exchanging fd newFd)).listen newFd true)
    | _ => none
  | .compareExchange t =>
    match s.pc t with
    | .exchanging fd newFd =>
      some (if s.fd = fd then { s.goto t .idle with fd := newFd } else s.goto t (.closing newFd))
    | _ => none
  | .close t =>
    match s.pc t with
    | .closing newFd => some ((s.goto t .idle).listen newFd false)
    | _ => none

/-- `TcpListener::bind`, and no call yet -/
def bound (fd : Fd) : State Thread Fd :=
  ⟨fd, fun _ => .idle, Function.update (fun _ => false) fd true, false⟩

/-- The drop of the last clone, which closes the socket in `fd` -/
def State.drop (s : State Thread Fd) : State Thread Fd := s.listen s.fd false

omit [DecidableEq Thread] [DecidableEq Fd] in
/-- The handle of a new socket is not that of another listening socket, not the one in `fd`, and not
one that a call still has in mind. The server sees to the first two only. -/
def Fresh (s : State Thread Fd) : Action Thread Fd → Prop
  | .bind _ (some newFd) =>
    s.listening newFd = false ∧ newFd ≠ s.fd ∧ ∀ t, (s.pc t).loaded ≠ some newFd
  | _ => True

instance [Fintype Thread] (s : State Thread Fd) : (a : Action Thread Fd) → Decidable (Fresh s a)
  | .bind _ (some _) => inferInstanceAs (Decidable (_ ∧ _ ∧ _))
  | .bind _ none | .load _ | .accept .. | .compareExchange _ | .close _ => .isTrue trivial

/-! ## Who has which socket -/

omit [DecidableEq Thread] [DecidableEq Fd] in
structure Inv (s : State Thread Fd) : Prop where
  owned : ∀ f, s.listening f = true → f = s.fd ∨ ∃ t, (s.pc t).bound = some f
  bound : ∀ t f, (s.pc t).bound = some f →
    s.listening f = true ∧ f ≠ s.fd ∧ ∀ u, (s.pc u).loaded ≠ some f
  alone : ∀ t u f, (s.pc t).bound = some f → (s.pc u).bound = some f → t = u
  accepted : ∀ t f, (s.pc t).accepted = some f → s.listening f = false
  /-- While no bind has failed, `fd` listens or is being replaced. -/
  serves : s.bindFailed = false → s.listening s.fd = true ∨ ∃ t, (s.pc t).accepted = some s.fd

section Steps

variable {s s' : State Thread Fd} {t u : Thread} {f fd newFd : Fd} {pc : Pc Fd}

section Fields

variable {on : Bool}

omit [DecidableEq Fd]

@[simp] theorem goto_fd : (s.goto t pc).fd = s.fd := rfl

@[simp] theorem goto_listening : (s.goto t pc).listening = s.listening := rfl

@[simp] theorem goto_bindFailed : (s.goto t pc).bindFailed = s.bindFailed := rfl

theorem goto_self : (s.goto t pc).pc t = pc := Function.update_self ..

theorem goto_other (other : u ≠ t) : (s.goto t pc).pc u = s.pc u := Function.update_of_ne other ..

/-- A step that does not change what is seen of its thread changes it of none. -/
theorem goto_view (s : State Thread Fd) (t : Thread) (pc : Pc Fd) (view : Pc Fd → Option Fd)
    (same : view pc = view (s.pc t)) (u : Thread) :
    view ((s.goto t pc).pc u) = view (s.pc u) := by
  by_cases here : u = t
  · subst here
    rw [goto_self, same]
  · rw [goto_other here]

/-- Where a thread is seen to have a handle that it is not seen to have after it has moved, it is
another thread. -/
theorem goto_some {view : Pc Fd → Option Fd} (after : view ((s.goto t pc).pc u) = some f)
    (gone : view pc = none) : u ≠ t ∧ view (s.pc u) = some f := by
  have other : u ≠ t := by
    rintro rfl
    rw [goto_self, gone] at after
    cases after
  exact ⟨other, by rwa [goto_other other] at after⟩

/-- What another thread has it still has. -/
theorem exists_goto {view : Pc Fd → Option Fd} (before : ∃ u, view (s.pc u) = some f)
    (not_mine : view (s.pc t) ≠ some f) : ∃ u, view ((s.goto t pc).pc u) = some f := by
  obtain ⟨u, has⟩ := before
  refine ⟨u, ?_⟩
  rwa [goto_other]
  rintro rfl
  exact not_mine has

end Fields

section Fields

variable {on : Bool}

omit [DecidableEq Thread]

@[simp] theorem listen_fd : (s.listen f on).fd = s.fd := rfl

@[simp] theorem listen_pc : (s.listen f on).pc = s.pc := rfl

@[simp] theorem listen_bindFailed : (s.listen f on).bindFailed = s.bindFailed := rfl

theorem listen_self : (s.listen f on).listening f = on := Function.update_self ..

theorem listen_other (other : f ≠ fd) : (s.listen fd on).listening f = s.listening f :=
  Function.update_of_ne other ..

theorem listening_of_listen (after : (s.listen fd false).listening f = true) :
    f ≠ fd ∧ s.listening f = true := by
  have other : f ≠ fd := by
    rintro rfl
    rw [listen_self] at after
    cases after
  exact ⟨other, by rwa [listen_other other] at after⟩

theorem listen_eq_false (before : s.listening f = false) :
    (s.listen fd false).listening f = false := by
  by_cases same : f = fd
  · rw [same, listen_self]
  · rw [listen_other same, before]

end Fields

omit [DecidableEq Fd] in
theorem Inv.load (inv : Inv s) (at_idle : s.pc t = .idle) : Inv (s.goto t (.accepting s.fd)) := by
  have bounds := goto_view s t (.accepting s.fd) Pc.bound (by rw [at_idle]; rfl)
  have accepts :=
    goto_view s t (.accepting s.fd) Pc.accepted (by rw [at_idle]; rfl)
  constructor <;> simp only [bounds, accepts, goto_fd, goto_listening, goto_bindFailed]
  case owned => exact inv.owned
  case alone => exact inv.alone
  case accepted => exact inv.accepted
  case serves => exact inv.serves
  case bound =>
    intro u f bound
    obtain ⟨listens, other, unknown⟩ := inv.bound u f bound
    refine ⟨listens, other, fun v => ?_⟩
    by_cases same : v = t
    · subst same
      rw [goto_self]
      exact fun loaded => other (Option.some.inj loaded).symm
    · rw [goto_other same]
      exact unknown v

omit [DecidableEq Fd] in
/-- The call ends without a connection. -/
theorem Inv.refuse (inv : Inv s) (at_accepting : s.pc t = .accepting fd) :
    Inv (s.goto t .idle) := by
  have bounds := goto_view s t .idle Pc.bound (by rw [at_accepting]; rfl)
  have accepts :=
    goto_view s t .idle Pc.accepted (by rw [at_accepting]; rfl)
  constructor <;> simp only [bounds, accepts, goto_fd, goto_listening, goto_bindFailed]
  case owned => exact inv.owned
  case alone => exact inv.alone
  case accepted => exact inv.accepted
  case serves => exact inv.serves
  case bound =>
    intro u f bound
    obtain ⟨listens, other, unknown⟩ := inv.bound u f bound
    exact ⟨listens, other, fun v loaded => unknown v (goto_some loaded rfl).2⟩

theorem Inv.accept (inv : Inv s) (at_accepting : s.pc t = .accepting fd) :
    Inv ((s.goto t (.binding fd)).listen fd false) := by
  have bounds := goto_view s t (.binding fd) Pc.bound (by rw [at_accepting]; rfl)
  have loads := goto_view s t (.binding fd) Pc.loaded (by rw [at_accepting]; rfl)
  constructor <;> simp only [listen_pc, bounds, loads, listen_fd, goto_fd, listen_bindFailed,
    goto_bindFailed]
  case owned =>
    intro f listens
    exact inv.owned f (listening_of_listen listens).2
  case alone => exact inv.alone
  case bound =>
    intro u f bound
    obtain ⟨listens, other, unknown⟩ := inv.bound u f bound
    have elsewhere : f ≠ fd := by
      rintro rfl
      exact unknown t (by rw [at_accepting]; rfl)
    exact ⟨by rwa [listen_other elsewhere], other, unknown⟩
  case accepted =>
    intro u f accepted
    by_cases same : u = t
    · subst same
      rw [goto_self] at accepted
      cases accepted
      exact listen_self
    · rw [goto_other same] at accepted
      exact listen_eq_false (inv.accepted u f accepted)
  case serves =>
    intro working
    by_cases mine : s.fd = fd
    · exact .inr ⟨t, by rw [goto_self, mine]; rfl⟩
    · rw [listen_other mine]
      refine (inv.serves working).imp_right fun replaced => exists_goto replaced ?_
      rw [at_accepting]
      nofun

omit [DecidableEq Fd] in
/-- The call ends with the error of `bind_inner`. -/
theorem Inv.bindFails (inv : Inv s) (at_binding : s.pc t = .binding fd) :
    Inv { s.goto t .idle with bindFailed := true } := by
  have bounds := goto_view s t .idle Pc.bound (by rw [at_binding]; rfl)
  constructor <;> simp only [bounds, goto_fd, goto_listening]
  case owned => exact inv.owned
  case alone => exact inv.alone
  case bound =>
    intro u f bound
    obtain ⟨listens, other, unknown⟩ := inv.bound u f bound
    exact ⟨listens, other, fun v loaded => unknown v (goto_some loaded rfl).2⟩
  case accepted =>
    intro u f accepted
    exact inv.accepted u f (goto_some accepted rfl).2
  case serves => nofun

theorem Inv.bind (inv : Inv s) (at_binding : s.pc t = .binding fd)
    (fresh : s.listening newFd = false ∧ newFd ≠ s.fd ∧ ∀ u, (s.pc u).loaded ≠ some newFd) :
    Inv ((s.goto t (.exchanging fd newFd)).listen newFd true) := by
  obtain ⟨closed, other, unknown⟩ := fresh
  have loads :=
    goto_view s t (.exchanging fd newFd) Pc.loaded (by rw [at_binding]; rfl)
  have accepts :=
    goto_view s t (.exchanging fd newFd) Pc.accepted (by rw [at_binding]; rfl)
  have not_bound : ∀ u, (s.pc u).bound ≠ some newFd := by
    intro u bound
    rw [(inv.bound u newFd bound).1] at closed
    cases closed
  constructor <;> simp only [listen_pc, loads, accepts, listen_fd, goto_fd, listen_bindFailed,
    goto_bindFailed]
  case owned =>
    intro f listens
    by_cases same : f = newFd
    · exact .inr ⟨t, by rw [goto_self, same]; rfl⟩
    · rw [listen_other same] at listens
      refine (inv.owned f listens).imp_right fun others => exists_goto others ?_
      rw [at_binding]
      nofun
  case bound =>
    intro u f bound
    by_cases same : u = t
    · subst same
      rw [goto_self] at bound
      cases bound
      exact ⟨listen_self, other, unknown⟩
    · rw [goto_other same] at bound
      obtain ⟨listens, others⟩ := inv.bound u f bound
      have elsewhere : f ≠ newFd := by
        rintro rfl
        exact not_bound u bound
      exact ⟨by rwa [listen_other elsewhere], others⟩
  case alone =>
    intro u v f one two
    by_cases first : u = t
    · by_cases second : v = t
      · rw [first, second]
      · subst first
        rw [goto_self] at one
        rw [goto_other second] at two
        cases one
        exact absurd two (not_bound v)
    · by_cases second : v = t
      · subst second
        rw [goto_self] at two
        rw [goto_other first] at one
        cases two
        exact absurd one (not_bound u)
      · rw [goto_other first] at one
        rw [goto_other second] at two
        exact inv.alone u v f one two
  case accepted =>
    intro u f accepted
    have elsewhere : f ≠ newFd := by
      rintro rfl
      refine unknown u ?_
      cases at_ : s.pc u <;> rw [at_] at accepted <;> cases accepted <;> rfl
    rw [listen_other elsewhere]
    exact inv.accepted u f accepted
  case serves =>
    intro working
    rw [listen_other other.symm]
    exact inv.serves working

/-- The new socket is the one that the next calls accept on. -/
theorem Inv.publish (inv : Inv s) (at_exchanging : s.pc t = .exchanging s.fd newFd) :
    Inv { s.goto t .idle with fd := newFd } := by
  obtain ⟨listens, other, unknown⟩ := inv.bound t newFd (by rw [at_exchanging]; rfl)
  have gone : s.listening s.fd = false := inv.accepted t s.fd (by rw [at_exchanging]; rfl)
  constructor <;> simp only [goto_listening]
  case owned =>
    intro f listens'
    rcases inv.owned f listens' with rfl | others
    · rw [gone] at listens'
      cases listens'
    · by_cases same : f = newFd
      · exact .inl same
      · refine .inr (exists_goto others ?_)
        rw [at_exchanging]
        exact fun bound => same (Option.some.inj bound).symm
  case bound =>
    intro u f bound
    obtain ⟨elsewhere, before⟩ := goto_some bound rfl
    obtain ⟨listens', -, unknown'⟩ := inv.bound u f before
    refine ⟨listens', ?_, fun v loaded => unknown' v (goto_some loaded rfl).2⟩
    rintro rfl
    exact elsewhere (inv.alone u t f before (by rw [at_exchanging]; rfl))
  case alone =>
    intro u v f one two
    exact inv.alone u v f (goto_some one rfl).2 (goto_some two rfl).2
  case accepted =>
    intro u f accepted
    exact inv.accepted u f (goto_some accepted rfl).2
  case serves => exact fun _ => .inl listens

omit [DecidableEq Fd] in
/-- Another call has replaced the handle. -/
theorem Inv.lose (inv : Inv s) (at_exchanging : s.pc t = .exchanging fd newFd) (lost : s.fd ≠ fd) :
    Inv (s.goto t (.closing newFd)) := by
  have bounds :=
    goto_view s t (.closing newFd) Pc.bound (by rw [at_exchanging]; rfl)
  constructor <;> simp only [bounds, goto_fd, goto_listening, goto_bindFailed]
  case owned => exact inv.owned
  case alone => exact inv.alone
  case bound =>
    intro u f bound
    obtain ⟨listens, other, unknown⟩ := inv.bound u f bound
    exact ⟨listens, other, fun v loaded => unknown v (goto_some loaded rfl).2⟩
  case accepted =>
    intro u f accepted
    exact inv.accepted u f (goto_some accepted rfl).2
  case serves =>
    intro working
    refine (inv.serves working).imp_right fun replaced => exists_goto replaced ?_
    rw [at_exchanging]
    exact fun accepted => lost (Option.some.inj accepted).symm

theorem Inv.close (inv : Inv s) (at_closing : s.pc t = .closing newFd) :
    Inv ((s.goto t .idle).listen newFd false) := by
  have loads := goto_view s t .idle Pc.loaded (by rw [at_closing]; rfl)
  have accepts := goto_view s t .idle Pc.accepted (by rw [at_closing]; rfl)
  obtain ⟨listens, other, unknown⟩ := inv.bound t newFd (by rw [at_closing]; rfl)
  constructor <;> simp only [listen_pc, loads, accepts, listen_fd, goto_fd, listen_bindFailed,
    goto_bindFailed]
  case owned =>
    intro f after
    obtain ⟨elsewhere, before⟩ := listening_of_listen after
    refine (inv.owned f before).imp_right fun others => exists_goto others ?_
    rw [at_closing]
    exact fun bound => elsewhere (Option.some.inj bound).symm
  case bound =>
    intro u f bound
    obtain ⟨elsewhere, before⟩ := goto_some bound rfl
    obtain ⟨listens', others⟩ := inv.bound u f before
    have distinct : f ≠ newFd := by
      rintro rfl
      exact elsewhere (inv.alone u t f before (by rw [at_closing]; rfl))
    exact ⟨by rwa [listen_other distinct], others⟩
  case alone =>
    intro u v f one two
    exact inv.alone u v f (goto_some one rfl).2 (goto_some two rfl).2
  case accepted =>
    intro u f accepted
    exact listen_eq_false (inv.accepted u f accepted)
  case serves =>
    intro working
    rw [listen_other other.symm]
    exact inv.serves working

theorem Inv.step {a : Action Thread Fd} (inv : Inv s) (fresh : Fresh s a)
    (taken : XousAccept.step s a = some s') : Inv s' := by
  cases a with
  | load t =>
    simp only [XousAccept.step] at taken
    split at taken <;> cases taken
    next at_idle => exact inv.load at_idle
  | accept t accepted =>
    simp only [XousAccept.step] at taken
    split at taken <;> cases taken
    next at_accepting =>
      cases accepted
      · exact inv.refuse at_accepting
      · exact inv.accept at_accepting
  | bind t answer =>
    simp only [XousAccept.step] at taken
    split at taken
    next at_binding =>
      cases answer <;> cases taken
      · exact inv.bindFails at_binding
      · exact inv.bind at_binding fresh
    · cases taken
  | compareExchange t =>
    simp only [XousAccept.step] at taken
    split at taken <;> cases taken
    next at_exchanging =>
      split
      next same =>
        subst same
        exact inv.publish at_exchanging
      next lost => exact inv.lose at_exchanging lost
  | close t =>
    simp only [XousAccept.step] at taken
    split at taken <;> cases taken
    next at_closing => exact inv.close at_closing

omit [DecidableEq Thread] in
theorem inv_bound (fd : Fd) : Inv (bound fd : State Thread Fd) where
  owned f listens := by
    by_cases same : f = fd
    · exact .inl same
    · have closed : Function.update (fun _ => false) fd true f = false :=
        Function.update_of_ne same ..
      exact absurd (closed.symm.trans listens) Bool.false_ne_true
  bound _ _ := nofun
  alone _ _ _ := nofun
  accepted _ _ := nofun
  serves _ := .inl (show Function.update (fun _ => false) fd true fd = true from
    Function.update_self ..)

/-- **No listening socket is lost.** Whatever the threads do at once, a listening socket is the one in
`fd` or one that a single call has just bound, and a call closes no socket but such a one. Between
calls `fd` is the only socket that listens, unless a `bind_inner` has failed, and when the last clone
is dropped none does. -/
theorem accept_owned (fd : Fd) (acts : List (Action Thread Fd))
    (fresh : Along step Fresh (bound fd) acts) (run : exec step (bound fd) acts = some s) :
    (∀ f, s.listening f = true → f = s.fd ∨ ∃ t, (s.pc t).bound = some f) ∧
    (∀ t f, s.pc t = .closing f → s.listening f = true ∧ f ≠ s.fd ∧
      ∀ u, u ≠ t → (s.pc u).bound ≠ some f ∧ (s.pc u).loaded ≠ some f) ∧
    ((∀ t, s.pc t = .idle) →
      (s.bindFailed = false → ∀ f, s.listening f = true ↔ f = s.fd) ∧
      ∀ f, s.drop.listening f = false) := by
  have inv : Inv s :=
    exec_invariant_along (fun _ _ _ before here taken => before.step here taken) (inv_bound fd)
      fresh run
  refine ⟨inv.owned, fun t f at_closing => ?_, fun quiet => ⟨fun working f => ?_, fun f => ?_⟩⟩
  · have mine : (s.pc t).bound = some f := by rw [at_closing]; rfl
    obtain ⟨listens, other, unknown⟩ := inv.bound t f mine
    exact ⟨listens, other, fun u elsewhere =>
      ⟨fun theirs => elsewhere (inv.alone u t f theirs mine), unknown u⟩⟩
  · have only : s.listening f = true → f = s.fd := by
      intro listens
      rcases inv.owned f listens with same | ⟨t, bound⟩
      · exact same
      · rw [quiet t] at bound
        cases bound
    refine ⟨only, ?_⟩
    rintro rfl
    rcases inv.serves working with listens | ⟨t, accepted⟩
    · exact listens
    · rw [quiet t] at accepted
      cases accepted
  · by_cases same : f = s.fd
    · rw [State.drop, same, listen_self]
    · rw [State.drop, listen_other same]
      cases listens : s.listening f with
      | false => rfl
      | true =>
        rcases inv.owned f listens with same' | ⟨t, bound⟩
        · exact absurd same' same
        · rw [quiet t] at bound
          cases bound

end Steps

/-- Two threads accept on one socket, both bind another one, and the second one closes its own. -/
def raceActions : List (Action Bool Nat) :=
  [.load true, .load false, .accept true true, .accept false true, .bind true (some 5),
    .bind false (some 6), .compareExchange false, .compareExchange true, .close true]

theorem accept_owned_race :
    ∃ s, exec step (bound 4) raceActions = some s ∧ s.fd = 6 ∧
      ∀ f, s.listening f = true → f = 6 ∨ ∃ t, (s.pc t).bound = some f := by
  refine ⟨_, rfl, rfl, ?_⟩
  exact (accept_owned 4 raceActions (by decide) rfl).1

/-- Without `Fresh`: one thread has loaded 4 and accepts on it when another one has got the handle
again for a new socket, and in the end `fd` is 4, where nothing listens. -/
def reusedActions : List (Action Bool Nat) :=
  [.load false, .load true, .accept true true, .bind true (some 5), .compareExchange true,
    .load true, .accept true true, .bind true (some 4), .accept false true, .bind false (some 6),
    .compareExchange false, .close false, .compareExchange true]

example : (exec step (bound 4) reusedActions).map (fun s => (s.fd, s.listening 4, s.bindFailed)) =
    some (4, false, false) := rfl

end SecurityAudits.RustStdlib.XousAccept
