import SecurityAudits.Lib.Run

/-!
# Cancelling a TLS handshake

`Conn.handshakeContext` has a function run when its context is cancelled, which closes the
connection unless `isHandshakeComplete` is set, and stops it when it returns. The function
runs in a goroutine of its own and loads the flag in one step and closes in another. `closed`
below is the connection closed by that function; what else closes it is of no concern here.
-/

namespace SecurityAudits.GoCrypto.HandshakeContext
set_option autoImplicit false
open SecurityAudits.Run

inductive Err
  | handshake
  | ctx
  deriving DecidableEq

/-- The function given to `context.AfterFunc`: not registered, waiting for the cancellation,
stopped before it, started, past the load of `isHandshakeComplete` with the close still to do,
returned without a close, returned after it. -/
inductive Callback
  | unregistered
  | registered
  | stopped
  | started
  | closing
  | spared
  | closed
  deriving DecidableEq

/-- The cancellation has started it. -/
def Callback.Fired : Callback → Prop
  | started | closing | spared | closed => True
  | _ => False

/-- It has found the handshake not complete. -/
def Callback.Late : Callback → Prop
  | closing | closed => True
  | _ => False

/-- `handshakeContext`: before `AfterFunc`; with the handshake under way, where `deferred` says
that the cleanup has been deferred; returning `ret` before the `stop()` of the cleanup, and
before its load of `isHandshakeComplete`; and returned. -/
inductive Caller
  | entered
  | handshaking (deferred : Bool)
  | stopping (ret : Option Err)
  | loading (ret : Option Err)
  | returned (ret : Option Err)
  deriving DecidableEq

/-- It is about to return nil, or has. -/
def Caller.Succeeds : Caller → Prop
  | stopping none | loading none | returned none => True
  | _ => False

/-- The cleanup is deferred and has not called `stop` yet. -/
def Caller.Deferred : Caller → Prop
  | handshaking true | stopping _ => True
  | _ => False

structure Config where
  canceled : Bool
  isHandshakeComplete : Bool
  callback : Callback
  caller : Caller

/-- Of the context: its cancellation, and the start of the function by it. Of the function: its
load and its close. `complete` is the success of a handshake on this connection, by this call
or a concurrent one. Of the call: `AfterFunc`, or none for QUIC and for a context without
`Done`, the end of the handshake, and the two steps of the cleanup. -/
inductive Action
  | cancel
  | fire
  | load
  | close
  | complete
  | afterFunc
  | noAfterFunc
  | finish (ret : Option Err)
  | stop
  | cleanup

def ctxErr (c : Config) : Option Err := if c.canceled then some .ctx else none

/-- A handshake that returns nil has recorded its success before. -/
def step (c : Config) : Action → Option Config
  | .cancel => some { c with canceled := true }
  | .fire =>
    match c.callback, c.canceled with
    | .registered, true => some { c with callback := .started }
    | _, _ => none
  | .load =>
    match c.callback with
    | .started =>
      some { c with callback := if !c.isHandshakeComplete then .closing else .spared }
    | _ => none
  | .close =>
    match c.callback with
    | .closing => some { c with callback := .closed }
    | _ => none
  | .complete => some { c with isHandshakeComplete := true }
  | .afterFunc =>
    match c.caller with
    | .entered => some { c with caller := .handshaking true, callback := .registered }
    | _ => none
  | .noAfterFunc =>
    match c.caller with
    | .entered => some { c with caller := .handshaking false }
    | _ => none
  | .finish ret =>
    match c.caller with
    | .handshaking deferred =>
      if ret = none ∧ !c.isHandshakeComplete then none
      else some { c with caller := if deferred then .stopping ret else .returned ret }
    | _ => none
  | .stop =>
    match c.caller, c.callback with
    | .stopping ret, .registered =>
      some { c with caller := .returned ret, callback := .stopped }
    | .stopping ret, _ => some { c with caller := .loading ret }
    | _, _ => none
  | .cleanup =>
    match c.caller with
    | .loading ret =>
      some { c with caller := .returned (if !c.isHandshakeComplete then ctxErr c else ret) }
    | _ => none

def initial (isHandshakeComplete : Bool) : Config :=
  ⟨false, isHandshakeComplete, .unregistered, .entered⟩

/-- No connection whose handshake is reported successful is closed by the context. -/
def Spared (c : Config) : Prop := ¬ (c.caller = .returned none ∧ c.callback = .closed)

/-- No handshake completes while the call is under way whose function has found it not
complete. -/
def Timely (c : Config) : Action → Prop
  | .complete => ¬ (c.callback.Late ∧ ∃ deferred, c.caller = .handshaking deferred)
  | _ => True

/-- A function that is late goes with a call that does not return nil. -/
structure Inv (c : Config) : Prop where
  late : c.callback.Late → ∀ deferred, c.caller = .handshaking deferred →
    c.isHandshakeComplete = false
  fails : c.callback.Late → ¬ c.caller.Succeeds
  succeeds : c.caller.Succeeds → c.isHandshakeComplete = true
  fired : c.callback.Fired → c.canceled = true
  entered : c.caller = .entered → c.callback = .unregistered
  deferred : c.caller.Deferred → c.callback ≠ .unregistered ∧ c.callback ≠ .stopped
  loading : ∀ ret, c.caller = .loading ret → c.canceled = true

section Steps

variable {c d : Config} {a : Action} {actions : List Action}

theorem inv_initial (isHandshakeComplete : Bool) : Inv (initial isHandshakeComplete) where
  late := False.elim
  fails := False.elim
  succeeds := False.elim
  fired := False.elim
  entered _ := rfl
  deferred := False.elim
  loading := nofun

theorem Inv.going (inv : Inv c) (registered : c.callback ≠ .unregistered) :
    c.caller ≠ .entered :=
  fun entered => registered (inv.entered entered)

theorem Inv.fire (inv : Inv c) (taken : step c .fire = some d) : Inv d := by
  simp only [step] at taken
  split at taken <;> cases taken
  rename_i registered canceled
  have going : c.caller ≠ .entered := inv.going (by rw [registered]; nofun)
  exact ⟨False.elim, False.elim, inv.succeeds, fun _ => canceled,
    fun entered => absurd entered going, fun _ => ⟨nofun, nofun⟩, inv.loading⟩

/-- The function is late only when it has found the handshake not complete, and then the call
has not succeeded before. -/
theorem Inv.load (inv : Inv c) (taken : step c .load = some d) : Inv d := by
  simp only [step] at taken
  split at taken <;> cases taken
  rename_i started
  have canceled : c.canceled = true := inv.fired (by rw [started]; trivial)
  have going : c.caller ≠ .entered := inv.going (by rw [started]; nofun)
  by_cases complete : c.isHandshakeComplete = true
  · rw [show (if !c.isHandshakeComplete then Callback.closing else .spared) = .spared by
      rw [complete]; rfl]
    exact ⟨False.elim, False.elim, inv.succeeds, fun _ => canceled,
      fun entered => absurd entered going, fun _ => ⟨nofun, nofun⟩, inv.loading⟩
  · have incomplete := Bool.eq_false_iff.2 complete
    rw [show (if !c.isHandshakeComplete then Callback.closing else .spared) = .closing by
      rw [incomplete]; rfl]
    exact ⟨fun _ _ _ => incomplete, fun _ succeeds => complete (inv.succeeds succeeds),
      inv.succeeds, fun _ => canceled, fun entered => absurd entered going,
      fun _ => ⟨nofun, nofun⟩, inv.loading⟩

theorem Inv.close (inv : Inv c) (taken : step c .close = some d) : Inv d := by
  simp only [step] at taken
  split at taken <;> cases taken
  rename_i closing
  have late : c.callback.Late := by rw [closing]; trivial
  have going : c.caller ≠ .entered := inv.going (by rw [closing]; nofun)
  exact ⟨fun _ => inv.late late, fun _ => inv.fails late, inv.succeeds,
    fun _ => inv.fired (by rw [closing]; trivial), fun entered => absurd entered going,
    fun _ => ⟨nofun, nofun⟩, inv.loading⟩

theorem Inv.complete (inv : Inv c) (timely : Timely c .complete) :
    Inv { c with isHandshakeComplete := true } :=
  ⟨fun late deferred here => absurd ⟨late, deferred, here⟩ timely, inv.fails, fun _ => rfl,
    inv.fired, inv.entered, inv.deferred, inv.loading⟩

theorem inv_of_afterFunc (taken : step c .afterFunc = some d) : Inv d := by
  simp only [step] at taken
  split at taken <;> cases taken
  exact ⟨False.elim, False.elim, False.elim, False.elim, nofun, fun _ => ⟨nofun, nofun⟩, nofun⟩

theorem Inv.noAfterFunc (inv : Inv c) (taken : step c .noAfterFunc = some d) : Inv d := by
  simp only [step] at taken
  split at taken <;> cases taken
  rename_i here
  have unregistered := inv.entered here
  exact ⟨fun late => by rw [unregistered] at late; exact late.elim, fun _ => id, False.elim,
    inv.fired, nofun, False.elim, nofun⟩

@[simp] theorem succeeds_stopping {ret : Option Err} :
    (Caller.stopping ret).Succeeds ↔ ret = none := by
  cases ret <;> simp [Caller.Succeeds]

@[simp] theorem succeeds_loading {ret : Option Err} :
    (Caller.loading ret).Succeeds ↔ ret = none := by
  cases ret <;> simp [Caller.Succeeds]

@[simp] theorem succeeds_returned {ret : Option Err} :
    (Caller.returned ret).Succeeds ↔ ret = none := by
  cases ret <;> simp [Caller.Succeeds]

theorem Inv.finish (inv : Inv c) {ret : Option Err} (taken : step c (.finish ret) = some d) :
    Inv d := by
  simp only [step] at taken
  split at taken
  · rename_i deferred here
    split at taken <;> cases taken
    rename_i allowed
    have complete : ret = none → c.isHandshakeComplete = true := by
      intro success
      by_contra incomplete
      exact allowed ⟨success, by rw [Bool.eq_false_iff.2 incomplete]; rfl⟩
    have fails : c.callback.Late → ret ≠ none := by
      intro late success
      have incomplete := inv.late late deferred here
      rw [complete success] at incomplete
      cases incomplete
    cases deferred with
    | true =>
      exact ⟨nofun, fun late succeeds => fails late (succeeds_stopping.1 succeeds),
        fun succeeds => complete (succeeds_stopping.1 succeeds), inv.fired, nofun,
        fun _ => inv.deferred (by rw [here]; trivial), nofun⟩
    | false =>
      exact ⟨nofun, fun late succeeds => fails late (succeeds_returned.1 succeeds),
        fun succeeds => complete (succeeds_returned.1 succeeds), inv.fired, nofun,
        False.elim, nofun⟩
  · cases taken

/-- `stop` comes before the cancellation, or finds it to have happened. -/
theorem Inv.stop (inv : Inv c) (taken : step c .stop = some d) : Inv d := by
  simp only [step] at taken
  split at taken
  · rename_i ret here registered
    cases taken
    refine ⟨False.elim, False.elim, fun succeeds => inv.succeeds ?_, False.elim, nofun,
      False.elim, nofun⟩
    rw [here]
    exact succeeds_stopping.2 (succeeds_returned.1 succeeds)
  · rename_i ret here other
    cases taken
    have canceled : c.canceled = true := by
      obtain ⟨armed, going⟩ := inv.deferred (by rw [here]; trivial)
      refine inv.fired ?_
      cases callback : c.callback with
      | unregistered => exact absurd callback armed
      | registered => exact absurd callback other
      | stopped => exact absurd callback going
      | _ => trivial
    have before : (Caller.loading ret).Succeeds → c.caller.Succeeds := by
      rw [here, succeeds_loading, succeeds_stopping]
      exact id
    exact ⟨nofun, fun late succeeds => inv.fails late (before succeeds),
      fun succeeds => inv.succeeds (before succeeds), inv.fired, nofun, False.elim,
      fun _ _ => canceled⟩
  · cases taken

/-- The cleanup keeps the result of a complete handshake, and otherwise returns the error of
the context, which has been cancelled. -/
theorem Inv.cleanup (inv : Inv c) (taken : step c .cleanup = some d) : Inv d := by
  simp only [step] at taken
  split at taken <;> cases taken
  rename_i ret here
  have canceled := inv.loading ret here
  have result : (if !c.isHandshakeComplete then ctxErr c else ret) = none →
      c.caller.Succeeds := by
    intro success
    rw [here]
    by_cases complete : c.isHandshakeComplete = true
    · rw [complete] at success
      exact succeeds_loading.2 success
    · rw [Bool.eq_false_iff.2 complete, ctxErr, canceled] at success
      cases success
  exact ⟨nofun, fun late succeeds => inv.fails late (result (succeeds_returned.1 succeeds)),
    fun succeeds => inv.succeeds (result (succeeds_returned.1 succeeds)), inv.fired, nofun,
    False.elim, nofun⟩

theorem Inv.step (inv : Inv c) (timely : Timely c a) (taken : HandshakeContext.step c a = some d) :
    Inv d := by
  cases a with
  | cancel =>
    cases taken
    exact ⟨inv.late, inv.fails, inv.succeeds, fun _ => rfl, inv.entered, inv.deferred,
      fun _ _ => rfl⟩
  | fire => exact inv.fire taken
  | load => exact inv.load taken
  | close => exact inv.close taken
  | complete => cases taken; exact inv.complete timely
  | afterFunc => exact inv_of_afterFunc taken
  | noAfterFunc => exact inv.noAfterFunc taken
  | finish ret => exact inv.finish taken
  | stop => exact inv.stop taken
  | cleanup => exact inv.cleanup taken

theorem Inv.spared (inv : Inv c) : Spared c := by
  rintro ⟨returned, closed⟩
  refine inv.fails (by rw [closed]; trivial) ?_
  rw [returned]
  trivial

/-- After an untimely success the call may return nil and the function close. -/
theorem closes_of_untimely (untimely : ¬ Timely c .complete) :
    ∃ more d, exec HandshakeContext.step c (.complete :: more) = some d ∧ ¬ Spared d := by
  obtain ⟨late, deferred, here⟩ := not_not.1 untimely
  have closes : ∃ more, exec HandshakeContext.step { c with isHandshakeComplete := true } more =
      some { c with isHandshakeComplete := true, callback := .closed } := by
    cases callback : c.callback with
    | closing => exact ⟨[.close], by simp only [exec_cons, HandshakeContext.step]; rfl⟩
    | closed => exact ⟨[], by rw [← callback]; rfl⟩
    | _ =>
      rw [callback] at late
      exact late.elim
  obtain ⟨more, closes⟩ := closes
  cases deferred with
  | true =>
    refine ⟨more ++ [.finish none, .stop, .cleanup],
      ⟨c.canceled, true, .closed, .returned none⟩, ?_, fun spared => spared ⟨rfl, rfl⟩⟩
    rw [exec_cons, HandshakeContext.step, Option.bind_some, exec_append, closes, here]
    rfl
  | false =>
    refine ⟨more ++ [.finish none],
      ⟨c.canceled, true, .closed, .returned none⟩, ?_, fun spared => spared ⟨rfl, rfl⟩⟩
    rw [exec_cons, HandshakeContext.step, Option.bind_some, exec_append, closes, here]
    rfl

end Steps

/-- **A successful handshake is not closed by its context**, in every run in which no handshake
completes while a call is under way whose function has found it not complete. Where one does,
the call may return nil and the function close the connection. -/
theorem spared_when_timely (isHandshakeComplete : Bool) (actions : List Action) :
    (Along step Timely (initial isHandshakeComplete) actions →
      Always step Spared (initial isHandshakeComplete) actions) ∧
    ∀ c, exec step (initial isHandshakeComplete) actions = some c → ¬ Timely c .complete →
      ∃ more d, exec step c (.complete :: more) = some d ∧ ¬ Spared d := by
  refine ⟨fun timely pre sub c run => ?_, fun c _ untimely => closes_of_untimely untimely⟩
  have inv : Inv c := exec_invariant_along (fun _ _ _ inv timely taken => inv.step timely taken)
    (inv_initial isHandshakeComplete) (timely.of_prefix sub) run
  exact inv.spared

/-- The function loads the flag before the handshake completes, and closes the connection after
the call has returned nil. -/
def lateClose : List Action :=
  [.afterFunc, .cancel, .fire, .load, .complete, .finish none, .stop, .cleanup, .close]

theorem closed_after_success : ¬ Always step Spared (initial false) lateClose :=
  fun spared => spared lateClose List.prefix_rfl _ rfl ⟨rfl, rfl⟩

end SecurityAudits.GoCrypto.HandshakeContext
