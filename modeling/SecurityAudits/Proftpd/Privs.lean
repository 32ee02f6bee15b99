import SecurityAudits.Lib.Run

/-!
# Nested privilege scopes

`PRIVS_ROOT` and `PRIVS_USER` open a scope with other privileges, `PRIVS_RELINQUISH` closes the
last one. The daemon keeps no stack of the scopes: it counts the open root and user scopes, and
the patched `pr_privs_relinquish` infers from the counters and the effective uid which scope it
closes and which one it returns to.

`Daemon` puts the scopes that are open next to the counters. `Good` lists the states in which
the counters say enough; `Fits` is what keeps a run within them, and a scope that is opened
without it is not closed properly (`Good.breaks`).
-/

namespace SecurityAudits.Proftpd.Privs
set_option autoImplicit false
open SecurityAudits.Run

def prRootUid : Nat := 0

/-- The uids of `session`. -/
structure Session where
  uid : Nat
  loginUid : Nat

/-- The two `unsigned int` counters and the effective uid, and whether a counter has been taken
below zero. -/
structure Process where
  rootPrivs : UInt32
  userPrivs : UInt32
  euid : Nat
  underflowed : Bool
  deriving DecidableEq

def prPrivsRoot (s : Process) : Process :=
  if 0 < s.rootPrivs then s
  else { s with rootPrivs := s.rootPrivs + 1, euid := prRootUid }

def prPrivsUser (session : Session) (s : Process) : Process :=
  { s with userPrivs := s.userPrivs + 1, euid := session.loginUid }

/-- `root_privs--; user_privs--;` -/
def decrement (s : Process) : Process :=
  { s with
    rootPrivs := s.rootPrivs - 1, userPrivs := s.userPrivs - 1,
    underflowed := s.underflowed || s.rootPrivs == 0 || s.userPrivs == 0 }

/-- The patched `pr_privs_relinquish`; with one open scope it drops to `session.uid`. -/
def prPrivsRelinquish (session : Session) (s : Process) : Process :=
  if 1 < s.rootPrivs + s.userPrivs then
    if s.euid = prRootUid ∧ 0 < s.rootPrivs then prPrivsUser session (decrement s)
    else if 0 < s.userPrivs then prPrivsRoot (decrement s)
    else s
  else if 0 < s.rootPrivs then { s with rootPrivs := s.rootPrivs - 1, euid := session.uid }
  else if 0 < s.userPrivs then { s with userPrivs := s.userPrivs - 1, euid := session.uid }
  else s

inductive Scope where
  | root
  | user
  deriving DecidableEq

/-- The effective uid in the innermost of the open scopes. -/
def effectiveUid (session : Session) : List Scope → Nat
  | [] => session.uid
  | .root :: _ => prRootUid
  | .user :: _ => session.loginUid

inductive Call where
  | root
  | user
  | relinquish
  deriving DecidableEq

/-- The counters, the scopes that are open, the innermost first, and whether the last call was
a `PRIVS_RELINQUISH`. -/
structure Daemon where
  process : Process
  scopes : List Scope
  relinquished : Bool
  deriving DecidableEq

def Daemon.start (session : Session) : Daemon := ⟨⟨0, 0, session.uid, false⟩, [], false⟩

/-- Only an open scope is relinquished. -/
def step (session : Session) (d : Daemon) : Call → Option Daemon
  | .root => some ⟨prPrivsRoot d.process, .root :: d.scopes, false⟩
  | .user => some ⟨prPrivsUser session d.process, .user :: d.scopes, false⟩
  | .relinquish => match d.scopes with
    | [] => none
    | _ :: scopes => some ⟨prPrivsRelinquish session d.process, scopes, true⟩

/-- What relinquishing a scope is for. -/
structure Restores (session : Session) (d : Daemon) : Prop where
  euid : d.relinquished = true → d.process.euid = effectiveUid session d.scopes
  counters : d.process.underflowed = false

/-- No root scope is counted when one is opened, and a user scope is opened as the first one or
under another effective uid. -/
def Fits (session : Session) (d : Daemon) : Call → Prop
  | .root => d.process.rootPrivs = 0
  | .user => d.process.userPrivs = 0 ∨ d.process.euid ≠ session.loginUid
  | .relinquish => True

instance (session : Session) (d : Daemon) : ∀ call, Decidable (Fits session d call)
  | .root => inferInstanceAs (Decidable (d.process.rootPrivs = 0))
  | .user =>
    inferInstanceAs (Decidable (d.process.userPrivs = 0 ∨ d.process.euid ≠ session.loginUid))
  | .relinquish => .isTrue trivial

/-- The states in which the counters and the effective uid determine the open scopes, and, for a
login as root, those in which it makes no difference which scopes these are. -/
inductive Good (session : Session) : Process → List Scope → Prop
  | closed : Good session ⟨0, 0, session.uid, false⟩ []
  | root : Good session ⟨1, 0, prRootUid, false⟩ [.root]
  | user : Good session ⟨0, 1, session.loginUid, false⟩ [.user]
  | userInRoot (login : session.loginUid ≠ prRootUid) :
    Good session ⟨1, 1, session.loginUid, false⟩ [.user, .root]
  | rootInUser (login : session.loginUid ≠ prRootUid) :
    Good session ⟨1, 1, prRootUid, false⟩ [.root, .user]
  | userInRootInUser (login : session.loginUid ≠ prRootUid) :
    Good session ⟨1, 2, session.loginUid, false⟩ [.user, .root, .user]
  | anyOne (login : session.loginUid = prRootUid) (scope : Scope) :
    Good session ⟨0, 1, session.loginUid, false⟩ [scope]
  | anyTwo (login : session.loginUid = prRootUid) (inner outer : Scope) :
    Good session ⟨1, 1, session.loginUid, false⟩ [inner, outer]

variable {session : Session} {d d' : Daemon} {s : Process} {scopes : List Scope} {call : Call}

theorem prPrivsRoot_underflowed : (prPrivsRoot s).underflowed = s.underflowed := by
  unfold prPrivsRoot
  split
  · rfl
  · rfl

theorem effectiveUid_of_login (login : session.loginUid = prRootUid) (scope : Scope)
    (scopes : List Scope) : effectiveUid session (scope :: scopes) = session.loginUid := by
  cases scope with
  | root => exact login.symm
  | user => rfl

/-- The effective uid is that of the innermost scope. -/
theorem Good.euid (good : Good session s scopes) : s.euid = effectiveUid session scopes := by
  cases good with
  | closed | root | user | userInRoot | rootInUser | userInRootInUser => rfl
  | anyOne login scope => exact (effectiveUid_of_login login scope _).symm
  | anyTwo login inner outer => exact (effectiveUid_of_login login inner _).symm

theorem Good.counters (good : Good session s scopes) : s.underflowed = false := by
  cases good with
  | closed | root | user | userInRoot | rootInUser | userInRootInUser | anyOne | anyTwo => rfl

theorem Good.restores (good : Good session d.process d.scopes) : Restores session d where
  euid _ := good.euid
  counters := good.counters

theorem Good.openRoot (good : Good session s scopes) (fits : s.rootPrivs = 0) :
    Good session (prPrivsRoot s) (.root :: scopes) := by
  have second (login : session.loginUid = prRootUid) (scope : Scope) :
      Good session ⟨1, 1, prRootUid, false⟩ [.root, scope] := by
    have two := Good.anyTwo login .root scope
    rwa [login] at two
  cases good with
  | closed => exact .root
  | user =>
    by_cases login : session.loginUid = prRootUid
    · exact second login .user
    · exact .rootInUser login
  | anyOne login scope => exact second login scope
  | root | userInRoot | rootInUser | userInRootInUser | anyTwo => cases fits

theorem Good.openUser (good : Good session s scopes)
    (fits : s.userPrivs = 0 ∨ s.euid ≠ session.loginUid) :
    Good session (prPrivsUser session s) (.user :: scopes) := by
  cases good with
  | closed => exact .user
  | root =>
    by_cases login : session.loginUid = prRootUid
    · exact .anyTwo login .user .root
    · exact .userInRoot login
  | rootInUser login => exact .userInRootInUser login
  | user | userInRoot | userInRootInUser | anyOne | anyTwo =>
    rcases fits with none | other
    · cases none
    · exact absurd rfl other

theorem Good.close {scope : Scope} (good : Good session s (scope :: scopes)) :
    Good session (prPrivsRelinquish session s) scopes := by
  cases good with
  | root => exact .closed
  | user | anyOne =>
    have run : prPrivsRelinquish session ⟨0, 1, session.loginUid, false⟩
        = ⟨0, 0, session.uid, false⟩ := by
      simp [prPrivsRelinquish]
    rw [run]
    exact .closed
  | userInRoot login =>
    have run : prPrivsRelinquish session ⟨1, 1, session.loginUid, false⟩
        = ⟨1, 0, prRootUid, false⟩ := by
      simp [prPrivsRelinquish, login, decrement, prPrivsRoot]
    rw [run]
    exact .root
  | rootInUser => exact .user
  | userInRootInUser login =>
    have run : prPrivsRelinquish session ⟨1, 2, session.loginUid, false⟩
        = ⟨1, 1, prRootUid, false⟩ := by
      simp [prPrivsRelinquish, login, decrement, prPrivsRoot]
    rw [run]
    exact .rootInUser login
  | anyTwo login inner outer =>
    have run : prPrivsRelinquish session ⟨1, 1, session.loginUid, false⟩
        = ⟨0, 1, session.loginUid, false⟩ := by
      simp [prPrivsRelinquish, login, decrement, prPrivsUser]
    rw [run]
    exact .anyOne login outer

theorem Good.step (good : Good session d.process d.scopes) (fits : Fits session d call)
    (first : step session d call = some d') : Good session d'.process d'.scopes := by
  cases call with
  | root =>
    cases first
    exact good.openRoot fits
  | user =>
    cases first
    exact good.openUser fits
  | relinquish =>
    obtain ⟨s, scopes, relinquished⟩ := d
    cases scopes with
    | nil => cases first
    | cons scope scopes =>
      cases first
      exact good.close

/-- The run goes on to a state in which a scope was not closed properly. -/
def Breaks (session : Session) (d : Daemon) (call : Call) : Prop :=
  ∃ n t, exec (Privs.step session) d (call :: List.replicate n .relinquish) = some t ∧
    ¬ Restores session t

theorem breaks_once {scope : Scope}
    (opened : Privs.step session d call = some ⟨s, scope :: scopes, false⟩)
    (wrong : (prPrivsRelinquish session s).euid = effectiveUid session scopes →
      (prPrivsRelinquish session s).underflowed = false → False) : Breaks session d call :=
  ⟨1, ⟨prPrivsRelinquish session s, scopes, true⟩, exec_cons_eq_some.2 ⟨_, opened, rfl⟩,
    fun restores => wrong (restores.euid rfl) restores.counters⟩

theorem breaks_twice {scope outer : Scope}
    (opened : Privs.step session d call = some ⟨s, scope :: outer :: scopes, false⟩)
    (wrong : (prPrivsRelinquish session (prPrivsRelinquish session s)).euid
        = effectiveUid session scopes →
      (prPrivsRelinquish session (prPrivsRelinquish session s)).underflowed = false → False) :
    Breaks session d call :=
  ⟨2, ⟨prPrivsRelinquish session (prPrivsRelinquish session s), scopes, true⟩,
    exec_cons_eq_some.2 ⟨_, opened, rfl⟩,
    fun restores => wrong (restores.euid rfl) restores.counters⟩

/-- A root scope in a root scope. -/
theorem Good.breaks_root (good : Good session d.process d.scopes)
    (unfit : ¬ Fits session d .root) (outside : session.uid ≠ prRootUid) :
    Breaks session d .root := by
  obtain ⟨s, scopes, relinquished⟩ := d
  cases good with
  | closed | user | anyOne => exact absurd rfl unfit
  | root => exact breaks_once rfl (by simp [prPrivsRoot, prPrivsRelinquish, effectiveUid, outside])
  | userInRoot login | userInRootInUser login =>
    refine breaks_once rfl ?_
    simp [prPrivsRoot, prPrivsRelinquish, decrement, effectiveUid, login, Ne.symm login]
  | rootInUser login =>
    refine breaks_once rfl ?_
    simp [prPrivsRoot, prPrivsRelinquish, prPrivsUser, decrement, effectiveUid, login]
  | anyTwo login inner outer =>
    refine breaks_twice rfl ?_
    simp [prPrivsRoot, prPrivsRelinquish, prPrivsUser, decrement, login, effectiveUid_of_login login,
      outside]

/-- A user scope in a user scope, or, for a login as root, a second user scope. -/
theorem Good.breaks_user (good : Good session d.process d.scopes)
    (unfit : ¬ Fits session d .user) : Breaks session d .user := by
  obtain ⟨s, scopes, relinquished⟩ := d
  cases good with
  | closed | root => exact absurd (.inl rfl) unfit
  | rootInUser login => exact absurd (.inr (Ne.symm login)) unfit
  | user | anyOne =>
    refine breaks_once rfl fun _ counters => ?_
    simp [prPrivsUser, prPrivsRelinquish, decrement, prPrivsRoot_underflowed] at counters
  | userInRoot login | userInRootInUser login =>
    refine breaks_once rfl ?_
    simp [prPrivsUser, prPrivsRelinquish, prPrivsRoot, decrement, effectiveUid, login, Ne.symm login]
  | anyTwo login inner outer =>
    refine breaks_twice rfl fun _ counters => ?_
    simp [prPrivsUser, prPrivsRelinquish, decrement, login, prPrivsRoot_underflowed] at counters

/-- **Nested scopes**: in a run in which every scope fits when it is opened, each relinquish
returns to the effective uid of the enclosing scope and no counter underflows. A scope that does
not fit can be closed in a way that breaks this. -/
theorem relinquish_restores (session : Session) (calls : List Call)
    (fits : Along (step session) (Fits session) (Daemon.start session) calls) :
    Always (step session) (Restores session) (Daemon.start session) calls ∧
      (session.uid ≠ prRootUid → ∀ d call,
        exec (step session) (Daemon.start session) calls = some d → ¬ Fits session d call →
        ∃ more, ¬ Always (step session) (Restores session) (Daemon.start session)
          (calls ++ call :: more)) := by
  have preserved (d : Daemon) (call : Call) (d' : Daemon)
      (good : Good session d.process d.scopes) (fits : Fits session d call)
      (first : step session d call = some d') : Good session d'.process d'.scopes :=
    good.step fits first
  have reached {d : Daemon} {before : List Call} (sub : before <+: calls)
      (run : exec (step session) (Daemon.start session) before = some d) :
      Good session d.process d.scopes := by
    have good := exec_invariant_along preserved Good.closed (fits.of_prefix sub) run
    exact good
  refine ⟨fun before sub d run => (reached sub run).restores,
    fun outside d call run unfit => ?_⟩
  have good := reached (List.prefix_refl calls) run
  have breaks : Breaks session d call := by
    cases call with
    | root => exact good.breaks_root unfit outside
    | user => exact good.breaks_user unfit
    | relinquish => exact absurd trivial unfit
  obtain ⟨n, t, rest, wrong⟩ := breaks
  refine ⟨List.replicate n .relinquish, fun always => wrong (always _ (List.prefix_refl _) t ?_)⟩
  rw [exec_append, run]
  exact rest

/-- The order of the report, and both scopes closed. -/
theorem relinquish_restores_report :
    Always (step ⟨33, 1000⟩) (Restores ⟨33, 1000⟩) (Daemon.start ⟨33, 1000⟩)
      [.user, .root, .relinquish, .relinquish] :=
  (relinquish_restores ⟨33, 1000⟩ [.user, .root, .relinquish, .relinquish] (by decide)).1

/-- A user scope in a user scope: `root_privs` goes below zero. -/
theorem user_in_user_underflows :
    exec (step ⟨33, 1000⟩) (Daemon.start ⟨33, 1000⟩) [.user, .user, .relinquish]
        = some ⟨⟨4294967295, 1, 1000, true⟩, [.user], true⟩ ∧
      ¬ Always (step ⟨33, 1000⟩) (Restores ⟨33, 1000⟩) (Daemon.start ⟨33, 1000⟩)
        [.user, .user, .relinquish] := by
  have run : exec (step ⟨33, 1000⟩) (Daemon.start ⟨33, 1000⟩) [.user, .user, .relinquish]
      = some ⟨⟨4294967295, 1, 1000, true⟩, [.user], true⟩ := by decide
  refine ⟨run, fun always => ?_⟩
  have counters := (always _ (List.prefix_refl _) _ run).counters
  cases counters

end SecurityAudits.Proftpd.Privs
