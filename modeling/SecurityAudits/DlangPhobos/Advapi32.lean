import SecurityAudits.Lib.Monitor

/-!
# Loading `Advapi32.dll` on first use

`loadAdvapi32` (`std/internal/windows/advapi32.d`) loads the library for a caller that needs
`RegDeleteKeyExW` and puts its handle and the entry point into two variables of the module. The caller
then calls through `pRegDeleteKeyExW`. A load that fails throws, and the next call tries again.

Only `advapi32Lock` is `__gshared`. The two variables are not, so every thread has its own, and loads
the library for itself. Windows counts how often a process has loaded a library and not freed it;
`refs` is how often a thread has in this code. The answers of the system calls come from outside.
-/

namespace SecurityAudits.DlangPhobos.Advapi32
set_option autoImplicit false
open SecurityAudits.Run SecurityAudits.Lock SecurityAudits.Monitor

variable {Task Thread Module Address : Type} [DecidableEq Module]

/-- The variables of one thread, and the loads that it has not freed. -/
structure Globals (Module Address : Type) where
  hAdvapi32 : Option Module
  /-- An entry point, in the module that it was looked up in. -/
  pRegDeleteKeyExW : Option (Module × Address)
  refs : Module → Nat

/-- What the system answers where it is called. -/
structure Answer (Module Address : Type) where
  /-- `LoadLibraryA("Advapi32.dll")`, none for null. -/
  loadLibraryA : Option Module
  /-- `GetProcAddress(.., "RegDeleteKeyExW")`, none for null. -/
  getProcAddress : Option Address

/-- Where a call is in `loadAdvapi32`, with its local variables. -/
inductive Pc (Module Address : Type) where
  /-- `if (!hAdvapi32)` -/
  | test
  | loadLibrary
  | getProc (hAdvapi32Local : Module)
  | freeLibrary (hAdvapi32Local : Module)
  /-- `pRegDeleteKeyExW = pRegDeleteKeyExWLocal` -/
  | setProc (hAdvapi32Local : Module) (pRegDeleteKeyExWLocal : Address)
  /-- `hAdvapi32 = hAdvapi32Local` -/
  | setHandle (hAdvapi32Local : Module)

/-- The body of the `synchronized` statement, a step for each access to the variables and each call
of the system. -/
def inside (s : Globals Module Address) (answer : Answer Module Address) :
    Pc Module Address → Globals Module Address × (Pc Module Address ⊕ Except String Unit)
  | .test =>
    match s.hAdvapi32 with
    | some _ => (s, .inr (.ok ()))
    | none => (s, .inl .loadLibrary)
  | .loadLibrary =>
    match answer.loadLibraryA with
    | none => (s, .inr (.error "LoadLibraryA(\"Advapi32.dll\")"))
    | some m => ({ s with refs := Function.update s.refs m (s.refs m + 1) }, .inl (.getProc m))
  | .getProc m =>
    match answer.getProcAddress with
    | none => (s, .inl (.freeLibrary m))
    | some p => (s, .inl (.setProc m p))
  | .freeLibrary m =>
    ({ s with refs := Function.update s.refs m (s.refs m - 1) },
      .inr (.error "GetProcAddress(hAdvapi32 , \"RegDeleteKeyExW\")"))
  | .setProc m p => ({ s with pRegDeleteKeyExW := some (m, p) }, .inl (.setHandle m))
  | .setHandle m => ({ s with hAdvapi32 := some m }, .inr (.ok ()))

/-- `loadAdvapi32`, which does nothing before it takes `advapi32Lock`. A task is one call, and
`thread` says in which thread it is made. -/
def loadAdvapi32 [DecidableEq Thread] (thread : Task → Thread) :
    Call Task (Thread → Globals Module Address) (Pc Module Address) (Answer Module Address)
      (Except String Unit) where
  prepare _ _ := .test
  inside t here s answer :=
    (Function.update s (thread t) (inside (s (thread t)) answer here).1,
      (inside (s (thread t)) answer here).2)

/-- As a thread starts. -/
def unloaded : Globals Module Address := ⟨none, none, fun _ => 0⟩

/-! ## The variables of one thread -/

/-- `m` is loaded once, and nothing else. -/
def Once (m : Module) (refs : Module → Nat) : Prop := refs = Function.update (fun _ => 0) m 1

/-- The variables are set and the library is loaded for them. -/
def Loaded (s : Globals Module Address) : Prop :=
  ∃ m p, s.hAdvapi32 = some m ∧ s.pRegDeleteKeyExW = some (m, p) ∧ Once m s.refs

def Free (s : Globals Module Address) : Prop := s = unloaded ∨ Loaded s

/-- What is known in the middle of a call: only the last of the steps lets a caller see that the
library is there. -/
def Held (here : Pc Module Address) (s : Globals Module Address) : Prop :=
  match here with
  | .test => Free s
  | .loadLibrary => s = unloaded
  | .getProc m | .freeLibrary m | .setProc m _ =>
    s.hAdvapi32 = none ∧ s.pRegDeleteKeyExW = none ∧ Once m s.refs
  | .setHandle m => s.hAdvapi32 = none ∧ (∃ p, s.pRegDeleteKeyExW = some (m, p)) ∧ Once m s.refs

variable {s u : Globals Module Address} {here next : Pc Module Address}
  {answer : Answer Module Address} {m : Module} {p : Address}

theorem once_load : Once m (Function.update (fun _ => 0) m (0 + 1)) := rfl

theorem once_free {refs : Module → Nat} (once : Once m refs) :
    Function.update refs m (refs m - 1) = fun _ => 0 := by
  rw [once, Function.update_self, Function.update_idem, Function.update_eq_self_iff]

/-- Nobody is in the middle of loading the library when it is there. -/
theorem Held.test_of_loaded (held : Held here s) (loaded : Loaded s) : here = .test := by
  obtain ⟨m, p, handle, -, -⟩ := loaded
  cases here with
  | test => rfl
  | loadLibrary =>
    rw [show s = unloaded from held] at handle
    cases handle
  | getProc | freeLibrary | setProc | setHandle =>
    rw [show s.hAdvapi32 = none from held.1] at handle
    cases handle

/-- A call that finds the library loaded returns, and changes nothing. -/
theorem inside_of_loaded (held : Held here s) (loaded : Loaded s) :
    inside s answer here = (s, .inr (.ok ())) := by
  obtain rfl := held.test_of_loaded loaded
  obtain ⟨m, p, handle, -, -⟩ := loaded
  simp only [inside, handle]

theorem held_stays (held : Held here s) (stays : inside s answer here = (u, .inl next)) :
    Held next u := by
  cases here with
  | test =>
    rcases held with rfl | loaded
    · cases stays
      rfl
    · rw [inside_of_loaded (show Held .test s from .inr loaded) loaded] at stays
      cases stays
  | loadLibrary =>
    obtain rfl : s = unloaded := held
    simp only [inside] at stays
    split at stays <;> cases stays
    exact ⟨rfl, rfl, once_load⟩
  | getProc m =>
    simp only [inside] at stays
    split at stays <;> cases stays
    · exact held
    · exact held
  | freeLibrary => cases stays
  | setProc m p =>
    cases stays
    exact ⟨held.1, ⟨p, rfl⟩, held.2.2⟩
  | setHandle => cases stays

theorem held_leaves {result : Except String Unit} (held : Held here s)
    (leaves : inside s answer here = (u, .inr result)) :
    Free u ∧ (result = .ok () → Loaded u) := by
  cases here with
  | test =>
    rcases held with rfl | loaded
    · cases leaves
    · rw [inside_of_loaded (show Held .test s from .inr loaded) loaded] at leaves
      cases leaves
      exact ⟨.inr loaded, fun _ => loaded⟩
  | loadLibrary =>
    obtain rfl : s = unloaded := held
    simp only [inside] at leaves
    split at leaves <;> cases leaves
    exact ⟨.inl rfl, nofun⟩
  | getProc m =>
    simp only [inside] at leaves
    split at leaves <;> cases leaves
  | freeLibrary m =>
    cases leaves
    obtain ⟨handle, proc, once⟩ := held
    refine ⟨.inl ?_, nofun⟩
    rw [once_free once, handle, proc]
    rfl
  | setProc => cases leaves
  | setHandle m =>
    cases leaves
    obtain ⟨-, ⟨p, proc⟩, once⟩ := held
    have loaded : Loaded { s with hAdvapi32 := some m } := ⟨m, p, rfl, proc, once⟩
    exact ⟨.inr loaded, fun _ => loaded⟩

/-! ## Many threads -/

section Threads

variable {thread : Task → Thread} {shared : Thread → Globals Module Address} {t : Task}

def AllFree (shared : Thread → Globals Module Address) : Prop := ∀ θ, Free (shared θ)

/-- The call of `t` is in the middle of the variables of its own thread. -/
def HeldBy (thread : Task → Thread) (t : Task) (here : Pc Module Address)
    (shared : Thread → Globals Module Address) : Prop :=
  Held here (shared (thread t)) ∧ ∀ θ, θ ≠ thread t → Free (shared θ)

/-- A call that returns leaves the library loaded for its thread. -/
def Post (thread : Task → Thread) (t : Task) (result : Except String Unit)
    (shared : Thread → Globals Module Address) : Prop :=
  result = .ok () → Loaded (shared (thread t))

variable [DecidableEq Thread]

/-- A step changes nothing of a thread that has loaded the library. -/
theorem inside_loaded {θ : Thread} (held : HeldBy thread t here shared)
    (loaded : Loaded (shared θ)) (answer : Answer Module Address) :
    ((loadAdvapi32 thread).inside t here shared answer).1 θ = shared θ := by
  show Function.update _ _ _ _ = _
  by_cases own : θ = thread t
  · subst own
    rw [Function.update_self, inside_of_loaded held.1 loaded]
  · rw [Function.update_of_ne own]

theorem protects :
    Protects (loadAdvapi32 thread : Call Task (Thread → Globals Module Address) _ _ _) AllFree
      (HeldBy thread) (Post thread) where
  enters t _ _ free := ⟨free (thread t), fun θ _ => free θ⟩
  stays t here shared answer shared' next held stays := by
    obtain ⟨rfl, out⟩ := Prod.mk.inj stays
    refine ⟨?_, fun θ other => ?_⟩
    · rw [Function.update_self]
      exact held_stays held.1 (Prod.ext rfl out)
    · rw [Function.update_of_ne other]
      exact held.2 θ other
  leaves t here shared answer shared' result held leaves := by
    obtain ⟨rfl, out⟩ := Prod.mk.inj leaves
    obtain ⟨free, post⟩ := held_leaves held.1 (Prod.ext rfl out)
    refine ⟨fun θ => ?_, fun returned => ?_⟩
    · by_cases own : θ = thread t
      · subst own
        rwa [Function.update_self]
      · rw [Function.update_of_ne own]
        exact held.2 θ own
    · rw [Function.update_self]
      exact post returned
  lasts t here shared answer shared' out held taken u result post returned := by
    have loaded := post returned
    have same : shared' (thread u) = shared (thread u) := by
      rw [← inside_loaded held loaded answer, taken]
    rwa [same]

/-- A run of any number of calls, in any order of their steps, with any answers of the system -/
abbrev Runs [DecidableEq Task] (thread : Task → Thread)
    (c : Config Task (Thread → Globals Module Address) (Pc Module Address)
      (Answer Module Address) (Except String Unit))
    (acts : List (Action Task (Answer Module Address)))
    (d : Config Task (Thread → Globals Module Address) (Pc Module Address)
      (Answer Module Address) (Except String Unit)) : Prop :=
  exec (Lock.step (loadAdvapi32 thread)) c acts = some d

variable [DecidableEq Task]
  {c : Config Task (Thread → Globals Module Address) (Pc Module Address) (Answer Module Address)
    (Except String Unit)}

/-- **The entry point is there for whoever has called.** Whenever no call of a thread has the lock,
the thread has loaded the library once and both of its variables say so, or it has not loaded it and
neither is set, however many calls have failed. From the moment one of its calls has returned, its
variables and its count of loads never change again, whatever the threads do: the entry point is one
of the library that stays loaded, and no later call of the thread is seen past its first test. -/
theorem loadAdvapi32_safe (thread : Task → Thread)
    (acts : List (Action Task (Answer Module Address)))
    (run : Runs thread (initial fun _ => unloaded) acts c) :
    (∀ θ, (∀ t, c.holder = some t → thread t ≠ θ) →
      c.shared θ = unloaded ∨ Loaded (c.shared θ)) ∧
    ∀ t, c.phase t = .done (.ok ()) → ∀ more d, Runs thread c more d →
      Loaded (d.shared (thread t)) ∧ d.shared (thread t) = c.shared (thread t) ∧
      ∀ u first inputs here, thread u = thread t → d.phase u = .holding first inputs here →
        here = .test := by
  have holds := holds_of_run protects (fun _ => .inl rfl) run
  refine ⟨fun θ away => ?_, fun t returned more d later => ?_⟩
  · cases holder : c.holder with
    | none => exact holds.free holder θ
    | some t =>
      obtain ⟨first, inputs, here, at_holding⟩ := holding_of_run run holder
      exact (holds.holding t first inputs here at_holding).2.2 θ (away t holder).symm
  have loaded : Loaded (c.shared (thread t)) := holds.done t _ returned rfl
  have same : d.shared (thread t) = c.shared (thread t) := by
    have keeps : ∀ (u : Task) here s answer, HeldBy thread u here s →
        s (thread t) = c.shared (thread t) →
          ((loadAdvapi32 thread).inside u here s answer).1 (thread t) = c.shared (thread t) := by
      intro u here s answer held same
      rw [inside_loaded held (by rwa [same]) answer, same]
    have kept := lasts_of_run protects keeps holds rfl later
    exact kept
  have loaded' : Loaded (d.shared (thread t)) := same ▸ loaded
  have holds' := holds_of_run protects (fun _ => .inl rfl)
    (exec_append.trans (by rw [run]; exact later))
  refine ⟨loaded', same, fun u first inputs here own at_holding => ?_⟩
  have held := (holds'.holding u first inputs here at_holding).2.1
  rw [own] at held
  exact held.test_of_loaded loaded'

end Threads

/-- The first call of thread 0 does not get the entry point, and its second one loads the library
again; the call of thread 1 has waited meanwhile. -/
def retryActions : List (Action Nat (Answer Nat Nat)) :=
  [.prepare 0 ⟨none, none⟩, .prepare 2 ⟨none, none⟩, .lock 0, .inside 0 ⟨none, none⟩,
    .inside 0 ⟨some 7, none⟩, .inside 0 ⟨none, none⟩, .inside 0 ⟨none, none⟩,
    .prepare 1 ⟨none, none⟩, .lock 1, .inside 1 ⟨none, none⟩, .inside 1 ⟨some 7, none⟩,
    .inside 1 ⟨none, some 4⟩, .inside 1 ⟨none, none⟩, .inside 1 ⟨none, none⟩, .lock 2]

theorem loadAdvapi32_safe_retry :
    ∃ c : Config Nat (Nat → Globals Nat Nat) (Pc Nat Nat) (Answer Nat Nat) (Except String Unit),
      Runs (· / 2) (initial fun _ => unloaded) retryActions c ∧ c.phase 1 = .done (.ok ()) ∧
      c.shared 1 = unloaded ∧
      ∀ more d, Runs (· / 2) c more d → Loaded (d.shared 0) ∧ d.shared 0 = c.shared 0 ∧
        ∀ u first inputs here, u / 2 = 0 → d.phase u = .holding first inputs here →
          here = .test := by
  refine ⟨_, rfl, rfl, rfl, ?_⟩
  exact (loadAdvapi32_safe (· / 2) retryActions rfl).2 1 rfl

end SecurityAudits.DlangPhobos.Advapi32
