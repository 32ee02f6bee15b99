import SecurityAudits.Lib.Run
import Mathlib.Data.List.Nodup
import Mathlib.Logic.Function.Basic

/-!
# The spin mutex of the ITRON ports

`SpinMutex::with_locked` (`sys/pal/itron/spin.rs`) keeps two things apart: threads of one core, by
disabling the dispatching of that core, and threads of different cores, by the atomic `locked`. The
closure given to it may call `with_locked` again, on another mutex, and then dispatching is disabled
already and must stay so until the outer call is over.

The system is any number of threads on any number of cores. The scheduler moves threads between cores
as it likes, but never on a core whose dispatching is disabled. Interrupt handlers, which run no
threads, are left out.
-/

namespace SecurityAudits.RustStdlib.SpinMutex
set_option autoImplicit false
open SecurityAudits.Run

/-! ## A call -/

/-- Where a call of `with_locked` is; `dspEnabled` is its local variable, and then the second field of
its guard. -/
inductive Pc where
  /-- before `abi::sns_dsp()` -/
  | sense
  /-- before `abi::dis_dsp()` -/
  | disable
  /-- `while self.locked.swap(true, Ordering::Acquire) {}` -/
  | swap (dspEnabled : Bool)
  /-- `f(unsafe { &mut *self.data.get() })` -/
  | inside (dspEnabled : Bool)
  /-- in `drop`, behind `self.0.store(false, Ordering::Release)` -/
  | restore (dspEnabled : Bool)
  deriving DecidableEq, Repr

/-- The value of `dspEnabled` from the loop on, where the call relies on dispatching being disabled. -/
def Pc.past : Pc → Option Bool
  | .sense => none
  | .disable => none
  | .swap dspEnabled => some dspEnabled
  | .inside dspEnabled => some dspEnabled
  | .restore dspEnabled => some dspEnabled

def Pc.isInside : Pc → Bool
  | .inside _ => true
  | _ => false

variable {Thread Core Mutex : Type}

/-- A call, with what dispatching was when it was made. -/
structure Call (Mutex : Type) where
  mutex : Mutex
  pc : Pc
  entered : Bool
  deriving DecidableEq, Repr

/-- What a call reads and writes: the dispatching of its core and the `locked` of its mutex. -/
structure Seen where
  dispatching : Bool
  locked : Bool
  deriving DecidableEq, Repr

/-- One step of a call; `none` for a call that has returned. In `swap` a step is one turn of the
loop, in `inside` it is the end of the closure, by return or by panic, with the first line of `drop`. -/
def Call.advance (k : Call Mutex) (seen : Seen) : Option (Call Mutex) × Seen :=
  match k.pc with
  | .sense => (some { k with pc := if seen.dispatching then .disable else .swap false }, seen)
  | .disable => (some { k with pc := .swap true }, { seen with dispatching := false })
  | .swap dspEnabled =>
    if seen.locked then (some k, seen)
    else (some { k with pc := .inside dspEnabled }, { seen with locked := true })
  | .inside dspEnabled => (some { k with pc := .restore dspEnabled }, { seen with locked := false })
  | .restore dspEnabled =>
    (none, { seen with dispatching := if dspEnabled then true else seen.dispatching })

/-! ## The system -/

structure Config (Thread Core Mutex : Type) where
  /-- `locked` of each mutex -/
  locked : Mutex → Bool
  dispatching : Core → Bool
  running : Core → Option Thread
  /-- the core a thread runs on -/
  place : Thread → Option Core
  /-- the calls of each thread, the innermost first -/
  calls : Thread → List (Call Mutex)

/-- Nothing runs yet. -/
def start (dispatching : Core → Bool) : Config Thread Core Mutex where
  locked _ := false
  dispatching := dispatching
  running _ := none
  place _ := none
  calls _ := []

/-- The mutexes whose closures run. -/
def heldBy (calls : List (Call Mutex)) : List Mutex :=
  (calls.filter fun k => k.pc.isInside).map Call.mutex

inductive Action (Thread Core Mutex : Type) where
  /-- the scheduler takes the thread off a core -/
  | preempt (core : Core)
  /-- the scheduler gives a core to a thread -/
  | resume (core : Core) (thread : Thread)
  /-- the thread on a core calls `with_locked` -/
  | call (core : Core) (mutex : Mutex)
  /-- the innermost call of the thread on a core takes a step -/
  | advance (core : Core)
  /-- the thread on a core, in no call, uses `dis_dsp` or `ena_dsp` itself -/
  | setDispatching (core : Core) (enabled : Bool)

/-- A thread may call `with_locked` in no call, or in a closure. -/
def mayCall : List (Call Mutex) → Bool
  | [] => true
  | k :: _ => k.pc.isInside

section
variable [DecidableEq Thread] [DecidableEq Core] [DecidableEq Mutex]

def Config.advance (s : Config Thread Core Mutex) (c : Core) (t : Thread) (k : Call Mutex)
    (rest : List (Call Mutex)) : Config Thread Core Mutex :=
  let after := k.advance ⟨s.dispatching c, s.locked k.mutex⟩
  { s with
    locked := Function.update s.locked k.mutex after.2.locked
    dispatching := Function.update s.dispatching c after.2.dispatching
    calls := Function.update s.calls t (after.1.toList ++ rest) }

def step (s : Config Thread Core Mutex) :
    Action Thread Core Mutex → Option (Config Thread Core Mutex)
  | .preempt c =>
    match s.running c with
    | none => none
    | some t =>
      if s.dispatching c then
        some { s with
          running := Function.update s.running c none
          place := Function.update s.place t none }
      else none
  | .resume c t =>
    if s.dispatching c ∧ s.running c = none ∧ s.place t = none then
      some { s with
        running := Function.update s.running c (some t)
        place := Function.update s.place t (some c) }
    else none
  | .call c m =>
    match s.running c with
    | none => none
    | some t =>
      if mayCall (s.calls t) then
        some { s with
          calls := Function.update s.calls t (⟨m, .sense, s.dispatching c⟩ :: s.calls t) }
      else none
  | .advance c =>
    match s.running c with
    | none => none
    | some t =>
      match s.calls t with
      | [] => none
      | k :: rest => some (s.advance c t k rest)
  | .setDispatching c enabled =>
    match s.running c with
    | none => none
    | some t =>
      match s.calls t with
      | [] => some { s with dispatching := Function.update s.dispatching c enabled }
      | _ :: _ => none

end

/-! ## One thread -/

/-- What holds of a call, given what dispatching is on the core of its thread (`none` for a thread that
does not run, and that was taken off a core with dispatching enabled). -/
def Call.Sound (view : Option Bool) (k : Call Mutex) : Prop :=
  match k.pc with
  | .sense => view.getD true = k.entered
  | .disable => view.getD true = true ∧ k.entered = true
  | .swap dspEnabled => dspEnabled = k.entered ∧ view = some false
  | .inside dspEnabled => dspEnabled = k.entered ∧ view = some false
  | .restore dspEnabled => dspEnabled = k.entered ∧ view = some false

/-- What holds of the calls of a thread: an inner call is made in the closure of the next one, so with
dispatching disabled. -/
def Sound (view : Option Bool) : List (Call Mutex) → Prop
  | [] => True
  | k :: rest => k.Sound view ∧ (∀ j ∈ rest.head?, j.pc.isInside = true ∧ k.entered = false) ∧
      Sound view rest

variable {view : Option Bool} {k j : Call Mutex} {rest calls : List (Call Mutex)}
  {dispatching locked : Bool}

theorem Call.Sound.pinned (sound : k.Sound view) (closure : k.pc.isInside = true) :
    view = some false := by
  unfold Call.Sound at sound
  cases at_ : k.pc <;> rw [at_] at sound closure
  case inside dspEnabled => exact sound.2
  all_goals cases closure

theorem heldBy_inside (closure : k.pc.isInside = true) :
    heldBy (k :: rest) = k.mutex :: heldBy rest := by
  simp [heldBy, closure]

theorem heldBy_outside (outside : k.pc.isInside ≠ true) : heldBy (k :: rest) = heldBy rest := by
  simp [heldBy, outside]

/-- A thread that runs a closure has its core, with dispatching disabled. -/
theorem Sound.pinned (sound : Sound view calls) {m : Mutex} (held : m ∈ heldBy calls) :
    view = some false := by
  induction calls with
  | nil => cases held
  | cons k rest ih =>
    by_cases closure : k.pc.isInside = true
    · exact sound.1.pinned closure
    · rw [heldBy_outside closure] at held
      exact ih sound.2.2 held

/-- Where dispatching is enabled a thread is at most at the beginning of one call. -/
theorem Sound.outermost (sound : Sound view (k :: rest)) (enabled : view ≠ some false) :
    rest = [] := by
  cases rest with
  | nil => rfl
  | cons j rest => exact absurd (sound.2.2.1.pinned (sound.2.1 j rfl).1) enabled

/-- A thread that is taken off its core, or put on one, does not notice. -/
theorem Sound.moved (sound : Sound view calls) (enabled : view.getD true = true)
    {view' : Option Bool} (enabled' : view'.getD true = true) : Sound view' calls := by
  have notDisabled : view ≠ some false := by
    rintro rfl
    cases enabled
  cases calls with
  | nil => trivial
  | cons k rest =>
    obtain rfl := sound.outermost notDisabled
    refine ⟨?_, fun j found => (by cases found), trivial⟩
    have top := sound.1
    unfold Call.Sound at top ⊢
    cases at_ : k.pc <;> rw [at_] at top
    case sense => exact enabled'.trans (enabled.symm.trans top)
    case disable => exact ⟨enabled', top.2⟩
    all_goals exact absurd top.2 notDisabled

/-- A step of the innermost call. -/
theorem Sound.advance (locked : Bool) (sound : Sound (some dispatching) (k :: rest)) :
    Sound (some (k.advance ⟨dispatching, locked⟩).2.dispatching)
      ((k.advance ⟨dispatching, locked⟩).1.toList ++ rest) := by
  obtain ⟨top, inner, outer⟩ := sound
  have whole : Sound (some dispatching) (k :: rest) := ⟨top, inner, outer⟩
  unfold Call.Sound at top
  unfold Call.advance
  cases at_ : k.pc <;> rw [at_] at top
  case sense =>
    refine ⟨?_, inner, outer⟩
    cases dispatching
    · exact ⟨top, rfl⟩
    · exact ⟨rfl, top.symm⟩
  case disable =>
    obtain rfl : dispatching = true := top.1
    obtain rfl := whole.outermost (by decide)
    exact ⟨⟨top.2.symm, rfl⟩, inner, trivial⟩
  case swap dspEnabled =>
    dsimp only
    split
    · exact whole
    · exact ⟨top, inner, outer⟩
  case inside dspEnabled => exact ⟨top, inner, outer⟩
  case restore dspEnabled =>
    cases dspEnabled with
    | false => exact outer
    | true =>
      cases rest with
      | nil => trivial
      | cons j rest => exact absurd ((inner j rfl).2.symm.trans top.1.symm) (by decide)

/-- The call that returns leaves dispatching as it was when it was made. -/
theorem Sound.restored (sound : Sound (some dispatching) (k :: rest))
    (returns : (k.advance ⟨dispatching, locked⟩).1 = none) :
    (k.advance ⟨dispatching, locked⟩).2.dispatching = k.entered := by
  have top := sound.1
  unfold Call.Sound at top
  unfold Call.advance at returns ⊢
  cases at_ : k.pc <;> rw [at_] at top returns
  case swap dspEnabled =>
    dsimp only at returns
    split at returns <;> cases returns
  case restore dspEnabled =>
    obtain ⟨rfl, disabled⟩ := top
    obtain rfl : dispatching = false := Option.some.inj disabled
    cases k.entered <;> rfl
  all_goals cases returns

/-! ## The locks -/

/-- Every lock that is set is held once, by one thread. -/
structure Exclusive (locked : Mutex → Bool) (held : Thread → List Mutex) : Prop where
  once : ∀ t, (held t).Nodup
  apart : ∀ t u m, m ∈ held t → m ∈ held u → t = u
  locked_iff : ∀ m, locked m = true ↔ ∃ t, m ∈ held t

section
variable [DecidableEq Thread] [DecidableEq Mutex] {lockedAt : Mutex → Bool}
  {held : Thread → List Mutex} {t : Thread} {m : Mutex}

theorem Exclusive.take (exclusive : Exclusive lockedAt held) (free : lockedAt m = false) :
    Exclusive (Function.update lockedAt m true) (Function.update held t (m :: held t)) := by
  have unheld : ∀ u, m ∉ held u := by
    intro u found
    rw [(exclusive.locked_iff m).2 ⟨u, found⟩] at free
    cases free
  have mem_iff : ∀ u n, n ∈ Function.update held t (m :: held t) u ↔
      (u = t ∧ n = m) ∨ n ∈ held u := by
    intro u n
    by_cases same : u = t
    · subst same
      rw [Function.update_self, List.mem_cons]
      simp
    · rw [Function.update_of_ne same]
      simp [same]
  refine ⟨fun u => ?_, fun u v n one two => ?_, fun n => ?_⟩
  · by_cases same : u = t
    · subst same
      rw [Function.update_self]
      exact List.nodup_cons.2 ⟨unheld u, exclusive.once u⟩
    · rw [Function.update_of_ne same]
      exact exclusive.once u
  · rw [mem_iff] at one two
    rcases one with ⟨rfl, rfl⟩ | one <;> rcases two with ⟨rfl, same⟩ | two
    · rfl
    · exact absurd two (unheld v)
    · subst same
      exact absurd one (unheld u)
    · exact exclusive.apart u v n one two
  · by_cases same : n = m
    · subst same
      rw [Function.update_self]
      exact iff_of_true rfl ⟨t, (mem_iff t n).2 (.inl ⟨rfl, rfl⟩)⟩
    · rw [Function.update_of_ne same, exclusive.locked_iff]
      refine exists_congr fun u => ?_
      rw [mem_iff]
      simp [same]

theorem Exclusive.give {ms : List Mutex} (exclusive : Exclusive lockedAt held)
    (top : held t = m :: ms) :
    Exclusive (Function.update lockedAt m false) (Function.update held t ms) := by
  have once := exclusive.once t
  rw [top, List.nodup_cons] at once
  have holds : m ∈ held t := top ▸ List.mem_cons_self
  have mem_iff : ∀ u n, n ∈ Function.update held t ms u ↔ n ≠ m ∧ n ∈ held u := by
    intro u n
    by_cases same : u = t
    · subst same
      rw [Function.update_self, top, List.mem_cons]
      refine ⟨fun found => ⟨?_, .inr found⟩, fun found => found.2.resolve_left found.1⟩
      rintro rfl
      exact once.1 found
    · rw [Function.update_of_ne same]
      refine ⟨fun found => ⟨?_, found⟩, And.right⟩
      rintro rfl
      exact same (exclusive.apart u t n found holds)
  refine ⟨fun u => ?_, fun u v n one two => ?_, fun n => ?_⟩
  · by_cases same : u = t
    · subst same
      rw [Function.update_self]
      exact once.2
    · rw [Function.update_of_ne same]
      exact exclusive.once u
  · exact exclusive.apart u v n ((mem_iff u n).1 one).2 ((mem_iff v n).1 two).2
  · by_cases same : n = m
    · subst same
      rw [Function.update_self]
      exact iff_of_false Bool.false_ne_true fun ⟨u, found⟩ => ((mem_iff u n).1 found).1 rfl
    · rw [Function.update_of_ne same, exclusive.locked_iff]
      refine exists_congr fun u => ?_
      rw [mem_iff]
      simp [same]

/-- A step of the innermost call takes its lock when that is free, gives it back, or leaves the locks
alone. -/
theorem Exclusive.advance (calls : Thread → List (Call Mutex))
    (exclusive : Exclusive lockedAt fun u => heldBy (calls u)) (top : calls t = k :: rest) :
    Exclusive
      (Function.update lockedAt k.mutex (k.advance ⟨dispatching, lockedAt k.mutex⟩).2.locked)
      fun u => heldBy (Function.update calls t
        ((k.advance ⟨dispatching, lockedAt k.mutex⟩).1.toList ++ rest) u) := by
  have move : ∀ calls', (fun u => heldBy (Function.update calls t calls' u)) =
      Function.update (fun u => heldBy (calls u)) t (heldBy calls') := by
    intro calls'
    funext u
    exact Function.apply_update (fun _ => heldBy) calls t calls' u
  rw [move]
  have same : ∀ calls', heldBy calls' = heldBy (k :: rest) →
      Exclusive (Function.update lockedAt k.mutex (lockedAt k.mutex))
        (Function.update (fun u => heldBy (calls u)) t (heldBy calls')) := by
    intro calls' equal
    rw [equal, ← top, Function.update_eq_self, Function.update_eq_self t]
    exact exclusive
  unfold Call.advance
  cases at_ : k.pc
  case swap dspEnabled =>
    have outside : k.pc.isInside ≠ true := by rw [at_]; exact Bool.false_ne_true
    dsimp only
    cases free : lockedAt k.mutex with
    | true =>
      have unchanged := same (k :: rest) rfl
      rw [free] at unchanged
      exact unchanged
    | false =>
      have taken := exclusive.take (t := t) free
      have now : heldBy (calls t) = heldBy rest := by rw [top, heldBy_outside outside]
      rw [now] at taken
      exact taken
  case inside dspEnabled =>
    have closure : k.pc.isInside = true := by rw [at_]; rfl
    have outside : heldBy (⟨k.mutex, .restore dspEnabled, k.entered⟩ :: rest) = heldBy rest :=
      heldBy_outside Bool.false_ne_true
    have now : heldBy (calls t) =
        k.mutex :: heldBy (⟨k.mutex, .restore dspEnabled, k.entered⟩ :: rest) := by
      rw [top, heldBy_inside closure, outside]
    exact exclusive.give now
  all_goals
    refine same _ ?_
    have outside : k.pc.isInside ≠ true := by rw [at_]; exact Bool.false_ne_true
    rw [heldBy_outside outside]
  case sense =>
    refine heldBy_outside ?_
    cases dispatching <;> exact Bool.false_ne_true
  case disable => exact heldBy_outside Bool.false_ne_true
  case restore dspEnabled => rfl

end

/-! ## Runs -/

structure Inv (s : Config Thread Core Mutex) : Prop where
  placed : ∀ c t, s.running c = some t ↔ s.place t = some c
  sound : ∀ t, Sound ((s.place t).map s.dispatching) (s.calls t)
  exclusive : Exclusive s.locked fun t => heldBy (s.calls t)

variable {s s' : Config Thread Core Mutex} {c : Core} {t : Thread} {a : Action Thread Core Mutex}

theorem Inv.start (enabled : Core → Bool) :
    Inv (start enabled : Config Thread Core Mutex) where
  placed c t := by simp [SpinMutex.start]
  sound t := trivial
  exclusive := by
    refine ⟨fun t => List.nodup_nil, fun t u m found => (by cases found), fun m => ?_⟩
    exact iff_of_false Bool.false_ne_true fun ⟨t, found⟩ => by cases found

theorem Inv.view_self (inv : Inv s) (runs : s.running c = some t) :
    (s.place t).map s.dispatching = some (s.dispatching c) := by
  rw [(inv.placed c t).1 runs, Option.map_some]

theorem Inv.call [DecidableEq Thread] {m : Mutex} (inv : Inv s) (runs : s.running c = some t)
    (may : mayCall (s.calls t) = true) :
    Inv { s with
      calls := Function.update s.calls t (⟨m, .sense, s.dispatching c⟩ :: s.calls t) } where
  placed := inv.placed
  sound u := by
    dsimp only
    by_cases same : u = t
    · subst same
      have outer := inv.sound u
      rw [Function.update_self]
      rw [inv.view_self runs] at outer ⊢
      refine ⟨rfl, fun j found => ?_, outer⟩
      cases listed : s.calls u with
      | nil =>
        rw [listed] at found
        cases found
      | cons k rest =>
        rw [listed] at found may outer
        obtain rfl : k = j := Option.some.inj found
        exact ⟨may, Option.some.inj (outer.1.pinned may)⟩
    · rw [Function.update_of_ne same]
      exact inv.sound u
  exclusive := by
    have unchanged : (fun u => heldBy (Function.update s.calls t
        (⟨m, .sense, s.dispatching c⟩ :: s.calls t) u)) = fun u => heldBy (s.calls u) := by
      funext u
      by_cases same : u = t
      · subst same
        rw [Function.update_self]
        exact heldBy_outside Bool.false_ne_true
      · rw [Function.update_of_ne same]
    rw [unchanged]
    exact inv.exclusive

variable [DecidableEq Core]

/-- What another thread sees does not change with the dispatching of this core. -/
theorem Inv.view_of_ne (inv : Inv s) (runs : s.running c = some t) {u : Thread} (other : u ≠ t)
    (enabled : Bool) :
    (s.place u).map (Function.update s.dispatching c enabled) = (s.place u).map s.dispatching := by
  cases found : s.place u with
  | none => rfl
  | some c' =>
    have elsewhere : c' ≠ c := by
      rintro rfl
      exact other (Option.some.inj (((inv.placed c' u).2 found).symm.trans runs))
    rw [Option.map_some, Option.map_some, Function.update_of_ne elsewhere]

variable [DecidableEq Thread]

theorem Inv.preempt (inv : Inv s) (runs : s.running c = some t) (enabled : s.dispatching c = true) :
    Inv { s with
      running := Function.update s.running c none
      place := Function.update s.place t none } where
  placed c' u := by
    by_cases here : c' = c
    · subst here
      by_cases same : u = t
      · subst same
        simp
      · have elsewhere : s.place u ≠ some c' := fun found =>
          same (Option.some.inj (((inv.placed c' u).2 found).symm.trans runs))
        simp [Function.update_of_ne same, elsewhere]
    · by_cases same : u = t
      · subst same
        have elsewhere : s.running c' ≠ some u := fun found =>
          here (Option.some.inj (((inv.placed c' u).1 found).symm.trans ((inv.placed c u).1 runs)))
        simp [Function.update_of_ne here, elsewhere]
      · simpa [Function.update_of_ne here, Function.update_of_ne same] using inv.placed c' u
  sound u := by
    by_cases same : u = t
    · subst same
      have before := inv.sound u
      rw [inv.view_self runs, enabled] at before
      refine before.moved rfl ?_
      simp
    · simpa [Function.update_of_ne same] using inv.sound u
  exclusive := inv.exclusive

theorem Inv.resume (inv : Inv s) (enabled : s.dispatching c = true) (idle : s.running c = none)
    (off : s.place t = none) :
    Inv { s with
      running := Function.update s.running c (some t)
      place := Function.update s.place t (some c) } where
  placed c' u := by
    by_cases here : c' = c
    · subst here
      by_cases same : u = t
      · subst same
        simp
      · have elsewhere : s.place u ≠ some c' := fun found => by
          have runs := (inv.placed c' u).2 found
          rw [idle] at runs
          cases runs
        simp [Function.update_of_ne same, elsewhere, Ne.symm same]
    · by_cases same : u = t
      · subst same
        have elsewhere : s.running c' ≠ some u := fun found => by
          have runs := (inv.placed c' u).1 found
          rw [off] at runs
          cases runs
        simp [Function.update_of_ne here, elsewhere, Ne.symm here]
      · simpa [Function.update_of_ne here, Function.update_of_ne same] using inv.placed c' u
  sound u := by
    by_cases same : u = t
    · subst same
      have before := inv.sound u
      rw [off] at before
      refine before.moved rfl ?_
      simp [enabled]
    · simpa [Function.update_of_ne same] using inv.sound u
  exclusive := inv.exclusive

variable [DecidableEq Mutex]

theorem Inv.advance (inv : Inv s) (runs : s.running c = some t) (top : s.calls t = k :: rest) :
    Inv (s.advance c t k rest) where
  placed := inv.placed
  sound u := by
    by_cases same : u = t
    · subst same
      have before := inv.sound u
      rw [inv.view_self runs, top] at before
      have after := before.advance (s.locked k.mutex)
      simpa [Config.advance, (inv.placed c u).1 runs] using after
    · have before := inv.sound u
      rw [← inv.view_of_ne runs same
        (k.advance ⟨s.dispatching c, s.locked k.mutex⟩).2.dispatching] at before
      simpa [Config.advance, Function.update_of_ne same] using before
  exclusive := inv.exclusive.advance s.calls top

theorem Inv.step (inv : Inv s) (taken : step s a = some s') : Inv s' := by
  cases a with
  | preempt c =>
    simp only [SpinMutex.step] at taken
    split at taken
    · cases taken
    next t runs =>
      split at taken
      next enabled =>
        cases taken
        exact inv.preempt runs enabled
      · cases taken
  | resume c t =>
    simp only [SpinMutex.step] at taken
    split at taken
    next may =>
      cases taken
      exact inv.resume may.1 may.2.1 may.2.2
    · cases taken
  | call c m =>
    simp only [SpinMutex.step] at taken
    split at taken
    · cases taken
    next t runs =>
      split at taken
      next may =>
        cases taken
        exact inv.call runs may
      · cases taken
  | advance c =>
    simp only [SpinMutex.step] at taken
    split at taken
    · cases taken
    next t runs =>
      split at taken
      · cases taken
      next k rest top =>
        cases taken
        exact inv.advance runs top
  | setDispatching c enabled =>
    simp only [SpinMutex.step] at taken
    split at taken
    · cases taken
    next t runs =>
      split at taken
      next idle =>
        cases taken
        refine ⟨inv.placed, fun u => ?_, inv.exclusive⟩
        by_cases same : u = t
        · subst same
          rw [idle]
          trivial
        · have before := inv.sound u
          rw [← inv.view_of_ne runs same enabled] at before
          exact before
      · cases taken

/-- What `with_locked` promises in a state. -/
structure Excludes (s : Config Thread Core Mutex) : Prop where
  /-- the closures of one mutex run one at a time, and `locked` tells whether one runs -/
  exclusive : Exclusive s.locked fun t => heldBy (s.calls t)
  /-- a thread in a closure has its core, with dispatching disabled -/
  pinned : ∀ t m, m ∈ heldBy (s.calls t) → ∃ c, s.running c = some t ∧ s.dispatching c = false
  /-- a thread that spins waits for itself, or for a thread that runs on another core -/
  spins : ∀ c t k rest dspEnabled, s.running c = some t → s.calls t = k :: rest →
    k.pc = .swap dspEnabled → s.locked k.mutex = true →
    k.mutex ∈ heldBy rest ∨
      ∃ c' u, c' ≠ c ∧ s.running c' = some u ∧ k.mutex ∈ heldBy (s.calls u)
  /-- a call that returns leaves dispatching as it was when it was made -/
  restores : ∀ c t k rest s', s.running c = some t → s.calls t = k :: rest →
    step s (.advance c) = some s' → s'.calls t = rest → s'.dispatching c = k.entered

/-- **`with_locked` excludes.** Whatever the threads call, also in their closures and with dispatching
disabled before, and wherever and whenever they run. -/
theorem withLocked_excludes {enabled : Core → Bool} {as : List (Action Thread Core Mutex)}
    (run : exec step (start enabled) as = some s) : Excludes s := by
  have inv : Inv s := exec_invariant (fun _ _ _ inv taken => inv.step taken) (.start enabled) run
  have pinned : ∀ t m, m ∈ heldBy (s.calls t) →
      ∃ c, s.running c = some t ∧ s.dispatching c = false := by
    intro t m held
    obtain ⟨c, place, disabled⟩ := Option.map_eq_some_iff.1 ((inv.sound t).pinned held)
    exact ⟨c, (inv.placed c t).2 place, disabled⟩
  refine ⟨inv.exclusive, pinned, ?_, ?_⟩
  · intro c t k rest dspEnabled runs top spinning taken
    obtain ⟨u, held⟩ := (inv.exclusive.locked_iff _).1 taken
    obtain ⟨c', runs', -⟩ := pinned u _ held
    by_cases same : u = t
    · subst same
      have outside : k.pc.isInside ≠ true := by rw [spinning]; exact Bool.false_ne_true
      rw [top, heldBy_outside outside] at held
      exact .inl held
    · refine .inr ⟨c', u, ?_, runs', held⟩
      rintro rfl
      exact same (Option.some.inj (runs'.symm.trans runs))
  · intro c t k rest s' runs top taken returned
    have sound := inv.sound t
    rw [inv.view_self runs, top] at sound
    simp only [step, runs, top, Option.some.injEq] at taken
    subst taken
    simp only [Config.advance, Function.update_self] at returned ⊢
    refine sound.restored ?_
    cases after : (k.advance ⟨s.dispatching c, s.locked k.mutex⟩).1 with
    | none => rfl
    | some k' =>
      rw [after] at returned
      exact absurd (congrArg List.length returned) (by simp)

/-- A thread that has disabled dispatching itself spins on its core, and on the other one a thread is
inside. -/
def contended : List (Action (Fin 2) (Fin 2) Unit) :=
  [.resume 0 0, .resume 1 1, .setDispatching 1 false, .call 0 (), .advance 0, .advance 0, .advance 0,
    .call 1 (), .advance 1, .advance 1]

theorem withLocked_excludes_contended :
    ((exec step (start fun _ => true) contended).map fun s =>
      (s.calls 0, s.calls 1, s.dispatching 0, s.dispatching 1, s.locked ())) =
        some ([⟨(), .inside true, true⟩], [⟨(), .swap false, false⟩], false, false, true) ∧
      ∀ s, exec step (start fun _ => true) contended = some s → Excludes s :=
  ⟨by decide, fun _ run => withLocked_excludes run⟩

end SecurityAudits.RustStdlib.SpinMutex
