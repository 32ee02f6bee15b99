import Mathlib.Data.List.Count
import Mathlib.Logic.Function.Basic
import SecurityAudits.Lib.Run

/-!
# `DProxyInstanceFactory::acquire`

Any number of tasks call `acquire`, each for its shard. A step is one mutex-held block of
the patched loop, the completion of `spin_up`, the creation of the `Notified` future after
the mutex has been released, or the wake-up of a waiter. The background task that drops
the cached instance of a shard when its runner exits is a step too.

`Inv` couples the two maps with the program points: the reservations in `starting` are
exactly those held by the tasks between the two blocks of the starter.
-/

namespace SecurityAudits.WasmerWasix.Factory
set_option autoImplicit false
open SecurityAudits.Run

/-- The identity of one `Arc<Notify>`. -/
abbrev NotifyId := Nat

/-- `State`, the two maps behind the factory's mutex. -/
structure State (Shard Inst : Type) where
  instances : Shard → Option Inst
  starting : Shard → Option NotifyId

/-- Where a call of `acquire` stands. -/
inductive Pc (Inst Error : Type) where
  /-- At the head of `loop`, before `self.state.lock()`. -/
  | enter
  /-- The reservation is made and the mutex dropped; `spin_up` is awaited. -/
  | spinUp (notify : NotifyId)
  /-- `spin_up` has returned; before the second `self.state.lock()`. -/
  | publish (notify : NotifyId) (result : Except Error Inst)
  /-- The stored `Notify` is cloned and the mutex released; before `notify.notified()`. -/
  | subscribe (notify : NotifyId)
  /-- The `Notified` future exists and is awaited. -/
  | wait (notify : NotifyId) (woken : Bool)
  | returned (result : Except Error Inst)
  | panicked
  deriving DecidableEq

/-- The reservation a task has to give back: it is the starter of that `Notify`. -/
def Pc.reservation {Inst Error : Type} : Pc Inst Error → Option NotifyId
  | .spinUp n => some n
  | .publish n _ => some n
  | _ => none

/-- `notify_waiters` on `n`: the futures that exist are woken, no permit is kept. -/
def Pc.wake {Inst Error : Type} (n : NotifyId) : Pc Inst Error → Pc Inst Error
  | .wait m woken => .wait m (woken || m == n)
  | pc => pc

/-- The factory, its callers, and the history of its `instance` map. -/
structure Config (Task Shard Inst Error : Type) where
  state : State Shard Inst
  /-- A task panicked while it held the mutex. -/
  poisoned : Bool
  /-- `notify_waiters` has been called on this `Notify`. -/
  fired : NotifyId → Bool
  /-- The next `Arc::new(Notify::new())`. -/
  fresh : NotifyId
  pc : Task → Pc Inst Error
  /-- The shards of all `state.instance.insert` calls so far. -/
  stored : List Shard
  /-- The shards whose cached instance the background task has dropped so far. -/
  exited : List Shard

inductive Action (Task Shard Inst Error : Type) where
  | enter (t : Task)
  | spinUpReturns (t : Task) (result : Except Error Inst)
  | publish (t : Task)
  | notified (t : Task)
  | resume (t : Task)
  | exit (s : Shard)

variable {Task Shard Inst Error : Type} [DecidableEq Task] [DecidableEq Shard]

namespace Config

/-- Task `t` moves to `pc`. -/
def goto (c : Config Task Shard Inst Error) (t : Task) (pc : Pc Inst Error) :
    Config Task Shard Inst Error :=
  { c with pc := Function.update c.pc t pc }

/-- A new `Notify` is stored for the shard and `t` becomes its starter. -/
def reserve (c : Config Task Shard Inst Error) (t : Task) (shard : Shard) :
    Config Task Shard Inst Error :=
  { c with
    state := { c.state with starting := Function.update c.state.starting shard (some c.fresh) }
    fresh := c.fresh + 1
    pc := Function.update c.pc t (.spinUp c.fresh) }

/-- The first mutex-held block: a cached instance, a startup to wait for, or a new
reservation. -/
def enterBlock (c : Config Task Shard Inst Error) (t : Task) (shard : Shard) :
    Config Task Shard Inst Error :=
  if c.poisoned then c.goto t .panicked
  else match c.state.instances shard with
    | some inst => c.goto t (.returned (.ok inst))
    | none =>
      match c.state.starting shard with
      | some n => c.goto t (.subscribe n)
      | none => c.reserve t shard

/-- The second mutex-held block, once the reservation `n` has been taken out: the result is
cached if there is one, and the `Notify` is fired before the mutex is released. -/
def release (c : Config Task Shard Inst Error) (t : Task) (shard : Shard) (n : NotifyId)
    (result : Except Error Inst) : Config Task Shard Inst Error :=
  { c with
    state :=
      { starting := Function.update c.state.starting shard none
        instances := match result with
          | .ok inst => Function.update c.state.instances shard (some inst)
          | .error _ => c.state.instances }
    fired := Function.update c.fired n true
    pc := Function.update (fun u => (c.pc u).wake n) t (.returned result)
    stored := match result with
      | .ok _ => shard :: c.stored
      | .error _ => c.stored }

/-- The second mutex-held block, with the panic of
`expect("missing shard startup reservation")`, which poisons the mutex. -/
def publishBlock (c : Config Task Shard Inst Error) (t : Task) (shard : Shard)
    (result : Except Error Inst) : Config Task Shard Inst Error :=
  if c.poisoned then c.goto t .panicked
  else match c.state.starting shard with
    | none => { c.goto t .panicked with poisoned := true }
    | some n => c.release t shard n result

/-- The background task of a shard's runner drops the cached instance. -/
def dropInstance (c : Config Task Shard Inst Error) (shard : Shard) :
    Config Task Shard Inst Error :=
  { c with
    state := { c.state with instances := Function.update c.state.instances shard none }
    exited := shard :: c.exited }

variable {c : Config Task Shard Inst Error} {t u : Task} {shard s : Shard} {n m : NotifyId}
  {result : Except Error Inst}

@[simp] theorem reserve_pc_self : (c.reserve t shard).pc t = .spinUp c.fresh :=
  Function.update_self ..

theorem reserve_pc_other (other : u ≠ t) : (c.reserve t shard).pc u = c.pc u :=
  Function.update_of_ne other ..

@[simp] theorem reserve_starting_self : (c.reserve t shard).state.starting shard = some c.fresh :=
  Function.update_self ..

theorem reserve_starting_other (other : s ≠ shard) :
    (c.reserve t shard).state.starting s = c.state.starting s :=
  Function.update_of_ne other ..

/-- What is stored after a reservation is the new one, or belongs to another shard and was before. -/
theorem starting_of_reserve (found : (c.reserve t shard).state.starting s = some m) :
    s = shard ∧ m = c.fresh ∨ s ≠ shard ∧ c.state.starting s = some m := by
  by_cases here : s = shard
  · subst here
    rw [reserve_starting_self] at found
    exact Or.inl ⟨rfl, (Option.some.inj found).symm⟩
  · rw [reserve_starting_other here] at found
    exact Or.inr ⟨here, found⟩

@[simp] theorem release_pc_self : (c.release t shard n result).pc t = .returned result := by
  simp [release]

theorem release_pc_other (other : u ≠ t) :
    (c.release t shard n result).pc u = (c.pc u).wake n := by
  simp [release, other]

theorem release_starting_other (other : s ≠ shard) :
    (c.release t shard n result).state.starting s = c.state.starting s := by
  simp [release, other]

/-- What is stored after a release is the reservation of another shard, and was before. -/
theorem starting_of_release (found : (c.release t shard n result).state.starting s = some m) :
    s ≠ shard ∧ c.state.starting s = some m := by
  by_cases here : s = shard
  · subst here
    simp [release] at found
  · rw [release_starting_other here] at found
    exact ⟨here, found⟩

end Config

/-- One step of the factory and its callers; `shardOf` is the shard each task asks for. -/
def step (shardOf : Task → Shard) (c : Config Task Shard Inst Error) :
    Action Task Shard Inst Error → Option (Config Task Shard Inst Error)
  | .enter t =>
    match c.pc t with
    | .enter => some (c.enterBlock t (shardOf t))
    | _ => none
  | .spinUpReturns t result =>
    match c.pc t with
    | .spinUp n => some (c.goto t (.publish n result))
    | _ => none
  | .publish t =>
    match c.pc t with
    | .publish _ result => some (c.publishBlock t (shardOf t) result)
    | _ => none
  | .notified t =>
    match c.pc t with
    | .subscribe n => some (c.goto t (.wait n false))
    | _ => none
  | .resume t =>
    match c.pc t with
    | .wait _ true => some (c.goto t .enter)
    | _ => none
  | .exit shard => some (c.dropInstance shard)

/-- A new factory (`State::default()`), with every task about to enter `acquire`. -/
def initial : Config Task Shard Inst Error where
  state := ⟨fun _ => none, fun _ => none⟩
  poisoned := false
  fired := fun _ => false
  fresh := 0
  pc := fun _ => .enter
  stored := []
  exited := []

/-- The `spin_up` of task `t` is in flight: `t` is between its two mutex-held blocks. -/
def InFlight (c : Config Task Shard Inst Error) (t : Task) : Prop :=
  ∃ n, (c.pc t).reservation = some n

/-- Two callers of one shard, the second of which enters while the first one spins up. -/
def twoCallers : List (Action Bool Unit String String) :=
  [.enter false, .enter true, .notified true, .spinUpReturns false (.ok "runner"),
    .publish false, .resume true, .enter true]

/-- What couples the maps, the program points and the history. -/
structure Inv (shardOf : Task → Shard) (c : Config Task Shard Inst Error) : Prop where
  reserved : ∀ t n, (c.pc t).reservation = some n → c.state.starting (shardOf t) = some n
  owned : ∀ s n, c.state.starting s = some n → ∃ t, (c.pc t).reservation = some n ∧ shardOf t = s
  single : ∀ t u n, (c.pc t).reservation = some n → (c.pc u).reservation = some n → t = u
  exclusive : ∀ s n, c.state.starting s = some n → c.state.instances s = none
  below : ∀ s n, c.state.starting s = some n → n < c.fresh
  unpoisoned : c.poisoned = false
  running : ∀ t, c.pc t ≠ .panicked
  counted : ∀ s, c.stored.count s ≤ c.exited.count s + (c.state.instances s).toList.length

omit [DecidableEq Task] in
theorem inv_initial (shardOf : Task → Shard) :
    Inv shardOf (initial : Config Task Shard Inst Error) := by
  constructor <;> simp [initial, Pc.reservation]

@[simp] theorem wake_reservation (n : NotifyId) (pc : Pc Inst Error) :
    (pc.wake n).reservation = pc.reservation := by
  cases pc <;> rfl

theorem wake_ne_panicked {n : NotifyId} {pc : Pc Inst Error} (h : pc ≠ .panicked) :
    pc.wake n ≠ .panicked := by
  cases pc <;> simp_all [Pc.wake]

variable {shardOf : Task → Shard} {c d : Config Task Shard Inst Error} {t : Task}

omit [DecidableEq Shard] in
theorem goto_reservation {pc : Pc Inst Error} (same : pc.reservation = (c.pc t).reservation)
    (u : Task) : ((c.goto t pc).pc u).reservation = (c.pc u).reservation := by
  by_cases here : u = t
  · subst here; simp [Config.goto, same]
  · simp [Config.goto, here]

/-- A task that neither takes nor gives back a reservation moves freely. -/
theorem Inv.goto {pc : Pc Inst Error} (h : Inv shardOf c)
    (same : pc.reservation = (c.pc t).reservation) (fine : pc ≠ .panicked) :
    Inv shardOf (c.goto t pc) where
  reserved u n held := h.reserved u n (by rwa [goto_reservation same] at held)
  owned s n found := by
    obtain ⟨u, held, at_s⟩ := h.owned s n found
    exact ⟨u, by rwa [goto_reservation same], at_s⟩
  single u v n hu hv := by
    rw [goto_reservation same] at hu hv
    exact h.single u v n hu hv
  exclusive := h.exclusive
  below := h.below
  unpoisoned := h.unpoisoned
  running u := by
    by_cases here : u = t
    · subst here; simpa [Config.goto] using fine
    · simpa [Config.goto, here] using h.running u
  counted := h.counted

/-- The three outcomes of the first mutex-held block. -/
theorem enter_block_cases (shard : Shard) (unpoisoned : c.poisoned = false) :
    (∃ inst, c.enterBlock t shard = c.goto t (.returned (.ok inst))) ∨
    (∃ n, c.enterBlock t shard = c.goto t (.subscribe n)) ∨
    (c.state.instances shard = none ∧ c.state.starting shard = none ∧
      c.enterBlock t shard = c.reserve t shard) := by
  unfold Config.enterBlock
  rw [unpoisoned, if_neg Bool.false_ne_true]
  cases cached : c.state.instances shard with
  | some inst => exact Or.inl ⟨inst, rfl⟩
  | none =>
    cases found : c.state.starting shard with
    | some n => exact Or.inr (Or.inl ⟨n, rfl⟩)
    | none => exact Or.inr (Or.inr ⟨rfl, rfl, rfl⟩)

omit [DecidableEq Task] [DecidableEq Shard] in
/-- A startup that is found belongs to another shard than one that has none. -/
theorem elsewhere (unreserved : c.state.starting (shardOf t) = none)
    {u : Task} {n : NotifyId} (found : c.state.starting (shardOf u) = some n) :
    shardOf u ≠ shardOf t := by
  intro same
  rw [same, unreserved] at found
  cases found

/-- Who holds a reservation after one was made holds the new one, or held it before. -/
theorem reservation_of_reserve {shard : Shard} {u : Task} {n : NotifyId}
    (held : ((c.reserve t shard).pc u).reservation = some n) :
    u = t ∧ n = c.fresh ∨ u ≠ t ∧ (c.pc u).reservation = some n := by
  by_cases here : u = t
  · subst here
    rw [Config.reserve_pc_self] at held
    exact Or.inl ⟨rfl, (Option.some.inj held).symm⟩
  · rw [Config.reserve_pc_other here] at held
    exact Or.inr ⟨here, held⟩

/-- A new reservation, for a shard that has neither an instance nor a startup. -/
theorem Inv.reserve (h : Inv shardOf c) (uncached : c.state.instances (shardOf t) = none)
    (unreserved : c.state.starting (shardOf t) = none) :
    Inv shardOf (c.reserve t (shardOf t)) := by
  have others : ∀ u n, (c.pc u).reservation = some n → n < c.fresh := fun u n held =>
    h.below _ n (h.reserved u n held)
  constructor
  · intro u n held
    rcases reservation_of_reserve held with ⟨rfl, rfl⟩ | ⟨-, held⟩
    · exact Config.reserve_starting_self
    · have found := h.reserved u n held
      rw [Config.reserve_starting_other (elsewhere unreserved found)]
      exact found
  · intro s n found
    rcases Config.starting_of_reserve found with ⟨rfl, rfl⟩ | ⟨here, found⟩
    · exact ⟨t, by rw [Config.reserve_pc_self]; rfl, rfl⟩
    · obtain ⟨u, held, rfl⟩ := h.owned s n found
      have other : u ≠ t := fun same => here (by rw [same])
      exact ⟨u, by rwa [Config.reserve_pc_other other], rfl⟩
  · intro u v n hu hv
    rcases reservation_of_reserve hu with ⟨rfl, rfl⟩ | ⟨-, before⟩
    · rcases reservation_of_reserve hv with ⟨rfl, -⟩ | ⟨-, before⟩
      · rfl
      · exact absurd (others v _ before) (Nat.lt_irrefl _)
    · rcases reservation_of_reserve hv with ⟨rfl, rfl⟩ | ⟨-, before'⟩
      · exact absurd (others u _ before) (Nat.lt_irrefl _)
      · exact h.single u v n before before'
  · intro s n found
    rcases Config.starting_of_reserve found with ⟨rfl, -⟩ | ⟨-, found⟩
    · exact uncached
    · exact h.exclusive s n found
  · intro s n found
    rcases Config.starting_of_reserve found with ⟨-, rfl⟩ | ⟨-, found⟩
    · exact Nat.lt_succ_self c.fresh
    · exact Nat.lt_succ_of_lt (h.below s n found)
  · exact h.unpoisoned
  · intro u
    by_cases here : u = t
    · subst here; simp
    · rw [Config.reserve_pc_other here]
      exact h.running u
  · exact h.counted

theorem Inv.enter_block (h : Inv shardOf c) (at_enter : c.pc t = .enter) :
    Inv shardOf (c.enterBlock t (shardOf t)) := by
  rcases enter_block_cases (shardOf t) h.unpoisoned with
    ⟨inst, same⟩ | ⟨n, same⟩ | ⟨uncached, unreserved, same⟩ <;> rw [same]
  · exact h.goto (by rw [at_enter]; rfl) nofun
  · exact h.goto (by rw [at_enter]; rfl) nofun
  · exact h.reserve uncached unreserved

/-- A starter gives back its own reservation: the one the map holds for its shard. -/
theorem Inv.release (h : Inv shardOf c) {n : NotifyId} (held : (c.pc t).reservation = some n)
    (result : Except Error Inst) : Inv shardOf (c.release t (shardOf t) n result) := by
  have mine := h.reserved t n held
  have uncached := h.exclusive _ n mine
  have other : ∀ u m, ((c.release t (shardOf t) n result).pc u).reservation = some m →
      u ≠ t ∧ (c.pc u).reservation = some m := by
    intro u m kept
    by_cases here : u = t
    · subst here
      rw [Config.release_pc_self] at kept
      cases kept
    · rw [Config.release_pc_other here, wake_reservation] at kept
      exact ⟨here, kept⟩
  have elsewhere : ∀ u m, u ≠ t → (c.pc u).reservation = some m → shardOf u ≠ shardOf t := by
    intro u m away kept same
    have found := h.reserved u m kept
    rw [same, mine] at found
    cases found
    exact away (h.single u t n kept held)
  constructor
  · intro u m kept
    obtain ⟨away, kept⟩ := other u m kept
    rw [Config.release_starting_other (elsewhere u m away kept)]
    exact h.reserved u m kept
  · intro s m found
    obtain ⟨here, found⟩ := Config.starting_of_release found
    obtain ⟨u, kept, rfl⟩ := h.owned s m found
    have away : u ≠ t := fun same => here (by rw [same])
    exact ⟨u, by rwa [Config.release_pc_other away, wake_reservation], rfl⟩
  · intro u v m hu hv
    exact h.single u v m (other u m hu).2 (other v m hv).2
  · intro s m found
    obtain ⟨here, found⟩ := Config.starting_of_release found
    have none_cached := h.exclusive s m found
    cases result <;> simp [Config.release, Function.update_of_ne here, none_cached]
  · intro s m found
    exact h.below s m (Config.starting_of_release found).2
  · exact h.unpoisoned
  · intro u
    by_cases here : u = t
    · subst here; simp
    · rw [Config.release_pc_other here]
      exact wake_ne_panicked (h.running u)
  · intro s
    have before := h.counted s
    cases result with
    | error e => exact before
    | ok inst =>
      by_cases here : s = shardOf t
      · subst here
        rw [uncached] at before
        simpa [Config.release] using before
      · simpa [Config.release, Function.update_of_ne here, List.count_cons, Ne.symm here] using before

omit [DecidableEq Task] in
theorem Inv.drop_instance (h : Inv shardOf c) (shard : Shard) : Inv shardOf (c.dropInstance shard) where
  reserved := h.reserved
  owned := h.owned
  single := h.single
  exclusive s n found := by
    have none_cached := h.exclusive s n found
    by_cases here : s = shard
    · subst here; simp [Config.dropInstance]
    · simpa [Config.dropInstance, Function.update_of_ne here] using none_cached
  below := h.below
  unpoisoned := h.unpoisoned
  running := h.running
  counted s := by
    have before := h.counted s
    by_cases here : s = shard
    · subst here
      have : (c.state.instances s).toList.length ≤ 1 := by cases c.state.instances s <;> simp
      simp only [Config.dropInstance, List.count_cons_self, Function.update_self,
        Option.toList_none, List.length_nil]
      omega
    · simpa [Config.dropInstance, Function.update_of_ne here, List.count_cons, Ne.symm here] using before

/-- What a step can do, one case for each action that is enabled. -/
theorem step_cases {a : Action Task Shard Inst Error} (taken : step shardOf c a = some d) :
    (∃ t, a = .enter t ∧ c.pc t = .enter ∧ d = c.enterBlock t (shardOf t)) ∨
    (∃ t n result, a = .spinUpReturns t result ∧ c.pc t = .spinUp n ∧
      d = c.goto t (.publish n result)) ∨
    (∃ t n result, a = .publish t ∧ c.pc t = .publish n result ∧
      d = c.publishBlock t (shardOf t) result) ∨
    (∃ t n, a = .notified t ∧ c.pc t = .subscribe n ∧ d = c.goto t (.wait n false)) ∨
    (∃ t n, a = .resume t ∧ c.pc t = .wait n true ∧ d = c.goto t .enter) ∨
    (∃ shard, a = .exit shard ∧ d = c.dropInstance shard) := by
  cases a <;> simp only [step] at taken
  case exit shard => cases taken; simp
  all_goals
    split at taken
    · rename_i at_pc
      cases taken
      simp [at_pc]
    · cases taken

/-- With the invariant the second block always finds the starter's own reservation. -/
theorem Inv.publish_block (h : Inv shardOf c) {n : NotifyId} {result : Except Error Inst}
    (at_publish : c.pc t = .publish n result) (outcome : Except Error Inst) :
    c.publishBlock t (shardOf t) outcome = c.release t (shardOf t) n outcome := by
  have mine := h.reserved t n (by rw [at_publish]; rfl)
  simp [Config.publishBlock, h.unpoisoned, mine]

theorem Inv.step (h : Inv shardOf c) {a : Action Task Shard Inst Error}
    (taken : Factory.step shardOf c a = some d) : Inv shardOf d := by
  rcases step_cases taken with ⟨t, -, at_pc, rfl⟩ | ⟨t, n, r, -, at_pc, rfl⟩ |
    ⟨t, n, r, -, at_pc, rfl⟩ | ⟨t, n, -, at_pc, rfl⟩ | ⟨t, n, -, at_pc, rfl⟩ | ⟨shard, -, rfl⟩
  · exact h.enter_block at_pc
  · exact h.goto (by rw [at_pc]; rfl) nofun
  · rw [h.publish_block at_pc]
    exact h.release (by rw [at_pc]; rfl) r
  · exact h.goto (by rw [at_pc]; rfl) nofun
  · exact h.goto (by rw [at_pc]; rfl) nofun
  · exact h.drop_instance shard

theorem inv_of_run {as : List (Action Task Shard Inst Error)}
    (run : exec (Factory.step shardOf) initial as = some c) : Inv shardOf c :=
  exec_invariant (fun _ _ _ h taken => h.step taken) (inv_initial shardOf) run

/-- **One startup per shard.** In every reachable state at most one `spin_up` per shard is in
flight, `starting` holds exactly the shards that have one, no shard is both starting and
cached, a shard whose instance was never dropped has been stored at most once, and no task
has panicked. -/
theorem acquire_one_startup (shardOf : Task → Shard) (as : List (Action Task Shard Inst Error))
    (run : exec (Factory.step shardOf) initial as = some c) :
    (∀ t u, InFlight c t → InFlight c u → shardOf t = shardOf u → t = u) ∧
    (∀ s, (c.state.starting s).isSome ↔ ∃ t, InFlight c t ∧ shardOf t = s) ∧
    (∀ s, ¬ ((c.state.starting s).isSome ∧ (c.state.instances s).isSome)) ∧
    (∀ s, s ∉ c.exited → c.stored.count s ≤ 1) ∧
    (∀ t, c.pc t ≠ .panicked) := by
  have h := inv_of_run run
  refine ⟨?_, ?_, ?_, ?_, h.running⟩
  · rintro t u ⟨n, ht⟩ ⟨m, hu⟩ same
    have found := h.reserved t n ht
    rw [same, h.reserved u m hu] at found
    cases found
    exact h.single t u n ht hu
  · intro s
    constructor
    · intro found
      obtain ⟨n, found⟩ := Option.isSome_iff_exists.1 found
      obtain ⟨t, held, at_s⟩ := h.owned s n found
      exact ⟨t, ⟨n, held⟩, at_s⟩
    · rintro ⟨t, ⟨n, held⟩, rfl⟩
      rw [h.reserved t n held]
      rfl
  · rintro s ⟨found, cached⟩
    obtain ⟨n, found⟩ := Option.isSome_iff_exists.1 found
    rw [h.exclusive s n found] at cached
    cases cached
  · intro s never
    have bound := h.counted s
    have one : (c.state.instances s).toList.length ≤ 1 := by cases c.state.instances s <;> simp
    rw [List.count_eq_zero_of_not_mem never] at bound
    omega

/-- The rule at a run in which the second caller waits for the first and gets its instance. -/
theorem acquire_one_startup_two_callers :
    ∃ c, exec (Factory.step fun _ : Bool => ()) initial twoCallers = some c ∧
      c.pc true = .returned (.ok "runner") ∧ c.stored.count () ≤ 1 ∧ ∀ t, c.pc t ≠ .panicked := by
  refine ⟨_, rfl, rfl, ?_⟩
  have safe := acquire_one_startup (fun _ : Bool => ()) twoCallers rfl
  exact ⟨safe.2.2.2.1 () (by decide), safe.2.2.2.2⟩

end SecurityAudits.WasmerWasix.Factory
