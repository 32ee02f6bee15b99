import SecurityAudits.Lib.Linearize
import Mathlib.Logic.Function.Basic

/-!
# `BinFactory::get_executable`

The factory (`lib/wasix/src/bin_factory/mod.rs`) keeps what it has found for the names of executables in
a map behind a `RwLock`. A call that does not find its name looks twice and then loads the file, and the
patch lets go of the lock while it waits for that. Other calls run meanwhile, for the same name too, and
a guest may have changed the file between two loads.

A step is one block under the lock, or the end of a load. `getExecutable_serial` says that the calls are
those of a map that is searched and filled at once, and that what is in it is final.
-/

namespace SecurityAudits.WasmerWasix.BinFactory
set_option autoImplicit false
open SecurityAudits.Run SecurityAudits.Linearize

variable {Task Name Wasm Package : Type}

inductive Executable (Wasm Package : Type) where
  | wasm (wasm : Wasm)
  | binaryPackage (pkg : Package)
  deriving DecidableEq

/-- `self.local`; `some none` is a name that is known to have no package. -/
abbrev Cache (Name Package : Type) := Name → Option (Option Package)

/-- `data.clone().map(Executable::BinaryPackage)` -/
def executable (data : Option Package) : Option (Executable Wasm Package) :=
  data.map .binaryPackage

/-- Where a task is in `get_executable`. -/
inductive Pc (Name Wasm Package : Type) where
  | idle
  /-- The fast path has found nothing; `search` is that the name starts with `/` and there is a file
  system. -/
  | missed (name : Name) (search : Bool)
  /-- In `load_executable_from_filesystem`, without the lock. -/
  | loading (name : Name)
  | loaded (name : Name) (loaded : Option (Executable Wasm Package))

structure State (Task Name Wasm Package : Type) where
  cache : Cache Name Package
  pc : Task → Pc Name Wasm Package

inductive Action (Task Name Wasm Package : Type) where
  /-- The fast path, under the lock for reading -/
  | read (t : Task) (name : Name) (search : Bool)
  /-- The second look, under the lock for writing -/
  | check (t : Task)
  /-- The end of the load; none for an error -/
  | load (t : Task) (loaded : Option (Executable Wasm Package))
  /-- From the third look to the return -/
  | publish (t : Task)

variable [DecidableEq Task] [DecidableEq Name]

/-- The last block, with the look that it begins with. `nak` is whether a name without an executable is
kept as such. -/
def publish (nak : Bool) (cache : Cache Name Package) (name : Name)
    (loaded : Option (Executable Wasm Package)) :
    Option (Executable Wasm Package) × Cache Name Package :=
  match cache name, loaded with
  | some data, _ => (executable data, cache)
  | none, some (.binaryPackage pkg) =>
    (some (.binaryPackage pkg), Function.update cache name (some (some pkg)))
  | none, some (.wasm wasm) => (some (.wasm wasm), cache)
  | none, none => (none, if nak then Function.update cache name (some none) else cache)

def State.goto (s : State Task Name Wasm Package) (t : Task) (pc : Pc Name Wasm Package) :
    State Task Name Wasm Package :=
  { s with pc := Function.update s.pc t pc }

def step (nak : Bool) (s : State Task Name Wasm Package) :
    Action Task Name Wasm Package → Option (State Task Name Wasm Package)
  | .read t name search =>
    match s.pc t with
    | .idle =>
      match s.cache name with
      | some _ => some s
      | none => some (s.goto t (.missed name search))
    | _ => none
  | .check t =>
    match s.pc t with
    | .missed name search =>
      match s.cache name with
      | some _ => some (s.goto t .idle)
      | none => some (s.goto t (if search then .loading name else .loaded name none))
    | _ => none
  | .load t loaded =>
    match s.pc t with
    | .loading name => some (s.goto t (.loaded name loaded))
    | _ => none
  | .publish t =>
    match s.pc t with
    | .loaded name loaded => some { s.goto t .idle with cache := (publish nak s.cache name loaded).2 }
    | _ => none

omit [DecidableEq Task] [DecidableEq Name] in
def start : State Task Name Wasm Package := ⟨fun _ => none, fun _ => .idle⟩

/-! ## The calls, one after another -/

section Calls

omit [DecidableEq Task]

/-- A call that has returned, with what it has loaded itself. -/
structure Return (Name Wasm Package : Type) where
  name : Name
  loaded : Option (Executable Wasm Package)
  result : Option (Executable Wasm Package)

/-- The call that returns with a step. -/
def returns (nak : Bool) (s : State Task Name Wasm Package) :
    Action Task Name Wasm Package → List (Return Name Wasm Package)
  | .read _ name _ => ((s.cache name).map fun data => ⟨name, none, executable data⟩).toList
  | .check t =>
    match s.pc t with
    | .missed name _ => ((s.cache name).map fun data => ⟨name, none, executable data⟩).toList
    | _ => []
  | .load .. => []
  | .publish t =>
    match s.pc t with
    | .loaded name loaded => [⟨name, loaded, (publish nak s.cache name loaded).1⟩]
    | _ => []

/-- What the map gets for a name that it does not have. -/
def kept (nak : Bool) : Option (Executable Wasm Package) → Option (Option Package)
  | some (.binaryPackage pkg) => some (some pkg)
  | some (.wasm _) => none
  | none => if nak then some none else none

variable [DecidableEq Wasm] [DecidableEq Package]

/-- The whole of a call at once, if that is what it returns. -/
def call (nak : Bool) (op : Return Name Wasm Package) (cache : Cache Name Package) :
    Option (Cache Name Package) :=
  let done := publish nak cache op.name op.loaded
  if done.1 = op.result then some done.2 else none

variable {nak : Bool} {cache final : Cache Name Package} {name : Name} {data : Option Package}
  {loaded : Option (Executable Wasm Package)} {op : Return Name Wasm Package}
  {ops : List (Return Name Wasm Package)} {e : Executable Wasm Package}

omit [DecidableEq Wasm] [DecidableEq Package] in
theorem publish_found (found : cache name = some data) :
    publish nak cache name loaded = (executable data, cache) := by
  simp only [publish, found]

omit [DecidableEq Wasm] [DecidableEq Package] in
theorem publish_missing (missing : cache name = none) :
    publish nak cache name loaded = (loaded, Function.update cache name (kept nak loaded)) := by
  have same : Function.update cache name none = cache := Function.update_eq_self_iff.2 missing.symm
  match loaded with
  | some (.binaryPackage pkg) => simp only [publish, missing, kept]
  | some (.wasm wasm) => simp only [publish, missing, kept, same]
  | none => cases nak <;> simp [publish, missing, kept, same]

omit [DecidableEq Wasm] [DecidableEq Package] in
theorem kept_eq_some :
    kept nak loaded = some data ↔ loaded = executable data ∧ (data = none → nak = true) := by
  match loaded with
  | some (.binaryPackage pkg) => cases data <;> simp [kept, executable, eq_comm]
  | some (.wasm wasm) => cases data <;> simp [kept, executable]
  | none => cases data <;> simp [kept, executable]

omit [DecidableEq Wasm] [DecidableEq Package] in
/-- Whatever is found stays. -/
theorem publish_keeps {other : Name} (found : cache name = some data) :
    (publish nak cache other loaded).2 name = some data := by
  cases before : cache other with
  | some old =>
    rw [publish_found before]
    exact found
  | none =>
    have differ : name ≠ other := fun same => by
      rw [← same, found] at before
      cases before
    rw [publish_missing before]
    exact (Function.update_of_ne differ ..).trans found

theorem call_eq_some :
    call nak op cache = some final ↔
      (publish nak cache op.name op.loaded).1 = op.result ∧
        (publish nak cache op.name op.loaded).2 = final := by
  exact Option.ite_none_right_eq_some.trans (and_congr_right fun _ => Option.some_inj)

omit [DecidableEq Wasm] [DecidableEq Package] in
theorem publish_result (returned : (publish nak cache name loaded).1 = some e) :
    loaded = some e ∨ ∃ pkg, e = .binaryPackage pkg ∧ cache name = some (some pkg) := by
  cases found : cache name with
  | some data =>
    rw [publish_found found] at returned
    obtain ⟨pkg, rfl, rfl⟩ := Option.map_eq_some_iff.1 returned
    exact .inr ⟨pkg, rfl, rfl⟩
  | none =>
    rw [publish_missing found] at returned
    exact .inl returned

omit [DecidableEq Wasm] [DecidableEq Package] in
theorem publish_package {other : Name} {pkg : Package}
    (has : (publish nak cache name loaded).2 other = some (some pkg)) :
    cache other = some (some pkg) ∨ name = other ∧ loaded = some (.binaryPackage pkg) := by
  cases found : cache name with
  | some data =>
    rw [publish_found found] at has
    exact .inl has
  | none =>
    rw [publish_missing found] at has
    by_cases same : other = name
    · subst same
      dsimp only at has
      rw [Function.update_self] at has
      exact .inr ⟨rfl, (kept_eq_some.1 has).1⟩
    · exact .inl ((Function.update_of_ne same ..).symm.trans has)

/-- A name that is in the map gets the same answer ever after. -/
theorem result_of_found (found : cache name = some data) (run : replay (call nak) cache ops = some final)
    (mem : op ∈ ops) (same : op.name = name) : op.result = executable data := by
  induction ops generalizing cache with
  | nil => cases mem
  | cons first ops ih =>
    obtain ⟨next, called, rest⟩ := Option.bind_eq_some_iff.1 run
    obtain ⟨result, rfl⟩ := call_eq_some.1 called
    rcases List.mem_cons.1 mem with rfl | mem
    · rw [← result, publish_found (same ▸ found)]
    · exact ih (publish_keeps found) rest mem

/-- The answer of a call is one that the map keeps: a package, or that there is none. -/
def Return.Kept (nak : Bool) (op : Return Name Wasm Package) : Prop :=
  ∃ data, executable data = op.result ∧ (data = none → nak = true)

theorem call_caches (called : call nak op cache = some final) (kept : executable data = op.result)
    (nothing : data = none → nak = true) : final op.name = some data := by
  obtain ⟨result, rfl⟩ := call_eq_some.1 called
  rw [← kept] at result
  cases found : cache op.name with
  | some old =>
    rw [publish_found found] at result ⊢
    have same : old = data := Option.map_injective (fun _ _ => by rintro ⟨⟩; rfl) result
    rw [← same]
    exact found
  | none =>
    rw [publish_missing found] at result ⊢
    exact (Function.update_self ..).trans (kept_eq_some.2 ⟨result, nothing⟩)

/-- Later calls for a name agree with one whose answer is kept. -/
theorem agree_of_replay (run : replay (call nak) cache ops = some final) :
    ops.Pairwise fun op later => op.Kept nak → later.name = op.name → later.result = op.result := by
  induction ops generalizing cache with
  | nil => exact .nil
  | cons op ops ih =>
    obtain ⟨next, called, rest⟩ := Option.bind_eq_some_iff.1 run
    refine List.pairwise_cons.2 ⟨fun later mem ⟨data, kept, nothing⟩ same => ?_, ih rest⟩
    exact (result_of_found (call_caches called kept nothing) rest mem same).trans kept

/-- What a call returns has been in the map, or some call has loaded it for that name. -/
theorem loaded_of_replay (run : replay (call nak) cache ops = some final) (mem : op ∈ ops)
    (returned : op.result = some e) :
    (∃ op' ∈ ops, op'.name = op.name ∧ op'.loaded = some e) ∨
      ∃ pkg, e = .binaryPackage pkg ∧ cache op.name = some (some pkg) := by
  induction ops generalizing cache with
  | nil => cases mem
  | cons first ops ih =>
    obtain ⟨next, called, rest⟩ := Option.bind_eq_some_iff.1 run
    obtain ⟨result, rfl⟩ := call_eq_some.1 called
    rcases List.mem_cons.1 mem with rfl | mem
    · refine (publish_result (result.trans returned)).imp_left fun own => ?_
      exact ⟨op, List.mem_cons_self, rfl, own⟩
    · rcases ih rest mem with ⟨op', mem', same⟩ | ⟨pkg, rfl, has⟩
      · exact .inl ⟨op', List.mem_cons_of_mem first mem', same⟩
      · rcases publish_package has with before | ⟨same, own⟩
        · exact .inr ⟨pkg, rfl, before⟩
        · exact .inl ⟨first, List.mem_cons_self, same, own⟩

end Calls

/-! ## Any interleaving -/

variable [DecidableEq Wasm] [DecidableEq Package] {nak : Bool}
  {s t : State Task Name Wasm Package}

omit [DecidableEq Task] in
/-- A look that finds the name is a call. -/
theorem replay_look (s : State Task Name Wasm Package) (name : Name) :
    replay (call nak) s.cache ((s.cache name).map fun data =>
      (⟨name, none, executable data⟩ : Return Name Wasm Package)).toList = some s.cache := by
  cases found : s.cache name with
  | none => rfl
  | some data =>
    have called : call nak (⟨name, none, executable data⟩ : Return Name Wasm Package) s.cache =
        some s.cache := call_eq_some.2 (by rw [publish_found found]; exact ⟨rfl, rfl⟩)
    simp only [Option.map_some, Option.toList_some, replay, called, Option.bind_some]

/-- A step does to the map what the call that returns with it does at once. -/
theorem replay_returns {a : Action Task Name Wasm Package} (taken : step nak s a = some t) :
    replay (call nak) s.cache (returns nak s a) = some t.cache := by
  cases a with
  | read t name search =>
    rw [returns, replay_look]
    cases place : s.pc t with
    | idle =>
      cases found : s.cache name <;> simp only [step, place, found, Option.some_inj] at taken <;>
        subst taken <;> rfl
    | missed | loading | loaded => simp only [step, place, reduceCtorEq] at taken
  | check t =>
    cases place : s.pc t with
    | missed name search =>
      simp only [returns, place, replay_look]
      cases found : s.cache name <;> simp only [step, place, found, Option.some_inj] at taken <;>
        subst taken <;> rfl
    | idle | loading | loaded => simp only [step, place, reduceCtorEq] at taken
  | load t loaded =>
    cases place : s.pc t with
    | loading name =>
      simp only [step, place, Option.some_inj] at taken
      subst taken
      rfl
    | idle | missed | loaded => simp only [step, place, reduceCtorEq] at taken
  | publish t =>
    cases place : s.pc t with
    | loaded name loaded =>
      simp only [step, place, Option.some_inj] at taken
      subst taken
      have called : call nak ⟨name, loaded, (publish nak s.cache name loaded).1⟩ s.cache =
          some (publish nak s.cache name loaded).2 := call_eq_some.2 ⟨rfl, rfl⟩
      simp only [returns, place, replay, called, Option.bind_some]
    | idle | missed | loading => simp only [step, place, reduceCtorEq] at taken

/-- **The calls are serial, and what one finds is final.** However the calls interleave and whatever they
load, they return what they would return one at a time, in the order in which they do. What a call
returns is what one has loaded for that name, and after a package, or the knowledge that there is none,
no call for the name returns anything else. -/
theorem getExecutable_serial {as : List (Action Task Name Wasm Package)}
    (run : exec (step nak) start as = some s) :
    replay (call nak) (fun _ => none) (order (step nak) (returns nak) start as) = some s.cache ∧
    (∀ op ∈ order (step nak) (returns nak) start as, ∀ e, op.result = some e →
      ∃ op' ∈ order (step nak) (returns nak) start as, op'.name = op.name ∧ op'.loaded = some e) ∧
    (order (step nak) (returns nak) start as).Pairwise fun op later =>
      op.Kept nak → later.name = op.name → later.result = op.result := by
  have serial : replay (call nak) (fun _ => none) (order (step nak) (returns nak) start as) =
      some s.cache :=
    @replay_of_run _ _ _ _ (step nak) (returns nak) (call nak) (fun _ => True) start s as State.cache
      (fun _ _ _ _ _ => trivial) (fun _ _ _ _ taken => replay_returns taken) trivial run
  refine ⟨serial, fun op mem e returned => ?_, agree_of_replay serial⟩
  refine (loaded_of_replay serial mem returned).resolve_right ?_
  rintro ⟨pkg, -, has⟩
  cases has

/-- Two tasks load one name at once, and the file changes in between. -/
def race : List (Action Nat Nat Nat Nat) :=
  [.read 0 7 true, .read 1 7 true, .check 0, .check 1, .load 1 (some (.binaryPackage 20)),
    .load 0 (some (.binaryPackage 10)), .publish 0, .publish 1, .read 2 7 true]

theorem getExecutable_serial_race :
    ∃ s, exec (step true) start race = some s ∧
      (order (step true) (returns true) start race).map Return.result =
        List.replicate 3 (some (.binaryPackage 10)) ∧
      replay (call true) (fun _ => none) (order (step true) (returns true) start race) =
        some s.cache :=
  ⟨_, rfl, by decide, (@getExecutable_serial Nat Nat Nat Nat _ _ _ _ true _ race rfl).1⟩

end SecurityAudits.WasmerWasix.BinFactory
