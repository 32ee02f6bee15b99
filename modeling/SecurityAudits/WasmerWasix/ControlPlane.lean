import Mathlib.Data.List.Perm.Subperm
import SecurityAudits.Lib.Run

/-!
# `WasiControlPlane::register_task`

A call adds one to the shared `task_count`, looks at the old value, and takes the one back when
the limit was already reached. Calls of any number of threads and the drops of the guards they
return are interleaved at their atomic operations; what tells the threads apart is the frame in
which each runs its call.

The counter is a `usize` and `fetch_add` wraps. That it never does so is part of the result:
every guard, and every call between its two operations, lies at a place in memory of its own,
and there are no more places than the counter can count.
-/

namespace SecurityAudits.WasmerWasix.ControlPlane
set_option autoImplicit false
open SecurityAudits.Run

abbrev Address := Nat

/-- The value `fetch_add(1, SeqCst)` stores. -/
def fetchAdd (usizeMax count : Nat) : Nat := (count + 1) % (usizeMax + 1)

/-- The value `fetch_sub(1, SeqCst)` stores. -/
def fetchSub (usizeMax count : Nat) : Nat := (count + usizeMax) % (usizeMax + 1)

inductive ControlPlaneError where
  | taskLimitReached (max : Nat)
  deriving DecidableEq

/-- A call that has found the limit reached and has not yet taken its one back: where its frame
lies, and the `count` it has read. -/
structure Rejecting where
  frame : Address
  count : Nat
  deriving DecidableEq

structure State where
  taskCount : Nat
  /-- Where the live `TaskCountGuard`s lie. -/
  guards : List Address
  rejecting : List Rejecting
  /-- What the rejected calls have returned so far. -/
  errors : List ControlPlaneError
  /-- A `fetch_sub` has found the counter at zero. -/
  underflowed : Bool
  deriving DecidableEq

namespace State

def start : State := ⟨0, [], [], [], false⟩

/-- The places taken by guards and by calls between their two operations. -/
def places (s : State) : List Address := s.guards ++ s.rejecting.map Rejecting.frame

/-- `let count = self.state.task_count.fetch_add(1, SeqCst)` and the test of `count`: a guard is
returned to `place`, or the call goes on to its `fetch_sub`. -/
def register (usizeMax : Nat) (maxTaskCount : Option Nat) (s : State) (place : Address) : State :=
  if ∃ max ∈ maxTaskCount, max ≤ s.taskCount then
    { s with
      taskCount := fetchAdd usizeMax s.taskCount
      rejecting := ⟨place, s.taskCount⟩ :: s.rejecting }
  else
    { s with
      taskCount := fetchAdd usizeMax s.taskCount
      guards := place :: s.guards }

/-- The `fetch_sub` of a rejected call, and its result. -/
def reject (usizeMax : Nat) (s : State) (call : Rejecting) : State :=
  { s with
    taskCount := fetchSub usizeMax s.taskCount
    rejecting := s.rejecting.erase call
    errors := .taskLimitReached call.count :: s.errors
    underflowed := s.underflowed || s.taskCount == 0 }

/-- The `fetch_sub` of a guard that is dropped. -/
def drop (usizeMax : Nat) (s : State) (guard : Address) : State :=
  { s with
    taskCount := fetchSub usizeMax s.taskCount
    guards := s.guards.erase guard
    underflowed := s.underflowed || s.taskCount == 0 }

end State

inductive Action where
  | register (place : Address)
  | reject (call : Rejecting)
  | drop (guard : Address)
  deriving DecidableEq

/-- A call runs in a frame that overlaps nothing alive; null is no place. -/
def step (usizeMax : Nat) (maxTaskCount : Option Nat) (s : State) : Action → Option State
  | .register place =>
    if 0 < place ∧ place ≤ usizeMax ∧ place ∉ s.places then
      some (s.register usizeMax maxTaskCount place)
    else none
  | .reject call => if call ∈ s.rejecting then some (s.reject usizeMax call) else none
  | .drop guard => if guard ∈ s.guards then some (s.drop usizeMax guard) else none

/-- What the limit promises. -/
structure Limited (max : Nat) (s : State) : Prop where
  guards : s.guards.length ≤ max
  taskCount : s.taskCount = s.guards.length + s.rejecting.length
  noUnderflow : s.underflowed = false

/-- `Limited`, what keeps the counter from wrapping, and what an error tells. -/
structure Inv (usizeMax max : Nat) (s : State) : Prop where
  limited : Limited max s
  distinct : s.places.Nodup
  inMemory : ∀ place ∈ s.places, 0 < place ∧ place ≤ usizeMax
  rejected : ∀ call ∈ s.rejecting, max ≤ call.count
  errors : ∀ count, .taskLimitReached count ∈ s.errors → max ≤ count

variable {usizeMax max : Nat} {s t : State} {action : Action}

theorem State.places_length (s : State) :
    s.places.length = s.guards.length + s.rejecting.length := by
  simp [State.places]

/-- Distinct places in memory are no more than the counter can count. -/
theorem length_le_usizeMax {places : List Address} (distinct : places.Nodup)
    (inMemory : ∀ place ∈ places, 0 < place ∧ place ≤ usizeMax) : places.length ≤ usizeMax := by
  have within : places ⊆ List.range' 1 usizeMax := by
    intro place member
    obtain ⟨nonnull, addressable⟩ := inMemory place member
    exact List.mem_range'_1.2 ⟨nonnull, Nat.lt_one_add_iff.2 addressable⟩
  have bound := (List.subperm_of_subset distinct within).length_le
  rwa [List.length_range'] at bound

theorem fetchAdd_eq {count : Nat} (room : count + 1 ≤ usizeMax) :
    fetchAdd usizeMax count = count + 1 :=
  Nat.mod_eq_of_lt (Nat.lt_succ_of_le room)

theorem fetchSub_succ {count : Nat} (room : count + 1 ≤ usizeMax) :
    fetchSub usizeMax (count + 1) = count := by
  have shift : count + 1 + usizeMax = count + (usizeMax + 1) := by omega
  rw [fetchSub, shift, Nat.add_mod_right]
  exact Nat.mod_eq_of_lt (by omega)

theorem Inv.start : Inv usizeMax max State.start where
  limited := ⟨Nat.zero_le max, rfl, rfl⟩
  distinct := List.nodup_nil
  inMemory := by simp [State.start, State.places]
  rejected := by simp [State.start]
  errors := by simp [State.start]

theorem Inv.count_le (inv : Inv usizeMax max s) : s.taskCount ≤ usizeMax := by
  rw [inv.limited.taskCount, ← s.places_length]
  exact length_le_usizeMax inv.distinct inv.inMemory

/-- A call adds its one without wrapping, and returns a guard only below the limit. -/
theorem Inv.register {place : Address} (inv : Inv usizeMax max s) (nonnull : 0 < place)
    (addressable : place ≤ usizeMax) (fresh : place ∉ s.places) :
    Inv usizeMax max (s.register usizeMax (some max) place) := by
  have distinct : (place :: s.places).Nodup := List.nodup_cons.2 ⟨fresh, inv.distinct⟩
  have inMemory : ∀ other ∈ place :: s.places, 0 < other ∧ other ≤ usizeMax :=
    List.forall_mem_cons.2 ⟨⟨nonnull, addressable⟩, inv.inMemory⟩
  have counted := inv.limited.taskCount
  have room : s.taskCount + 1 ≤ usizeMax := by
    have bound := length_le_usizeMax distinct inMemory
    rw [List.length_cons, s.places_length] at bound
    omega
  have added := fetchAdd_eq room
  unfold State.register
  by_cases reached : max ≤ s.taskCount
  · rw [if_pos ⟨max, rfl, reached⟩]
    have moved : List.Perm (s.guards ++ place :: s.rejecting.map Rejecting.frame)
        (place :: s.places) := List.perm_middle
    refine ⟨⟨inv.limited.guards, ?_, inv.limited.noUnderflow⟩, moved.nodup_iff.2 distinct, ?_,
      List.forall_mem_cons.2 ⟨reached, inv.rejected⟩, inv.errors⟩
    · show fetchAdd usizeMax s.taskCount = s.guards.length + (s.rejecting.length + 1)
      rw [added, counted, Nat.add_assoc]
    · exact fun other member => inMemory other (moved.mem_iff.1 member)
  · have below : ¬ ∃ limit ∈ some max, limit ≤ s.taskCount := by
      rintro ⟨limit, configured, found⟩
      rw [← Option.mem_some_iff.1 configured] at found
      exact reached found
    rw [if_neg below]
    refine ⟨⟨?_, ?_, inv.limited.noUnderflow⟩, distinct, inMemory, inv.rejected, inv.errors⟩
    · show s.guards.length + 1 ≤ max
      omega
    · show fetchAdd usizeMax s.taskCount = s.guards.length + 1 + s.rejecting.length
      omega

/-- A `fetch_sub` by one of those that have added a one. -/
theorem Inv.take_back (inv : Inv usizeMax max s) (guards : t.guards.Sublist s.guards)
    (rejecting : t.rejecting.Sublist s.rejecting)
    (fewer : t.places.length + 1 = s.places.length)
    (count : t.taskCount = fetchSub usizeMax s.taskCount)
    (flag : t.underflowed = (s.underflowed || s.taskCount == 0))
    (errors : ∀ count, .taskLimitReached count ∈ t.errors → max ≤ count) :
    Inv usizeMax max t := by
  have sub : t.places.Sublist s.places := guards.append (rejecting.map Rejecting.frame)
  have counted : s.taskCount = t.places.length + 1 := by
    rw [inv.limited.taskCount, ← s.places_length, fewer]
  have room := inv.count_le
  rw [counted] at room count flag
  refine ⟨⟨guards.length_le.trans inv.limited.guards, ?_, ?_⟩, inv.distinct.sublist sub, ?_, ?_,
    errors⟩
  · rw [count, fetchSub_succ room, t.places_length]
  · rw [flag, inv.limited.noUnderflow]
    rfl
  · exact fun place found => inv.inMemory place (sub.subset found)
  · exact fun call found => inv.rejected call (rejecting.subset found)

theorem Inv.reject {call : Rejecting} (inv : Inv usizeMax max s) (member : call ∈ s.rejecting) :
    Inv usizeMax max (s.reject usizeMax call) := by
  refine inv.take_back (List.Sublist.refl _) List.erase_sublist ?_ rfl rfl ?_
  · have fewer : (s.rejecting.erase call).length + 1 = s.rejecting.length :=
      List.length_erase_add_one member
    rw [State.places_length, s.places_length]
    show s.guards.length + (s.rejecting.erase call).length + 1 = _
    omega
  · intro count found
    rcases List.mem_cons.1 found with new | old
    · cases new
      exact inv.rejected call member
    · exact inv.errors count old

theorem Inv.drop {guard : Address} (inv : Inv usizeMax max s) (member : guard ∈ s.guards) :
    Inv usizeMax max (s.drop usizeMax guard) := by
  refine inv.take_back List.erase_sublist (List.Sublist.refl _) ?_ rfl rfl inv.errors
  have fewer : (s.guards.erase guard).length + 1 = s.guards.length :=
    List.length_erase_add_one member
  rw [State.places_length, s.places_length]
  show (s.guards.erase guard).length + s.rejecting.length + 1 = _
  omega

theorem Inv.step (inv : Inv usizeMax max s)
    (taken : ControlPlane.step usizeMax (some max) s action = some t) : Inv usizeMax max t := by
  cases action with
  | register place =>
    obtain ⟨⟨nonnull, addressable, fresh⟩, result⟩ := Option.ite_none_right_eq_some.1 taken
    cases result
    exact inv.register nonnull addressable fresh
  | reject call =>
    obtain ⟨member, result⟩ := Option.ite_none_right_eq_some.1 taken
    cases result
    exact inv.reject member
  | drop guard =>
    obtain ⟨member, result⟩ := Option.ite_none_right_eq_some.1 taken
    cases result
    exact inv.drop member

/-- **The task limit.** In every interleaving of the atomic operations of any number of calls and
drops, no more guards are alive than the limit allows, the counter is what the guards and the
calls about to be rejected add up to, and it is never taken below zero. -/
theorem register_task_limited (usizeMax max : Nat) (actions : List Action) :
    Always (step usizeMax (some max)) (Limited max) State.start actions := by
  intro pre _ s run
  have inv : Inv usizeMax max s :=
    exec_invariant (fun _ _ _ inv taken => inv.step taken) Inv.start run
  exact inv.limited

/-- The count a rejected call reports in place of the limit is never below the limit. -/
theorem reported_max_ge (usizeMax max : Nat) (actions : List Action) :
    Always (step usizeMax (some max))
      (fun s => ∀ count, .taskLimitReached count ∈ s.errors → max ≤ count)
      State.start actions := by
  intro pre _ s run
  have inv : Inv usizeMax max s :=
    exec_invariant (fun _ _ _ inv taken => inv.step taken) Inv.start run
  exact inv.errors

end SecurityAudits.WasmerWasix.ControlPlane
