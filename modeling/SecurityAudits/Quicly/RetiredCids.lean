import SecurityAudits.Lib.Run

/-!
# The retired connection ids of quicly

`quicly_remote_cid_shift_retired` of `lib/remote_cid.c` removes the first ids of the array of retired
connection ids: the ones behind are copied to the front, in place, by a loop that counts up to the
new number of ids. What the array stands for is the list of its ids in use, `entries`.

A shift drops entries from the front (`shiftRetired_entries`). With a function that retires an id at
the end, which is not part of the patch, the array is a queue of bounded length (`retired_fifo`).
-/

open SecurityAudits.Run

namespace SecurityAudits.Quicly.RetiredCids
set_option autoImplicit false

/-- `set->retired`, where `cids` has a fixed number of slots. -/
structure Retired (α : Type) (slots : Nat) where
  cids : Vector α slots
  count : Nat
  within : count ≤ slots

variable {α : Type} {slots : Nat}

/-- The ids in use, in the order in which they were retired. -/
def Retired.entries (set : Retired α slots) : List α := set.cids.toList.take set.count

/-- `cids[i]`, which is in use when `i` is below `limit`. -/
def readUsed (cids : Vector α slots) (limit i : Nat) : Option α :=
  if i < limit then cids[i]? else none

/-- `cids[i] = cid` -/
def writeSlot (cids : Vector α slots) (i : Nat) (cid : α) : Option (Vector α slots) :=
  if room : i < slots then some (cids.set i cid) else none

/-- `set->retired.cids[i] = set->retired.cids[i + count]`, where `limit` ids were in use. -/
def copyDown (limit count : Nat) (cids : Vector α slots) (i : Nat) : Option (Vector α slots) := do
  let cid ← readUsed cids limit (i + count)
  writeSlot cids i cid

/-- `quicly_remote_cid_shift_retired`. There is no result when the assertion fails, or when a slot is
read that was not in use. -/
def quiclyRemoteCidShiftRetired (set : Retired α slots) (count : Nat) : Option (Retired α slots) :=
  if count ≤ set.count then do
    let cids ← exec (copyDown set.count count) set.cids (List.range (set.count - count))
    return {
      cids := cids
      count := set.count - count
      within := Nat.le_trans (Nat.sub_le _ _) set.within }
  else none

/-- After `i` iterations the first `i` slots have what was `count` slots further on. -/
def Copied (old : Vector α slots) (count i : Nat) (cids : Vector α slots) : Prop :=
  ∀ j : Nat, cids[j]? = if j < i then old[j + count]? else old[j]?

/-- The slot that an iteration reads is one that no iteration has written. -/
theorem copyDown_copied {set : Retired α slots} {count i : Nat} {cids : Vector α slots}
    (inUse : i + count < set.count) (copied : Copied set.cids count i cids) :
    ∃ cids', copyDown set.count count cids i = some cids' ∧
      Copied set.cids count (i + 1) cids' := by
  have within := set.within
  have source : i + count < slots := by omega
  have slot : i < slots := by omega
  have read : readUsed cids set.count (i + count) = some set.cids[i + count] := by
    rw [readUsed, if_pos inUse, copied, if_neg (by omega), Vector.getElem?_eq_getElem source]
  refine ⟨cids.set i set.cids[i + count], ?_, fun j => ?_⟩
  · rw [copyDown, read]
    exact dif_pos slot
  · rw [Vector.getElem?_set, copied]
    split
    case isTrue here =>
      rw [← here, if_pos (Nat.lt_succ_self i), Vector.getElem?_eq_getElem source]
    case isFalse other => exact if_congr (by omega) rfl rfl

/-- **A shift leaves the old entries from `count` on**, in order, and reads nothing but entries. -/
theorem shiftRetired_entries (set : Retired α slots) {count : Nat} (le : count ≤ set.count) :
    ∃ set', quiclyRemoteCidShiftRetired set count = some set' ∧
      set'.count = set.count - count ∧ set'.entries = set.entries.drop count := by
  have start : Copied set.cids count 0 set.cids := fun j => (if_neg (Nat.not_lt_zero j)).symm
  obtain ⟨cids, run, copied⟩ := exec_range (n := set.count - count)
    (fun i cids below => copyDown_copied (by omega)) start
  refine ⟨_, by rw [quiclyRemoteCidShiftRetired, if_pos le, run]; rfl, rfl, ?_⟩
  refine List.ext_getElem? fun j => ?_
  rw [Retired.entries, Retired.entries, List.getElem?_take, List.getElem?_drop, List.getElem?_take,
    Vector.getElem?_toList, Vector.getElem?_toList, copied, Nat.add_comm count j]
  by_cases kept : j < set.count - count
  · rw [if_pos kept, if_pos kept, if_pos (by omega)]
  · rw [if_neg kept, if_neg (by omega)]

/-! ## The queue -/

/-- What is done to the retired ids. -/
inductive Op (α : Type) where
  | retire (cid : α)
  | shift (count : Nat)

/-- The array, with a function that retires an id. -/
def step (retire : Retired α slots → α → Option (Retired α slots)) (set : Retired α slots) :
    Op α → Option (Retired α slots)
  | .retire cid => retire set cid
  | .shift count => quiclyRemoteCidShiftRetired set count

/-- A queue of at most `slots` ids. -/
def queueStep (slots : Nat) (queue : List α) : Op α → Option (List α)
  | .retire cid => if queue.length < slots then some (queue ++ [cid]) else none
  | .shift count => if count ≤ queue.length then some (queue.drop count) else none

theorem Retired.length_entries (set : Retired α slots) : set.entries.length = set.count := by
  rw [Retired.entries, List.length_take, Vector.length_toList]
  exact Nat.min_eq_left set.within

/-- An id is retired at the end, while there is a slot for it. -/
def AtEnd (retire : Retired α slots → α → Option (Retired α slots)) : Prop :=
  ∀ set cid, (retire set cid).map Retired.entries =
    if set.count < slots then some (set.entries ++ [cid]) else none

theorem step_queue {retire : Retired α slots → α → Option (Retired α slots)}
    (atEnd : AtEnd retire) (set : Retired α slots) (op : Op α) :
    (step retire set op).map Retired.entries = queueStep slots set.entries op := by
  cases op with
  | retire cid => rw [step, queueStep, atEnd, set.length_entries]
  | shift count =>
    rw [step, queueStep, set.length_entries]
    split
    case isTrue le =>
      obtain ⟨set', shifted, -, entries⟩ := shiftRetired_entries set le
      rw [shifted, ← entries]
      rfl
    case isFalse more => rw [quiclyRemoteCidShiftRetired, if_neg more, Option.map_none]

/-- **Retiring at the end and shifting from the front is a queue.** A shift by any `count` up to the
number of ids leaves the ids from `count` on, and over any run the ids in use are those of the
queue. -/
theorem retired_fifo (retire : Retired α slots → α → Option (Retired α slots))
    (atEnd : AtEnd retire) :
    (∀ (set : Retired α slots) (count : Nat), count ≤ set.count →
      ∃ set', quiclyRemoteCidShiftRetired set count = some set' ∧
        set'.count = set.count - count ∧ set'.entries = set.entries.drop count) ∧
      ∀ (ops : List (Op α)) (start : Retired α slots),
        (exec (step retire) start ops).map Retired.entries =
          exec (queueStep slots) start.entries ops := by
  refine ⟨fun set count => shiftRetired_entries set, fun ops start => ?_⟩
  have always : ∀ s a t, True → step retire s a = some t → True := fun _ _ _ _ _ => trivial
  exact exec_simulation always (fun set op _ => step_queue atEnd set op) trivial

/-- `cids[count++] = cid` -/
def storeAtCount (set : Retired α slots) (cid : α) : Option (Retired α slots) :=
  if room : set.count < slots then
    some {
      cids := set.cids.set set.count cid
      count := set.count + 1
      within := room }
  else none

theorem storeAtCount_atEnd : AtEnd (storeAtCount : Retired α slots → α → _) := by
  intro set cid
  rw [storeAtCount]
  split
  case isTrue room =>
    rw [Option.map_some, Option.some_inj, Retired.entries, Retired.entries, Vector.toList_set,
      List.take_succ_eq_append_getElem (by simpa using room), List.getElem_set_self, List.take_set,
      List.set_eq_of_length_le]
    rw [List.length_take]
    exact Nat.min_le_left _ _
  case isFalse full => rfl

theorem retired_fifo_store :
    (exec (step storeAtCount) (⟨Vector.replicate 4 0, 0, by decide⟩ : Retired Nat 4)
        [.retire 7, .retire 8, .retire 9, .retire 10, .shift 1, .retire 11]).map Retired.entries =
      some [8, 9, 10, 11] :=
  ((retired_fifo storeAtCount storeAtCount_atEnd).2 _ _).trans rfl

end SecurityAudits.Quicly.RetiredCids
