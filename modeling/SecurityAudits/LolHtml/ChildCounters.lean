import SecurityAudits.Lib.Run
import Mathlib.Data.List.AList
import Mathlib.Algebra.Ring.Nat

/-!
# The typed child counters and the memory limiter

For `:nth-of-type` a map holds, for each element name, the counter of the level being parsed
and a stack of the counters of the levels above it. The patch charges every new entry and
every pushed item on the shared limiter, but `pop_to`, which removes both, gives nothing
back. Nor does `add_child` when the limiter has refused a request and kept it charged.
`usage_exact_iff` says when the charge still is the size of what is stored: as long as `pop_to`
finds nothing to remove and no refused request stays charged.
-/

namespace SecurityAudits.LolHtml.ChildCounters
set_option autoImplicit false
open SecurityAudits.Run

/-- `LocalName`: the hash of a name, or its bytes where it has none. -/
inductive LocalName
  | hash (value : UInt64)
  | bytes (bytes : List UInt8)
  deriving DecidableEq

/-- `ChildCounter`: how many children have been seen. -/
structure ChildCounter where
  cumulative : Nat
  deriving DecidableEq

def ChildCounter.newAndInc : ChildCounter := ⟨1⟩

def ChildCounter.inc (c : ChildCounter) : ChildCounter := ⟨c.cumulative + 1⟩

structure CounterItem where
  counter : ChildCounter
  index : Nat
  deriving DecidableEq

/-- `CounterList`, the last of `items` first. -/
structure CounterList where
  items : List CounterItem
  current : CounterItem
  deriving DecidableEq

/-- The sizes of the three types, which have fields. -/
structure Layout where
  localName : Nat
  counterList : Nat
  counterItem : Nat
  counterList_pos : 0 < counterList
  counterItem_pos : 0 < counterItem

def entrySize (layout : Layout) (name : LocalName) : Nat :=
  let keyData := match name with
    | .hash _ => 0
    | .bytes bytes => bytes.length
  layout.localName + keyData + layout.counterList

abbrev CounterMap := AList fun _ : LocalName => CounterList

/-- `TypedChildCounterMap`, with the usage it holds charged on its limiter. -/
structure TypedChildCounterMap where
  map : CounterMap
  usage : Nat

def TypedChildCounterMap.new : TypedChildCounterMap := ⟨∅, 0⟩

/-- The limiter, whose code is not at hand. Of a request that it refuses it may keep bytes charged:
all of them if it adds before it compares, none if it compares first. -/
structure SharedMemoryLimiter where
  kept : Nat → Nat

/-- `increase_usage`; `granted` is the answer. -/
def SharedMemoryLimiter.increaseUsage (limiter : SharedMemoryLimiter) (usage byteCount : Nat)
    (granted : Bool) : Nat :=
  if granted then usage + byteCount else usage + limiter.kept byteCount

/-- `add_child`; `granted` is the limiter's answer, where one is asked for. -/
def addChild (layout : Layout) (limiter : SharedMemoryLimiter) (s : TypedChildCounterMap)
    (name : LocalName) (index : Nat) (granted : Bool) : TypedChildCounterMap :=
  match s.map.lookup name with
  | none =>
    let usage := limiter.increaseUsage s.usage (entrySize layout name) granted
    if granted then ⟨s.map.insert name ⟨[], .newAndInc, index⟩, usage⟩
    else { s with usage := usage }
  | some ⟨items, current⟩ =>
    if current.index = index then
      { s with map := s.map.insert name ⟨items, { current with counter := current.counter.inc }⟩ }
    else
      let usage := limiter.increaseUsage s.usage layout.counterItem granted
      if granted then ⟨s.map.insert name ⟨current :: items, .newAndInc, index⟩, usage⟩
      else ⟨s.map.insert name ⟨items, .newAndInc, index⟩, usage⟩

/-- The `while` loop of `pop_to` on one entry; `none` removes the entry. -/
def popList (index : Nat) : List CounterItem → CounterItem → Option CounterList
  | [], current => if index < current.index then none else some ⟨[], current⟩
  | next :: items, current =>
    if index < current.index then popList index items next else some ⟨next :: items, current⟩

abbrev Entry := Σ _ : LocalName, CounterList

def popEntry (index : Nat) (entry : Entry) : Option Entry :=
  (popList index entry.2.items entry.2.current).map (⟨entry.1, ·⟩)

theorem keys_popEntry (index : Nat) (entries : List Entry) :
    (entries.filterMap (popEntry index)).keys.Sublist entries.keys := by
  induction entries with
  | nil => exact List.Sublist.refl _
  | cons entry entries ih =>
    cases popped : popList index entry.2.items entry.2.current with
    | none =>
      rw [List.filterMap_cons_none (by simp [popEntry, popped])]
      exact ih.cons _
    | some list =>
      rw [List.filterMap_cons_some (b := ⟨entry.1, list⟩)
        (by simp only [popEntry, popped, Option.map_some])]
      exact ih.cons_cons _

/-- `pop_to`: `retain` with the loop above. -/
def popTo (s : TypedChildCounterMap) (index : Nat) : TypedChildCounterMap :=
  { s with map := ⟨s.map.entries.filterMap (popEntry index),
      (keys_popEntry index s.map.entries).nodup s.map.nodupKeys⟩ }

inductive Action
  | addChild (name : LocalName) (index : Nat) (granted : Bool)
  | popTo (index : Nat)

def step (layout : Layout) (limiter : SharedMemoryLimiter) (s : TypedChildCounterMap) :
    Action → Option TypedChildCounterMap
  | .addChild name index granted => some (addChild layout limiter s name index granted)
  | .popTo index => some (popTo s index)

def entryCost (layout : Layout) (entry : Entry) : Nat :=
  entrySize layout entry.1 + entry.2.items.length * layout.counterItem

/-- The size of what the map stores. -/
def stored (layout : Layout) (map : CounterMap) : Nat :=
  (map.entries.map (entryCost layout)).sum

/-- The usage held is the size of what is stored. -/
def Exact (layout : Layout) (s : TypedChildCounterMap) : Prop := s.usage = stored layout s.map

/-- `pop_to` meets only counters of the levels it keeps. -/
def PopsNothing (s : TypedChildCounterMap) (index : Nat) : Prop :=
  ∀ entry ∈ s.map.entries, entry.2.current.index ≤ index

/-- The bytes for which `add_child` asks the limiter, if it does. -/
def requested (layout : Layout) (s : TypedChildCounterMap) (name : LocalName) (index : Nat) :
    Option Nat :=
  match s.map.lookup name with
  | none => some (entrySize layout name)
  | some list => if list.current.index = index then none else some layout.counterItem

/-- The action leaves no charge behind: what the limiter refuses it does not keep, and what is
popped is nothing. -/
def LeavesNothing (layout : Layout) (limiter : SharedMemoryLimiter) (s : TypedChildCounterMap) :
    Action → Prop
  | .addChild name index granted =>
    granted = false → ∀ byteCount ∈ requested layout s name index, limiter.kept byteCount = 0
  | .popTo index => PopsNothing s index

variable {layout : Layout} {limiter : SharedMemoryLimiter} {s t : TypedChildCounterMap}
  {map : CounterMap} {a : Action} {name : LocalName} {index : Nat} {list old new : CounterList}
  {entry popped : Entry}

/-- `pop_to` never lengthens an item stack, and shortens the one of a current counter that is
too deep. -/
theorem popList_length {items : List CounterItem} {current : CounterItem}
    (kept : popList index items current = some list) :
    list.items.length ≤ items.length ∧
      (index < current.index → list.items.length < items.length) := by
  induction items generalizing current with
  | nil =>
    rw [popList] at kept
    split at kept
    · cases kept
    next stays =>
      cases kept
      exact ⟨Nat.le_refl _, fun deep => absurd deep stays⟩
  | cons next items ih =>
    rw [popList] at kept
    split at kept
    · have shorter := (ih kept).1
      rw [List.length_cons]
      omega
    next stays =>
      cases kept
      exact ⟨Nat.le_refl _, fun deep => absurd deep stays⟩

theorem popList_stays {items : List CounterItem} {current : CounterItem}
    (stays : current.index ≤ index) : popList index items current = some ⟨items, current⟩ := by
  cases items <;> rw [popList, if_neg (Nat.not_lt.2 stays)]

theorem popEntry_stays (stays : entry.2.current.index ≤ index) :
    popEntry index entry = some entry := by
  rw [popEntry, popList_stays stays, Option.map_some]

theorem popEntry_cost (kept : popEntry index entry = some popped) :
    entryCost layout popped ≤ entryCost layout entry ∧
      (index < entry.2.current.index → entryCost layout popped < entryCost layout entry) := by
  obtain ⟨list, found, rfl⟩ := Option.map_eq_some_iff.1 kept
  obtain ⟨shorter, strictly⟩ := popList_length found
  have item := layout.counterItem_pos
  unfold entryCost
  refine ⟨?_, fun deep => ?_⟩
  · exact Nat.add_le_add_left (Nat.mul_le_mul_right _ shorter) _
  · exact Nat.add_lt_add_left (Nat.mul_lt_mul_of_pos_right (strictly deep) item) _

theorem entryCost_pos : 0 < entryCost layout entry :=
  layout.counterList_pos.trans_le ((Nat.le_add_left _ _).trans (Nat.le_add_right _ _))

/-- What `retain` keeps is worth no more, and less when a counter was too deep. -/
theorem cost_filterMap (entries : List Entry) :
    ((entries.filterMap (popEntry index)).map (entryCost layout)).sum ≤
        (entries.map (entryCost layout)).sum ∧
      ((∃ entry ∈ entries, index < entry.2.current.index) →
        ((entries.filterMap (popEntry index)).map (entryCost layout)).sum <
          (entries.map (entryCost layout)).sum) := by
  induction entries with
  | nil => simp
  | cons entry entries ih =>
    obtain ⟨fewer, strictly⟩ := ih
    cases kept : popEntry index entry with
    | none =>
      have positive : 0 < entryCost layout entry := entryCost_pos
      rw [List.filterMap_cons_none kept, List.map_cons, List.sum_cons]
      omega
    | some popped =>
      have less : entryCost layout popped ≤ entryCost layout entry := (popEntry_cost kept).1
      rw [List.filterMap_cons_some kept, List.map_cons, List.map_cons, List.sum_cons,
        List.sum_cons]
      refine ⟨Nat.add_le_add less fewer, ?_⟩
      rintro ⟨deep, listed, tooDeep⟩
      rcases List.mem_cons.1 listed with rfl | later
      · exact Nat.add_lt_add_of_lt_of_le ((popEntry_cost kept).2 tooDeep) fewer
      · exact Nat.add_lt_add_of_le_of_lt less (strictly ⟨deep, later, tooDeep⟩)

theorem stored_popTo_lt (deep : ¬ PopsNothing s index) :
    stored layout (popTo s index).map < stored layout s.map := by
  simp only [PopsNothing, not_forall, not_le] at deep
  obtain ⟨entry, listed, tooDeep⟩ := deep
  exact (cost_filterMap s.map.entries).2 ⟨entry, listed, tooDeep⟩

theorem popTo_eq_self (nothing : PopsNothing s index) : popTo s index = s := by
  have same : s.map.entries.filterMap (popEntry index) = s.map.entries := by
    calc s.map.entries.filterMap (popEntry index)
        = s.map.entries.filterMap some :=
          List.filterMap_congr fun entry listed => popEntry_stays (nothing entry listed)
      _ = s.map.entries := List.filterMap_some
  obtain ⟨map, usage⟩ := s
  simp only [popTo, TypedChildCounterMap.mk.injEq, and_true]
  exact AList.ext same

theorem stored_insert_vacant (vacant : map.lookup name = none) :
    stored layout (map.insert name list) = stored layout map + entryCost layout ⟨name, list⟩ := by
  rw [stored, AList.entries_insert_of_notMem (AList.lookup_eq_none.1 vacant), List.map_cons,
    List.sum_cons, Nat.add_comm]
  rfl

/-- Replacing a list changes the size by what its items weigh more or less. -/
theorem stored_insert_occupied (occupied : map.lookup name = some old) :
    stored layout (map.insert name new) + old.items.length * layout.counterItem =
      stored layout map + new.items.length * layout.counterItem := by
  have member : (⟨name, old⟩ : Entry) ∈ map.entries := AList.mem_lookup_iff.1 occupied
  obtain ⟨found, before, after, -, split, erased⟩ :=
    List.exists_of_kerase (List.mem_keys_of_mem member)
  have unique : old = found := by
    apply map.nodupKeys.eq_of_mk_mem member
    rw [split]
    exact List.mem_append_right _ List.mem_cons_self
  subst unique
  rw [stored, stored, AList.entries_insert, erased, split]
  simp only [List.map_cons, List.map_append, List.sum_cons, List.sum_append, entryCost]
  omega

/-- What stays charged of the request of an `add_child`, if there is one and it is refused. -/
def leftCharged (layout : Layout) (limiter : SharedMemoryLimiter) (s : TypedChildCounterMap)
    (name : LocalName) (index : Nat) (granted : Bool) : Nat :=
  if granted then 0 else ((requested layout s name index).map limiter.kept).getD 0

/-- `add_child` charges what it stores, and what the limiter keeps of a request it refuses. -/
theorem usage_addChild (limiter : SharedMemoryLimiter) (exact : Exact layout s)
    (name : LocalName) (index : Nat) (granted : Bool) :
    (addChild layout limiter s name index granted).usage =
      stored layout (addChild layout limiter s name index granted).map +
        leftCharged layout limiter s name index granted := by
  unfold Exact at exact
  unfold addChild leftCharged SharedMemoryLimiter.increaseUsage
  split
  next vacant =>
    have request : requested layout s name index = some (entrySize layout name) := by
      rw [requested, vacant]
    cases granted
    · simp [exact, request]
    · simp [stored_insert_vacant vacant, exact, entryCost]
  next items current occupied =>
    -- the same number of items, one more, and the same again with the old counter dropped
    have sameItems : ∀ next, stored layout (s.map.insert name ⟨items, next⟩) =
        stored layout s.map := by
      intro next
      have change : stored layout (s.map.insert name ⟨items, next⟩) +
          items.length * layout.counterItem =
            stored layout s.map + items.length * layout.counterItem :=
        stored_insert_occupied occupied
      exact Nat.add_right_cancel change
    have oneMore : ∀ next, stored layout (s.map.insert name ⟨current :: items, next⟩) =
        stored layout s.map + layout.counterItem := by
      intro next
      have change : stored layout (s.map.insert name ⟨current :: items, next⟩) +
          items.length * layout.counterItem =
            stored layout s.map + (items.length + 1) * layout.counterItem :=
        stored_insert_occupied occupied
      rw [Nat.succ_mul] at change
      omega
    by_cases counts : current.index = index
    · have request : requested layout s name index = none := by simp [requested, occupied, counts]
      simp [counts, sameItems, exact, request]
    · have request : requested layout s name index = some layout.counterItem := by
        simp [requested, occupied, counts]
      cases granted
      · simp [counts, sameItems, exact, request]
      · simp [counts, oneMore, exact]

theorem leftCharged_eq_zero_iff {granted : Bool} :
    leftCharged layout limiter s name index granted = 0 ↔
      LeavesNothing layout limiter s (.addChild name index granted) := by
  unfold LeavesNothing leftCharged
  cases granted with
  | true => simp
  | false => cases request : requested layout s name index <;> simp [request]

theorem exact_step (exact : Exact layout s) (nothing : LeavesNothing layout limiter s a)
    (taken : step layout limiter s a = some t) : Exact layout t := by
  cases a with
  | addChild name index granted =>
    obtain rfl := Option.some.inj taken
    rw [Exact, usage_addChild limiter exact, leftCharged_eq_zero_iff.2 nothing, Nat.add_zero]
  | popTo index =>
    obtain rfl := Option.some.inj taken
    rwa [popTo_eq_self nothing]

/-- Whatever `pop_to` removes stays charged, and so does what the limiter keeps. -/
theorem charged_step (exact : Exact layout s) (leaves : ¬ LeavesNothing layout limiter s a)
    (taken : step layout limiter s a = some t) : ¬ Exact layout t := by
  intro still
  cases a with
  | addChild name index granted =>
    obtain rfl := Option.some.inj taken
    have usage := usage_addChild limiter exact name index granted
    rw [still] at usage
    exact leaves (leftCharged_eq_zero_iff.1 (Nat.left_eq_add.1 usage))
  | popTo index =>
    obtain rfl := Option.some.inj taken
    have less : stored layout (popTo s index).map < stored layout s.map := stored_popTo_lt leaves
    rw [← still] at less
    exact absurd exact (Nat.ne_of_lt less)

/-- A `<li>` in a `<ul>`, counted at level 1, and the end of the `<ul>`. A short name like `li` is
a hash; `hash` is its value. -/
def listItem (hash : UInt64) : List Action :=
  [.addChild (.hash hash) 1 true, .popTo 0]

/-- Sizes on a 64-bit machine. -/
def layout64 : Layout := ⟨24, 40, 16, by decide, by decide⟩

/-- After `listItem`, here with the hash 558, nothing is stored and everything is still charged. -/
theorem charge_outlives_entry :
    ∃ s, exec (step layout64 ⟨id⟩) .new (listItem 558) = some s ∧ s.map = ∅ ∧ s.usage = 64 ∧
      ¬ Exact layout64 s := by
  refine ⟨_, rfl, rfl, rfl, ?_⟩
  intro exact
  cases exact

/-- A flat document of `n` such lists ends with an empty map and `n` entries charged. -/
theorem flat_document (layout : Layout) (limiter : SharedMemoryLimiter) (hash : UInt64) (n : Nat) :
    exec (step layout limiter) .new (List.replicate n (listItem hash)).flatten =
      some ⟨∅, n * entrySize layout (.hash hash)⟩ := by
  suffices from_usage : ∀ usage,
      exec (step layout limiter) ⟨∅, usage⟩ (List.replicate n (listItem hash)).flatten =
        some ⟨∅, usage + n * entrySize layout (.hash hash)⟩ by
    rw [TypedChildCounterMap.new, from_usage, Nat.zero_add]
  induction n with
  | zero => intro usage; simp
  | succ n ih =>
    intro usage
    have once : ∀ rest, exec (step layout limiter) ⟨∅, usage⟩ (listItem hash ++ rest) =
        exec (step layout limiter) ⟨∅, usage + entrySize layout (.hash hash)⟩ rest :=
      fun _ => rfl
    rw [List.replicate_succ, List.flatten_cons, once, ih, Nat.succ_mul]
    congr 2
    omega

/-- **The charge is exact until something is popped or kept.** The usage held is the size of what
is stored in every state of a run if and only if no `pop_to` of the run removes anything and no
request that the limiter refuses stays charged. -/
theorem usage_exact_iff (layout : Layout) (limiter : SharedMemoryLimiter)
    (actions : List Action) :
    Always (step layout limiter) (Exact layout) .new actions ↔
      Along (step layout limiter) (LeavesNothing layout limiter) .new actions :=
  always_iff_along (fun _ exact => exact)
    (fun _ _ _ exact nothing taken => exact_step exact nothing taken)
    (fun _ _ _ exact leaves taken => charged_step exact leaves taken) rfl

end SecurityAudits.LolHtml.ChildCounters
