import SecurityAudits.Lib.Memory
import SecurityAudits.Lib.Run

/-!
# `Array.insertBefore`

Both overloads of the patched `insertBefore` (`std/container/array.d`) shift the elements from the
position on by the number of elements that come, and construct these where room was made. Elements of
a type with a destructor or a copy constructor are moved one by one, from the end; others are shifted
as bytes.

A slot knows whether an element is in it. `moveEmplace` has no result when its source is not one, or
when it would overwrite one, and so has `emplace` for a type whose elements must be destroyed. Either
way of shifting leaves the same: a gap between the elements in front and the others (`Opened`).
-/

open SecurityAudits.Memory SecurityAudits.Run

namespace SecurityAudits.DlangPhobos.ArrayInsert
set_option autoImplicit false

/-- What a slot holds that is not raw memory: an element, or what `moveEmplace` left of one. -/
inductive Cell (T : Type) where
  | live (value : T)
  | moved
  deriving DecidableEq, Repr

/-- The memory from `_data._payload.ptr` on, and `_data._payload.length`. -/
structure Payload (T : Type) where
  slots : Buffer (Cell T)
  length : Nat
  deriving DecidableEq, Repr

variable {T : Type}

def isLive : Option (Cell T) → Bool
  | some (.live _) => true
  | _ => false

/-- `emplace(_data._payload.ptr + p, value)`; `elaborate` says that elements must be destroyed. -/
def emplace (elaborate : Bool) (slots : Buffer (Cell T)) (p : Nat) (value : T) :
    Option (Buffer (Cell T)) :=
  if elaborate && slots[p]?.any isLive then none else store slots p (.live value)

/-- `moveEmplace(_data._payload[source], *(_data._payload.ptr + target))`; the two must not be one. -/
def moveEmplace (slots : Buffer (Cell T)) (source target : Nat) : Option (Buffer (Cell T)) :=
  if source = target then none
  else
    match slots[source]? with
    | some (some (.live value)) => do
      let slots ← emplace true slots target value
      store slots source .moved
    | _ => none

/-- The slots, and the moves so far: where each came from and where it went. -/
structure Shifted (T : Type) where
  slots : Buffer (Cell T)
  moves : List (Nat × Nat)

/-- The body of `foreach_reverse (i; r._a .. length)` -/
def moveOne (extra : Nat) (s : Shifted T) (i : Nat) : Option (Shifted T) := do
  let slots ← moveEmplace s.slots i (i + extra)
  return ⟨slots, s.moves ++ [(i, i + extra)]⟩

/-- The `static if` -/
def shift (elaborate : Bool) (data : Payload T) (a extra : Nat) : Option (Shifted T) :=
  if elaborate then
    exec (moveOne extra) ⟨data.slots, []⟩ (List.range' a (data.length - a)).reverse
  else do
    let slots ← move data.slots (a + extra) a (data.length - a)
    return ⟨slots, []⟩

/-- What an overload leaves and returns. -/
structure Inserted (T : Type) where
  data : Payload T
  count : Nat
  moves : List (Nat × Nat)

/-- The lines that are not part of the patch. -/
structure Unshown (T : Type) where
  reserve : Payload T → Nat → Payload T
  /-- From the range to `extra`; `none` when the function returns 0 there. -/
  countExtra : List T → Option Nat
  /-- The body of the loop over the room made: the slots and what is left of the range. -/
  fill : Buffer (Cell T) × List T → Nat → Option (Buffer (Cell T) × List T)
  /-- The new payload and the result, from the slots, the length and `extra`. -/
  finish : Buffer (Cell T) → Nat → Nat → Payload T × Nat

/-- `insertBefore` of an element -/
def insertBefore (unshown : Unshown T) (elaborate : Bool) (data : Payload T) (a : Nat) (stuff : T) :
    Option (Inserted T) :=
  if a ≤ data.length then do
    let data := unshown.reserve data (data.length + 1)
    let shifted ← shift elaborate data a 1
    let slots ← emplace elaborate shifted.slots a stuff
    return {
      data := ⟨slots, data.length + 1⟩
      count := 1
      moves := shifted.moves }
  else none

/-- `insertBefore` of a forward range -/
def insertBeforeRange (unshown : Unshown T) (elaborate : Bool) (data : Payload T) (a : Nat)
    (stuff : List T) : Option (Inserted T) :=
  if a ≤ data.length then
    match unshown.countExtra stuff with
    | none => some ⟨data, 0, []⟩
    | some extra => do
      let data := unshown.reserve data (data.length + extra)
      let shifted ← shift elaborate data a extra
      let (slots, _) ← exec unshown.fill (shifted.slots, stuff) (List.range' a extra)
      let (data, count) := unshown.finish slots data.length extra
      return {
        data := data
        count := count
        moves := shifted.moves }
  else none

/-! ## What an array stands for -/

/-- The slots of these elements. -/
def lives (xs : List T) : Buffer (Cell T) := xs.map fun value => some (.live value)

/-- No element that must be destroyed is in these slots. -/
def Vacant (elaborate : Bool) (cells : Buffer (Cell T)) : Prop :=
  elaborate = true → ∀ c ∈ cells, isLive c = false

/-- The elements of an array: behind them there are none. -/
structure Represents (elaborate : Bool) (data : Payload T) (payload : List T) : Prop where
  length : data.length = payload.length
  slots : ∃ slack, data.slots = lives payload ++ slack ∧ Vacant elaborate slack

/-- What the lines outside the patch do: `reserve` makes room and keeps the elements; an empty range
is not inserted; the elements of another one are constructed in the slots of the loop, in order, and
are then part of the payload. -/
structure Unshown.Lawful (unshown : Unshown T) (elaborate : Bool) : Prop where
  keeps : ∀ data payload n, Represents elaborate data payload →
    Represents elaborate (unshown.reserve data n) payload
  room : ∀ data n, n ≤ (unshown.reserve data n).slots.length
  countExtra : ∀ stuff, unshown.countExtra stuff = if stuff = [] then none else some stuff.length
  fill : ∀ slots x rest p, unshown.fill (slots, x :: rest) p =
    (emplace elaborate slots p x).map fun slots => (slots, rest)
  finish : ∀ slots length extra, unshown.finish slots length extra = (⟨slots, length + extra⟩, extra)

/-! ## The shift -/

variable {elaborate : Bool} {extra : Nat}

@[simp] theorem length_lives (xs : List T) : (lives xs).length = xs.length := List.length_map _

@[simp] theorem lives_nil : lives ([] : List T) = [] := rfl

@[simp] theorem lives_append (xs ys : List T) : lives (xs ++ ys) = lives xs ++ lives ys :=
  List.map_append

theorem emplace_gap (before after : Buffer (Cell T)) {c : Option (Cell T)}
    (vacant : elaborate = true → isLive c = false) (value : T) :
    emplace elaborate (before ++ c :: after) before.length value =
      some (before ++ some (.live value) :: after) := by
  have here : (before ++ c :: after)[before.length]? = some c := by simp
  rw [emplace, here, if_neg, store_append]
  cases elaborate with
  | false => exact Bool.false_ne_true
  | true =>
    rw [Option.any_some, vacant rfl]
    exact Bool.false_ne_true

/-- A move over a gap: the slot that it leaves is the beginning of the gap now. -/
theorem moveEmplace_gap (before gap after : Buffer (Cell T)) {c : Option (Cell T)}
    (vacant : isLive c = false) (value : T) :
    moveEmplace (before ++ some (.live value) :: (gap ++ c :: after)) before.length
        (before.length + (gap.length + 1)) =
      some (before ++ some .moved :: (gap ++ some (.live value) :: after)) := by
  have source : (before ++ some (.live value) :: (gap ++ c :: after))[before.length]? =
      some (some (.live value)) := by simp
  have target := emplace_gap (before ++ some (.live value) :: gap) after (fun _ : true = true => vacant)
    value
  rw [List.length_append, List.length_cons, List.append_assoc, List.append_assoc,
    List.cons_append, List.cons_append] at target
  rw [moveEmplace, if_neg (by omega), source]
  change (emplace true _ _ value).bind _ = _
  rw [target, Option.bind_some, store_append]

theorem moveOne_gap (before gap after : Buffer (Cell T)) {c : Option (Cell T)} {extra : Nat}
    (wide : gap.length + 1 = extra) (vacant : isLive c = false) (value : T)
    (moves : List (Nat × Nat)) :
    moveOne extra ⟨before ++ some (.live value) :: (gap ++ c :: after), moves⟩ before.length =
      some ⟨before ++ some .moved :: (gap ++ some (.live value) :: after),
        moves ++ [(before.length, before.length + extra)]⟩ := by
  rw [moveOne, ← wide, moveEmplace_gap before gap after vacant value]
  rfl

/-- A gap of `extra` slots between the elements, which may be constructed in. -/
def Opened (elaborate : Bool) (front tail : List T) (extra : Nat) (slots : Buffer (Cell T))
    (after : Buffer (Cell T)) : Prop :=
  ∃ gap, gap.length = extra ∧ Vacant elaborate gap ∧
    slots = lives front ++ (gap ++ (lives tail ++ after))

/-- The moves of the elements from `a` on: each once, the last first. -/
def movesFrom (a length extra : Nat) : List (Nat × Nat) :=
  (List.range' a (length - a)).reverse.map fun i => (i, i + extra)

/-- The loop over the elements of `tail`: the gap behind them comes in front of them. -/
theorem moveAll_opens (front tail : List T) {extra : Nat} (moves : List (Nat × Nat))
    {gap : Buffer (Cell T)} (positive : 0 < extra) (wide : gap.length = extra)
    (vacant : Vacant true gap) (after : Buffer (Cell T)) :
    ∃ s, exec (moveOne extra) ⟨lives front ++ (lives tail ++ (gap ++ after)), moves⟩
        (List.range' front.length tail.length).reverse = some s ∧
      s.moves = moves ++
        (List.range' front.length tail.length).reverse.map (fun i => (i, i + extra)) ∧
      Opened true front tail extra s.slots after := by
  induction tail using List.reverseRecOn generalizing gap after moves with
  | nil => exact ⟨_, rfl, by simp, gap, wide, vacant, by simp⟩
  | append_singleton tail value ih =>
    -- The last slot of the gap takes the last element, whose slot is the first of the gap then.
    obtain ⟨gap, c, rfl⟩ := (List.eq_nil_or_concat gap).resolve_left fun none' => by
      rw [none'] at wide
      exact absurd wide (Nat.ne_of_lt positive)
    rw [List.concat_eq_append] at vacant wide ⊢
    rw [List.length_append, List.length_singleton] at wide
    have moved := moveOne_gap (lives front ++ lives tail) gap after wide
      (vacant rfl c (by simp)) value moves
    have before : (lives front ++ lives tail).length = front.length + 1 * tail.length := by simp
    rw [before] at moved
    have vacant' : Vacant true (some .moved :: gap) := by
      rintro - d (_ | ⟨_, member⟩)
      · rfl
      · exact vacant rfl d (List.mem_append_left _ member)
    obtain ⟨s, run, movesAfter, opened⟩ :=
      @ih (moves ++ [(front.length + 1 * tail.length, front.length + 1 * tail.length + extra)])
        (some .moved :: gap) wide vacant' (some (.live value) :: after)
    refine ⟨s, ?_, ?_, ?_⟩
    · rw [List.length_append, List.length_singleton, List.range'_concat, List.reverse_append,
        List.reverse_singleton, List.singleton_append]
      refine exec_cons_eq_some.2 ⟨_, ?_, run⟩
      simpa [lives] using moved
    · rw [movesAfter, List.length_append, List.length_singleton, List.range'_concat]
      simp
    · obtain ⟨gap', wide', vacant', slots⟩ := opened
      exact ⟨gap', wide', vacant', by simpa [lives] using slots⟩

/-- **Both branches of the `static if` open a gap** of `extra` slots before the elements from `a` on,
over which the element-wise one moves every element once. -/
theorem shift_opens {elaborate : Bool} {data : Payload T} {payload : List T} {a extra : Nat}
    (represents : Represents elaborate data payload) (le : a ≤ payload.length)
    (room : data.length + extra ≤ data.slots.length) (positive : 0 < extra) :
    ∃ s after, shift elaborate data a extra = some s ∧
      (elaborate = true → s.moves = movesFrom a data.length extra) ∧ Vacant elaborate after ∧
      Opened elaborate (payload.take a) (payload.drop a) extra s.slots after := by
  obtain ⟨slack, cells, vacant⟩ := represents.slots
  have front : (payload.take a).length = a := List.length_take_of_le le
  have tail : (payload.drop a).length = data.length - a := by
    rw [List.length_drop, represents.length]
  have wide : extra ≤ slack.length := by
    rw [cells, List.length_append, length_lives, represents.length] at room
    omega
  have elements : data.slots =
      lives (payload.take a) ++ (lives (payload.drop a) ++ slack) := by
    rw [cells, ← List.append_assoc, ← lives_append, List.take_append_drop]
  have behind : Vacant elaborate (slack.drop extra) := fun destroys c member =>
    vacant destroys c (List.mem_of_mem_drop member)
  rw [shift, elements]
  cases elaborate with
  | true =>
    have gap : Vacant true (slack.take extra) := fun destroys c member =>
      vacant destroys c (List.mem_of_mem_take member)
    obtain ⟨s, run, moves, opened⟩ := moveAll_opens (payload.take a) (payload.drop a) []
      positive (List.length_take_of_le wide) gap (slack.drop extra)
    rw [front, tail, List.take_append_drop] at run
    rw [front, tail] at moves
    exact ⟨s, _, run, fun _ => moves, behind, opened⟩
  | false =>
    have moved := move_up (lives (payload.take a)) (lives (payload.drop a)) slack wide
    rw [length_lives, length_lives, front, tail] at moved
    refine ⟨⟨_, []⟩, slack.drop extra, by rw [if_neg Bool.false_ne_true, moved]; rfl, ?_, behind,
      (lives (payload.drop a) ++ slack).take extra, ?_, ?_, rfl⟩
    · intro destroys
      cases destroys
    · rw [List.length_take, List.length_append]
      omega
    · intro destroys
      cases destroys

/-! ## The insertion -/

/-- The loop over a gap constructs the elements of the range in it. -/
theorem fill_gap {unshown : Unshown T} {elaborate : Bool} (lawful : unshown.Lawful elaborate)
    (stuff front : List T) {gap : Buffer (Cell T)} (wide : gap.length = stuff.length)
    (vacant : Vacant elaborate gap) (after : Buffer (Cell T)) :
    exec unshown.fill (lives front ++ (gap ++ after), stuff)
        (List.range' front.length stuff.length) =
      some (lives (front ++ stuff) ++ after, []) := by
  induction stuff generalizing front gap with
  | nil =>
    rw [List.length_eq_zero_iff.1 wide]
    simp
  | cons x stuff ih =>
    cases gap with
    | nil => cases wide
    | cons c gap =>
      have built := emplace_gap (lives front) (gap ++ after)
        (fun destroys => vacant destroys c List.mem_cons_self) x
      rw [length_lives] at built
      have rest := @ih (front ++ [x]) gap (Nat.succ.inj wide)
        (fun destroys d member => vacant destroys d (List.mem_cons_of_mem c member))
      rw [List.length_append, List.length_singleton] at rest
      rw [List.length_cons, List.range'_succ, List.cons_append]
      refine exec_cons_eq_some.2 ⟨(lives front ++ some (.live x) :: (gap ++ after), stuff), ?_, ?_⟩
      · rw [lawful.fill, built]
        rfl
      · simpa [lives] using rest

/-- What the array stands for when the gap is filled. -/
theorem represents_filled {elaborate : Bool} {payload : List T} {a length : Nat} (stuff : List T)
    {after : Buffer (Cell T)} (vacant : Vacant elaborate after)
    (le : a ≤ payload.length) (count : length = payload.length + stuff.length) :
    Represents elaborate
      ⟨lives (payload.take a ++ stuff) ++ (lives (payload.drop a) ++ after), length⟩
      (payload.take a ++ stuff ++ payload.drop a) := by
  refine ⟨?_, after, by simp, vacant⟩
  rw [List.append_assoc, List.length_append, List.length_append, List.length_take, List.length_drop]
  show length = _
  omega

theorem insertBefore_one {unshown : Unshown T} {elaborate : Bool}
    (lawful : unshown.Lawful elaborate) {data : Payload T} {payload : List T}
    (represents : Represents elaborate data payload) {a : Nat} (le : a ≤ payload.length) (x : T) :
    ∃ r, insertBefore unshown elaborate data a x = some r ∧ r.count = 1 ∧
      Represents elaborate r.data (payload.take a ++ [x] ++ payload.drop a) ∧
      (elaborate = true → r.moves = movesFrom a payload.length 1) := by
  have reserved := lawful.keeps data payload (data.length + 1) represents
  have room := lawful.room data (data.length + 1)
  have length := represents.length
  rw [insertBefore, if_pos (by omega)]
  generalize unshown.reserve data (data.length + 1) = data' at reserved room
  have length' := reserved.length
  obtain ⟨s, after, shifted, moves, vacant, gap, wide, empty, slots⟩ :=
    shift_opens reserved le (by omega) Nat.one_pos
  obtain ⟨c, rfl⟩ := List.length_eq_one_iff.1 wide
  have built := emplace_gap (lives (payload.take a)) (lives (payload.drop a) ++ after)
    (fun destroys => empty destroys c List.mem_cons_self) x
  rw [length_lives, List.length_take_of_le le] at built
  have filled : emplace elaborate s.slots a x =
      some (lives (payload.take a ++ [x]) ++ (lives (payload.drop a) ++ after)) := by
    rw [slots]
    simpa [lives] using built
  refine ⟨⟨⟨lives (payload.take a ++ [x]) ++ (lives (payload.drop a) ++ after), data'.length + 1⟩, 1,
    s.moves⟩, ?_, rfl, represents_filled [x] vacant le (by rw [length']; rfl), ?_⟩
  · change (shift elaborate data' a 1).bind _ = _
    rw [shifted, Option.bind_some]
    change (emplace elaborate s.slots a x).bind _ = _
    rw [filled, Option.bind_some]
    rfl
  · rw [← length']
    exact moves

theorem insertBefore_range {unshown : Unshown T} {elaborate : Bool}
    (lawful : unshown.Lawful elaborate) {data : Payload T} {payload : List T}
    (represents : Represents elaborate data payload) {a : Nat} (le : a ≤ payload.length)
    (stuff : List T) :
    ∃ r, insertBeforeRange unshown elaborate data a stuff = some r ∧ r.count = stuff.length ∧
      Represents elaborate r.data (payload.take a ++ stuff ++ payload.drop a) ∧
      (elaborate = true → stuff ≠ [] → r.moves = movesFrom a payload.length stuff.length) := by
  have length := represents.length
  rw [insertBeforeRange, if_pos (by omega), lawful.countExtra]
  by_cases none' : stuff = []
  · rw [if_pos none', none']
    refine ⟨⟨data, 0, []⟩, rfl, rfl, ?_, fun _ some' => absurd rfl some'⟩
    rw [List.append_nil, List.take_append_drop]
    exact represents
  · have reserved := lawful.keeps data payload (data.length + stuff.length) represents
    have room := lawful.room data (data.length + stuff.length)
    have positive : 0 < stuff.length := List.length_pos_iff.2 none'
    rw [if_neg none']
    dsimp only
    generalize unshown.reserve data (data.length + stuff.length) = data' at reserved room
    have length' := reserved.length
    obtain ⟨s, after, shifted, moves, vacant, gap, wide, empty, slots⟩ :=
      shift_opens reserved le (by omega) positive
    have filled := fill_gap lawful stuff (payload.take a) wide empty (lives (payload.drop a) ++ after)
    rw [← slots, List.length_take_of_le le] at filled
    refine ⟨⟨⟨lives (payload.take a ++ stuff) ++ (lives (payload.drop a) ++ after),
      data'.length + stuff.length⟩, stuff.length, s.moves⟩, ?_, rfl,
      represents_filled stuff vacant le (by rw [length']), ?_⟩
    · rw [shifted]
      change (exec unshown.fill (s.slots, stuff) (List.range' a stuff.length)).bind _ = _
      rw [filled, Option.bind_some]
      exact congrArg (fun result => some (⟨result.1, result.2, s.moves⟩ : Inserted T))
        (lawful.finish _ _ _)
    · rw [← length']
      exact fun destroys _ => moves destroys

/-- **Inserting before a position.** Whichever branch of the `static if` an instance has, an element
or a range comes between the elements in front of the position and the others. The element-wise shift
overwrites no element that is still to be moved, since it has a result, and it moves each element
from the position on once, the last first. -/
theorem insertBefore_represents (unshown : Unshown T) (elaborate : Bool)
    (lawful : unshown.Lawful elaborate) (data : Payload T) (payload : List T)
    (represents : Represents elaborate data payload) (a : Nat) (le : a ≤ payload.length) :
    (∀ x, ∃ r, insertBefore unshown elaborate data a x = some r ∧ r.count = 1 ∧
      Represents elaborate r.data (payload.take a ++ [x] ++ payload.drop a) ∧
      (elaborate = true → r.moves = movesFrom a payload.length 1)) ∧
    ∀ stuff, ∃ r, insertBeforeRange unshown elaborate data a stuff = some r ∧
      r.count = stuff.length ∧
      Represents elaborate r.data (payload.take a ++ stuff ++ payload.drop a) ∧
      (elaborate = true → stuff ≠ [] → r.moves = movesFrom a payload.length stuff.length) :=
  ⟨insertBefore_one lawful represents le, insertBefore_range lawful represents le⟩

/-- The lines outside the patch, with more raw memory behind the slots for room. -/
def growing (elaborate : Bool) : Unshown T where
  reserve data n := ⟨data.slots ++ alloc (n - data.slots.length), data.length⟩
  countExtra stuff := if stuff.isEmpty then none else some stuff.length
  fill
    | (_, []), _ => none
    | (slots, x :: rest), p => (emplace elaborate slots p x).map fun slots => (slots, rest)
  finish slots length extra := (⟨slots, length + extra⟩, extra)

theorem growing_lawful (elaborate : Bool) : (growing elaborate : Unshown T).Lawful elaborate where
  keeps data payload n represents := by
    obtain ⟨slack, cells, vacant⟩ := represents.slots
    refine ⟨represents.length, slack ++ alloc (n - data.slots.length), ?_, fun destroys c member => ?_⟩
    · rw [← List.append_assoc, ← cells]
      rfl
    · rcases List.mem_append.1 member with old | new
      · exact vacant destroys c old
      · rw [List.eq_of_mem_replicate new]
        rfl
  room data n := by
    change n ≤ (data.slots ++ alloc (n - data.slots.length)).length
    rw [List.length_append, length_alloc]
    omega
  countExtra stuff := by cases stuff <;> rfl
  fill _ _ _ _ := rfl
  finish _ _ _ := rfl

theorem insertBefore_represents_three :
    ∃ r, insertBeforeRange (growing true) true ⟨lives [1, 2, 3], 3⟩ 1 [8, 9] = some r ∧
      r.count = 2 ∧ Represents true r.data [1, 8, 9, 2, 3] ∧ r.moves = [(2, 4), (1, 3)] := by
  have represents : Represents true ⟨lives [1, 2, 3], 3⟩ [1, 2, 3] :=
    ⟨rfl, [], rfl, fun _ _ member => nomatch member⟩
  obtain ⟨r, inserted, count, after, moves⟩ := (insertBefore_represents (growing true) true
    (growing_lawful true) _ _ represents 1 (by decide)).2 [8, 9]
  exact ⟨r, inserted, count, after, moves rfl (by decide)⟩

end SecurityAudits.DlangPhobos.ArrayInsert
