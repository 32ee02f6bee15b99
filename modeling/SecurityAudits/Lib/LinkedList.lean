import Mathlib.Logic.Function.Basic
import Mathlib.Data.List.Nodup

/-!
# Linked lists in a heap

A heap maps the addresses that are live to their cells. Reading or writing a cell that is not
live has no result, so a program that has one follows no dangling pointer.

`Linked` says of a part of a doubly linked list which cells it consists of and what it is
linked to on both sides. A list is taken apart and put together at its seams: `Parted` is a list
whose two parts are linked to something else than each other, `setSeam` sets the two pointers
there, and `Parted.setSeam` is its rule. A list is such a pair of parts with nothing
(`listed_append`) or with one more cell (`listed_middle`) between them.

`Chained` is a singly linked list, whose cells name the next one as they please, and `without` the
heap in which some cells have been freed.
-/

namespace SecurityAudits.LinkedList
set_option autoImplicit false

/-- The live cells. -/
abbrev Heap (κ ν : Type) := κ → Option ν

/-- A cell of a doubly linked list. -/
structure Node (κ α : Type) where
  prev : Option κ
  next : Option κ
  val : α

section Doubly

variable {κ α : Type} [DecidableEq κ]

def setNext (mem : Heap κ (Node κ α)) (p : κ) (next : Option κ) : Option (Heap κ (Node κ α)) :=
  (mem p).map fun n => Function.update mem p (some { n with next := next })

def setPrev (mem : Heap κ (Node κ α)) (p : κ) (prev : Option κ) : Option (Heap κ (Node κ α)) :=
  (mem p).map fun n => Function.update mem p (some { n with prev := prev })

/-- A list: the pointer to its first cell, and the heap. -/
structure Links (κ α : Type) where
  root : Option κ
  mem : Heap κ (Node κ α)

/-- `if (prev) prev.next = x; else root = x;` -/
def attachNext (l : Links κ α) (prev x : Option κ) : Option (Links κ α) :=
  match prev with
  | none => some { l with root := x }
  | some p => (setNext l.mem p x).map fun mem => { l with mem := mem }

/-- `if (next) next.prev = x;` -/
def attachPrev (l : Links κ α) (next x : Option κ) : Option (Links κ α) :=
  match next with
  | none => some l
  | some q => (setPrev l.mem q x).map fun mem => { l with mem := mem }

/-- The two pointers between neighbours, of which there may be none. -/
def setSeam (l : Links κ α) (prev next x y : Option κ) : Option (Links κ α) :=
  (attachNext l prev x).bind fun l => attachPrev l next y

/-- The address of the first cell of a part of a list that `next` follows. -/
def headOr : List (κ × α) → Option κ → Option κ
  | [], next => next
  | (p, _) :: _, _ => some p

/-- The address of the last cell of a part of a list that comes after `prev`. -/
def lastOr : Option κ → List (κ × α) → Option κ
  | prev, [] => prev
  | _, (p, _) :: cells => lastOr (some p) cells

/-- The addresses of a part of a list. -/
def keys (cells : List (κ × α)) : List κ := cells.map Prod.fst

/-- The cells are linked with each other, the first one to `prev` and the last one to `next`. -/
def Linked (mem : Heap κ (Node κ α)) : Option κ → List (κ × α) → Option κ → Prop
  | _, [], _ => True
  | prev, (p, v) :: cells, next =>
    mem p = some ⟨prev, headOr cells next, v⟩ ∧ Linked mem (some p) cells next

/-- The list from the root is `cells`, each of them once. -/
structure Listed (l : Links κ α) (cells : List (κ × α)) : Prop where
  root : l.root = headOr cells none
  linked : Linked l.mem none cells none
  nodup : (keys cells).Nodup

/-- The list from the root is `xs` and `ys`, but the first part is linked to `next` and the
second one to `prev`. -/
structure Parted (l : Links κ α) (xs : List (κ × α)) (next prev : Option κ) (ys : List (κ × α)) :
    Prop where
  root : l.root = headOr xs next
  before : Linked l.mem none xs next
  after : Linked l.mem prev ys none
  nodup : (keys (xs ++ ys)).Nodup

variable {mem mem' : Heap κ (Node κ α)} {l l' : Links κ α} {prev next x : Option κ}
variable {xs ys cells : List (κ × α)} {p : κ} {v : α}

omit [DecidableEq κ] in
theorem mem_keys_cons {q : κ} : p ∈ keys ((q, v) :: cells) ↔ p = q ∨ p ∈ keys cells :=
  List.mem_cons

omit [DecidableEq κ] in
theorem headOr_append : headOr (xs ++ ys) next = headOr xs (headOr ys next) := by
  cases xs with
  | nil => rfl
  | cons x xs => rfl

omit [DecidableEq κ] in
/-- A list falls into two parts that are linked to each other. -/
theorem linked_append :
    Linked mem prev (xs ++ ys) next ↔
      Linked mem prev xs (headOr ys next) ∧ Linked mem (lastOr prev xs) ys next := by
  induction xs generalizing prev with
  | nil => rw [List.nil_append, lastOr, Linked, true_and]
  | cons x xs ih =>
    rw [List.cons_append, Linked, Linked, headOr_append, ih, lastOr, and_assoc]

omit [DecidableEq κ] in
/-- The frame rule: a part of a list depends on its own cells. -/
theorem Linked.frame (linked : Linked mem prev cells next)
    (same : ∀ p ∈ keys cells, mem' p = mem p) : Linked mem' prev cells next := by
  induction cells generalizing prev with
  | nil => trivial
  | cons cell cells ih =>
    obtain ⟨here, rest⟩ := linked
    refine ⟨(same cell.1 List.mem_cons_self).trans here, ih rest fun p member => ?_⟩
    exact same p (List.mem_cons_of_mem cell.1 member)

omit [DecidableEq κ] in
theorem Linked.read (linked : Linked mem prev cells next) {cell : κ × α} (member : cell ∈ cells) :
    ∃ n, mem cell.1 = some n ∧ n.val = cell.2 := by
  induction cells generalizing prev with
  | nil => cases member
  | cons first cells ih =>
    obtain ⟨here, rest⟩ := linked
    rcases List.mem_cons.1 member with rfl | later
    · exact ⟨_, here, rfl⟩
    · exact ih rest later

/-- What a write to some cells leaves as it was. -/
structure Frame (mem mem' : Heap κ (Node κ α)) (written : List κ) : Prop where
  same : ∀ p ∉ written, mem' p = mem p
  live : ∀ p, (mem' p).isSome = (mem p).isSome

omit [DecidableEq κ] in
theorem Frame.refl (written : List κ) : Frame mem mem written := ⟨fun _ _ => rfl, fun _ => rfl⟩

theorem frame_update {n : Node κ α} {written : List κ} (n' : Node κ α) (here : mem p = some n)
    (member : p ∈ written) : Frame mem (Function.update mem p (some n')) written where
  same q other := Function.update_of_ne (by rintro rfl; exact other member) _ _
  live q := by
    by_cases same : q = p
    · rw [same, Function.update_self, here]
      rfl
    · rw [Function.update_of_ne same]

omit [DecidableEq κ] in
theorem Frame.mono {written more : List κ} (frame : Frame mem mem' written)
    (sub : ∀ p ∈ written, p ∈ more) : Frame mem mem' more :=
  ⟨fun p other => frame.same p fun member => other (sub p member), frame.live⟩

/-- The last cell of a part of a list is linked to something else. -/
theorem Linked.setNext {cell : κ × α} (linked : Linked mem prev (cell :: cells) next)
    (nodup : (keys (cell :: cells)).Nodup) (x : Option κ) :
    ∃ q mem', lastOr prev (cell :: cells) = some q ∧ setNext mem q x = some mem' ∧
      Linked mem' prev (cell :: cells) x ∧ Frame mem mem' (keys (cell :: cells)) := by
  induction cells generalizing prev cell with
  | nil =>
    obtain ⟨here, -⟩ := linked
    refine ⟨cell.1, _, rfl, by rw [LinkedList.setNext, here]; rfl, ⟨?_, trivial⟩,
      frame_update _ here List.mem_cons_self⟩
    rw [Function.update_self]
    rfl
  | cons second cells ih =>
    obtain ⟨here, rest⟩ := linked
    obtain ⟨fresh, nodupRest⟩ := List.nodup_cons.1 nodup
    obtain ⟨q, mem', last, written, linked', frame⟩ := ih rest nodupRest
    refine ⟨q, mem', last, written, ⟨(frame.same cell.1 fresh).trans here, linked'⟩,
      frame.mono fun p member => List.mem_cons_of_mem cell.1 member⟩

/-- The rule of the pointer at the end of a part of a list, which is the root when there is
nothing before. -/
theorem Linked.attachNext (linked : Linked l.mem none xs next) (root : l.root = headOr xs next)
    (nodup : (keys xs).Nodup) (x : Option κ) :
    ∃ l', attachNext l (lastOr none xs) x = some l' ∧ l'.root = headOr xs x ∧
      Linked l'.mem none xs x ∧ Frame l.mem l'.mem (keys xs) := by
  cases xs with
  | nil => exact ⟨{ l with root := x }, rfl, rfl, trivial, Frame.refl _⟩
  | cons cell xs =>
    obtain ⟨q, mem', last, written, linked', frame⟩ := linked.setNext nodup x
    rw [last]
    exact ⟨{ l with mem := mem' }, by rw [LinkedList.attachNext, written]; rfl, root, linked',
      frame⟩

/-- The rule of the pointer at the beginning of a part of a list. -/
theorem Linked.attachPrev (linked : Linked l.mem prev ys none) (nodup : (keys ys).Nodup)
    (x : Option κ) :
    ∃ l', attachPrev l (headOr ys none) x = some l' ∧ l'.root = l.root ∧
      Linked l'.mem x ys none ∧ Frame l.mem l'.mem (keys ys) := by
  cases ys with
  | nil => exact ⟨l, rfl, rfl, trivial, Frame.refl _⟩
  | cons cell ys =>
    obtain ⟨here, rest⟩ := linked
    obtain ⟨fresh, -⟩ := List.nodup_cons.1 nodup
    have frame := frame_update ⟨x, headOr ys none, cell.2⟩ here
      (List.mem_cons_self (l := keys ys))
    refine ⟨⟨l.root, Function.update l.mem cell.1 (some ⟨x, headOr ys none, cell.2⟩)⟩,
      by rw [headOr, LinkedList.attachPrev, setPrev, here]; rfl, rfl,
      ⟨Function.update_self _ _ _, rest.frame fun p member => ?_⟩, frame⟩
    have other : p ≠ cell.1 := by
      rintro rfl
      exact fresh member
    exact Function.update_of_ne other _ _

/-- The rule of the two pointers between the parts of a list. -/
theorem Parted.setSeam (parted : Parted l xs next prev ys) (x y : Option κ) :
    ∃ l', setSeam l (lastOr none xs) (headOr ys none) x y = some l' ∧ Parted l' xs x y ys ∧
      Frame l.mem l'.mem (keys (xs ++ ys)) := by
  have nodup := parted.nodup
  rw [keys, List.map_append] at nodup
  obtain ⟨nodupXs, nodupYs, apart⟩ := List.nodup_append.1 nodup
  obtain ⟨m, first, root, before, frame⟩ := parted.before.attachNext parted.root nodupXs x
  have after := parted.after.frame fun p member =>
    frame.same p fun other => apart p other p member rfl
  obtain ⟨l', second, root', after, frame'⟩ := after.attachPrev nodupYs y
  have before := before.frame fun p member =>
    frame'.same p fun other => apart p member p other rfl
  refine ⟨l', by rw [LinkedList.setSeam, first]; exact second,
    ⟨root'.trans root, before, after, parted.nodup⟩,
    fun p other => ?_, fun p => (frame'.live p).trans (frame.live p)⟩
  rw [keys, List.map_append, List.mem_append, not_or] at other
  exact (frame'.same p other.2).trans (frame.same p other.1)

omit [DecidableEq κ] in
theorem Parted.frame (parted : Parted l xs next prev ys)
    (same : ∀ p ∈ keys (xs ++ ys), mem' p = l.mem p) : Parted ⟨l.root, mem'⟩ xs next prev ys := by
  rw [keys, List.map_append] at same
  exact ⟨parted.root, parted.before.frame fun p member => same p (List.mem_append_left _ member),
    parted.after.frame fun p member => same p (List.mem_append_right _ member), parted.nodup⟩

omit [DecidableEq κ] in
/-- Two parts that are linked to each other are a list. -/
theorem listed_append :
    Listed l (xs ++ ys) ↔ Parted l xs (headOr ys none) (lastOr none xs) ys := by
  constructor
  · rintro ⟨root, linked, nodup⟩
    obtain ⟨before, after⟩ := linked_append.1 linked
    exact ⟨root.trans headOr_append, before, after, nodup⟩
  · rintro ⟨root, before, after, nodup⟩
    exact ⟨root.trans headOr_append.symm, linked_append.2 ⟨before, after⟩, nodup⟩

omit [DecidableEq κ] in
/-- Two parts that are linked to a cell, which is linked to them, are a list with that cell. -/
theorem listed_middle :
    Listed l (xs ++ (p, v) :: ys) ↔
      Parted l xs (some p) (some p) ys ∧ p ∉ keys (xs ++ ys) ∧
        l.mem p = some ⟨lastOr none xs, headOr ys none, v⟩ := by
  have middle : (keys (xs ++ (p, v) :: ys)).Nodup ↔
      p ∉ keys (xs ++ ys) ∧ (keys (xs ++ ys)).Nodup := by
    rw [keys, List.map_append, List.map_cons, List.nodup_middle, ← List.map_append]
    exact List.nodup_cons
  rw [listed_append]
  constructor
  · rintro ⟨root, before, ⟨here, after⟩, nodup⟩
    obtain ⟨absent, nodup⟩ := middle.1 nodup
    exact ⟨⟨root, before, after, nodup⟩, absent, here⟩
  · rintro ⟨⟨root, before, after, nodup⟩, absent, here⟩
    exact ⟨root, before, ⟨here, after⟩, middle.2 ⟨absent, nodup⟩⟩

/-- The rule of putting a cell into a list: it is written, and its neighbours are linked to it. -/
theorem Listed.insert (listed : Listed l (xs ++ ys)) (absent : p ∉ keys (xs ++ ys))
    (same : ∀ q ∈ keys (xs ++ ys), mem' q = l.mem q)
    (here : mem' p = some ⟨lastOr none xs, headOr ys none, v⟩) :
    ∃ l', LinkedList.setSeam ⟨l.root, mem'⟩ (lastOr none xs) (headOr ys none) (some p) (some p)
        = some l' ∧ Listed l' (xs ++ (p, v) :: ys) := by
  obtain ⟨l', run, parted, frame⟩ :=
    ((listed_append.1 listed).frame same).setSeam (some p) (some p)
  exact ⟨l', run, listed_middle.2 ⟨parted, absent, (frame.same p absent).trans here⟩⟩

/-- The rule of taking a cell out of a list: its neighbours are linked to each other. The cell
itself may be there or not. -/
theorem Listed.remove (listed : Listed l (xs ++ (p, v) :: ys))
    (same : ∀ q ∈ keys (xs ++ ys), mem' q = l.mem q) :
    ∃ l', LinkedList.setSeam ⟨l.root, mem'⟩ (lastOr none xs) (headOr ys none) (headOr ys none)
        (lastOr none xs) = some l' ∧ Listed l' (xs ++ ys) ∧ l'.mem p = mem' p := by
  obtain ⟨parted, absent, -⟩ := listed_middle.1 listed
  obtain ⟨l', run, parted, frame⟩ :=
    (parted.frame same).setSeam (headOr ys none) (lastOr none xs)
  exact ⟨l', run, listed_append.2 parted, frame.same p absent⟩

omit [DecidableEq κ] in
theorem Listed.frame (listed : Listed l cells) (same : ∀ p ∈ keys cells, mem' p = l.mem p) :
    Listed ⟨l.root, mem'⟩ cells :=
  ⟨listed.root, listed.linked.frame same, listed.nodup⟩

omit [DecidableEq κ] in
theorem lastOr_concat (zs : List (κ × α)) (z : κ × α) : lastOr prev (zs ++ [z]) = some z.1 := by
  induction zs generalizing prev with
  | nil => rfl
  | cons first zs ih => exact ih

omit [DecidableEq κ] in
/-- The pointers of a list in the two directions are inverse. -/
theorem Listed.inverse {q : κ} {n m : Node κ α} (listed : Listed l cells) (memberP : p ∈ keys cells)
    (memberQ : q ∈ keys cells) (readP : l.mem p = some n) (readQ : l.mem q = some m) :
    n.next = some q ↔ m.prev = some p := by
  obtain ⟨⟨p, v⟩, inP, rfl⟩ := List.mem_map.1 memberP
  obtain ⟨⟨q, w⟩, inQ, rfl⟩ := List.mem_map.1 memberQ
  constructor
  · intro next
    obtain ⟨xs, ys, rfl⟩ := List.append_of_mem inP
    obtain ⟨parted, -, here⟩ := listed_middle.1 listed
    cases ys with
    | nil =>
      rw [← Option.some.inj (here.symm.trans readP)] at next
      cases next
    | cons second ys =>
      rw [← Option.some.inj (here.symm.trans readP)] at next
      have there := parted.after.1
      rw [Option.some.inj next] at there
      rw [← Option.some.inj (there.symm.trans readQ)]
  · intro prev
    obtain ⟨xs, ys, rfl⟩ := List.append_of_mem inQ
    obtain ⟨parted, -, here⟩ := listed_middle.1 listed
    rw [← Option.some.inj (here.symm.trans readQ)] at prev
    rcases List.eq_nil_or_concat xs with rfl | ⟨zs, last, rfl⟩
    · cases prev
    · rw [List.concat_eq_append] at parted prev
      have before := (linked_append.1 parted.before).2.1
      rw [Option.some.inj ((lastOr_concat zs last).symm.trans prev)] at before
      rw [← Option.some.inj (before.symm.trans readP)]
      rfl

omit [DecidableEq κ] in
theorem Listed.first (listed : Listed l cells) (root : l.root = some p) {n : Node κ α}
    (read : l.mem p = some n) : n.prev = none := by
  rw [listed.root] at root
  cases cells with
  | nil => cases root
  | cons first cells =>
    have here := listed.linked.1
    rw [Option.some.inj root, read] at here
    rw [Option.some.inj here]

end Doubly

section Singly

variable {κ ν : Type} {next : ν → Option κ} {mem mem' : Heap κ ν} {p : Option κ} {q : κ}
variable {cells : List (κ × ν)}

/-- The chain that begins at `p` consists of `cells`, each linked to the one behind it. -/
def Chained (next : ν → Option κ) (mem : Heap κ ν) : Option κ → List (κ × ν) → Prop
  | p, [] => p = none
  | p, (q, v) :: cells => p = some q ∧ mem q = some v ∧ Chained next mem (next v) cells

/-- A chain stays where its cells stay. -/
theorem Chained.congr (chained : Chained next mem p cells)
    (same : ∀ q ∈ keys cells, mem' q = mem q) : Chained next mem' p cells := by
  induction cells generalizing p with
  | nil => exact chained
  | cons cell cells ih =>
    obtain ⟨here, live, rest⟩ := chained
    refine ⟨here, (same _ List.mem_cons_self).trans live, ih rest fun q mem => ?_⟩
    exact same q (List.mem_cons_of_mem _ mem)

end Singly

section Freeing

variable {κ ν : Type} [DecidableEq κ] {mem : Heap κ ν} {q : κ} {ps qs : List κ}

/-- What is live when the cells at `ps` have been freed. -/
def without (mem : Heap κ ν) (ps : List κ) : Heap κ ν := fun q => if q ∈ ps then none else mem q

@[simp] theorem without_nil : without mem [] = mem := by
  funext q
  exact if_neg List.not_mem_nil

theorem without_of_not_mem (other : q ∉ ps) : without mem ps q = mem q := if_neg other

theorem without_append : without mem (ps ++ qs) = without (without mem ps) qs := by
  funext q
  by_cases inFirst : q ∈ ps
  · rw [without, if_pos (List.mem_append_left qs inFirst), without, without, if_pos inFirst]
    exact (ite_self none).symm
  · by_cases inSecond : q ∈ qs
    · rw [without, if_pos (List.mem_append_right ps inSecond), without, if_pos inSecond]
    · rw [without, if_neg (List.not_mem_append inFirst inSecond), without, if_neg inSecond,
        without, if_neg inFirst]

end Freeing

end SecurityAudits.LinkedList
