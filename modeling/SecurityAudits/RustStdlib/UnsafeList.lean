import SecurityAudits.Lib.Circular

/-!
# A list that points to itself, and moves

`UnsafeList` (`library/std/src/sys/pal/sgx/waitqueue/unsafe_list.rs`) is a circular list of entries
that belong to its users. The cell that closes the circle, `head_tail_entry`, is a field of the
list, and another field, `head_tail`, points to it. When the list is moved the cell is copied to
another address: `head_tail` and the two neighbours of the cell then point to memory that is no
longer in use, until `init` sees it.

Memory is a heap of cells. `Stale` says what holds of it between a move and the next `init`.
-/

namespace SecurityAudits.RustStdlib.UnsafeList
set_option autoImplicit false
open SecurityAudits.Circular

variable {κ : Type} [DecidableEq κ]

/-- The memory, where `self.head_tail_entry` is, and `self.head_tail`. There is no cell at `entry`
before the first `init`. -/
structure State (κ : Type) where
  heap : Heap κ
  entry : κ
  headTail : κ

/-- `init` for a list without a cell. -/
def create (s : State κ) : State κ :=
  { s with
    heap := Function.update s.heap s.entry (some ⟨s.entry, s.entry⟩)
    headTail := s.entry }

/-- The neighbour that `next` of the cell at `a` points to, which may be the cell itself as it was
at `old`. -/
def fixNext (heap : Heap κ) (a old : κ) : Option (Heap κ) :=
  (heap a).bind fun c => if c.next = old then setNext heap a a else setPrev heap c.next a

/-- The same for `prev`. -/
def fixPrev (heap : Heap κ) (a old : κ) : Option (Heap κ) :=
  (heap a).bind fun c => if c.prev = old then setPrev heap a a else setNext heap c.prev a

/-- `UnsafeList::init` -/
def init (s : State κ) : Option (State κ) :=
  match s.heap s.entry with
  | none => some (create s)
  | some _ =>
    if s.headTail ≠ s.entry then
      (fixNext s.heap s.entry s.headTail).bind fun heap =>
        (fixPrev heap s.entry s.headTail).map fun heap =>
          { s with heap := heap, headTail := s.entry }
    else some s

/-- `UnsafeList::is_empty`; none when the assertion fails. -/
def isEmpty (s : State κ) : Option Bool :=
  match s.heap s.entry with
  | none => some true
  | some c =>
    if c.next = s.entry ∨ c.next = s.headTail then
      if c.prev = c.next then some true else none
    else some false

/-- What `push`, `pop` and `remove` do behind `init`, with the memory and `self.head_tail`. `remove`
has asserted that the list is not empty. -/
structure Bodies (κ : Type) where
  push : Heap κ → κ → κ → Option (Heap κ)
  pop : Heap κ → κ → Option (Option κ × Heap κ)
  remove : Heap κ → κ → κ → Option (Heap κ)

/-- `UnsafeList::push` -/
def push (b : Bodies κ) (s : State κ) (e : κ) : Option (State κ) :=
  (init s).bind fun s => (b.push s.heap s.headTail e).map fun heap => { s with heap := heap }

/-- `UnsafeList::pop` -/
def pop (b : Bodies κ) (s : State κ) : Option (Option κ × State κ) :=
  (init s).bind fun s =>
    (b.pop s.heap s.headTail).map fun (e, heap) => (e, { s with heap := heap })

/-- `UnsafeList::remove` -/
def remove (b : Bodies κ) (s : State κ) (e : κ) : Option (State κ) :=
  (init s).bind fun s =>
    (isEmpty s).bind fun empty =>
      if empty then none
      else (b.remove s.heap s.headTail e).map fun heap => { s with heap := heap }

/-- The list is copied to the address `a`, and the memory where it has been is given back. -/
def move (s : State κ) (a : κ) : State κ :=
  { s with
    heap := Function.update (Function.update s.heap s.entry none) a (s.heap s.entry)
    entry := a }

/-- What happens to a list: a user creates an entry or uses the list, or it is moved. -/
inductive Op (κ : Type) where
  | new (e : κ) (pointers : Cell κ)
  | push (e : κ)
  | pop
  | remove (e : κ)
  | isEmpty
  | move (a : κ)

inductive Answer (κ : Type) where
  | popped (e : Option κ)
  | empty (b : Bool)
  deriving DecidableEq, Repr

def step (b : Bodies κ) (s : State κ) : Op κ → Option (Option (Answer κ) × State κ)
  | .new e pointers => some (none, { s with heap := Function.update s.heap e (some pointers) })
  | .push e => (push b s e).map fun s => (none, s)
  | .pop => (pop b s).map fun (e, s) => (some (.popped e), s)
  | .remove e => (remove b s e).map fun s => (none, s)
  | .isEmpty => (isEmpty s).map fun empty => (some (.empty empty), s)
  | .move a => some (none, move s a)

/-- A sequence of operations: its answers, and the list in the end. -/
def run (b : Bodies κ) : State κ → List (Op κ) → Option (List (Answer κ) × State κ)
  | s, [] => some ([], s)
  | s, op :: ops =>
    (step b s op).bind fun (answer, s) =>
      (run b s ops).map fun (answers, s) => (answer.toList ++ answers, s)

/-- `UnsafeList::new`, at the address `a` in a memory without entries. `head_tail` dangles. -/
def new (a dangling : κ) : State κ := ⟨fun _ => none, a, dangling⟩

/-! ## What the list is for -/

/-- A queue after an operation. -/
def queueAfter (qs : List κ) : Op κ → List κ
  | .push e => qs ++ [e]
  | .pop => qs.tail
  | .remove e => qs.erase e
  | .new _ _ | .isEmpty | .move _ => qs

def answerOf (qs : List κ) : Op κ → Option (Answer κ)
  | .pop => some (.popped qs.head?)
  | .isEmpty => some (.empty (decide (qs = [])))
  | .new _ _ | .push _ | .remove _ | .move _ => none

def runQueue : List κ → List (Op κ) → List (Answer κ) × List κ
  | qs, [] => ([], qs)
  | qs, op :: ops =>
    ((answerOf qs op).toList ++ (runQueue (queueAfter qs op) ops).1,
      (runQueue (queueAfter qs op) ops).2)

def Op.IsMove : Op κ → Bool
  | .move _ => true
  | _ => false

/-- The sequence without moves. -/
def unmoved (ops : List (Op κ)) : List (Op κ) := ops.filter fun op => !op.IsMove

/-- What a user of the list knows: the entries in memory, where the list is, and what it holds. -/
structure Client (κ : Type) where
  entries : List κ
  place : κ
  queue : List κ

/-- The contract of the operations, which are unsafe, and that memory in use is not handed out. -/
def Client.Ok (c : Client κ) : Op κ → Prop
  | .new e _ => e ∉ c.entries ∧ e ≠ c.place
  | .push e => e ∈ c.entries ∧ e ∉ c.queue
  | .remove e => e ∈ c.queue
  | .move a => a ∉ c.entries ∧ a ≠ c.place
  | .pop | .isEmpty => True

def Client.after (c : Client κ) (op : Op κ) : Client κ :=
  match op with
  | .new e _ => { c with entries := e :: c.entries }
  | .move a => { c with place := a }
  | op => { c with queue := queueAfter c.queue op }

def Contract : Client κ → List (Op κ) → Prop
  | _, [] => True
  | c, op :: ops => c.Ok op ∧ Contract (c.after op) ops

/-- `init` makes of the list a circular list of `qs` through `head_tail`, which is where the list is,
and also before that `is_empty` answers whether `qs` is empty. -/
structure Holds (s : State κ) (qs : List κ) : Prop where
  init : ∃ s', init s = some s' ∧ s'.headTail = s'.entry ∧ Circle s'.heap s'.headTail qs
  isEmpty : isEmpty s = some (decide (qs = []))

/-! ## Between a move and `init` -/

/-- The memory with the cell of the list also where it was when `init` saw it last. -/
def view (s : State κ) : Heap κ := Function.update s.heap s.headTail (s.heap s.entry)

/-- The list holds `qs`, but its neighbours and `head_tail` may point to where it has been. -/
def Stale (s : State κ) (qs : List κ) : Prop :=
  (s.heap s.entry = none ∧ qs = []) ∨ Circle (view s) s.headTail qs

structure Reflects (s : State κ) (c : Client κ) : Prop where
  place : s.entry = c.place
  live : ∀ x, x ≠ c.place → (s.heap x ≠ none ↔ x ∈ c.entries)
  apart : c.place ∉ c.entries
  queued : ∀ x ∈ c.queue, x ∈ c.entries
  list : Stale s c.queue

variable {s : State κ} {c : Client κ} {b : Bodies κ} {qs : List κ}

theorem Reflects.outside (reflects : Reflects s c) : s.entry ∉ c.queue := by
  intro member
  rw [reflects.place] at member
  exact reflects.apart (reflects.queued _ member)

theorem view_here (here : s.headTail = s.entry) : view s = s.heap := by
  rw [view, here]
  exact Function.update_eq_self _ _

/-- The frame rule: what the list holds is in its own cell and in those of the queue. -/
theorem stale_frame {s' : State κ} (list : Stale s qs) (same : s'.headTail = s.headTail)
    (cell : s'.heap s'.entry = s.heap s.entry) (kept : ∀ z ∈ qs, s'.heap z = s.heap z) :
    Stale s' qs := by
  rcases list with ⟨unused, empty⟩ | circle
  · exact .inl ⟨cell.trans unused, empty⟩
  · refine .inr ?_
    rw [same]
    refine circle.frame fun z member => ?_
    rw [view, view, same, cell]
    by_cases isHead : z = s.headTail
    · rw [isHead, Function.update_self, Function.update_self]
    · have inQueue : z ∈ qs := (List.mem_cons.1 member).resolve_left isHead
      rw [Function.update_of_ne isHead, Function.update_of_ne isHead, kept z inQueue]

/-- What is behind the pointers of the cell, after `init` or before. -/
theorem stale_cases (list : Stale s qs) :
    (s.heap s.entry = none ∧ qs = []) ∨
    (s.heap s.entry = some ⟨s.headTail, s.headTail⟩ ∧ qs = []) ∨
    ∃ n p, qs.head? = some n ∧ qs.getLast? = some p ∧ s.heap s.entry = some ⟨n, p⟩ ∧
      s.headTail ∉ qs ∧ Circle (view s) s.headTail qs := by
  rcases list with unused | circle
  · exact .inl unused
  refine .inr ?_
  have here : view s s.headTail = s.heap s.entry := Function.update_self _ _ _
  rcases qs with _ | ⟨n, rest⟩
  · obtain ⟨next, prev⟩ := circle_nil.1 circle
    exact .inl ⟨here.symm.trans (eq_some_of_next_prev next prev), rfl⟩
  · obtain ⟨p, last⟩ := Option.ne_none_iff_exists'.1
      (fun none => List.cons_ne_nil n rest (List.getLast?_eq_none_iff.1 none))
    obtain ⟨next, prev⟩ := circle.ends rfl last
    have isCell := here.symm.trans (eq_some_of_next_prev next prev)
    exact .inr ⟨_, _, rfl, last, isCell, (List.nodup_cons.1 circle.nodup).1, circle⟩

theorem isEmpty_spec (list : Stale s qs) (outside : s.entry ∉ qs) :
    isEmpty s = some (decide (qs = [])) := by
  rcases stale_cases list with ⟨unused, rfl⟩ | ⟨cell, rfl⟩ | ⟨n, p, first, -, cell, apart, -⟩
  · rw [isEmpty, unused]
    rfl
  · rw [isEmpty, cell]
    simp
  · have inside := List.mem_of_head? first
    have nonempty : qs ≠ [] := List.ne_nil_of_mem inside
    have notEntry : n ≠ s.entry := fun same => outside (same ▸ inside)
    have notOld : n ≠ s.headTail := fun same => apart (same ▸ inside)
    rw [isEmpty, cell]
    simp [notEntry, notOld, nonempty]

/-- What `init` leaves: the list is where `head_tail` points. -/
structure Initialized (s s' : State κ) (qs : List κ) : Prop where
  entry : s'.entry = s.entry
  headTail : s'.headTail = s.entry
  circle : Circle s'.heap s.entry qs
  live : ∀ x, x ≠ s.entry → (s'.heap x = none ↔ s.heap x = none)

theorem create_spec (s : State κ) : Initialized s (create s) [] where
  entry := rfl
  headTail := rfl
  circle := by
    refine circle_nil.2 ⟨?_, ?_⟩
    · rw [create, nextOf_update]
      exact Function.update_self _ _ _
    · rw [create, prevOf_update]
      exact Function.update_self _ _ _
  live x other := by
    dsimp only [create]
    rw [Function.update_of_ne other]

/-- The empty list has been moved. -/
theorem init_empty (moved : s.headTail ≠ s.entry)
    (cell : s.heap s.entry = some ⟨s.headTail, s.headTail⟩) :
    ∃ s', init s = some s' ∧ Initialized s s' [] := by
  have live : s.heap s.entry ≠ none := by rw [cell]; exact Option.some_ne_none _
  obtain ⟨one, setOne, nextOne, prevOne, liveOne⟩ := setNext_spec s.entry live
  have prevHere : prevOf one s.entry = some s.headTail := by rw [prevOne, prevOf, cell]; rfl
  obtain ⟨cellOne, isCellOne, isPrev⟩ := prevOf_eq_some.1 prevHere
  obtain ⟨two, setTwo, nextTwo, prevTwo, liveTwo⟩ :=
    setPrev_spec s.entry (fun dead => live ((liveOne _).1 dead))
  refine ⟨{ s with heap := two, headTail := s.entry }, ?_, rfl, rfl, circle_nil.2 ⟨?_, ?_⟩,
    fun x _ => (liveOne.trans liveTwo) x⟩
  · rw [init, cell]
    dsimp only
    rw [if_pos moved, fixNext, cell, Option.bind_some, if_pos rfl, setOne, Option.bind_some, fixPrev,
      isCellOne, Option.bind_some, if_pos isPrev, setTwo]
    rfl
  · rw [nextTwo, nextOne, Function.update_self]
  · rw [prevTwo, Function.update_self]

/-- A list with entries has been moved: its first and its last entry are told. -/
theorem init_entries {n p : κ} (moved : s.headTail ≠ s.entry) (first : qs.head? = some n)
    (last : qs.getLast? = some p) (cell : s.heap s.entry = some ⟨n, p⟩) (apart : s.headTail ∉ qs)
    (outside : s.entry ∉ qs) (circle : Circle (view s) s.headTail qs) :
    ∃ s', init s = some s' ∧ Initialized s s' qs := by
  have isFirst := List.mem_of_head? first
  have isLast := List.mem_of_getLast? last
  have same : ∀ z ∈ qs, view s z = s.heap z := fun z member =>
    Function.update_of_ne (fun here : z = s.headTail => apart (here ▸ member)) _ _
  have live : ∀ z ∈ qs, s.heap z ≠ none := fun z member => by
    rw [← same z member]
    exact circle.live (List.mem_cons_of_mem _ member)
  obtain ⟨one, setOne, nextOne, prevOne, liveOne⟩ := setPrev_spec s.entry (live n isFirst)
  have other : s.entry ≠ n := fun here => outside (here ▸ isFirst)
  have prevHere : prevOf one s.entry = some p := by
    rw [prevOne, Function.update_of_ne other, prevOf, cell]
    rfl
  obtain ⟨cellOne, isCellOne, isPrev⟩ := prevOf_eq_some.1 prevHere
  obtain ⟨two, setTwo, nextTwo, prevTwo, liveTwo⟩ :=
    setNext_spec s.entry (fun dead => live p isLast ((liveOne _).1 dead))
  have notNext : n ≠ s.headTail := fun here => apart (here ▸ isFirst)
  have notPrev : p ≠ s.headTail := fun here => apart (here ▸ isLast)
  refine ⟨{ s with heap := two, headTail := s.entry }, ?_, rfl, rfl,
    circle.replace first last outside ?_ ?_ (fun z member => ?_) (fun z member => ?_),
    fun x _ => (liveOne.trans liveTwo) x⟩
  · rw [init, cell]
    dsimp only
    rw [if_pos moved, fixNext, cell, Option.bind_some, if_neg notNext, setOne, Option.bind_some,
      fixPrev, isCellOne, Option.bind_some, isPrev, if_neg notPrev, setTwo]
    rfl
  · have notLast : s.entry ≠ p := fun here => outside (here ▸ isLast)
    rw [nextTwo, Function.update_of_ne notLast, nextOne, nextOf, cell]
    rfl
  · rw [prevTwo]
    exact prevHere.trans (congrArg some rfl)
  · rw [nextTwo, nextOne]
    by_cases isP : z = p
    · rw [isP, Function.update_self, Function.update_self]
    · rw [Function.update_of_ne isP, Function.update_of_ne isP, nextOf, nextOf, same z member]
  · rw [prevTwo, prevOne]
    by_cases isN : z = n
    · rw [isN, Function.update_self, Function.update_self]
    · rw [Function.update_of_ne isN, Function.update_of_ne isN, prevOf, prevOf, same z member]

/-- The list has not been moved, or is where it was. -/
theorem init_unmoved (here : s.headTail = s.entry) (circle : Circle (view s) s.headTail qs) :
    ∃ s', init s = some s' ∧ Initialized s s' qs := by
  rw [view_here here, here] at circle
  obtain ⟨cell, isCell⟩ := Option.ne_none_iff_exists'.1 (circle.live List.mem_cons_self)
  refine ⟨s, ?_, rfl, here, circle, fun x _ => Iff.rfl⟩
  rw [init, isCell]
  exact if_neg (fun moved => moved here)

/-- The rule of `init`. -/
theorem init_spec (list : Stale s qs) (outside : s.entry ∉ qs) :
    ∃ s', init s = some s' ∧ Initialized s s' qs := by
  by_cases here : s.headTail = s.entry
  · rcases list with ⟨unused, rfl⟩ | circle
    · exact ⟨create s, by rw [init, unused], create_spec s⟩
    · exact init_unmoved here circle
  · rcases stale_cases list with ⟨unused, rfl⟩ | ⟨cell, rfl⟩ |
      ⟨n, p, first, last, cell, apart, circle⟩
    · exact ⟨create s, by rw [init, unused], create_spec s⟩
    · exact init_empty here cell
    · exact init_entries here first last cell apart outside circle

/-! ## The operations -/

/-- What is relied on for the rest of `push`, `pop` and `remove`, on a circular list through
`head_tail`: `push` puts an entry at the back, `pop` takes the one at the front, if there is one, and
`remove` takes an entry of the list. No memory is taken or given back. -/
structure Bodies.Lawful (b : Bodies κ) : Prop where
  push : ∀ heap h qs e, Circle heap h qs → heap e ≠ none → e ∉ h :: qs →
    ∃ heap', b.push heap h e = some heap' ∧ Circle heap' h (qs ++ [e]) ∧ SameLive heap heap'
  pop : ∀ heap h qs, Circle heap h qs →
    ∃ heap', b.pop heap h = some (qs.head?, heap') ∧ Circle heap' h qs.tail ∧ SameLive heap heap'
  remove : ∀ heap h qs e, Circle heap h qs → e ∈ qs →
    ∃ heap', b.remove heap h e = some heap' ∧ Circle heap' h (qs.erase e) ∧ SameLive heap heap'

/-- A list that `head_tail` points to is not stale. -/
theorem stale_of_circle (here : s.headTail = s.entry) (circle : Circle s.heap s.entry qs) :
    Stale s qs := by
  refine .inr ?_
  rw [view_here here, here]
  exact circle

/-- The list behind `init` and one of the bodies. -/
theorem Reflects.changed (reflects : Reflects s c) {s' : State κ} {heap : Heap κ} {qs : List κ}
    (initialized : Initialized s s' c.queue) (circle : Circle heap s.entry qs)
    (live : SameLive s'.heap heap) (queued : ∀ x ∈ qs, x ∈ c.entries) :
    Reflects { s' with heap := heap } { c with queue := qs } where
  place := initialized.entry.trans reflects.place
  live x other := by
    rw [← reflects.place] at other
    have alive : s.heap x ≠ none ↔ x ∈ c.entries := reflects.live x (by rwa [← reflects.place])
    rw [← alive]
    exact not_congr ((live x).trans (initialized.live x other))
  apart := reflects.apart
  queued := queued
  list := by
    refine stale_of_circle ?_ ?_
    · exact initialized.headTail.trans initialized.entry.symm
    · dsimp only
      rw [initialized.entry]
      exact circle

theorem push_spec (lawful : b.Lawful) (reflects : Reflects s c) {e : κ} (isEntry : e ∈ c.entries)
    (fresh : e ∉ c.queue) :
    ∃ s', push b s e = some s' ∧ Reflects s' { c with queue := c.queue ++ [e] } := by
  obtain ⟨t, initial, initialized⟩ := init_spec reflects.list reflects.outside
  have other : e ≠ s.entry := fun here => reflects.apart (reflects.place ▸ here ▸ isEntry)
  have alive : t.heap e ≠ none := fun dead =>
    (reflects.live e (reflects.place ▸ other)).2 isEntry ((initialized.live e other).1 dead)
  have outside : e ∉ s.entry :: c.queue := List.not_mem_cons_of_ne_of_not_mem other fresh
  obtain ⟨heap, pushed, circle, live⟩ := lawful.push _ _ _ e initialized.circle alive outside
  refine ⟨{ t with heap := heap }, ?_, reflects.changed initialized circle live fun x member => ?_⟩
  · rw [push, initial, Option.bind_some, initialized.headTail, pushed]
    rfl
  · rcases List.mem_append.1 member with old | new
    · exact reflects.queued x old
    · rw [List.mem_singleton.1 new]
      exact isEntry

theorem pop_spec (lawful : b.Lawful) (reflects : Reflects s c) :
    ∃ s', pop b s = some (c.queue.head?, s') ∧ Reflects s' { c with queue := c.queue.tail } := by
  obtain ⟨t, initial, initialized⟩ := init_spec reflects.list reflects.outside
  obtain ⟨heap, popped, circle, live⟩ := lawful.pop _ _ _ initialized.circle
  refine ⟨{ t with heap := heap }, ?_, reflects.changed initialized circle live fun x member =>
    reflects.queued x (List.mem_of_mem_tail member)⟩
  rw [pop, initial, Option.bind_some, initialized.headTail, popped]
  rfl

theorem remove_spec (lawful : b.Lawful) (reflects : Reflects s c) {e : κ} (member : e ∈ c.queue) :
    ∃ s', remove b s e = some s' ∧ Reflects s' { c with queue := c.queue.erase e } := by
  obtain ⟨t, initial, initialized⟩ := init_spec reflects.list reflects.outside
  obtain ⟨heap, removed, circle, live⟩ := lawful.remove _ _ _ e initialized.circle member
  have here : t.headTail = t.entry := initialized.headTail.trans initialized.entry.symm
  have list : Stale t c.queue :=
    stale_of_circle here (by rw [initialized.entry]; exact initialized.circle)
  have outside : t.entry ∉ c.queue := by
    rw [initialized.entry]
    exact reflects.outside
  have some' := isEmpty_spec list outside
  rw [decide_eq_false (List.ne_nil_of_mem member)] at some'
  refine ⟨{ t with heap := heap }, ?_, reflects.changed initialized circle live fun x inRest =>
    reflects.queued x (List.mem_of_mem_erase inRest)⟩
  rw [remove, initial, Option.bind_some, some', Option.bind_some, initialized.headTail, removed]
  rfl

theorem move_spec (reflects : Reflects s c) {a : κ} (unused : a ∉ c.entries) :
    Reflects (move s a) { c with place := a } where
  place := rfl
  live x elsewhere := by
    dsimp only [move] at elsewhere ⊢
    rw [Function.update_of_ne elsewhere]
    by_cases old : x = s.entry
    · rw [old, Function.update_self, reflects.place]
      exact ⟨fun live => absurd rfl live, fun member => absurd member reflects.apart⟩
    · rw [Function.update_of_ne old]
      exact reflects.live x (reflects.place ▸ old)
  apart := unused
  queued := reflects.queued
  list := by
    refine stale_frame reflects.list rfl ?_ fun z inQueue => ?_
    · dsimp only [move]
      rw [Function.update_self]
    · have notNew : z ≠ a := fun here => unused (here ▸ reflects.queued z inQueue)
      have notOld : z ≠ s.entry := fun here => reflects.outside (here ▸ inQueue)
      dsimp only [move]
      rw [Function.update_of_ne notNew, Function.update_of_ne notOld]

theorem new_spec (reflects : Reflects s c) {e : κ} (pointers : Cell κ) (unused : e ∉ c.entries)
    (other : e ≠ c.place) :
    Reflects { s with heap := Function.update s.heap e (some pointers) }
      { c with entries := e :: c.entries } where
  place := reflects.place
  live x elsewhere := by
    by_cases isNew : x = e
    · rw [isNew]
      dsimp only
      rw [Function.update_self]
      exact ⟨fun _ => List.mem_cons_self, fun _ => Option.some_ne_none _⟩
    · dsimp only
      rw [Function.update_of_ne isNew, List.mem_cons]
      exact (reflects.live x elsewhere).trans ⟨.inr, fun member => member.resolve_left isNew⟩
  apart := List.not_mem_cons_of_ne_of_not_mem (Ne.symm other) reflects.apart
  queued x member := List.mem_cons_of_mem e (reflects.queued x member)
  list := by
    have notEntry : s.entry ≠ e := fun here => other (here ▸ reflects.place)
    refine stale_frame reflects.list rfl (Function.update_of_ne notEntry _ _) fun z inQueue => ?_
    have notNew : z ≠ e := fun here => unused (here ▸ reflects.queued z inQueue)
    exact Function.update_of_ne notNew _ _

/-- Each operation does to the list what it does to the queue. -/
theorem step_spec (lawful : b.Lawful) (reflects : Reflects s c) {op : Op κ} (ok : c.Ok op) :
    ∃ s', step b s op = some (answerOf c.queue op, s') ∧ Reflects s' (c.after op) := by
  cases op with
  | new e pointers => exact ⟨_, rfl, new_spec reflects pointers ok.1 ok.2⟩
  | push e =>
    obtain ⟨s', pushed, after⟩ := push_spec lawful reflects ok.1 ok.2
    exact ⟨s', by rw [step, pushed]; rfl, after⟩
  | pop =>
    obtain ⟨s', popped, after⟩ := pop_spec lawful reflects
    exact ⟨s', by rw [step, popped]; rfl, after⟩
  | remove e =>
    obtain ⟨s', removed, after⟩ := remove_spec lawful reflects ok
    exact ⟨s', by rw [step, removed]; rfl, after⟩
  | isEmpty =>
    refine ⟨s, ?_, reflects⟩
    rw [step, isEmpty_spec reflects.list reflects.outside]
    rfl
  | move a => exact ⟨_, rfl, move_spec reflects ok.1⟩

theorem after_queue (c : Client κ) (op : Op κ) : (c.after op).queue = queueAfter c.queue op := by
  cases op <;> rfl

/-- A sequence of operations within the contract. -/
theorem run_spec (lawful : b.Lawful) (reflects : Reflects s c) {ops : List (Op κ)}
    (contract : Contract c ops) :
    ∃ s' c', run b s ops = some ((runQueue c.queue ops).1, s') ∧ Reflects s' c' ∧
      c'.queue = (runQueue c.queue ops).2 := by
  induction ops generalizing s c with
  | nil => exact ⟨s, c, rfl, reflects, rfl⟩
  | cons op ops ih =>
    obtain ⟨ok, later⟩ := contract
    obtain ⟨t, stepped, reflectsT⟩ := step_spec lawful reflects ok
    obtain ⟨s', c', rest, reflects', queue⟩ := ih reflectsT later
    rw [after_queue] at rest queue
    refine ⟨s', c', ?_, reflects', queue⟩
    rw [run, stepped, Option.bind_some]
    dsimp only
    rw [rest]
    rfl

theorem reflects_new (a dangling : κ) : Reflects (new a dangling) ⟨[], a, []⟩ where
  place := rfl
  live x _ := ⟨fun live => absurd rfl live, fun member => (by cases member)⟩
  apart := List.not_mem_nil
  queued _ member := by cases member
  list := .inl ⟨rfl, rfl⟩

theorem Reflects.holds (reflects : Reflects s c) : Holds s c.queue where
  init := by
    obtain ⟨s', initial, initialized⟩ := init_spec reflects.list reflects.outside
    refine ⟨s', initial, initialized.headTail.trans initialized.entry.symm, ?_⟩
    rw [initialized.headTail]
    exact initialized.circle
  isEmpty := isEmpty_spec reflects.list reflects.outside

omit [DecidableEq κ] in
theorem unmoved_cons_move (a : κ) (ops : List (Op κ)) :
    unmoved (.move a :: ops) = unmoved ops := rfl

/-- A move is nothing to a queue. -/
theorem runQueue_unmoved (qs : List κ) (ops : List (Op κ)) :
    runQueue qs (unmoved ops) = runQueue qs ops := by
  induction ops generalizing qs with
  | nil => rfl
  | cons op ops ih =>
    cases op with
    | move a =>
      rw [unmoved_cons_move, ih]
      rfl
    | _ => exact congrArg (fun r => ((answerOf qs _).toList ++ r.1, r.2)) (ih (queueAfter qs _))

/-- **A list that is moved behaves as one that is not.** For every sequence of operations and moves
within the contract no dangling pointer is followed and no assertion fails; the answers are those of
the sequence without moves, to a queue and, if that sequence is within the contract too, to the list
itself. In the end, which may be behind a move, the list holds the elements that it would hold without
the moves. -/
theorem run_unmoved (lawful : b.Lawful) (a dangling : κ) (ops : List (Op κ))
    (contract : Contract ⟨[], a, []⟩ ops) :
    ∃ answers qs s, runQueue [] (unmoved ops) = (answers, qs) ∧
      run b (new a dangling) ops = some (answers, s) ∧ Holds s qs ∧
      (Contract ⟨[], a, []⟩ (unmoved ops) →
        ∃ s', run b (new a dangling) (unmoved ops) = some (answers, s') ∧ Holds s' qs) := by
  obtain ⟨s, c, ran, reflects, queue⟩ := run_spec lawful (reflects_new a dangling) contract
  refine ⟨_, _, s, rfl, ?_, ?_, fun contract' => ?_⟩
  · rw [runQueue_unmoved]
    exact ran
  · rw [runQueue_unmoved, ← queue]
    exact reflects.holds
  · obtain ⟨s', c', ran', reflects', queue'⟩ := run_spec lawful (reflects_new a dangling) contract'
    exact ⟨s', ran', by rw [← queue']; exact reflects'.holds⟩

/-! ## Bodies that do what is relied on -/

/-- Between `p` and `n` the cell `e` is taken out, and its pointers are set to `dangling`. -/
def takeOut (dangling : κ) (heap : Heap κ) (p e n : κ) : Option (Heap κ) :=
  (setNext heap p n).bind fun heap => (setPrev heap n p).bind fun heap =>
    (setNext heap e dangling).bind fun heap => setPrev heap e dangling

/-- `e` is put in before `h`. -/
def putBack (heap : Heap κ) (h e : κ) : Option (Heap κ) :=
  (heap h).bind fun c => (setPrev heap h e).bind fun heap => (setNext heap e h).bind fun heap =>
    (setPrev heap e c.prev).bind fun heap => setNext heap c.prev e

def bodies (dangling : κ) : Bodies κ where
  push := putBack
  pop heap h := (heap h).bind fun c =>
    if c.next = h then some (none, heap)
    else (heap c.next).bind fun first =>
      (takeOut dangling heap h c.next first.next).map fun heap => (some c.next, heap)
  remove heap _ e := (heap e).bind fun c => takeOut dangling heap c.prev e c.next

variable {heap : Heap κ} {h e p n : κ} {xs ys : List κ}

theorem takeOut_spec (dangling : κ) (circle : Circle heap h (xs ++ e :: ys))
    (seam : Seam h xs ys p n) :
    ∃ heap', takeOut dangling heap p e n = some heap' ∧ Circle heap' h (xs ++ ys) ∧
      SameLive heap heap' := by
  obtain ⟨-, outside, -, -⟩ := (circle_middle seam).1 circle
  have live : ∀ z ∈ h :: (xs ++ e :: ys), heap z ≠ none := fun z member => circle.live member
  have isE : e ∈ h :: (xs ++ e :: ys) := by simp
  have inside : ∀ z ∈ h :: (xs ++ ys), z ∈ h :: (xs ++ e :: ys) := by
    intro z member
    simp only [List.mem_cons, List.mem_append] at member ⊢
    tauto
  have liveP := live p (inside p seam.last_inside)
  have liveN := live n (inside n seam.first_inside)
  obtain ⟨one, setOne, nextOne, prevOne, liveOne⟩ := setNext_spec n liveP
  obtain ⟨two, setTwo, nextTwo, prevTwo, liveTwo⟩ :=
    setPrev_spec p (fun dead => liveN ((liveOne n).1 dead))
  have toTwo := liveOne.trans liveTwo
  obtain ⟨three, setThree, nextThree, prevThree, liveThree⟩ :=
    setNext_spec dangling (fun dead => live e isE ((toTwo e).1 dead))
  have toThree := toTwo.trans liveThree
  obtain ⟨four, setFour, nextFour, prevFour, liveFour⟩ :=
    setPrev_spec dangling (fun dead => live e isE ((toThree e).1 dead))
  refine ⟨four, ?_, circle.unlink seam (fun z member => ?_) (fun z member => ?_),
    toThree.trans liveFour⟩
  · rw [takeOut, setOne, Option.bind_some, setTwo, Option.bind_some, setThree, Option.bind_some,
      setFour]
  · have other : z ≠ e := fun here => outside (here ▸ member)
    rw [nextFour, nextThree, Function.update_of_ne other, nextTwo, nextOne]
  · have other : z ≠ e := fun here => outside (here ▸ member)
    rw [prevFour, Function.update_of_ne other, prevThree, prevTwo, prevOne]

theorem putBack_spec (circle : Circle heap h qs) (liveE : heap e ≠ none) (fresh : e ∉ h :: qs) :
    ∃ heap', putBack heap h e = some heap' ∧ Circle heap' h (qs ++ [e]) ∧ SameLive heap heap' := by
  rw [← List.append_nil qs] at circle fresh
  obtain ⟨p, n, seam⟩ := exists_seam h qs []
  obtain rfl : h = n := Option.some.inj seam.first
  obtain ⟨-, joint⟩ := (circle_append seam).1 circle
  obtain ⟨c, isC, isPrev⟩ := prevOf_eq_some.1 joint.prev
  have live : ∀ z ∈ h :: (qs ++ []), heap z ≠ none := fun z member => circle.live member
  obtain ⟨one, setOne, nextOne, prevOne, liveOne⟩ := setPrev_spec e (live h List.mem_cons_self)
  obtain ⟨two, setTwo, nextTwo, prevTwo, liveTwo⟩ :=
    setNext_spec h (fun dead => liveE ((liveOne e).1 dead))
  have toTwo := liveOne.trans liveTwo
  obtain ⟨three, setThree, nextThree, prevThree, liveThree⟩ :=
    setPrev_spec p (fun dead => liveE ((toTwo e).1 dead))
  have toThree := toTwo.trans liveThree
  obtain ⟨four, setFour, nextFour, prevFour, liveFour⟩ :=
    setNext_spec e (fun dead => live p seam.last_inside ((toThree p).1 dead))
  have other : ∀ z ∈ h :: (qs ++ []), z ≠ e := fun z member here => fresh (here ▸ member)
  refine ⟨four, ?_, circle.link seam fresh ?_ ?_ (fun z member => ?_) (fun z member => ?_),
    toThree.trans liveFour⟩
  · rw [putBack, isC, Option.bind_some, setOne, Option.bind_some, setTwo, Option.bind_some, isPrev,
      setThree, Option.bind_some, setFour]
  · rw [nextFour, Function.update_of_ne (other p seam.last_inside).symm, nextThree, nextTwo,
      Function.update_self]
  · rw [prevFour, prevThree, Function.update_self]
  · by_cases isP : z = p
    · rw [isP, nextFour, Function.update_self, Function.update_self]
    · rw [nextFour, Function.update_of_ne isP, nextThree, nextTwo,
        Function.update_of_ne (other z member), nextOne, Function.update_of_ne isP]
  · rw [prevFour, prevThree, Function.update_of_ne (other z member), prevTwo, prevOne]

theorem bodies_pop (dangling : κ) (circle : Circle heap h qs) :
    ∃ heap', (bodies dangling).pop heap h = some (qs.head?, heap') ∧ Circle heap' h qs.tail ∧
      SameLive heap heap' := by
  cases qs with
  | nil =>
    obtain ⟨c, isC, isNext⟩ := nextOf_eq_some.1 (circle_nil.1 circle).1
    refine ⟨heap, ?_, circle, fun _ => Iff.rfl⟩
    dsimp only [bodies]
    rw [isC, Option.bind_some, if_pos isNext]
    rfl
  | cons e ys =>
    obtain ⟨p, n, seam⟩ := exists_seam h [] ys
    obtain rfl : h = p := Option.some.inj seam.last
    obtain ⟨-, -, before, after⟩ := (circle_middle seam).1 circle
    obtain ⟨c, isC, isE⟩ := nextOf_eq_some.1 before.next
    obtain ⟨first, isFirst, isNext⟩ := nextOf_eq_some.1 after.next
    have other : e ≠ h := fun here =>
      (List.nodup_cons.1 circle.nodup).1 (here ▸ List.mem_cons_self)
    obtain ⟨heap', taken, circle', live⟩ := takeOut_spec dangling circle seam
    refine ⟨heap', ?_, circle', live⟩
    dsimp only [bodies]
    rw [isC, Option.bind_some, isE, if_neg other, isFirst, Option.bind_some, isNext, taken]
    rfl

theorem bodies_remove (dangling : κ) (circle : Circle heap h qs) (member : e ∈ qs) :
    ∃ heap', (bodies dangling).remove heap h e = some heap' ∧ Circle heap' h (qs.erase e) ∧
      SameLive heap heap' := by
  obtain ⟨xs, ys, rfl, notBefore⟩ := List.eq_append_cons_of_mem member
  obtain ⟨p, n, seam⟩ := exists_seam h xs ys
  obtain ⟨-, -, before, after⟩ := (circle_middle seam).1 circle
  have cell := eq_some_of_next_prev after.next before.prev
  obtain ⟨heap', taken, circle', live⟩ := takeOut_spec dangling circle seam
  refine ⟨heap', ?_, ?_, live⟩
  · dsimp only [bodies]
    rw [cell, Option.bind_some, taken]
  · rw [List.erase_append_right _ notBefore, List.erase_cons_head]
    exact circle'

theorem bodies_lawful (dangling : κ) : (bodies dangling).Lawful where
  push _ _ _ _ circle live fresh := putBack_spec circle live fresh
  pop _ _ _ circle := bodies_pop dangling circle
  remove _ _ _ _ circle member := bodies_remove dangling circle member

/-- Two entries, a move with both in the list, and another behind the first removal. -/
def moves : List (Op Nat) :=
  [.new 10 ⟨0, 0⟩, .new 11 ⟨0, 0⟩, .push 10, .push 11, .move 2, .isEmpty, .pop, .move 3, .remove 11,
    .move 1, .isEmpty]

theorem run_unmoved_moves :
    ∃ answers qs s, runQueue [] (unmoved moves) = (answers, qs) ∧
      run (bodies 0) (new 1 0) moves = some (answers, s) ∧ Holds s qs ∧
      (Contract ⟨[], 1, []⟩ (unmoved moves) →
        ∃ s', run (bodies 0) (new 1 0) (unmoved moves) = some (answers, s') ∧ Holds s' qs) :=
  run_unmoved (bodies_lawful 0) 1 0 moves
    (by simp [moves, Contract, Client.Ok, Client.after, queueAfter])

end SecurityAudits.RustStdlib.UnsafeList
