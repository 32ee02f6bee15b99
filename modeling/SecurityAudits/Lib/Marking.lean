import Mathlib.Data.Fintype.Card

/-!
# Marking what is reachable

A search of a graph marks the nodes it comes to, so a node that is marked already also stops it.
What it has marked in the end are the nodes that can be reached through nodes that were not
marked before: `Reach`.

There are rules for two ways to search. A recursion that marks on entry is followed by `Visits`,
from the marks it finds to those it leaves. A worklist that marks when it pushes keeps
`Worklist`, where `todo` is what waits and `pending` the successors that the node taken last still
has. Either ends with `Explored`, which determines the marks. Both come to an end since each node
they come to leaves fewer that are not marked (`unmarked`).
-/

namespace SecurityAudits.Marking
set_option autoImplicit false

/-- The nodes that are marked. -/
abbrev Marks (ν : Type) := ν → Bool

variable {ν : Type} [DecidableEq ν] {succ : ν → List ν} {m m' m'' : Marks ν} {a t u x : ν}
variable {xs todo pending : List ν}

/-- `t` is reached from `a` through nodes that are not marked, both included. -/
inductive Reach (succ : ν → List ν) (m : Marks ν) (a : ν) : ν → Prop where
  | start (free : m a = false) : Reach succ m a a
  | step {t u : ν} (reach : Reach succ m a t) (edge : u ∈ succ t) (free : m u = false) :
    Reach succ m a u

/-- The marks after a search from `a`. -/
def Explored (succ : ν → List ν) (m : Marks ν) (a : ν) (m' : Marks ν) : Prop :=
  ∀ t, m' t = true ↔ m t = true ∨ Reach succ m a t

/-- One more node is marked. -/
def mark (m : Marks ν) (x : ν) : Marks ν := Function.update m x true

@[simp] theorem mark_self : mark m x x = true := by
  rw [mark, Function.update_self]

theorem mark_of_ne (other : t ≠ x) : mark m x t = m t := by
  rw [mark, Function.update_of_ne other]

theorem mark_iff : mark m x t = true ↔ t = x ∨ m t = true := by
  by_cases same : t = x
  · rw [same, mark_self]
    exact ⟨fun _ => .inl rfl, fun _ => rfl⟩
  · rw [mark_of_ne same]
    exact ⟨.inr, fun marked => marked.resolve_left same⟩

omit [DecidableEq ν]

theorem Reach.free (reach : Reach succ m a t) : m t = false := by
  cases reach with
  | start free => exact free
  | step _ _ free => exact free

theorem Reach.free_start (reach : Reach succ m a t) : m a = false := by
  induction reach with
  | start free => exact free
  | step _ _ _ ih => exact ih

/-- Fewer marks stop less. -/
theorem Reach.anti (reach : Reach succ m' a t) (kept : ∀ t, m t = true → m' t = true) :
    Reach succ m a t := by
  have free {t : ν} (free : m' t = false) : m t = false :=
    Bool.eq_false_iff.2 fun marked => Bool.eq_false_iff.1 free (kept t marked)
  induction reach with
  | start start => exact .start (free start)
  | step _ edge next ih => exact .step ih edge (free next)

theorem Reach.trans (first : Reach succ m a t) (second : Reach succ m t u) : Reach succ m a u := by
  induction second with
  | start => exact first
  | step _ edge free ih => exact .step ih edge free

/-- From a marked node nothing is reached. -/
theorem Explored.of_marked (marked : m a = true) : Explored succ m a m := by
  refine fun t => ⟨.inl, fun either => either.resolve_right fun reach => ?_⟩
  rw [reach.free_start] at marked
  cases marked

theorem Explored.unique (one : Explored succ m a m') (two : Explored succ m a m'') : m' = m'' :=
  funext fun t => Bool.eq_iff_iff.2 ((one t).trans (two t).symm)

/-- Marks that have what they had, only what can be reached, and with a new node its successors. -/
theorem Explored.of_closed (kept : ∀ t, m t = true → m' t = true) (here : m' a = true)
    (sound : ∀ t, m' t = true → m t = true ∨ Reach succ m a t)
    (closed : ∀ t, m' t = true → m t = true ∨ ∀ u ∈ succ t, m' u = true) :
    Explored succ m a m' := by
  refine fun t => ⟨sound t, fun either => either.elim (kept t) fun reach => ?_⟩
  induction reach with
  | start => exact here
  | step before edge _ ih =>
    rcases closed _ (ih (.inr before)) with old | all
    · rw [before.free] at old
      cases old
    · exact all _ edge

/-- A recursive search of the nodes `xs`, one after another. -/
structure Visits (succ : ν → List ν) (m : Marks ν) (xs : List ν) (m' : Marks ν) : Prop where
  kept : ∀ t, m t = true → m' t = true
  done : ∀ x ∈ xs, m' x = true
  closed : ∀ t, m' t = true → m t = true ∨ ∀ u ∈ succ t, m' u = true
  sound : ∀ t, m' t = true → m t = true ∨ ∃ x ∈ xs, Reach succ m x t

theorem Visits.nil : Visits succ m [] m where
  kept _ marked := marked
  done x member := (by cases member)
  closed _ marked := .inl marked
  sound _ marked := .inl marked

theorem Visits.skip (marked : m x = true) : Visits succ m [x] m where
  kept _ marked := marked
  done t member := by rwa [List.mem_singleton.1 member]
  closed _ marked := .inl marked
  sound _ marked := .inl marked

theorem Visits.cons (first : Visits succ m [x] m') (rest : Visits succ m' xs m'') :
    Visits succ m (x :: xs) m'' where
  kept t marked := rest.kept t (first.kept t marked)
  done := List.forall_mem_cons.2
    ⟨rest.kept x (first.done x List.mem_cons_self), rest.done⟩
  closed t marked := by
    rcases rest.closed t marked with before | all
    · exact (first.closed t before).imp_right fun all u edge => rest.kept u (all u edge)
    · exact .inr all
  sound t marked := by
    rcases rest.sound t marked with before | ⟨y, member, reach⟩
    · refine (first.sound t before).imp_right fun ⟨y, member, reach⟩ => ⟨y, ?_, reach⟩
      rw [List.mem_singleton.1 member]
      exact List.mem_cons_self
    · exact .inr ⟨y, List.mem_cons_of_mem x member, reach.anti first.kept⟩

/-- The rule of the recursion: the node is marked, and then its successors are searched. -/
theorem Visits.node [DecidableEq ν] (free : m x = false)
    (below : Visits succ (mark m x) (succ x) m') : Visits succ m [x] m' where
  kept t marked := below.kept t (mark_iff.2 (.inr marked))
  done t member := by
    rw [List.mem_singleton.1 member]
    exact below.kept x mark_self
  closed t marked := by
    rcases below.closed t marked with before | all
    · rcases mark_iff.1 before with rfl | old
      · exact .inr below.done
      · exact .inl old
    · exact .inr all
  sound t marked := by
    have grows : ∀ t, m t = true → mark m x t = true := fun t marked => mark_iff.2 (.inr marked)
    rcases below.sound t marked with before | ⟨y, edge, reach⟩
    · rcases mark_iff.1 before with rfl | old
      · exact .inr ⟨t, List.mem_cons_self, .start free⟩
      · exact .inl old
    · have reach := reach.anti grows
      exact .inr ⟨x, List.mem_cons_self,
        (Reach.step (.start free) edge reach.free_start).trans reach⟩

theorem Visits.explored (visits : Visits succ m [a] m') : Explored succ m a m' := by
  refine .of_closed visits.kept (visits.done a List.mem_cons_self) (fun t marked => ?_)
    visits.closed
  refine (visits.sound t marked).imp_right fun ⟨x, member, reach⟩ => ?_
  rwa [List.mem_singleton.1 member] at reach

/-- What can be reached from one of several nodes is marked when all of them have been searched. -/
theorem Visits.reached (visits : Visits succ m xs m') (member : x ∈ xs) (reach : Reach succ m x t) :
    m' t = true := by
  induction reach with
  | start => exact visits.done x member
  | @step t u before edge _ ih =>
    rcases visits.closed t ih with old | all
    · rw [before.free] at old
      cases old
    · exact all u edge

/-- A worklist search from `a` that has come to the marks `m'`. -/
structure Worklist (succ : ν → List ν) (m : Marks ν) (a : ν) (m' : Marks ν)
    (todo pending : List ν) : Prop where
  kept : ∀ t, m t = true → m' t = true
  here : m' a = true
  sound : ∀ t, m' t = true → m t = true ∨ Reach succ m a t
  waiting : ∀ t ∈ todo, Reach succ m a t
  next : ∀ u ∈ pending, m u = false → Reach succ m a u
  closed : ∀ t, m' t = true →
    m t = true ∨ t ∈ todo ∨ ∀ u ∈ succ t, m' u = true ∨ u ∈ pending

/-- The first node is marked and pushed. -/
theorem Worklist.start [DecidableEq ν] (free : m a = false) :
    Worklist succ m a (mark m a) [a] [] where
  kept t marked := mark_iff.2 (.inr marked)
  here := mark_self
  sound t marked := by
    rcases mark_iff.1 marked with rfl | old
    · exact .inr (.start free)
    · exact .inl old
  waiting t member := by
    rw [List.mem_singleton.1 member]
    exact .start free
  next u member := (by cases member)
  closed t marked := by
    rcases mark_iff.1 marked with rfl | old
    · exact .inr (.inl List.mem_cons_self)
    · exact .inl old

/-- A node is taken from the worklist, and its successors are pending. -/
theorem Worklist.pop (worklist : Worklist succ m a m' (x :: todo) []) :
    Worklist succ m a m' todo (succ x) where
  kept := worklist.kept
  here := worklist.here
  sound := worklist.sound
  waiting t member := worklist.waiting t (List.mem_cons_of_mem x member)
  next u edge free := .step (worklist.waiting x List.mem_cons_self) edge free
  closed t marked := by
    rcases worklist.closed t marked with old | waits | all
    · exact .inl old
    · rcases List.mem_cons.1 waits with rfl | waits
      · exact .inr (.inr fun u edge => .inr edge)
      · exact .inr (.inl waits)
    · refine .inr (.inr fun u edge => .inl ((all u edge).resolve_right fun member => ?_))
      cases member

/-- A successor that is marked is passed over. -/
theorem Worklist.skip (worklist : Worklist succ m a m' todo (x :: pending)) (marked : m' x = true) :
    Worklist succ m a m' todo pending where
  kept := worklist.kept
  here := worklist.here
  sound := worklist.sound
  waiting := worklist.waiting
  next u member := worklist.next u (List.mem_cons_of_mem x member)
  closed t marked' := by
    refine (worklist.closed t marked').imp_right fun either => either.imp_right fun all u edge => ?_
    rcases all u edge with done | member
    · exact .inl done
    · rcases List.mem_cons.1 member with rfl | member
      · exact .inl marked
      · exact .inr member

/-- Any other is marked and pushed. -/
theorem Worklist.push [DecidableEq ν] (worklist : Worklist succ m a m' todo (x :: pending))
    (unmarked : m' x = false) : Worklist succ m a (mark m' x) (x :: todo) pending := by
  have free : m x = false := by
    refine Bool.eq_false_iff.2 fun marked => ?_
    rw [worklist.kept x marked] at unmarked
    cases unmarked
  have reach := worklist.next x List.mem_cons_self free
  have grows {t : ν} (marked : m' t = true) : mark m' x t = true := mark_iff.2 (.inr marked)
  refine ⟨fun t marked => grows (worklist.kept t marked), grows worklist.here, ?_,
    List.forall_mem_cons.2 ⟨reach, worklist.waiting⟩,
    fun u member => worklist.next u (List.mem_cons_of_mem x member), ?_⟩
  · intro t marked
    rcases mark_iff.1 marked with rfl | old
    · exact .inr reach
    · exact worklist.sound t old
  · intro t marked
    rcases mark_iff.1 marked with rfl | old
    · exact .inr (.inl List.mem_cons_self)
    · rcases worklist.closed t old with before | waits | all
      · exact .inl before
      · exact .inr (.inl (List.mem_cons_of_mem x waits))
      · refine .inr (.inr fun u edge => ?_)
        rcases all u edge with done | member
        · exact .inl (grows done)
        · rcases List.mem_cons.1 member with rfl | member
          · exact .inl mark_self
          · exact .inr member

/-- Nothing waits. -/
theorem Worklist.explored (worklist : Worklist succ m a m' [] []) : Explored succ m a m' := by
  refine .of_closed worklist.kept worklist.here worklist.sound fun t marked => ?_
  rcases worklist.closed t marked with old | waits | all
  · exact .inl old
  · cases waits
  · refine .inr fun u edge => (all u edge).resolve_right fun member => ?_
    cases member

section Finite

variable [Fintype ν]

/-- How many nodes are not marked. -/
def unmarked (m : Marks ν) : Nat := (Finset.univ.filter fun t => m t = false).card

theorem unmarked_le_card : unmarked m ≤ Fintype.card ν := Finset.card_le_univ _

theorem unmarked_mono (kept : ∀ t, m t = true → m' t = true) : unmarked m' ≤ unmarked m := by
  refine Finset.card_le_card fun t member => ?_
  rw [Finset.mem_filter] at member ⊢
  refine ⟨member.1, Bool.eq_false_iff.2 fun marked => ?_⟩
  rw [kept t marked] at member
  cases member.2

theorem unmarked_mark [DecidableEq ν] (free : m x = false) :
    unmarked (mark m x) + 1 = unmarked m := by
  have less : (Finset.univ.filter fun t => mark m x t = false)
      = (Finset.univ.filter fun t => m t = false).erase x := by
    ext t
    by_cases same : t = x
    · simp [same]
    · simp [same, mark_of_ne same]
  rw [unmarked, less]
  exact Finset.card_erase_add_one (Finset.mem_filter.2 ⟨Finset.mem_univ x, free⟩)

end Finite

end SecurityAudits.Marking
