import Mathlib.Data.List.Chain
import Mathlib.Data.List.Infix
import Mathlib.Data.List.Nodup
import Mathlib.Logic.Function.Basic

/-!
# Circular lists in a heap

A heap maps the addresses that are live to cells with a `next` and a `prev`. Reading or writing a
cell that is not live has no result. `Circle heap h qs` is the circular list through the cells
`h`, `qs` and back to `h`: it is a chain of neighbours from `h` to `h`.

A write is described by what it does to the two functions `nextOf` and `prevOf`, and a change of
the list by what these are at its seam: a cell is put in (`Circle.link`) or taken out
(`Circle.unlink`), or all cells but `h` stay and another takes its place (`Circle.replace`).
-/

namespace SecurityAudits.Circular
set_option autoImplicit false

variable {κ : Type}

structure Cell (κ : Type) where
  next : κ
  prev : κ
  deriving DecidableEq, Repr

/-- The live cells. -/
abbrev Heap (κ : Type) := κ → Option (Cell κ)

def nextOf (heap : Heap κ) (x : κ) : Option κ := (heap x).map Cell.next

def prevOf (heap : Heap κ) (x : κ) : Option κ := (heap x).map Cell.prev

/-- Neighbours. -/
structure Linked (heap : Heap κ) (x y : κ) : Prop where
  next : nextOf heap x = some y
  prev : prevOf heap y = some x

/-- The circular list of `h` and `qs`. -/
structure Circle (heap : Heap κ) (h : κ) (qs : List κ) : Prop where
  links : (h :: (qs ++ [h])).IsChain (Linked heap)
  nodup : (h :: qs).Nodup

/-- The same cells are live. -/
def SameLive (heap heap' : Heap κ) : Prop := ∀ x, heap' x = none ↔ heap x = none

theorem SameLive.trans {heap heap' heap'' : Heap κ} (first : SameLive heap heap')
    (second : SameLive heap' heap'') : SameLive heap heap'' := fun x => (second x).trans (first x)

section Writes

variable [DecidableEq κ]

/-- `x.next = y` -/
def setNext (heap : Heap κ) (x y : κ) : Option (Heap κ) :=
  (heap x).map fun c => Function.update heap x (some { c with next := y })

/-- `x.prev = y` -/
def setPrev (heap : Heap κ) (x y : κ) : Option (Heap κ) :=
  (heap x).map fun c => Function.update heap x (some { c with prev := y })

variable {heap : Heap κ} {x y : κ}

theorem sameLive_update {c : Cell κ} (live : heap x ≠ none) :
    SameLive heap (Function.update heap x (some c)) := by
  intro z
  by_cases same : z = x
  · rw [same, Function.update_self]
    exact ⟨fun none => (by cases none), fun dead => absurd dead live⟩
  · rw [Function.update_of_ne same]

theorem nextOf_update (c : Option (Cell κ)) :
    nextOf (Function.update heap x c) = Function.update (nextOf heap) x (c.map Cell.next) := by
  funext z
  by_cases same : z = x
  · rw [same, nextOf, Function.update_self, Function.update_self]
  · rw [nextOf, Function.update_of_ne same, Function.update_of_ne same, nextOf]

theorem prevOf_update (c : Option (Cell κ)) :
    prevOf (Function.update heap x c) = Function.update (prevOf heap) x (c.map Cell.prev) := by
  funext z
  by_cases same : z = x
  · rw [same, prevOf, Function.update_self, Function.update_self]
  · rw [prevOf, Function.update_of_ne same, Function.update_of_ne same, prevOf]

/-- The rule of `x.next = y`. -/
theorem setNext_spec (y : κ) (live : heap x ≠ none) :
    ∃ heap', setNext heap x y = some heap' ∧
      nextOf heap' = Function.update (nextOf heap) x (some y) ∧ prevOf heap' = prevOf heap ∧
      SameLive heap heap' := by
  obtain ⟨c, here⟩ := Option.ne_none_iff_exists'.1 live
  refine ⟨_, by rw [setNext, here]; rfl, by rw [nextOf_update]; rfl, ?_, sameLive_update live⟩
  rw [prevOf_update]
  refine Function.update_eq_self_iff.2 ?_
  rw [prevOf, here]
  rfl

/-- The rule of `x.prev = y`. -/
theorem setPrev_spec (y : κ) (live : heap x ≠ none) :
    ∃ heap', setPrev heap x y = some heap' ∧ nextOf heap' = nextOf heap ∧
      prevOf heap' = Function.update (prevOf heap) x (some y) ∧ SameLive heap heap' := by
  obtain ⟨c, here⟩ := Option.ne_none_iff_exists'.1 live
  refine ⟨_, by rw [setPrev, here]; rfl, ?_, by rw [prevOf_update]; rfl, sameLive_update live⟩
  rw [nextOf_update]
  refine Function.update_eq_self_iff.2 ?_
  rw [nextOf, here]
  rfl

end Writes

variable {heap heap' : Heap κ} {h a x y e : κ} {qs l xs ys : List κ}

theorem prevOf_eq_none : prevOf heap x = none ↔ heap x = none := Option.map_eq_none_iff

theorem nextOf_eq_some : nextOf heap x = some y ↔ ∃ c, heap x = some c ∧ c.next = y :=
  Option.map_eq_some_iff

theorem prevOf_eq_some : prevOf heap x = some y ↔ ∃ c, heap x = some c ∧ c.prev = y :=
  Option.map_eq_some_iff

/-- A cell is its two pointers. -/
theorem eq_some_of_next_prev {z : κ} (next : nextOf heap x = some y) (prev : prevOf heap x = some z) :
    heap x = some ⟨y, z⟩ := by
  obtain ⟨c, isC, isNext⟩ := nextOf_eq_some.1 next
  obtain ⟨c', isC', isPrev⟩ := prevOf_eq_some.1 prev
  obtain rfl : c = c' := Option.some.inj (isC.symm.trans isC')
  rw [isC, ← isNext, ← isPrev]

/-- The frame rule of chains: of the first cell `prev` does not matter, of the last one `next`. -/
theorem chain_frame (chain : l.IsChain (Linked heap))
    (next : ∀ x ∈ l.dropLast, nextOf heap' x = nextOf heap x)
    (prev : ∀ x ∈ l.tail, prevOf heap' x = prevOf heap x) : l.IsChain (Linked heap') := by
  induction l with
  | nil => exact List.isChain_nil
  | cons x l ih =>
    cases l with
    | nil => exact List.isChain_singleton x
    | cons y l =>
      obtain ⟨here, rest⟩ := List.isChain_cons_cons.1 chain
      refine List.isChain_cons_cons.2 ⟨⟨?_, ?_⟩, ih rest (fun z member => ?_) fun z member => ?_⟩
      · exact (next x (by simp)).trans here.next
      · exact (prev y (by simp)).trans here.prev
      · exact next z (by rw [List.dropLast_cons_cons]; exact List.mem_cons_of_mem x member)
      · exact prev z (List.mem_of_mem_tail member)

/-- Every cell of a chain but the first one is the next of another, so it is live. -/
theorem chain_live (chain : l.IsChain (Linked heap)) (member : x ∈ l.tail) : heap x ≠ none := by
  induction l with
  | nil => cases member
  | cons z l ih =>
    cases l with
    | nil => cases member
    | cons y l =>
      obtain ⟨here, rest⟩ := List.isChain_cons_cons.1 chain
      rcases List.mem_cons.1 member with rfl | later
      · intro dead
        rw [← prevOf_eq_none, here.prev] at dead
        cases dead
      · exact ih rest later

/-- The frame rule: a circular list depends on its own cells. -/
theorem Circle.frame (circle : Circle heap h qs) (same : ∀ z ∈ h :: qs, heap' z = heap z) :
    Circle heap' h qs := by
  refine ⟨chain_frame circle.links (fun z member => ?_) fun z member => ?_, circle.nodup⟩
  · rw [← List.cons_append, List.dropLast_concat] at member
    rw [nextOf, nextOf, same z member]
  · have inside : z ∈ h :: qs := by
      rcases List.mem_append.1 member with inQs | isHead
      · exact List.mem_cons_of_mem h inQs
      · rw [List.mem_singleton.1 isHead]
        exact List.mem_cons_self
    rw [prevOf, prevOf, same z inside]

theorem Circle.live (circle : Circle heap h qs) (member : x ∈ h :: qs) : heap x ≠ none := by
  refine chain_live circle.links ?_
  rcases List.mem_cons.1 member with rfl | inside
  · exact List.mem_append_right _ List.mem_cons_self
  · exact List.mem_append_left _ inside

/-- A circular list that is cut: the cells from `h` to the last one of `xs`, and those of `ys` and
back to `h`. -/
structure Parts (heap : Heap κ) (h : κ) (xs ys : List κ) : Prop where
  front : (h :: xs).IsChain (Linked heap)
  back : (ys ++ [h]).IsChain (Linked heap)
  nodup : (h :: (xs ++ ys)).Nodup

/-- The two cells at a cut. -/
structure Seam (h : κ) (xs ys : List κ) (p n : κ) : Prop where
  last : (h :: xs).getLast? = some p
  first : (ys ++ [h]).head? = some n

theorem exists_seam (h : κ) (xs ys : List κ) : ∃ p n, Seam h xs ys p n := by
  obtain ⟨p, last⟩ := Option.ne_none_iff_exists'.1
    (fun none => List.cons_ne_nil h xs (List.getLast?_eq_none_iff.1 none))
  obtain ⟨n, first⟩ := Option.ne_none_iff_exists'.1
    (fun none => List.append_ne_nil_of_right_ne_nil ys (List.cons_ne_nil h [])
      (List.head?_eq_none_iff.1 none))
  exact ⟨p, n, last, first⟩

variable {p n : κ}

/-- A circular list whose parts are neighbours. -/
theorem circle_append (seam : Seam h xs ys p n) :
    Circle heap h (xs ++ ys) ↔ Parts heap h xs ys ∧ Linked heap p n := by
  have split : h :: (xs ++ ys ++ [h]) = h :: xs ++ (ys ++ [h]) := by
    rw [List.append_assoc, List.cons_append]
  constructor
  · rintro ⟨links, nodup⟩
    rw [split, List.isChain_append] at links
    obtain ⟨front, back, joint⟩ := links
    exact ⟨⟨front, back, nodup⟩, joint p seam.last n seam.first⟩
  · rintro ⟨⟨front, back, nodup⟩, joint⟩
    refine ⟨?_, nodup⟩
    rw [split, List.isChain_append]
    refine ⟨front, back, fun x isLast y isFirst => ?_⟩
    rw [seam.last] at isLast
    rw [seam.first] at isFirst
    cases isLast
    cases isFirst
    exact joint

/-- A circular list with one cell between its parts. -/
theorem circle_middle (seam : Seam h xs ys p n) :
    Circle heap h (xs ++ e :: ys) ↔
      Parts heap h xs ys ∧ e ∉ h :: (xs ++ ys) ∧ Linked heap p e ∧ Linked heap e n := by
  have nodups : (h :: (xs ++ e :: ys)).Nodup ↔ (h :: (xs ++ ys)).Nodup ∧ e ∉ h :: (xs ++ ys) := by
    rw [← List.cons_append, List.nodup_middle, List.nodup_cons, and_comm, List.cons_append]
  have split : h :: (xs ++ e :: ys ++ [h]) = h :: xs ++ (e :: (ys ++ [h])) := by
    rw [List.append_assoc, List.cons_append, List.cons_append]
  constructor
  · rintro ⟨links, nodup⟩
    rw [split, List.isChain_append, List.isChain_cons (x := e)] at links
    obtain ⟨front, ⟨after, back⟩, before⟩ := links
    obtain ⟨nodup, fresh⟩ := nodups.1 nodup
    exact ⟨⟨front, back, nodup⟩, fresh, before p seam.last e rfl, after n seam.first⟩
  · rintro ⟨⟨front, back, nodup⟩, fresh, before, after⟩
    refine ⟨?_, nodups.2 ⟨nodup, fresh⟩⟩
    rw [split, List.isChain_append, List.isChain_cons (x := e)]
    refine ⟨front, ⟨fun y isFirst => ?_, back⟩, fun x isLast y isFirst => ?_⟩
    · rw [seam.first] at isFirst
      cases isFirst
      exact after
    · rw [seam.last] at isLast
      cases isLast
      cases isFirst
      exact before

theorem Seam.last_mem (seam : Seam h xs ys p n) : p ∈ h :: xs := List.mem_of_getLast? seam.last

theorem Seam.first_mem (seam : Seam h xs ys p n) : n ∈ ys ++ [h] := List.mem_of_head? seam.first

theorem Seam.last_inside (seam : Seam h xs ys p n) : p ∈ h :: (xs ++ ys) :=
  List.mem_append_left ys seam.last_mem

theorem Seam.first_inside (seam : Seam h xs ys p n) : n ∈ h :: (xs ++ ys) := by
  rcases List.mem_append.1 seam.first_mem with inYs | isHead
  · exact List.mem_cons_of_mem h (List.mem_append_right xs inYs)
  · rw [List.mem_singleton.1 isHead]
    exact List.mem_cons_self

theorem ne_last {z : κ} (nodup : l.Nodup) (last : l.getLast? = some p) (member : z ∈ l.dropLast) :
    z ≠ p := by
  rintro rfl
  rw [← List.dropLast_append_getLast? z last] at nodup
  exact (List.nodup_append.1 nodup).2.2 z member z List.mem_cons_self rfl

theorem ne_first {z : κ} (nodup : l.Nodup) (first : l.head? = some n) (member : z ∈ l.tail) :
    z ≠ n := by
  rintro rfl
  rw [← List.cons_head?_tail first] at nodup
  exact (List.nodup_cons.1 nodup).1 member

/-- The frame rule of parts: `next` may change at the end of the front, and `prev` at the beginning of
the back. -/
theorem Parts.frame (parts : Parts heap h xs ys) (seam : Seam h xs ys p n)
    (next : ∀ z ∈ h :: (xs ++ ys), z ≠ p → nextOf heap' z = nextOf heap z)
    (prev : ∀ z ∈ h :: (xs ++ ys), z ≠ n → prevOf heap' z = prevOf heap z) :
    Parts heap' h xs ys := by
  have nodup := parts.nodup
  rw [← List.cons_append, List.nodup_append] at nodup
  obtain ⟨nodupFront, nodupYs, apart⟩ := nodup
  have nodupBack : (ys ++ [h]).Nodup := by
    refine List.nodup_append.2 ⟨nodupYs, List.nodup_singleton h, fun y inYs x isHead => ?_⟩
    rw [List.mem_singleton.1 isHead]
    exact (apart h List.mem_cons_self y inYs).symm
  have first := seam.first_mem
  refine ⟨chain_frame parts.front (fun z member => ?_) fun z member => ?_,
    chain_frame parts.back (fun z member => ?_) fun z member => ?_, parts.nodup⟩
  · refine next z ?_ (ne_last nodupFront seam.last member)
    exact List.mem_append_left ys (List.mem_of_mem_dropLast member)
  · refine prev z (List.mem_cons_of_mem h (List.mem_append_left ys member)) ?_
    rintro rfl
    rcases List.mem_append.1 first with inYs | isHead
    · exact apart z (List.mem_cons_of_mem h member) z inYs rfl
    · rw [List.mem_singleton.1 isHead] at member
      exact (List.nodup_cons.1 nodupFront).1 member
  · rw [List.dropLast_concat] at member
    refine next z (List.mem_cons_of_mem h (List.mem_append_right xs member)) ?_
    exact (apart p seam.last_mem z member).symm
  · refine prev z ?_ (ne_first nodupBack seam.first member)
    rcases List.mem_append.1 (List.mem_of_mem_tail member) with inYs | isHead
    · exact List.mem_cons_of_mem h (List.mem_append_right xs inYs)
    · rw [List.mem_singleton.1 isHead]
      exact List.mem_cons_self

/-- A cell that is linked with itself both ways. -/
theorem circle_nil : Circle heap h [] ↔ nextOf heap h = some h ∧ prevOf heap h = some h := by
  refine ⟨fun circle => ?_, fun ⟨next, prev⟩ => ?_⟩
  · have here := (List.isChain_pair.1 circle.links)
    exact ⟨here.next, here.prev⟩
  · exact ⟨List.isChain_pair.2 ⟨next, prev⟩, List.nodup_singleton h⟩

/-- What the first cell of a circular list is linked with. -/
theorem Circle.ends (circle : Circle heap h qs) (first : qs.head? = some n)
    (last : qs.getLast? = some p) : nextOf heap h = some n ∧ prevOf heap h = some p := by
  obtain ⟨after, rest⟩ := List.isChain_cons.1 circle.links
  have here := after n (by rw [List.head?_append, first]; rfl)
  have before := (List.isChain_append.1 rest).2.2 p last h rfl
  exact ⟨here.next, before.prev⟩

section Rules

variable [DecidableEq κ]

/-- The rule for taking a cell out. -/
theorem Circle.unlink (circle : Circle heap h (xs ++ e :: ys)) (seam : Seam h xs ys p n)
    (next : ∀ z ∈ h :: (xs ++ ys), nextOf heap' z = Function.update (nextOf heap) p (some n) z)
    (prev : ∀ z ∈ h :: (xs ++ ys), prevOf heap' z = Function.update (prevOf heap) n (some p) z) :
    Circle heap' h (xs ++ ys) := by
  obtain ⟨parts, -, -, -⟩ := (circle_middle seam).1 circle
  refine (circle_append seam).2 ⟨parts.frame seam (fun z member other => ?_) fun z member other => ?_,
    ?_, ?_⟩
  · rw [next z member, Function.update_of_ne other]
  · rw [prev z member, Function.update_of_ne other]
  · rw [next p seam.last_inside, Function.update_self]
  · rw [prev n seam.first_inside, Function.update_self]

/-- The rule for putting a cell in. -/
theorem Circle.link (circle : Circle heap h (xs ++ ys)) (seam : Seam h xs ys p n)
    (fresh : e ∉ h :: (xs ++ ys)) (nextNew : nextOf heap' e = some n) (prevNew : prevOf heap' e = some p)
    (next : ∀ z ∈ h :: (xs ++ ys), nextOf heap' z = Function.update (nextOf heap) p (some e) z)
    (prev : ∀ z ∈ h :: (xs ++ ys), prevOf heap' z = Function.update (prevOf heap) n (some e) z) :
    Circle heap' h (xs ++ e :: ys) := by
  obtain ⟨parts, -⟩ := (circle_append seam).1 circle
  refine (circle_middle seam).2 ⟨parts.frame seam (fun z member other => ?_) fun z member other => ?_,
    fresh, ⟨?_, prevNew⟩, nextNew, ?_⟩
  · rw [next z member, Function.update_of_ne other]
  · rw [prev z member, Function.update_of_ne other]
  · rw [next p seam.last_inside, Function.update_self]
  · rw [prev n seam.first_inside, Function.update_self]

/-- The rule for another cell in the place of `h`, when there are more cells. -/
theorem Circle.replace (circle : Circle heap h qs) (first : qs.head? = some n)
    (last : qs.getLast? = some p) (fresh : a ∉ qs) (nextNew : nextOf heap' a = some n)
    (prevNew : prevOf heap' a = some p)
    (next : ∀ z ∈ qs, nextOf heap' z = Function.update (nextOf heap) p (some a) z)
    (prev : ∀ z ∈ qs, prevOf heap' z = Function.update (prevOf heap) n (some a) z) :
    Circle heap' a qs := by
  have nodup := (List.nodup_cons.1 circle.nodup).2
  have inner := (List.isChain_append.1 circle.links.tail).1
  have kept : qs.IsChain (Linked heap') := by
    refine chain_frame inner (fun z member => ?_) fun z member => ?_
    · rw [next z (List.mem_of_mem_dropLast member),
        Function.update_of_ne (ne_last nodup last member)]
    · rw [prev z (List.mem_of_mem_tail member), Function.update_of_ne (ne_first nodup first member)]
  refine ⟨List.isChain_cons.2 ⟨fun y isFirst => ?_, List.isChain_append.2
    ⟨kept, List.isChain_singleton a, fun x isLast y isNew => ?_⟩⟩, List.nodup_cons.2 ⟨fresh, nodup⟩⟩
  · rw [List.head?_append, first] at isFirst
    cases isFirst
    exact ⟨nextNew, by rw [prev n (List.mem_of_head? first), Function.update_self]⟩
  · rw [last] at isLast
    cases isLast
    cases isNew
    exact ⟨by rw [next p (List.mem_of_getLast? last), Function.update_self], prevNew⟩

end Rules

end SecurityAudits.Circular
