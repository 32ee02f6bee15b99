import Mathlib.Data.List.Infix

/-!
# Names in a hierarchy

A name is a list of characters in which a dot ends a label, so that the labels of a name are its
`splitOn`. A name lies under another when its last labels are those of the other, which a program may
find out without taking any name apart: `suffix_labels_iff`. A program that goes over a name character by
character follows `splitOn_cons_dot` and `splitOn_cons_other`.
-/

namespace SecurityAudits.Labels
set_option autoImplicit false

variable {α : Type} {dot : α} {name tree : List α}

theorem intercalate_append {xs ys : List (List α)} (some_x : xs ≠ []) (some_y : ys ≠ []) :
    [dot].intercalate (xs ++ ys) = [dot].intercalate xs ++ dot :: [dot].intercalate ys := by
  induction xs with
  | nil => exact absurd rfl some_x
  | cons x xs ih =>
    cases xs with
    | nil =>
      rw [List.singleton_append, List.intercalate_cons_of_ne_nil some_y]
      simp
    | cons x' xs =>
      have rest := ih (List.cons_ne_nil x' xs)
      rw [List.cons_append] at rest
      rw [List.cons_append, List.cons_append, List.intercalate_cons_cons, rest,
        List.intercalate_cons_cons, List.append_assoc, List.append_assoc, List.append_assoc]

variable [BEq α] [LawfulBEq α] {c : α} {first : List α} {rest : List (List α)}

theorem splitOn_cons_dot (name : List α) : (dot :: name).splitOn dot = [] :: name.splitOn dot := by
  rw [List.splitOn_cons_eq_if_modifyHead, if_pos (beq_self_eq_true dot)]

/-- A character that is no dot goes on with the first label. -/
theorem splitOn_cons_other (other : c ≠ dot) (split : name.splitOn dot = first :: rest) :
    (c :: name).splitOn dot = (c :: first) :: rest := by
  have noDot : ¬ (c == dot) = true := fun same => other (beq_iff_eq.1 same)
  rw [List.splitOn_cons_eq_if_modifyHead, if_neg noDot, split, List.modifyHead_cons]

/-- The last labels of a name are those of another one exactly when it is that name, or ends in a dot
and that name. -/
theorem suffix_labels_iff :
    tree.splitOn dot <:+ name.splitOn dot ↔ name = tree ∨ ∃ left, name = left ++ dot :: tree := by
  constructor
  · rintro ⟨front, same⟩
    have whole := congrArg [dot].intercalate same
    rw [List.intercalate_splitOn] at whole
    by_cases none : front = []
    · rw [none, List.nil_append, List.intercalate_splitOn] at whole
      exact .inl whole.symm
    · rw [intercalate_append none (List.splitOn_ne_nil dot tree), List.intercalate_splitOn] at whole
      exact .inr ⟨_, whole.symm⟩
  · rintro (rfl | ⟨left, rfl⟩)
    · exact List.suffix_rfl
    · rw [List.splitOn_append_cons_self]
      exact List.suffix_append _ _

/-- There are more labels in front of those of the other name when the two are not the same. -/
theorem proper_labels_iff :
    (tree.splitOn dot <:+ name.splitOn dot ∧ name ≠ tree) ↔ ∃ left, name = left ++ dot :: tree := by
  rw [suffix_labels_iff]
  constructor
  · rintro ⟨same | under, apart⟩
    · exact absurd same apart
    · exact under
  · rintro ⟨left, rfl⟩
    refine ⟨.inr ⟨left, rfl⟩, fun same => ?_⟩
    have length := congrArg List.length same
    rw [List.length_append, List.length_cons] at length
    omega

end SecurityAudits.Labels
