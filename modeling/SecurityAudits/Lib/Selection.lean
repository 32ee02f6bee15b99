import Mathlib.Data.List.Induction
import Mathlib.Data.List.Pairwise

/-!
# Keeping what agrees with everything kept

Items come one after another, and an item is kept when every item kept so far stands to it in a
relation `ok`: ranges that do not overlap, entries with a key of their own. What is kept is never
given up later (`select_prefix`).

`select` is the loop. It is Mathlib's `List.pwFilter`, which goes from the other end, so what is kept
stands pairwise in `ok` (`pairwise_select`). Where `ok` says that two keys differ, what is kept is the
first item of each key (`select_key`).
-/

namespace SecurityAudits.Selection
set_option autoImplicit false

variable {α κ : Type} (ok : α → α → Prop) [DecidableRel ok]

/-- One more item. -/
def add (kept : List α) (a : α) : List α := if ∀ b ∈ kept, ok b a then kept ++ [a] else kept

/-- What is kept of `items`. -/
def select (items : List α) : List α := items.foldl (add ok) []

theorem select_append (items more : List α) :
    select ok (items ++ more) = more.foldl (add ok) (select ok items) := List.foldl_append

theorem select_concat (items : List α) (a : α) :
    select ok (items ++ [a]) = add ok (select ok items) a := select_append ok items [a]

theorem prefix_foldl_add (items kept : List α) : kept <+: items.foldl (add ok) kept := by
  induction items generalizing kept with
  | nil => exact List.prefix_refl kept
  | cons a items ih =>
    have grows : kept <+: add ok kept a := by
      rw [add]
      split
      · exact List.prefix_append kept [a]
      · exact List.prefix_refl kept
    exact grows.trans (ih _)

/-- Nothing that is kept is given up later. -/
theorem select_prefix (items more : List α) : select ok items <+: select ok (items ++ more) := by
  rw [select_append]
  exact prefix_foldl_add ok more _

theorem select_eq_pwFilter (items : List α) :
    select ok items = (items.reverse.pwFilter fun a b => ok b a).reverse := by
  induction items using List.reverseRecOn with
  | nil => rfl
  | append_singleton items a ih =>
    rw [select_concat, ih, List.reverse_append, List.reverse_singleton, List.singleton_append, add]
    simp only [List.mem_reverse]
    split
    case isTrue agrees => rw [List.pwFilter_cons_of_pos agrees, List.reverse_cons]
    case isFalse clashes => rw [List.pwFilter_cons_of_neg clashes]

/-- **What is kept stands pairwise in the relation.** -/
theorem pairwise_select (items : List α) : (select ok items).Pairwise ok := by
  rw [select_eq_pwFilter, List.pairwise_reverse]
  exact List.pairwise_pwFilter items.reverse

/-! ## Keys of their own -/

section Keys

variable [DecidableEq κ] (key : α → κ)

/-- Two items with different keys. -/
def Differ (a b : α) : Prop := key a ≠ key b

instance : DecidableRel (Differ key) := fun a b => inferInstanceAs (Decidable (key a ≠ key b))

/-- The first item of each key, in order of appearance. -/
def firsts : List α → List α
  | [] => []
  | a :: items => a :: (firsts items).filter fun b => decide (key b ≠ key a)

/-- The loop from any `kept` on: of each key that `kept` lacks, the first item. -/
theorem foldl_add_differ (items kept : List α) :
    items.foldl (add (Differ key)) kept =
      kept ++ (firsts key items).filter fun a => decide (∀ b ∈ kept, Differ key b a) := by
  induction items generalizing kept with
  | nil => simp [firsts]
  | cons a items ih =>
    rw [List.foldl_cons, add, firsts]
    split
    case isTrue fresh =>
      rw [ih, List.filter_cons_of_pos (by simpa using fresh), List.filter_filter,
        List.append_assoc, List.singleton_append]
      congr 2
      refine List.filter_congr fun b _ => ?_
      rw [← Bool.decide_and, decide_eq_decide]
      constructor
      · exact fun apart =>
          ⟨fun c member => apart c (List.mem_append_left _ member),
            (apart a (List.mem_append_right _ List.mem_cons_self)).symm⟩
      · rintro ⟨apart, differs⟩ c member
        rcases List.mem_append.1 member with old | new
        · exact apart c old
        · rw [List.mem_singleton.1 new]
          exact differs.symm
    case isFalse known =>
      rw [ih, List.filter_cons_of_neg (by simpa using known), List.filter_filter]
      congr 1
      refine List.filter_congr fun b _ => ?_
      rw [← Bool.decide_and, decide_eq_decide]
      refine ⟨fun apart => ⟨apart, fun same => known fun c member => ?_⟩, And.left⟩
      have differs : key c ≠ key b := apart c member
      rwa [same] at differs

/-- **Of each key the first item is kept.** -/
theorem select_key (items : List α) : select (Differ key) items = firsts key items := by
  rw [select, foldl_add_differ]
  simp

end Keys

end SecurityAudits.Selection
