import Mathlib.Algebra.Order.Ring.Nat
import Mathlib.Data.Tree.Basic

/-!
# Binary trees traversed with a stack

An in-order traversal that does not recurse stands at a tree and keeps, on a stack, the nodes above
it whose left subtrees it is in. It goes down to the left over a node, or, where the tree is empty,
visits the node on the stack's top and goes on with the right subtree of that.

`Walk.pending` is what is still to be visited: going down leaves it as it is, and a visit takes its
head. `Walk.Within` bounds the stack by the height of the tree, and `Walk.work` counts the steps.
-/

namespace SecurityAudits.Traversal
set_option autoImplicit false

open BinaryTree

variable {α : Type}

def inorder : BinaryTree α → List α
  | .nil => []
  | .node value left right => inorder left ++ value :: inorder right

theorem length_inorder (t : BinaryTree α) : (inorder t).length = t.numNodes := by
  induction t with
  | nil => rfl
  | node value left right leftIh rightIh =>
    rw [inorder, List.length_append, List.length_cons, leftIh, rightIh, numNodes, Nat.add_assoc]

/-- A node on the stack. -/
structure Frame (α : Type) where
  value : α
  left : BinaryTree α
  right : BinaryTree α

def Frame.tree (f : Frame α) : BinaryTree α := .node f.value f.left f.right

/-- Where a traversal stands, the top of the stack first. -/
structure Walk (α : Type) where
  here : BinaryTree α
  above : List (Frame α)

def Walk.start (t : BinaryTree α) : Walk α := ⟨t, []⟩

/-- Over the node `f`, down to the left. -/
def Walk.down (f : Frame α) (above : List (Frame α)) : Walk α := ⟨f.left, f :: above⟩

/-- Behind the node `f`, down to the right. -/
def Walk.behind (f : Frame α) (above : List (Frame α)) : Walk α := ⟨f.right, above⟩

variable {f : Frame α} {above : List (Frame α)} {h : Nat}

/-! ## What is to be visited -/

/-- The values that are still to be visited, in order. -/
def Walk.pending (w : Walk α) : List α :=
  inorder w.here ++ w.above.flatMap fun f => f.value :: inorder f.right

theorem pending_start (t : BinaryTree α) : (Walk.start t).pending = inorder t := List.append_nil _

theorem pending_down : (Walk.down f above).pending = (Walk.mk f.tree above).pending := by
  simp only [Walk.pending, Walk.down, Frame.tree, inorder, List.flatMap_cons, List.append_assoc]

theorem pending_behind :
    (Walk.mk .nil (f :: above)).pending = f.value :: (Walk.behind f above).pending := by
  simp only [Walk.pending, Walk.behind, inorder, List.flatMap_cons, List.nil_append,
    List.cons_append]

/-! ## How high the stack is -/

/-- Every node on the stack is as far below height `h` as there are nodes below it on the stack. -/
def FramesWithin (h : Nat) : List (Frame α) → Prop
  | [] => True
  | f :: above => f.tree.height + above.length ≤ h ∧ FramesWithin h above

structure Walk.Within (h : Nat) (w : Walk α) : Prop where
  here : w.here.height + w.above.length ≤ h
  above : FramesWithin h w.above

theorem within_start (t : BinaryTree α) : (Walk.start t).Within t.height :=
  ⟨Nat.le_refl _, trivial⟩

theorem Walk.Within.down (within : (Walk.mk f.tree above).Within h) :
    (Walk.down f above).Within h := by
  have here := within.here
  refine ⟨?_, here, within.above⟩
  simp only [Walk.down, Frame.tree, height, List.length_cons] at here ⊢
  omega

theorem Walk.Within.behind (within : (Walk.mk .nil (f :: above)).Within h) :
    (Walk.behind f above).Within h := by
  obtain ⟨-, here, others⟩ := within
  refine ⟨?_, others⟩
  simp only [Walk.behind, Frame.tree, height] at here ⊢
  omega

/-! ## How long it takes -/

/-- The steps to the end. -/
def Walk.work (w : Walk α) : Nat :=
  2 * w.here.numNodes + (w.above.map fun f => 2 * f.right.numNodes + 1).sum

theorem work_start (t : BinaryTree α) : (Walk.start t).work = 2 * t.numNodes := rfl

theorem work_down : (Walk.down f above).work + 1 = (Walk.mk f.tree above).work := by
  simp only [Walk.work, Walk.down, Frame.tree, numNodes, List.map_cons, List.sum_cons]
  omega

theorem work_behind :
    (Walk.behind f above).work + 1 = (Walk.mk .nil (f :: above)).work := by
  simp only [Walk.work, Walk.behind, numNodes, List.map_cons, List.sum_cons]
  omega

end SecurityAudits.Traversal
