import SecurityAudits.Lib.LinkedList

/-!
# Clearing a free tree

`FreeTree` (`std/experimental/allocator/building_blocks/free_tree.d`) keeps freed blocks in a binary
tree whose nodes are the blocks themselves; blocks of one size hang on one node, as a chain of
siblings. `clear` hands all of them to the parent allocator, which from then on owns the memory that
the links are in: reading a block that has been handed over has no result here.

`Tree` is the tree without the memory, `Holds` what its blocks look like there. The recursion over
the tree and the loop over each chain both follow it (`drain_chain`, `recurse_tree`), and
`clear_retained` puts them together.
-/

namespace SecurityAudits.DlangPhobos.FreeTree
set_option autoImplicit false

open LinkedList (Heap Chained keys without)

variable {κ : Type} [DecidableEq κ]

/-- `Node`: the head of a free block. -/
structure Node (κ : Type) where
  size : Nat
  left : Option κ
  right : Option κ
  sibling : Option κ
  deriving DecidableEq, Repr

/-- The tree in its memory, and the calls of `parent.deallocate` so far: block and size. -/
structure State (κ : Type) where
  root : Option κ
  heap : Heap κ (Node κ)
  deallocated : List (κ × Nat)

/-- `parent.deallocate((cast(ubyte*) sis)[0 .. size])` -/
def State.deallocate (s : State κ) (sis : κ) (size : Nat) : State κ :=
  { s with heap := without s.heap [sis], deallocated := s.deallocated ++ [(sis, size)] }

/-- `for (auto sis = n; sis; )`, for at most `fuel` evaluations of its condition. -/
def drain : Nat → Option κ → State κ → Option (State κ)
  | 0, _, _ => none
  | _ + 1, none, s => some s
  | fuel + 1, some sis, s => do
    let node ← s.heap sis
    let next := node.sibling
    let s := s.deallocate sis node.size
    drain fuel next s

/-- The nested function `recurse`, for at most `fuel` calls inside one another. -/
def recurse : Nat → Option κ → State κ → Option (State κ)
  | 0, _, _ => none
  | _ + 1, none, s => some s
  | fuel + 1, some n, s => do
    let node ← s.heap n
    let s ← recurse fuel node.left s
    let node ← s.heap n
    let s ← recurse fuel node.right s
    drain fuel (some n) s

/-- `FreeTree.clear` -/
def clear (fuel : Nat) (s : State κ) : Option (State κ) := do
  let s ← recurse fuel s.root s
  return { s with root := none }

/-- A free tree: at each place a block, and the blocks of the same size behind it. -/
inductive Tree (κ : Type) where
  | nil
  | node (n : κ) (head : Node κ) (siblings : List (κ × Node κ)) (left right : Tree κ)

/-- The blocks, in the order in which `clear` comes to their end. -/
def Tree.cells : Tree κ → List (κ × Node κ)
  | .nil => []
  | .node n head siblings left right => left.cells ++ right.cells ++ (n, head) :: siblings

def Tree.addresses (t : Tree κ) : List κ := keys t.cells

/-- A block and its size. -/
def block (cell : κ × Node κ) : κ × Nat := (cell.1, cell.2.size)

/-- The tree that `p` points at. Siblings have no subtrees. -/
def Holds (heap : Heap κ (Node κ)) : Option κ → Tree κ → Prop
  | p, .nil => p = none
  | p, .node n head siblings left right =>
    p = some n ∧ heap n = some head ∧ Holds heap head.left left ∧ Holds heap head.right right ∧
      Chained Node.sibling heap head.sibling siblings ∧
      ∀ sibling ∈ siblings, sibling.2.left = none ∧ sibling.2.right = none

/-- The blocks that the free tree retains: those of the tree `t`, each in one place. -/
structure Retains (s : State κ) (t : Tree κ) : Prop where
  holds : Holds s.heap s.root t
  distinct : t.addresses.Nodup

/-- `s` when the blocks `cells` have been handed to the parent allocator. -/
def State.without (s : State κ) (cells : List (κ × Node κ)) : State κ :=
  { s with
    heap := LinkedList.without s.heap (keys cells)
    deallocated := s.deallocated ++ cells.map block }

variable {s : State κ} {p : Option κ} {t : Tree κ} {fuel : Nat} {cells : List (κ × Node κ)}
variable {heap heap' : Heap κ (Node κ)}

theorem State.without_nil (s : State κ) : s.without [] = s := by
  simp only [State.without, keys, List.map_nil, LinkedList.without_nil, List.append_nil]

theorem State.without_append (s : State κ) (first second : List (κ × Node κ)) :
    s.without (first ++ second) = (s.without first).without second := by
  have addresses : keys (first ++ second) = keys first ++ keys second := List.map_append
  simp only [State.without, addresses, LinkedList.without_append, List.map_append,
    List.append_assoc]

/-- The loop over a chain. -/
theorem drain_chain (chained : Chained Node.sibling s.heap p cells) (distinct : (keys cells).Nodup)
    (enough : cells.length < fuel) : drain fuel p s = some (s.without cells) := by
  induction cells generalizing fuel p s with
  | nil =>
    cases fuel with
    | zero => cases enough
    | succ fuel =>
      have last : p = none := chained
      subst last
      exact congrArg some (State.without_nil s).symm
  | cons cell cells ih =>
    obtain ⟨sis, head⟩ := cell
    obtain ⟨rfl, live, later⟩ := chained
    obtain ⟨fresh, distinct⟩ := List.nodup_cons.1 distinct
    cases fuel with
    | zero => cases enough
    | succ fuel =>
      have freed : s.deallocate sis head.size = s.without [(sis, head)] := rfl
      have kept : Chained Node.sibling (s.deallocate sis head.size).heap head.sibling cells :=
        later.congr fun q mem => LinkedList.without_of_not_mem fun here =>
          fresh (List.mem_singleton.1 here ▸ mem)
      have rest := ih kept distinct (Nat.lt_of_succ_lt_succ enough)
      rw [freed, ← State.without_append] at rest
      rw [drain, live]
      exact rest

omit [DecidableEq κ] in
theorem addresses_node (n : κ) (head : Node κ) (siblings : List (κ × Node κ))
    (left right : Tree κ) :
    (Tree.node n head siblings left right).addresses =
      left.addresses ++ right.addresses ++ n :: keys siblings := by
  simp only [Tree.addresses, Tree.cells, keys, List.map_append, List.map_cons]

omit [DecidableEq κ] in
/-- A tree stays where its blocks stay. -/
theorem Holds.congr (holds : Holds heap p t) (same : ∀ q ∈ t.addresses, heap' q = heap q) :
    Holds heap' p t := by
  induction t generalizing p with
  | nil => exact holds
  | node n head siblings left right ihLeft ihRight =>
    obtain ⟨here, live, holdsLeft, holdsRight, chained, leaves⟩ := holds
    rw [addresses_node] at same
    obtain ⟨sameTrees, sameChain⟩ := List.forall_mem_append.1 same
    obtain ⟨sameLeft, sameRight⟩ := List.forall_mem_append.1 sameTrees
    obtain ⟨sameHere, sameSiblings⟩ := List.forall_mem_cons.1 sameChain
    exact ⟨here, sameHere.trans live, ihLeft holdsLeft sameLeft, ihRight holdsRight sameRight,
      chained.congr sameSiblings, leaves⟩

theorem State.without_kept {q : κ} (other : q ∉ keys cells) : (s.without cells).heap q = s.heap q :=
  LinkedList.without_of_not_mem other

/-- The recursion over a tree: its blocks, and no others, are handed to the parent allocator. -/
theorem recurse_tree (holds : Holds s.heap p t) (distinct : t.addresses.Nodup)
    (enough : t.cells.length + 1 < fuel) : recurse fuel p s = some (s.without t.cells) := by
  induction t generalizing fuel p s with
  | nil =>
    cases fuel with
    | zero => cases enough
    | succ fuel =>
      have none : p = none := holds
      subst none
      exact congrArg some (State.without_nil s).symm
  | node n head siblings left right ihLeft ihRight =>
    obtain ⟨rfl, live, holdsLeft, holdsRight, chained, -⟩ := holds
    rw [addresses_node] at distinct
    obtain ⟨distinctTrees, distinctChain, apart⟩ := List.nodup_append.1 distinct
    obtain ⟨distinctLeft, distinctRight, apartTrees⟩ := List.nodup_append.1 distinctTrees
    cases fuel with
    | zero => cases enough
    | succ fuel =>
      rw [Tree.cells, List.length_append, List.length_append, List.length_cons] at enough
      have keptRight : ∀ q ∈ right.addresses, (s.without left.cells).heap q = s.heap q :=
        fun q mem => State.without_kept fun inLeft => apartTrees q inLeft q mem rfl
      have keptChain : ∀ q ∈ n :: keys siblings, (s.without left.cells).heap q = s.heap q :=
        fun q mem => State.without_kept fun inLeft =>
          apart q (List.mem_append_left _ inLeft) q mem rfl
      have keptChain' : ∀ q ∈ n :: keys siblings,
          ((s.without left.cells).without right.cells).heap q = s.heap q := by
        intro q mem
        rw [State.without_kept fun inRight => apart q (List.mem_append_right _ inRight) q mem rfl]
        exact keptChain q mem
      have leftRun : recurse fuel head.left s = some (s.without left.cells) :=
        ihLeft holdsLeft distinctLeft (by omega)
      have rightRun : recurse fuel head.right (s.without left.cells) =
          some ((s.without left.cells).without right.cells) :=
        ihRight (holdsRight.congr keptRight) distinctRight (by omega)
      have chain : Chained Node.sibling ((s.without left.cells).without right.cells).heap (some n)
          ((n, head) :: siblings) :=
        ⟨rfl, (keptChain' n List.mem_cons_self).trans live,
          chained.congr fun q mem => keptChain' q (List.mem_cons_of_mem n mem)⟩
      have short : ((n, head) :: siblings).length < fuel := by
        rw [List.length_cons]
        omega
      have drained := drain_chain chain distinctChain short
      rw [recurse, live]
      show (recurse fuel head.left s).bind _ = _
      rw [leftRun]
      show ((s.without left.cells).heap n).bind _ = _
      rw [keptChain n List.mem_cons_self, live]
      show (recurse fuel head.right (s.without left.cells)).bind _ = _
      rw [rightRun]
      show drain fuel (some n) _ = _
      rw [drained, Tree.cells, State.without_append, State.without_append]

/-- **Clearing.** Every block of the tree, of a node or of a sibling, is handed to the parent
allocator once, with its own size; no block is read behind that, and the tree is left empty. -/
theorem clear_retained (retains : Retains s t) (extra : Nat) :
    ∃ s', clear (t.cells.length + 2 + extra) s = some s' ∧
      s'.deallocated = s.deallocated ++ t.cells.map block ∧
      ((t.cells.map block).map Prod.fst).Nodup ∧ Retains s' .nil ∧
      (∀ q ∈ t.addresses, s'.heap q = none) ∧ ∀ q ∉ t.addresses, s'.heap q = s.heap q := by
  have run : recurse (t.cells.length + 2 + extra) s.root s = some (s.without t.cells) :=
    recurse_tree retains.holds retains.distinct (by omega)
  refine ⟨{ s.without t.cells with root := none }, ?_, rfl, ?_, ⟨rfl, List.nodup_nil⟩, ?_, ?_⟩
  · rw [clear, run]
    rfl
  · rw [List.map_map]
    exact retains.distinct
  · exact fun q mem => if_pos mem
  · exact fun q other => State.without_kept other

/-- Three blocks of 16 bytes at one place, two of them siblings, and one of 8 bytes to its left. -/
def sample : Tree Nat :=
  .node 1 ⟨16, some 4, none, some 2⟩ [(2, ⟨16, none, none, some 3⟩), (3, ⟨16, none, none, none⟩)]
    (.node 4 ⟨8, none, none, none⟩ [] .nil .nil) .nil

theorem clear_sample : ∃ s', clear 6 ⟨some 1, fun q => sample.cells.lookup q, []⟩ = some s' ∧
    s'.deallocated = [(4, 8), (1, 16), (2, 16), (3, 16)] ∧ s'.root = none := by
  have holds : Holds (fun q => sample.cells.lookup q) (some 1) sample := by
    refine ⟨rfl, rfl, ⟨rfl, rfl, rfl, rfl, rfl, ?_⟩, rfl, ⟨rfl, rfl, rfl, rfl, rfl⟩, ?_⟩ <;> decide
  have cleared := clear_retained (s := ⟨some 1, fun q => sample.cells.lookup q, []⟩)
    ⟨holds, by decide⟩ 0
  obtain ⟨s', run, calls, -, empty, -⟩ := cleared
  exact ⟨s', run, calls, empty.holds⟩

end SecurityAudits.DlangPhobos.FreeTree
