import SecurityAudits.Lib.LinkedList
import SecurityAudits.Lib.Run

/-!
# `ScopedAllocator`

Every block that the allocator gets from its parent starts with a `Node`, by which it is in a
doubly linked list from `root`: the destructor deallocates what is in the list. The patched
`reallocate` takes the block out of the list before it asks the parent and puts it back where it
was if the parent fails; the patched `deallocate` takes it out after the parent has succeeded.

The nodes are read and written in the parent's blocks, so one that is not live has no result.
`Tracks` says that the list is what is live; every call keeps it, whatever the parent answers.
-/

namespace SecurityAudits.DlangPhobos.ScopedAllocator
set_option autoImplicit false
open SecurityAudits.LinkedList SecurityAudits.Run

variable {κ : Type} [DecidableEq κ]

/-- `struct Node`; `val` is its `length`. -/
abbrev Node (κ : Type) := LinkedList.Node κ Nat

/-- A `void[]`: `none` is null, otherwise the address and the length. -/
abbrev Slice (κ : Type) := Option (κ × Nat)

/-- The allocator, the nodes in the parent's blocks, and the lengths of the blocks the parent
has given out and not taken back. -/
structure Allocator (κ : Type) extends Links κ Nat where
  live : Heap κ Nat

def Allocator.start : Allocator κ := ⟨⟨none, fun _ => none⟩, fun _ => none⟩

/-- What the parent gives for a request: an address and what the node there holds, or nothing. -/
abbrev Answer (κ : Type) := Option (κ × Node κ)

def parentAllocate (t : Allocator κ) (n : Nat) : Answer κ → Allocator κ × Slice κ
  | none => (t, none)
  | some (p, content) =>
    (⟨⟨t.root, Function.update t.mem p (some content)⟩, Function.update t.live p (some n)⟩,
      some (p, n))

def parentFree (t : Allocator κ) (p : κ) : Allocator κ :=
  ⟨⟨t.root, Function.update t.mem p none⟩, Function.update t.live p none⟩

/-- `parent.reallocate(b, s)`: it fails and leaves the block as it was, or answers with a block,
there or elsewhere, or with null. -/
def parentReallocate (t : Allocator κ) (b : Slice κ) (s : Nat) :
    Option (Answer κ) → Allocator κ × Slice κ × Bool
  | none => (t, b, false)
  | some answer =>
    let t := match b with
      | none => t
      | some (p, _) => parentFree t p
    let (t, b) := parentAllocate t s answer
    (t, b, true)

/-- `parent.deallocate(b)`: it may fail, and then the block stays live. -/
def parentDeallocate (t : Allocator κ) (b : Slice κ) : Bool → Allocator κ × Bool
  | false => (t, false)
  | true => match b with
    | none => (t, true)
    | some (p, _) => (parentFree t p, true)

/-- A new node at the front. -/
def pushFront (t : Allocator κ) (p : κ) (n : Nat) : Option (Allocator κ) :=
  (t.mem p).bind fun _ =>
    let links : Links κ Nat := ⟨t.root, Function.update t.mem p (some ⟨none, t.root, n⟩)⟩
    (setSeam links none t.root (some p) (some p)).map fun links => { t with toLinks := links }

def allocate (t : Allocator κ) (n : Nat) (answer : Answer κ) : Option (Allocator κ × Slice κ) :=
  match parentAllocate t n answer with
  | (t, none) => some (t, none)
  | (t, some (p, len)) => (pushFront t p n).map fun t => (t, some (p, len))

/-- `// Remove from list`, and what is saved of the node. -/
def removeFromList (t : Allocator κ) : Slice κ → Option (Allocator κ × Option (Node κ))
  | none => some (t, none)
  | some (p, _) => (t.mem p).bind fun n =>
    (setSeam t.toLinks n.prev n.next n.next n.prev).map fun links =>
      ({ t with toLinks := links }, some n)

/-- The saved node is written back and linked again. -/
def restore (t : Allocator κ) (p : κ) (saved : Node κ) : Option (Allocator κ) :=
  (t.mem p).bind fun _ =>
    let links : Links κ Nat := ⟨t.root, Function.update t.mem p (some saved)⟩
    (setSeam links saved.prev saved.next (some p) (some p)).map fun links =>
      { t with toLinks := links }

/-- The patched `reallocate`; the slice is the argument passed by reference. -/
def reallocate (t : Allocator κ) (b : Slice κ) (s : Nat) (answer : Option (Answer κ)) :
    Option (Allocator κ × Slice κ × Bool) :=
  (removeFromList t b).bind fun (t, saved) =>
    let (t, b, result) := parentReallocate t b s answer
    match b with
    | none => some (t, b, result)
    | some (p, _) =>
      match result, saved with
      | false, some n => (restore t p n).map fun t => (t, b, false)
      | _, _ => (pushFront t p s).map fun t => (t, b, result)

/-- The patched `deallocate`. -/
def deallocate (t : Allocator κ) (b : Slice κ) (answer : Bool) : Option (Allocator κ × Bool) :=
  match b with
  | none => some (parentDeallocate t b answer)
  | some (p, _) => (t.mem p).bind fun n =>
    let (t, result) := parentDeallocate t b answer
    if result then
      (setSeam t.toLinks n.prev n.next n.next n.prev).map fun links =>
        ({ t with toLinks := links }, result)
    else some (t, result)

/-- The loop of `deallocateAll` over the list from `n`, and the blocks it has the parent
deallocate; those for which `frees` does not hold stay live. -/
def walk (frees : κ → Bool) : Nat → Allocator κ → Option κ → Option (Allocator κ × List (κ × Nat))
  | _, t, none => some (t, [])
  | 0, _, some _ => none
  | fuel + 1, t, some p => (t.mem p).bind fun n =>
    let t := (parentDeallocate t (some (p, n.val)) (frees p)).1
    (walk frees fuel t n.next).map fun (t, rest) => (t, (p, n.val) :: rest)

/-- `deallocateAll`, which the destructor calls. -/
def deallocateAll (frees : κ → Bool) (fuel : Nat) (t : Allocator κ) :
    Option (Allocator κ × List (κ × Nat)) :=
  (walk frees fuel t t.root).map fun (t, asked) => ({ t with root := none }, asked)

/-- The calls, with what the parent answers to each. -/
inductive Call (κ : Type) where
  | allocate (n : Nat) (answer : Answer κ)
  | reallocate (b : Slice κ) (s : Nat) (answer : Option (Answer κ))
  | deallocate (b : Slice κ) (answer : Bool)

def step (t : Allocator κ) : Call κ → Option (Allocator κ)
  | .allocate n answer => (allocate t n answer).map Prod.fst
  | .reallocate b s answer => (reallocate t b s answer).map Prod.fst
  | .deallocate b answer => (deallocate t b answer).map Prod.fst

/-- The block of a slice. -/
def address (b : Slice κ) : Option κ := b.map Prod.fst

/-- The caller passes null or a live block, and the parent gives no block that is in use. -/
def Legal (t : Allocator κ) : Call κ → Prop
  | .allocate _ answer => ∀ p content, answer = some (p, content) → t.live p = none
  | .reallocate b _ answer => (∀ p len, b = some (p, len) → t.live p = some len) ∧
    ∀ p content, answer = some (some (p, content)) → t.live p = none ∨ address b = some p
  | .deallocate b _ => ∀ p len, b = some (p, len) → t.live p = some len

/-- The list is what is live. -/
structure Tracks (t : Allocator κ) (cells : List (κ × Nat)) : Prop where
  listed : Listed t.toLinks cells
  live : ∀ p n, (p, n) ∈ cells ↔ t.live p = some n

variable {t : Allocator κ} {cells xs ys : List (κ × Nat)} {p : κ} {len n : Nat}

omit [DecidableEq κ] in
theorem tracks_start : Tracks (Allocator.start : Allocator κ) [] where
  listed := ⟨rfl, trivial, List.nodup_nil⟩
  live p n := by simp [Allocator.start]

omit [DecidableEq κ] in
theorem Tracks.absent (tracks : Tracks t cells) (dead : t.live p = none) : p ∉ keys cells := by
  intro member
  obtain ⟨⟨q, n⟩, inCells, rfl⟩ := List.mem_map.1 member
  rw [(tracks.live q n).1 inCells] at dead
  cases dead

omit [DecidableEq κ] in
/-- A live block is somewhere in the list. -/
theorem Tracks.find (tracks : Tracks t cells) (live : t.live p = some len) :
    ∃ xs ys, cells = xs ++ (p, len) :: ys :=
  List.append_of_mem ((tracks.live p len).2 live)

/-- The list without a cell is what is live without its block. -/
theorem Tracks.live_free (tracks : Tracks t (xs ++ (p, len) :: ys)) (q : κ) (m : Nat) :
    (q, m) ∈ xs ++ ys ↔ (parentFree t p).live q = some m := by
  have absent := (listed_middle.1 tracks.listed).2.1
  by_cases same : q = p
  · have none : (parentFree t p).live q = none := by
      rw [same]
      exact Function.update_self p _ _
    rw [none, same]
    exact iff_of_false (fun member => absent (List.mem_map.2 ⟨(p, m), member, rfl⟩)) (by simp)
  · have kept : (parentFree t p).live q = t.live q := Function.update_of_ne same _ _
    rw [kept, ← tracks.live q m, List.mem_append, List.mem_append, List.mem_cons]
    simp [same]

/-- A write to a block that is not in the list. -/
theorem update_absent (mem : Heap κ (Node κ)) (content : Option (Node κ))
    (absent : p ∉ keys cells) : ∀ q ∈ keys cells, Function.update mem p content q = mem q := by
  intro q member
  have other : q ≠ p := by
    rintro rfl
    exact absent member
  exact Function.update_of_ne other _ _

/-- The list with another cell is what is live with another block. -/
theorem Tracks.live_push (tracks : Tracks t cells) (absent : p ∉ keys cells) (q : κ) (m : Nat) :
    (q, m) ∈ (p, n) :: cells ↔ Function.update t.live p (some n) q = some m := by
  by_cases same : q = p
  · have old : (p, m) ∉ cells := fun member => absent (List.mem_map.2 ⟨(p, m), member, rfl⟩)
    rw [same, Function.update_self, List.mem_cons]
    simp [old, eq_comm]
  · rw [Function.update_of_ne same, ← tracks.live q m, List.mem_cons]
    simp [same]

/-- A block from the parent goes to the front of the list. -/
theorem Tracks.push (tracks : Tracks t cells) (dead : t.live p = none) (content : Node κ)
    (n : Nat) : ∃ t', pushFront (parentAllocate t n (some (p, content))).1 p n = some t' ∧
      Tracks t' ((p, n) :: cells) := by
  have absent := tracks.absent dead
  have whole : Listed t.toLinks ([] ++ cells) := tracks.listed
  obtain ⟨l, run, listed⟩ := whole.insert (v := n) absent
    (fun q member =>
      (update_absent _ _ absent q member).trans (update_absent _ _ absent q member))
    (Function.update_self p (some ⟨none, headOr cells none, n⟩)
      (Function.update t.mem p (some content)))
  rw [← tracks.listed.root] at run
  refine ⟨⟨l, Function.update t.live p (some n)⟩, ?_, listed, tracks.live_push absent⟩
  simp only [pushFront, parentAllocate, Function.update_self, Option.bind_some]
  exact congrArg (Option.map _) run

/-- `// Remove from list`. -/
theorem Tracks.remove (tracks : Tracks t (xs ++ (p, len) :: ys)) (n : Nat) :
    ∃ l, removeFromList t (some (p, n))
        = some ({ t with toLinks := l }, some ⟨lastOr none xs, headOr ys none, len⟩) ∧
      Listed l (xs ++ ys) ∧ l.mem p = some ⟨lastOr none xs, headOr ys none, len⟩ := by
  have here := (listed_middle.1 tracks.listed).2.2
  obtain ⟨l, run, listed, kept⟩ := tracks.listed.remove fun _ _ => rfl
  exact ⟨l, by simp only [removeFromList, here, Option.bind_some]; rw [run]; rfl, listed,
    kept.trans here⟩

theorem step_allocate (tracks : Tracks t cells) (n : Nat) (answer : Answer κ)
    (legal : Legal t (.allocate n answer)) :
    ∃ t', step t (.allocate n answer) = some t' ∧ ∃ cells, Tracks t' cells := by
  cases answer with
  | none => exact ⟨t, rfl, cells, tracks⟩
  | some block =>
    obtain ⟨p, content⟩ := block
    obtain ⟨t', run, tracks'⟩ := tracks.push (legal p content rfl) content n
    exact ⟨t', congrArg (fun r => (r.map fun t => (t, some (p, n))).map Prod.fst) run, _, tracks'⟩

/-- The block of a failed `reallocate` is put back where it was. -/
theorem Tracks.restore (tracks : Tracks t (xs ++ (p, len) :: ys)) {l : Links κ Nat}
    (listed : Listed l (xs ++ ys))
    (here : l.mem p = some ⟨lastOr none xs, headOr ys none, len⟩) :
    ∃ t', restore { t with toLinks := l } p ⟨lastOr none xs, headOr ys none, len⟩ = some t' ∧
      Tracks t' (xs ++ (p, len) :: ys) := by
  have absent := (listed_middle.1 tracks.listed).2.1
  obtain ⟨l', run, listed'⟩ := listed.insert (v := len) absent
    (update_absent l.mem _ absent) (Function.update_self p _ _)
  refine ⟨⟨l', t.live⟩, ?_, listed', tracks.live⟩
  simp only [ScopedAllocator.restore, here, Option.bind_some]
  exact congrArg (Option.map _) run

/-- The parent takes a block back that is no longer in the list. -/
theorem Tracks.free (tracks : Tracks t (xs ++ (p, len) :: ys)) {l : Links κ Nat}
    (listed : Listed l (xs ++ ys)) : Tracks (parentFree { t with toLinks := l } p) (xs ++ ys) where
  listed := listed.frame (update_absent _ _ (listed_middle.1 tracks.listed).2.1)
  live := tracks.live_free

theorem step_reallocate (tracks : Tracks t cells) (b : Slice κ) (s : Nat)
    (answer : Option (Answer κ)) (legal : Legal t (.reallocate b s answer)) :
    ∃ t', step t (.reallocate b s answer) = some t' ∧ ∃ cells, Tracks t' cells := by
  obtain ⟨owned, fresh⟩ := legal
  cases b with
  | none =>
    rcases answer with - | - | ⟨p, content⟩
    · exact ⟨t, rfl, cells, tracks⟩
    · exact ⟨t, rfl, cells, tracks⟩
    · have dead : t.live p = none := (fresh p content rfl).resolve_right (by simp [address])
      obtain ⟨t', run, tracks'⟩ := tracks.push dead content s
      exact ⟨t', congrArg (fun r => (r.map fun t => (t, some (p, s), true)).map Prod.fst) run, _,
        tracks'⟩
  | some block =>
    obtain ⟨p, len⟩ := block
    obtain ⟨xs, ys, rfl⟩ := tracks.find (owned p len rfl)
    obtain ⟨l, removed, listed, here⟩ := tracks.remove len
    simp only [step, reallocate, removed, Option.bind_some]
    rcases answer with - | - | ⟨p', content⟩
    · obtain ⟨t', run, tracks'⟩ := tracks.restore listed here
      exact ⟨t', congrArg (fun r => (r.map fun t => (t, some (p, len), false)).map Prod.fst) run,
        _, tracks'⟩
    · exact ⟨_, rfl, _, tracks.free listed⟩
    · have dead : (parentFree { t with toLinks := l } p).live p' = none := by
        by_cases same : p' = p
        · rw [same]
          exact Function.update_self p _ _
        · have dead := (fresh p' content rfl).resolve_right fun eq => same (Option.some.inj eq).symm
          exact (Function.update_of_ne same _ _).trans dead
      obtain ⟨t', run, tracks'⟩ := (tracks.free listed).push dead content s
      exact ⟨t', congrArg (fun r => (r.map fun t => (t, some (p', s), true)).map Prod.fst) run,
        _, tracks'⟩

theorem step_deallocate (tracks : Tracks t cells) (b : Slice κ) (answer : Bool)
    (legal : Legal t (.deallocate b answer)) :
    ∃ t', step t (.deallocate b answer) = some t' ∧ ∃ cells, Tracks t' cells := by
  cases b with
  | none => exact ⟨t, by cases answer <;> rfl, cells, tracks⟩
  | some block =>
    obtain ⟨xs, ys, rfl⟩ := tracks.find (legal block.1 block.2 rfl)
    obtain ⟨-, absent, here⟩ := listed_middle.1 tracks.listed
    cases answer with
    | false =>
      exact ⟨t, by simp only [step, deallocate, here, Option.bind_some]; rfl, _, tracks⟩
    | true =>
      obtain ⟨l, run, listed, -⟩ := tracks.listed.remove
        (update_absent t.mem none absent)
      refine ⟨⟨l, Function.update t.live block.1 none⟩, ?_, xs ++ ys, listed, tracks.live_free⟩
      simp only [step, deallocate, here, Option.bind_some, parentDeallocate, parentFree, if_true]
      rw [run]
      rfl

theorem step_tracks (call : Call κ) (tracks : ∃ cells, Tracks t cells) (legal : Legal t call) :
    ∃ t', step t call = some t' ∧ ∃ cells, Tracks t' cells := by
  obtain ⟨cells, tracks⟩ := tracks
  cases call with
  | allocate n answer => exact step_allocate tracks n answer legal
  | reallocate b s answer => exact step_reallocate tracks b s answer legal
  | deallocate b answer => exact step_deallocate tracks b answer legal

/-- The loop has the parent deallocate every cell it comes to, and reads no cell after that. -/
theorem walk_linked (frees : κ → Bool) {prev : Option κ} (linked : Linked t.mem prev cells none)
    (nodup : (keys cells).Nodup) {fuel : Nat} (enough : cells.length ≤ fuel) :
    ∃ t', walk frees fuel t (headOr cells none) = some (t', cells) ∧
      ∀ q, t'.live q = if q ∈ keys cells ∧ frees q = true then none else t.live q := by
  induction cells generalizing t prev fuel with
  | nil => exact ⟨t, by cases fuel <;> rfl, fun q => by rw [if_neg (fun both => by cases both.1)]⟩
  | cons cell cells ih =>
    obtain ⟨p, n⟩ := cell
    obtain ⟨here, rest⟩ := linked
    obtain ⟨absent, nodup⟩ := List.nodup_cons.1 nodup
    cases fuel with
    | zero => cases enough
    | succ fuel =>
      obtain ⟨m, answered, rest, live⟩ : ∃ m,
          (parentDeallocate t (some (p, n)) (frees p)).1 = m ∧ Linked m.mem (some p) cells none ∧
            ∀ q, m.live q = if q = p ∧ frees p = true then none else t.live q := by
        cases frees p with
        | false => exact ⟨t, rfl, rest, fun q => by simp⟩
        | true =>
          refine ⟨parentFree t p, rfl, rest.frame (update_absent _ _ absent), fun q => ?_⟩
          by_cases same : q = p
          · rw [same, if_pos ⟨rfl, rfl⟩]
            exact Function.update_self p _ _
          · rw [if_neg fun both => same both.1]
            exact Function.update_of_ne same _ _
      obtain ⟨t', run, live'⟩ := ih rest nodup (Nat.le_of_succ_le_succ enough)
      refine ⟨t', ?_, fun q => ?_⟩
      · rw [headOr, walk, here, Option.bind_some]
        simp only [answered]
        exact congrArg (Option.map _) run
      · simp only [live', live, mem_keys_cons]
        by_cases same : q = p
        · rw [same]
          by_cases freed : frees p = true
          · simp [freed]
          · simp [freed]
        · simp [same]

/-- **Scope tracking**: whatever the parent answers, the calls of a caller that passes null or
live blocks follow no dangling pointer, and after them the list from `root` is well formed and
consists of the live blocks with their lengths, each of them once; `deallocateAll` then has the
parent deallocate exactly these. -/
theorem scoped_calls (calls : List (Call κ)) (obeys : Obeys step Legal Allocator.start calls) :
    ∃ t cells, exec step Allocator.start calls = some t ∧ Listed t.toLinks cells ∧
      (∀ p n, (p, n) ∈ cells ↔ t.live p = some n) ∧
      (∀ p n, t.root = some p → t.mem p = some n → n.prev = none) ∧
      (∀ p q n m, p ∈ keys cells → q ∈ keys cells → t.mem p = some n → t.mem q = some m →
        (n.next = some q ↔ m.prev = some p)) ∧
      ∀ frees fuel, cells.length ≤ fuel → ∃ t', deallocateAll frees fuel t = some (t', cells) ∧
        t'.root = none ∧ ∀ p, t'.live p = if frees p = true then none else t.live p := by
  obtain ⟨t, run, cells, tracks⟩ := exec_of_obeys (fun t call => step_tracks call)
    ⟨[], tracks_start⟩ obeys
  refine ⟨t, cells, run, tracks.listed, tracks.live,
    fun p n root read => tracks.listed.first root read,
    fun p q n m inP inQ readP readQ => tracks.listed.inverse inP inQ readP readQ,
    fun frees fuel enough => ?_⟩
  obtain ⟨t', walked, live⟩ := walk_linked frees tracks.listed.linked tracks.listed.nodup enough
  rw [← tracks.listed.root] at walked
  refine ⟨{ t' with root := none }, by rw [deallocateAll, walked]; rfl, rfl, fun p => ?_⟩
  show t'.live p = _
  rw [live]
  by_cases member : p ∈ keys cells
  · simp [member]
  · have dead : t.live p = none := by
      cases held : t.live p with
      | none => rfl
      | some n => exact absurd (List.mem_map.2 ⟨(p, n), (tracks.live p n).2 held, rfl⟩) member
    simp [dead]

/-- Two blocks; the parent fails to resize the first and to deallocate the second. -/
def failures : List (Call Nat) :=
  [.allocate 16 (some (1, ⟨none, none, 0⟩)), .allocate 8 (some (2, ⟨none, none, 0⟩)),
    .reallocate (some (1, 16)) 32 none, .deallocate (some (2, 8)) false]

theorem scoped_calls_failures :
    ∃ t cells, exec step Allocator.start failures = some t ∧ Listed t.toLinks cells ∧
      ∀ p n, (p, n) ∈ cells ↔ t.live p = some n := by
  obtain ⟨t, cells, run, listed, live, -⟩ := scoped_calls failures (by
    refine ⟨by rintro _ _ ⟨⟩; rfl, ?_⟩
    rintro _ ⟨⟩
    refine ⟨by rintro _ _ ⟨⟩; rfl, ?_⟩
    rintro _ ⟨⟩
    refine ⟨⟨by rintro _ _ ⟨⟩; rfl, by rintro _ _ ⟨⟩⟩, ?_⟩
    rintro _ ⟨⟩
    refine ⟨by rintro _ _ ⟨⟩; rfl, fun _ _ => trivial⟩)
  exact ⟨t, cells, run, listed, live⟩

end SecurityAudits.DlangPhobos.ScopedAllocator
