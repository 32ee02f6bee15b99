import Mathlib.Algebra.Order.BigOperators.Group.List
import Mathlib.Algebra.Order.Ring.Nat
import SecurityAudits.Lib.Run

/-!
# Searches that expand what they try

A search takes items from the front of a queue and appends what the item expands to, until the queue
is empty or it comes to an item at which it stops. It keeps no record of where it has been: what comes
again is tried again.

So whether it ends is up to the expansion. Where a level falls from every item to those it expands to,
the number of items below one is bounded (`size`), and the search ends (`ends`). What it has come to
are the items `From` the first ones, and they are all of these if it has not stopped before (`Spread`).
-/

namespace SecurityAudits.Expansion
set_option autoImplicit false

open SecurityAudits.Run

variable {α : Type}

/-- A search: what waits, what has been tried and what it stopped at. -/
structure Search (α : Type) where
  waiting : List α
  tried : List α
  hit : Option α
  deriving DecidableEq, Repr

/-- Everything the search has come to. -/
def Search.items (s : Search α) : List α := s.tried ++ (s.hit.toList ++ s.waiting)

/-- An iteration; there is none when the search is over. -/
def next (stop : α → Bool) (expand : α → List α) : Search α → Option (Search α)
  | ⟨_, _, some _⟩ => none
  | ⟨[], _, none⟩ => none
  | ⟨a :: waiting, tried, none⟩ =>
    if stop a then some ⟨waiting, tried, some a⟩
    else some ⟨waiting ++ expand a, tried ++ [a], none⟩

/-- What the items `first` expand to, in any number of steps. -/
inductive From (expand : α → List α) (first : List α) : α → Prop
  | here {a : α} (mem : a ∈ first) : From expand first a
  | step {a b : α} (above : From expand first a) (mem : b ∈ expand a) : From expand first b

variable {stop : α → Bool} {expand : α → List α} {first : List α} {s t : Search α} {a b : α}

/-! ## The end of a search -/

/-- The number of items below one, itself included, that come within `n` expansions. -/
def size (expand : α → List α) : Nat → α → Nat
  | 0, _ => 1
  | n + 1, a => ((expand a).map (size expand n)).sum + 1

theorem size_pos (n : Nat) (a : α) : 0 < size expand n a := by
  cases n with
  | zero => exact Nat.one_pos
  | succ n => exact Nat.succ_pos _

theorem size_le_succ (n : Nat) (a : α) : size expand n a ≤ size expand (n + 1) a := by
  induction n generalizing a with
  | zero => exact Nat.le_add_left 1 _
  | succ n ih => exact Nat.add_le_add_right (List.sum_le_sum fun b _ => ih b) 1

theorem size_mono {m n : Nat} (le : m ≤ n) (a : α) : size expand m a ≤ size expand n a :=
  monotone_nat_of_le_succ (f := fun n => size expand n a) (fun n => size_le_succ n a) le

variable {level : α → Nat}

/-- An item outweighs what it expands to. -/
theorem sum_size_lt (falls : ∀ b ∈ expand a, level b < level a) :
    ((expand a).map fun b => size expand (level b) b).sum < size expand (level a) a := by
  cases top : level a with
  | zero =>
    have none : expand a = [] := List.eq_nil_iff_forall_not_mem.2 fun b mem =>
      absurd (falls b mem) (by omega)
    rw [none]
    exact Nat.one_pos
  | succ n =>
    refine Nat.lt_succ_of_le (List.sum_le_sum fun b mem => size_mono ?_ b)
    have := falls b mem
    omega

/-- What waits, with all that it will expand to. -/
def work (expand : α → List α) (level : α → Nat) (s : Search α) : Nat :=
  (s.waiting.map fun a => size expand (level a) a).sum

theorem work_next (falls : ∀ a ∈ s.waiting, ∀ b ∈ expand a, level b < level a)
    (moved : next stop expand s = some t) : work expand level t < work expand level s := by
  obtain ⟨waiting, tried, hit⟩ := s
  cases hit with
  | some _ => cases moved
  | none =>
    cases waiting with
    | nil => cases moved
    | cons a waiting =>
      rw [next] at moved
      unfold work
      rw [List.map_cons, List.sum_cons]
      split at moved
      · cases moved
        exact Nat.lt_add_of_pos_left (size_pos _ a)
      · cases moved
        have lighter := sum_size_lt (falls a (List.mem_cons_self ..))
        rw [List.map_append, List.sum_append]
        omega

/-! ## What a search has come to -/

/-- What holds at the head of every iteration. -/
structure Spread (stop : α → Bool) (expand : α → List α) (first : List α) (s : Search α) :
    Prop where
  sound : ∀ a ∈ s.items, From expand first a
  start : ∀ a ∈ first, a ∈ s.items
  closed : ∀ a ∈ s.tried, ∀ b ∈ expand a, b ∈ s.items
  passed : ∀ a ∈ s.tried, stop a = false
  stopped : ∀ a, s.hit = some a → stop a = true

theorem spread_start (first : List α) : Spread stop expand first ⟨first, [], none⟩ where
  sound := fun _ mem => .here mem
  start := fun _ mem => mem
  closed := fun _ mem => absurd mem List.not_mem_nil
  passed := fun _ mem => absurd mem List.not_mem_nil
  stopped := fun _ none => by cases none

theorem Spread.next (spread : Spread stop expand first s) (moved : next stop expand s = some t) :
    Spread stop expand first t := by
  obtain ⟨waiting, tried, hit⟩ := s
  cases hit with
  | some _ => cases moved
  | none =>
    cases waiting with
    | nil => cases moved
    | cons a waiting =>
      have head : From expand first a :=
        spread.sound a (List.mem_append_right _ (List.mem_cons_self ..))
      rw [Expansion.next] at moved
      split at moved
      case isTrue stops =>
        cases moved
        refine ⟨spread.sound, spread.start, spread.closed, spread.passed, fun b hit => ?_⟩
        cases hit
        exact stops
      case isFalse passes =>
        cases moved
        have kept : ∀ b, b ∈ tried ++ a :: waiting →
            b ∈ (tried ++ [a]) ++ (waiting ++ expand a) := by
          intro b mem
          rw [List.append_assoc, ← List.append_assoc [a], List.singleton_append,
            ← List.append_assoc]
          exact List.mem_append_left _ mem
        refine ⟨fun b mem => ?_, fun b mem => kept b (spread.start b mem), fun b mem c below => ?_,
          fun b mem => ?_, fun b none => by cases none⟩
        · have parts : b ∈ (tried ++ [a]) ++ (waiting ++ expand a) := mem
          rw [List.mem_append, List.mem_append, List.mem_append, List.mem_singleton] at parts
          rcases parts with (old | rfl) | (old | new)
          · exact spread.sound b (List.mem_append_left _ old)
          · exact head
          · exact spread.sound b (List.mem_append_right _ (List.mem_cons_of_mem _ old))
          · exact .step head new
        · rcases List.mem_append.1 mem with old | here
          · exact kept c (spread.closed b old c below)
          · rw [List.mem_singleton.1 here] at below
            exact List.mem_append_right (tried ++ [a]) (List.mem_append_right waiting below)
        · rcases List.mem_append.1 mem with old | here
          · exact spread.passed b old
          · rw [List.mem_singleton.1 here]
            exact Bool.eq_false_iff.2 passes

theorem Spread.loop {n : Nat} (spread : Spread stop expand first s)
    (run : loop (Expansion.next stop expand) n s = some t) : Spread stop expand first t :=
  loop_invariant (fun _ _ spread moved => spread.next moved) spread run

/-- A search that has not stopped at an item has tried them all. -/
theorem Spread.tried_iff (spread : Spread stop expand first s)
    (ended : Expansion.next stop expand s = none) (missed : s.hit = none) :
    a ∈ s.tried ↔ From expand first a := by
  obtain ⟨waiting, tried, hit⟩ := s
  cases missed
  cases waiting with
  | cons a waiting =>
    rw [Expansion.next] at ended
    split at ended <;> cases ended
  | nil =>
    have items : ∀ b, b ∈ tried ++ [] → b ∈ tried := fun b mem => by rwa [List.append_nil] at mem
    constructor
    · exact fun mem => spread.sound a (List.mem_append_left _ mem)
    · intro below
      induction below with
      | here mem => exact items _ (spread.start _ mem)
      | step _ mem ih => exact items _ (spread.closed _ ih _ mem)

/-- **A search ends** when a level falls along the expansion. -/
theorem ends (stop : α → Bool) (level : α → Nat)
    (falls : ∀ a, From expand first a → ∀ b ∈ expand a, level b < level a) :
    ∃ n t, loop (next stop expand) n ⟨first, [], none⟩ = some t ∧ next stop expand t = none := by
  have lowers : ∀ s t, Spread stop expand first s → next stop expand s = some t →
      work expand level t < work expand level s := fun s t spread moved =>
    work_next (fun a mem => falls a (spread.sound a
      (List.mem_append_right _ (List.mem_append_right _ mem)))) moved
  obtain ⟨n, t, -, run, ended, -⟩ := loop_ends
    (fun _ _ spread moved => Spread.next spread moved) lowers (spread_start first)
  exact ⟨n, t, run, ended⟩

end SecurityAudits.Expansion
