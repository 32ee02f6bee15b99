import Mathlib.Data.List.ReduceOption
import SecurityAudits.Lib.Marking

/-!
# `it_reference` of ctfconv

`it_reference` marks the types that a used type refers to, directly or through others. The
replaced version calls itself for each reference; the patched one keeps the types it still has to
look at in cells from `xmalloc` and marks a type when it pushes it.

Both are searches of the graph of types in the sense of `Lib.Marking`. The cells are read and
freed by address, so one that is not allocated has no result; `Sound` says that they are the
stack, and ties it to the worklist of the search.
-/

namespace SecurityAudits.OpenbsdBin.ItReference
set_option autoImplicit false
open SecurityAudits.Marking

variable {T κ : Type} [DecidableEq T] [DecidableEq κ]

/-- What a `struct itype` refers to: `it_refp`, and `im_refp` of each member. -/
structure Itype (T : Type) where
  refp : Option T
  members : List (Option T)

/-- `struct itstack`. -/
structure ItStack (T κ : Type) where
  it : T
  next : Option κ

/-- The `ITF_USED` flags, the cells that are allocated, and the types pushed so far. -/
structure State (T κ : Type) where
  used : Marks T
  heap : List (κ × ItStack T κ)
  pushed : List T

section Code

variable (graph : T → Itype T) (xmalloc : List κ → κ)

/-- The references in the order in which both versions look at them. -/
def references (it : T) : List (Option T) := (graph it).refp :: (graph it).members

/-- The replaced version; `depth` bounds how deep the calls are nested. -/
def itReferenceRec : (depth : Nat) → Marks T → Option T → Option (Marks T)
  | _, used, none => some used
  | 0, used, some it => if used it then some used else none
  | depth + 1, used, some it =>
    if used it then some used
    else (references graph it).foldlM (itReferenceRec depth) (mark used it)

/-- A new cell on top of the stack, and its type marked. -/
def push (s : State T κ) (is : Option κ) (it : T) : State T κ × Option κ :=
  let next := xmalloc (s.heap.map Prod.fst)
  (⟨mark s.used it, (next, ⟨it, is⟩) :: s.heap, it :: s.pushed⟩, some next)

/-- A reference is pushed unless it is `NULL` or marked. -/
def follow (r : State T κ × Option κ) : Option T → State T κ × Option κ
  | none => r
  | some it => if r.1.used it then r else push xmalloc r.1 r.2 it

/-- The body of the loop: the top cell is read and freed, and its references are followed. -/
def body (s : State T κ) (is : κ) : Option (State T κ × Option κ) :=
  (s.heap.lookup is).map fun cell =>
    (references graph cell.it).foldl (follow xmalloc)
      ({ s with heap := s.heap.filter fun c => c.1 != is }, cell.next)

/-- `while (is != NULL)`. -/
def loop : (fuel : Nat) → State T κ → Option κ → Option (State T κ)
  | _, s, none => some s
  | 0, _, some _ => none
  | fuel + 1, s, some is => (body graph xmalloc s is).bind fun (s, is) => loop fuel s is

/-- The patched `it_reference`. -/
def itReference (fuel : Nat) (used : Marks T) : Option T → Option (State T κ)
  | none => some ⟨used, [], []⟩
  | some it =>
    if used it then some ⟨used, [], []⟩
    else
      let (s, is) := push xmalloc ⟨used, [], []⟩ none it
      loop graph xmalloc fuel s is

end Code

/-- The graph that is searched. -/
def follows (graph : T → Itype T) (it : T) : List T := (references graph it).reduceOption

/-- The cells from `is` on are those that are allocated, the top of the stack first. -/
def Stacked : Option κ → List (κ × ItStack T κ) → Prop
  | is, [] => is = none
  | is, (p, cell) :: heap => is = some p ∧ p ∉ heap.map Prod.fst ∧ Stacked cell.next heap

/-- The loop at work on the argument `a`, with the marks `m` in the beginning. -/
structure Sound (graph : T → Itype T) (m : Marks T) (a : T) (s : State T κ) (is : Option κ)
    (pending : List T) : Prop where
  stacked : Stacked is s.heap
  worklist : Worklist (follows graph) m a s.used (s.heap.map fun c => c.2.it) pending
  once : s.pushed.Nodup
  pushed : ∀ t ∈ s.pushed, s.used t = true

variable {graph : T → Itype T} {xmalloc : List κ → κ} {m : Marks T} {a : T} {s : State T κ}
variable {is : Option κ} {pending : List T}

omit [DecidableEq κ] in
theorem Sound.push {it : T} (sound : Sound graph m a s is (it :: pending))
    (fresh : ∀ live, xmalloc live ∉ live) (unused : s.used it = false) :
    Sound graph m a (push xmalloc s is it).1 (push xmalloc s is it).2 pending where
  stacked := ⟨rfl, fresh _, sound.stacked⟩
  worklist := sound.worklist.push unused
  once := by
    refine List.nodup_cons.2 ⟨fun member => ?_, sound.once⟩
    rw [sound.pushed it member] at unused
    cases unused
  pushed := List.forall_mem_cons.2
    ⟨mark_self, fun t member => mark_iff.2 (.inr (sound.pushed t member))⟩

/-- What the loop still has to do. -/
def State.work [Fintype T] (s : State T κ) : Nat := unmarked s.used + s.heap.length

section Finite

variable [Fintype T]

omit [DecidableEq κ] in
/-- One reference. -/
theorem Sound.follow {r : Option T} {rest : List (Option T)}
    (sound : Sound graph m a s is (r :: rest).reduceOption)
    (fresh : ∀ live, xmalloc live ∉ live) :
    Sound graph m a (follow xmalloc (s, is) r).1 (follow xmalloc (s, is) r).2 rest.reduceOption ∧
      (ItReference.follow xmalloc (s, is) r).1.work = s.work := by
  cases r with
  | none => exact ⟨sound, rfl⟩
  | some it =>
    rw [List.reduceOption_cons_of_some] at sound
    rw [ItReference.follow]
    cases used : s.used it with
    | true =>
      rw [if_pos rfl]
      exact ⟨{ sound with worklist := sound.worklist.skip used }, rfl⟩
    | false =>
      rw [if_neg Bool.false_ne_true]
      refine ⟨sound.push fresh used, ?_⟩
      have fewer := unmarked_mark used
      show unmarked (mark s.used it) + (s.heap.length + 1) = unmarked s.used + s.heap.length
      omega

omit [DecidableEq κ] in
/-- All references of a type. -/
theorem Sound.followAll {refs : List (Option T)} (sound : Sound graph m a s is refs.reduceOption)
    (fresh : ∀ live, xmalloc live ∉ live) :
    ∃ t is', refs.foldl (ItReference.follow xmalloc) (s, is) = (t, is') ∧
      Sound graph m a t is' [] ∧ t.work = s.work := by
  induction refs generalizing s is with
  | nil => exact ⟨s, is, rfl, sound, rfl⟩
  | cons r refs ih =>
    obtain ⟨sound', work⟩ := sound.follow fresh
    obtain ⟨t, is', run, soundT, workT⟩ := ih sound'
    exact ⟨t, is', run, soundT, workT.trans work⟩

/-- The step lemma: the top cell is there to be read and freed, and there is less to do. -/
theorem Sound.body {top : κ} (sound : Sound graph m a s (some top) [])
    (fresh : ∀ live, xmalloc live ∉ live) :
    ∃ t is', body graph xmalloc s top = some (t, is') ∧ Sound graph m a t is' [] ∧
      t.work + 1 = s.work := by
  obtain ⟨used, heap, pushed⟩ := s
  cases heap with
  | nil => cases sound.stacked
  | cons first heap =>
    obtain ⟨p, cell⟩ := first
    obtain ⟨same, absent, stacked⟩ := sound.stacked
    cases same
    have others : ((top, cell) :: heap).filter (fun c => c.1 != top) = heap := by
      rw [List.filter_cons_of_neg (by simp)]
      refine List.filter_eq_self.2 fun c member => bne_iff_ne.2 ?_
      rintro rfl
      exact absent (List.mem_map_of_mem member)
    have taken : Sound graph m a ⟨used, heap, pushed⟩ cell.next
        (references graph cell.it).reduceOption :=
      ⟨stacked, sound.worklist.pop, sound.once, sound.pushed⟩
    obtain ⟨t, is', run, soundT, work⟩ := taken.followAll fresh
    refine ⟨t, is', ?_, soundT, ?_⟩
    · rw [ItReference.body, List.lookup_cons_self, Option.map_some, others, run]
    · rw [work]
      rfl

/-- The run lemma: enough fuel empties the stack. -/
theorem Sound.loop (fresh : ∀ live, xmalloc live ∉ live) (n : Nat)
    (sound : Sound graph m a s is []) (work : s.work ≤ n) :
    ∃ t, (∀ fuel, n ≤ fuel → loop graph xmalloc fuel s is = some t) ∧
      Sound graph m a t none [] := by
  induction n generalizing s is with
  | zero =>
    cases is with
    | none => exact ⟨s, fun fuel _ => by rw [ItReference.loop], sound⟩
    | some top =>
      obtain ⟨t, is', run, soundT, less⟩ := sound.body fresh
      omega
  | succ n ih =>
    cases is with
    | none => exact ⟨s, fun fuel _ => by rw [ItReference.loop], sound⟩
    | some top =>
      obtain ⟨t, is', run, soundT, less⟩ := sound.body fresh
      obtain ⟨final, runs, soundFinal⟩ := ih soundT (by omega)
      refine ⟨final, fun fuel enough => ?_, soundFinal⟩
      obtain ⟨fuel, rfl⟩ : ∃ k, fuel = k + 1 := ⟨fuel - 1, by omega⟩
      rw [ItReference.loop, run]
      exact runs fuel (by omega)

omit [DecidableEq T] in
/-- A list of references, each of which is searched. -/
theorem visits_references {search : Marks T → Option T → Option (Marks T)} {depth : Nat}
    (null : ∀ m, search m none = some m)
    (each : ∀ m x, unmarked m ≤ depth →
      ∃ m', search m (some x) = some m' ∧ Visits (follows graph) m [x] m')
    (refs : List (Option T)) (m : Marks T) (enough : unmarked m ≤ depth) :
    ∃ m', refs.foldlM search m = some m' ∧ Visits (follows graph) m refs.reduceOption m' := by
  induction refs generalizing m with
  | nil => exact ⟨m, rfl, .nil⟩
  | cons r refs ih =>
    cases r with
    | none =>
      obtain ⟨m', run, visits⟩ := ih m enough
      exact ⟨m', by rw [List.foldlM_cons, null]; exact run, visits⟩
    | some x =>
      obtain ⟨m', first, visits⟩ := each m x enough
      obtain ⟨m'', rest, visits'⟩ := ih m' (Nat.le_trans (unmarked_mono visits.kept) enough)
      exact ⟨m'', by rw [List.foldlM_cons, first]; exact rest, visits.cons visits'⟩

/-- The replaced version is a recursive search. -/
theorem itReferenceRec_visits (graph : T → Itype T) (depth : Nat) (m : Marks T) (x : T)
    (enough : unmarked m ≤ depth) :
    ∃ m', itReferenceRec graph depth m (some x) = some m' ∧ Visits (follows graph) m [x] m' := by
  induction depth generalizing m x with
  | zero =>
    cases used : m x with
    | true => exact ⟨m, by rw [itReferenceRec, if_pos used], .skip used⟩
    | false =>
      have fewer := unmarked_mark used
      omega
  | succ depth ih =>
    cases used : m x with
    | true => exact ⟨m, by rw [itReferenceRec, if_pos used], .skip used⟩
    | false =>
      have fewer := unmarked_mark used
      obtain ⟨m', run, visits⟩ := visits_references (fun m => by rw [itReferenceRec])
        (fun m x enough => ih m x enough) (references graph x) (mark m x) (by omega)
      exact ⟨m', by rw [itReferenceRec, if_neg (by rw [used]; exact Bool.false_ne_true)]; exact run,
        .node used visits⟩

/-- **The stack marks what the recursion marked.** On any finite graph of types, with any of them
marked in the beginning, the patched version comes to an end, and so does the replaced one if its
calls may nest deep enough; they mark the same types, which are those reached from the argument
through types that were not marked. The patched version pushes no type twice and frees every
cell. -/
theorem itReference_marks (graph : T → Itype T) (xmalloc : List κ → κ)
    (fresh : ∀ live, xmalloc live ∉ live) (used : Marks T) (arg : Option T) :
    ∃ final : State T κ,
      (∀ fuel, Fintype.card T ≤ fuel → itReference graph xmalloc fuel used arg = some final) ∧
      (∀ depth, Fintype.card T ≤ depth → itReferenceRec graph depth used arg = some final.used) ∧
      (∀ t, final.used t = true ↔
        used t = true ∨ ∃ a ∈ arg, Reach (follows graph) used a t) ∧
      final.pushed.Nodup ∧ final.heap = [] := by
  cases arg with
  | none =>
    refine ⟨⟨used, [], []⟩, fun fuel _ => rfl, fun depth _ => by rw [itReferenceRec], fun t => ?_,
      List.nodup_nil, rfl⟩
    simp
  | some a =>
    obtain ⟨final, runs, explored, once, freed⟩ : ∃ final : State T κ,
        (∀ fuel, Fintype.card T ≤ fuel →
          itReference graph xmalloc fuel used (some a) = some final) ∧
        Explored (follows graph) used a final.used ∧ final.pushed.Nodup ∧ final.heap = [] := by
      cases marked : used a with
      | true =>
        exact ⟨⟨used, [], []⟩, fun fuel _ => by rw [itReference, if_pos marked],
          .of_marked marked, List.nodup_nil, rfl⟩
      | false =>
        have start : Sound graph used a (push xmalloc ⟨used, [], []⟩ none a).1
            (push xmalloc ⟨used, [], []⟩ none a).2 [] :=
          ⟨⟨rfl, fresh _, rfl⟩, .start marked, List.nodup_singleton a,
            fun t member => by rw [List.mem_singleton.1 member]; exact mark_self⟩
        have work : (push xmalloc ⟨used, [], []⟩ none a).1.work ≤ Fintype.card T := by
          have fewer := unmarked_mark marked
          have bound := unmarked_le_card (m := used)
          show unmarked (mark used a) + 1 ≤ Fintype.card T
          omega
        obtain ⟨final, runs, sound⟩ := start.loop fresh _ work
        have freed : final.heap = [] := by
          cases heap : final.heap with
          | nil => rfl
          | cons first heap =>
            have stacked := sound.stacked
            rw [heap] at stacked
            cases stacked.1
        refine ⟨final, fun fuel enough => ?_, ?_, sound.once, freed⟩
        · rw [itReference, if_neg (by rw [marked]; exact Bool.false_ne_true)]
          exact runs fuel enough
        · have worklist := sound.worklist
          rw [freed] at worklist
          exact worklist.explored
    refine ⟨final, runs, fun depth enough => ?_, fun t => ?_, once, freed⟩
    · obtain ⟨m', run, visits⟩ :=
        itReferenceRec_visits graph depth used a (Nat.le_trans unmarked_le_card enough)
      rw [run, visits.explored.unique explored]
    · rw [explored t]
      simp

end Finite

/-- Two types that refer to each other, one of them twice to itself. -/
def cyclic (it : Bool) : Itype Bool :=
  if it then ⟨some false, [some true, none, some true]⟩ else ⟨some true, [some false]⟩

def nextAddress (live : List Nat) : Nat := live.foldr max 0 + 1

theorem nextAddress_fresh (live : List Nat) : nextAddress live ∉ live := by
  have bound (p : Nat) (member : p ∈ live) : p ≤ live.foldr max 0 := by
    induction live with
    | nil => cases member
    | cons q live ih =>
      rw [List.foldr_cons]
      rcases List.mem_cons.1 member with rfl | member
      · exact Nat.le_max_left _ _
      · exact Nat.le_trans (ih member) (Nat.le_max_right _ _)
  intro member
  exact Nat.not_succ_le_self _ (bound _ member)

theorem itReference_marks_cyclic :
    ∃ final : State Bool Nat,
      (∀ fuel, Fintype.card Bool ≤ fuel →
        itReference cyclic nextAddress fuel (fun _ => false) (some true) = some final) ∧
      (∀ depth, Fintype.card Bool ≤ depth →
        itReferenceRec cyclic depth (fun _ => false) (some true) = some final.used) ∧
      final.pushed.Nodup ∧ final.heap = [] := by
  obtain ⟨final, runs, agrees, -, once, freed⟩ := itReference_marks cyclic nextAddress
    nextAddress_fresh (fun _ => false) (some true)
  exact ⟨final, runs, agrees, once, freed⟩

end SecurityAudits.OpenbsdBin.ItReference
