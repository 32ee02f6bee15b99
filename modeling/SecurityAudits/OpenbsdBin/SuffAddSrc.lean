import Mathlib.Data.List.Nodup
import Mathlib.Data.List.Perm.Subperm
import Mathlib.Logic.Relation
import SecurityAudits.Lib.Expansion

/-!
# Implicit sources

`make` looks for a file that a target can be made from (`make/suff.c`): a suffix has those it can be
transformed from as its children, and every candidate that does not exist is expanded to its own
candidates, level by level. `SuffAddSrc` makes a candidate, unless its suffix and prefix occur in the
parent chain already.

`SuffFindThem` is a search of `Lib.Expansion`: `waiting` is the queue `srcs`, `tried` the list `slst`
and `hit` the result `rs`. Whether a file exists is a parameter.
-/

namespace SecurityAudits.OpenbsdBin.SuffAddSrc
set_option autoImplicit false

open SecurityAudits.Run SecurityAudits.Expansion

/-! ## The functions -/

abbrev Name := List UInt8

variable {Suff : Type} [DecidableEq Suff]

/-- The suffixes there are, their names and the rules between them: `children s` are those from which
`s` is made. -/
structure Graph (Suff : Type) where
  sufflist : List Suff
  name : Suff → Name
  children : Suff → List Suff
  closed : ∀ s ∈ sufflist, ∀ child ∈ children s, child ∈ sufflist

/-- A `Src` without its `parent` -/
structure Entry (Suff : Type) where
  file : Name
  pre : Name
  suff : Suff
  deriving DecidableEq, Repr

/-- `Src`: a target, whose `parent` is `NULL`, or a candidate source. -/
inductive Src (Suff : Type) where
  | target (entry : Entry Suff)
  | source (entry : Entry Suff) (parent : Src Suff)
  deriving DecidableEq, Repr

def Src.entry : Src Suff → Entry Suff
  | .target entry => entry
  | .source entry _ => entry

/-- Whether a suffix and a prefix occur on the way along `parent`. -/
def Src.occurs (s : Suff) (pre : Name) : Src Suff → Bool
  | .target entry => decide (entry.suff = s) && decide (entry.pre = pre)
  | .source entry parent =>
    (decide (entry.suff = s) && decide (entry.pre = pre)) || parent.occurs s pre

variable (g : Graph Suff) (fileExists : Entry Suff → Bool)

/-- `SuffAddSrc`, for a child `s` of the suffix of `targ` -/
def suffAddSrc (targ : Src Suff) (l : List (Src Suff)) (s : Suff) : List (Src Suff) :=
  if targ.occurs s targ.entry.pre then l
  else l ++ [.source ⟨targ.entry.pre ++ g.name s, targ.entry.pre, s⟩ targ]

/-- `SuffAddLevel` -/
def suffAddLevel (l : List (Src Suff)) (targ : Src Suff) : List (Src Suff) :=
  (g.children targ.entry.suff).foldl (suffAddSrc g targ) l

/-- An iteration of `SuffFindThem` -/
def findIteration : Search (Src Suff) → Option (Search (Src Suff))
  | ⟨_, _, some _⟩ => none
  | ⟨[], _, none⟩ => none
  | ⟨s :: srcs, slst, none⟩ =>
    if fileExists s.entry then some ⟨srcs, slst, some s⟩
    else some ⟨suffAddLevel g srcs s, slst ++ [s], none⟩

/-- `srcs` after `record_possible_suffix` for the targets. -/
def recordPossibleSuffixes (targs : List (Entry Suff)) : List (Src Suff) :=
  targs.foldl (fun srcs targ => suffAddLevel g srcs (.target targ)) []

/-! ## The expansion as a list -/

/-- The candidates for which `targ` is the parent. -/
def candidates (targ : Src Suff) : List (Src Suff) :=
  ((g.children targ.entry.suff).filter fun s => !targ.occurs s targ.entry.pre).map fun s =>
    .source ⟨targ.entry.pre ++ g.name s, targ.entry.pre, s⟩ targ

variable {g fileExists} {targs : List (Entry Suff)} {src targ : Src Suff} {e : Entry Suff} {s : Suff}

theorem suffAddLevel_eq (l : List (Src Suff)) (targ : Src Suff) :
    suffAddLevel g l targ = l ++ candidates g targ := by
  unfold suffAddLevel candidates
  induction g.children targ.entry.suff generalizing l with
  | nil => exact (List.append_nil l).symm
  | cons s rest ih =>
    rw [List.foldl_cons, ih, suffAddSrc]
    split
    case isTrue cut => rw [List.filter_cons_of_neg (by rw [cut]; decide)]
    case isFalse new =>
      rw [List.filter_cons_of_pos (by rw [Bool.eq_false_iff.2 new]; rfl), List.append_assoc]
      rfl

theorem findIteration_eq : findIteration g fileExists =
    next (fun s => fileExists s.entry) (candidates g) := by
  funext q
  obtain ⟨srcs, slst, rs⟩ := q
  cases rs with
  | some _ => rfl
  | none =>
    cases srcs with
    | nil => rfl
    | cons s srcs => rw [findIteration, next, suffAddLevel_eq]

theorem mem_recordPossibleSuffixes :
    src ∈ recordPossibleSuffixes g targs ↔ ∃ e ∈ targs, src ∈ candidates g (.target e) := by
  have joined : ∀ l : List (Src Suff),
      targs.foldl (fun srcs targ => suffAddLevel g srcs (.target targ)) l =
        l ++ targs.flatMap fun e => candidates g (.target e) := by
    intro l
    induction targs generalizing l with
    | nil => exact (List.append_nil l).symm
    | cons e targs ih =>
      rw [List.foldl_cons, ih, suffAddLevel_eq, List.flatMap_cons, List.append_assoc]
  rw [recordPossibleSuffixes, joined, List.nil_append, List.mem_flatMap]

theorem mem_candidates : src ∈ candidates g targ ↔
    ∃ s ∈ g.children targ.entry.suff, targ.occurs s targ.entry.pre = false ∧
      src = .source ⟨targ.entry.pre ++ g.name s, targ.entry.pre, s⟩ targ := by
  rw [candidates, List.mem_map]
  constructor
  · rintro ⟨s, mem, rfl⟩
    obtain ⟨child, new⟩ := List.mem_filter.1 mem
    exact ⟨s, child, by simpa using new, rfl⟩
  · rintro ⟨s, child, new, rfl⟩
    exact ⟨s, List.mem_filter.2 ⟨child, by rw [new]; rfl⟩, rfl⟩

/-! ## Parent chains -/

/-- What is on the way along `parent`, itself included. -/
def Src.chain : Src Suff → List (Entry Suff)
  | .target entry => [entry]
  | .source entry parent => entry :: parent.chain

/-- The target at the end of the chain. -/
def Src.root : Src Suff → Entry Suff
  | .target entry => entry
  | .source _ parent => parent.root

/-- A chain of known suffixes, with one prefix and no suffix twice. -/
structure Chained (g : Graph Suff) (src : Src Suff) : Prop where
  one : ∀ e ∈ src.chain, e.pre = src.root.pre
  distinct : (src.chain.map Entry.suff).Nodup
  known : ∀ e ∈ src.chain, e.suff ∈ g.sufflist

section
omit [DecidableEq Suff]

theorem Src.entry_mem_chain (src : Src Suff) : src.entry ∈ src.chain := by
  cases src with
  | target entry => exact List.mem_singleton_self _
  | source entry parent => exact List.mem_cons_self ..

theorem Src.root_mem_chain (src : Src Suff) : src.root ∈ src.chain := by
  induction src with
  | target entry => exact List.mem_singleton_self _
  | source entry parent ih => exact List.mem_cons_of_mem _ ih

theorem chained_target (known : e.suff ∈ g.sufflist) : Chained g (.target e) where
  one := List.forall_mem_singleton.2 rfl
  distinct := List.nodup_singleton _
  known := List.forall_mem_singleton.2 known

theorem Chained.pre (chained : Chained g src) : src.entry.pre = src.root.pre :=
  chained.one _ src.entry_mem_chain

/-- A chain is no longer than the list of the suffixes. -/
theorem Chained.length_le (chained : Chained g src) : src.chain.length ≤ g.sufflist.length := by
  have subset : src.chain.map Entry.suff ⊆ g.sufflist := by
    intro s mem
    obtain ⟨e, onChain, rfl⟩ := List.mem_map.1 mem
    exact chained.known e onChain
  have short := (chained.distinct.subperm subset).length_le
  rwa [List.length_map] at short

end

theorem Src.occurs_iff {pre : Name} :
    src.occurs s pre = true ↔ ∃ e ∈ src.chain, e.suff = s ∧ e.pre = pre := by
  induction src with
  | target entry => simp [Src.occurs, Src.chain]
  | source entry parent ih => simp [Src.occurs, Src.chain, ih]

/-- The cut is at the suffixes of the chain. -/
theorem Chained.occurs_iff (chained : Chained g src) :
    src.occurs s src.entry.pre = true ↔ ∃ e ∈ src.chain, e.suff = s := by
  rw [Src.occurs_iff, chained.pre]
  exact ⟨fun ⟨e, mem, same, _⟩ => ⟨e, mem, same⟩,
    fun ⟨e, mem, same⟩ => ⟨e, mem, same, chained.one e mem⟩⟩

theorem Chained.candidate (chained : Chained g targ) (mem : src ∈ candidates g targ) :
    Chained g src := by
  obtain ⟨s, child, new, rfl⟩ := mem_candidates.1 mem
  refine ⟨List.forall_mem_cons.2 ⟨chained.pre, chained.one⟩,
    List.nodup_cons.2 ⟨fun old => ?_, chained.distinct⟩,
    List.forall_mem_cons.2 ⟨g.closed _ (chained.known _ targ.entry_mem_chain) s child,
      chained.known⟩⟩
  obtain ⟨e, onChain, same⟩ := List.mem_map.1 old
  rw [chained.occurs_iff.2 ⟨e, onChain, same⟩] at new
  cases new

/-! ## The search -/

/-- The candidates that the search comes to if nothing stops it. -/
abbrev Candidate (g : Graph Suff) (targs : List (Entry Suff)) : Src Suff → Prop :=
  From (candidates g) (recordPossibleSuffixes g targs)

theorem Candidate.chained (known : ∀ t ∈ targs, t.suff ∈ g.sufflist)
    (candidate : Candidate g targs src) : Chained g src := by
  induction candidate with
  | here mem =>
    obtain ⟨e, targ, mem⟩ := mem_recordPossibleSuffixes.1 mem
    exact (chained_target (known e targ)).candidate mem
  | step _ mem ih => exact ih.candidate mem

/-- How much longer a chain could get. -/
def room (g : Graph Suff) (src : Src Suff) : Nat := g.sufflist.length - src.chain.length

theorem room_candidate (chained : Chained g targ) (mem : src ∈ candidates g targ) :
    room g src < room g targ := by
  have short := (chained.candidate mem).length_le
  obtain ⟨s, _, _, rfl⟩ := mem_candidates.1 mem
  rw [Src.chain, List.length_cons] at short
  rw [room, room, Src.chain, List.length_cons]
  omega

/-- The parent of a candidate is a target or a candidate. -/
theorem Candidate.parent {parent : Src Suff} (candidate : Candidate g targs (.source e parent)) :
    (∃ t ∈ targs, parent = .target t) ∨ Candidate g targs parent := by
  cases candidate with
  | here mem =>
    obtain ⟨t, targ, mem⟩ := mem_recordPossibleSuffixes.1 mem
    obtain ⟨s, _, _, same⟩ := mem_candidates.1 mem
    cases same
    exact .inl ⟨t, targ, rfl⟩
  | step above mem =>
    obtain ⟨s, _, _, same⟩ := mem_candidates.1 mem
    cases same
    exact .inr above

/-- Everything in the chain of a candidate but the target is a candidate too. -/
theorem Candidate.ancestor (candidate : Candidate g targs src) (mem : e ∈ src.chain) :
    e = src.root ∨ ∃ above, Candidate g targs above ∧ above.root = src.root ∧ above.entry = e := by
  induction src with
  | target entry => exact .inl (List.mem_singleton.1 mem)
  | source entry parent ih =>
    rcases List.mem_cons.1 mem with rfl | mem
    · exact .inr ⟨_, candidate, rfl, rfl⟩
    · rcases candidate.parent with ⟨t, _, rfl⟩ | above
      · exact .inl (List.mem_singleton.1 mem)
      · exact ih above mem

/-- A rule: `s` can be made from `child`. -/
def Rule (g : Graph Suff) (s child : Suff) : Prop := child ∈ g.children s

theorem Chained.reached (chained : Chained g targ)
    (reach : Relation.ReflTransGen (Rule g) targ.root.suff targ.entry.suff)
    (mem : src ∈ candidates g targ) :
    Relation.ReflTransGen (Rule g) src.root.suff src.entry.suff ∧
      src.entry.suff ≠ src.root.suff := by
  obtain ⟨s, child, new, rfl⟩ := mem_candidates.1 mem
  refine ⟨reach.tail child, fun same => ?_⟩
  have old : targ.root.suff = s := Eq.symm same
  rw [chained.occurs_iff.2 ⟨_, targ.root_mem_chain, old⟩] at new
  cases new

/-- The chain of a candidate follows the rules, and does not come back to the suffix of the
target. -/
theorem Candidate.reached (known : ∀ t ∈ targs, t.suff ∈ g.sufflist)
    (candidate : Candidate g targs src) :
    Relation.ReflTransGen (Rule g) src.root.suff src.entry.suff ∧
      src.entry.suff ≠ src.root.suff := by
  induction candidate with
  | here mem =>
    obtain ⟨t, targ, mem⟩ := mem_recordPossibleSuffixes.1 mem
    exact (chained_target (known t targ)).reached .refl mem
  | step above mem ih => exact (Candidate.chained known above).reached ih.1 mem

/-- What a target can be made from, along the rules, has a candidate for that target. The induction
is on the rules; where one is cut, the suffix has a candidate further up the chain. -/
theorem exists_candidate (known : ∀ t ∈ targs, t.suff ∈ g.sufflist) {t : Entry Suff}
    (targ : t ∈ targs) (reach : Relation.ReflTransGen (Rule g) t.suff s) :
    s = t.suff ∨ ∃ src, Candidate g targs src ∧ src.root = t ∧ src.entry.suff = s := by
  induction reach with
  | refl => exact .inl rfl
  | @tail middle s _ rule ih =>
    rcases ih with rfl | ⟨above, candidate, root, rfl⟩
    · cases cut : (Src.target t).occurs s t.pre with
      | true =>
        obtain ⟨e, onChain, same⟩ := (chained_target (known t targ)).occurs_iff.1 cut
        rw [← same, List.mem_singleton.1 onChain]
        exact .inl rfl
      | false =>
        have new : Src.source ⟨t.pre ++ g.name s, t.pre, s⟩ (.target t) ∈
            candidates g (.target t) := mem_candidates.2 ⟨s, rule, cut, rfl⟩
        exact .inr ⟨_, .here (mem_recordPossibleSuffixes.2 ⟨t, targ, new⟩), rfl, rfl⟩
    · cases cut : above.occurs s above.entry.pre with
      | true =>
        obtain ⟨e, onChain, same⟩ := (candidate.chained known).occurs_iff.1 cut
        rcases candidate.ancestor onChain with top | ⟨src, here, root', entry⟩
        · exact .inl (by rw [← same, top, root])
        · exact .inr ⟨src, here, root'.trans root, by rw [entry, same]⟩
      | false =>
        exact .inr ⟨_, candidate.step (mem_candidates.2 ⟨s, rule, cut, rfl⟩), root, rfl⟩

/-- The file of a candidate is made of the prefix of the target and its own suffix. -/
theorem Candidate.entry_eq (known : ∀ t ∈ targs, t.suff ∈ g.sufflist)
    (candidate : Candidate g targs src) :
    src.entry = ⟨src.root.pre ++ g.name src.entry.suff, src.root.pre, src.entry.suff⟩ := by
  have pre := (candidate.chained known).pre
  cases candidate with
  | here mem =>
    obtain ⟨t, _, mem⟩ := mem_recordPossibleSuffixes.1 mem
    obtain ⟨s, _, _, rfl⟩ := mem_candidates.1 mem
    rfl
  | @step above _ _ mem =>
    obtain ⟨s, _, _, rfl⟩ := mem_candidates.1 mem
    have same : above.entry.pre = above.root.pre := pre
    exact congrArg (fun pre => Entry.mk (pre ++ g.name s) pre s) same

/-- **The search for implicit sources.** For every graph of rules, with any cycles, and any targets:
no parent chain has a suffix and a prefix twice, and the search ends. If it has not come to a file
that exists, its candidates for a target are those of the suffixes, except the target's own, that can
be reached from it along the rules. -/
theorem search_complete (g : Graph Suff) (fileExists : Entry Suff → Bool)
    (targs : List (Entry Suff)) (known : ∀ t ∈ targs, t.suff ∈ g.sufflist) :
    (∀ n q, loop (findIteration g fileExists) n ⟨recordPossibleSuffixes g targs, [], none⟩ = some q →
      ∀ src ∈ q.items, (src.chain.map fun e => (e.suff, e.pre)).Nodup) ∧
    ∃ n q, loop (findIteration g fileExists) n ⟨recordPossibleSuffixes g targs, [], none⟩ = some q ∧
      findIteration g fileExists q = none ∧ (∀ src, q.hit = some src → fileExists src.entry = true) ∧
      (q.hit = none → ∀ t ∈ targs, ∀ s,
        (∃ src ∈ q.tried, src.root = t ∧ src.entry = ⟨t.pre ++ g.name s, t.pre, s⟩) ↔
          Relation.ReflTransGen (Rule g) t.suff s ∧ s ≠ t.suff) := by
  rw [findIteration_eq]
  constructor
  · intro n q ran src mem
    have candidate := ((spread_start _).loop ran).sound src mem
    refine List.Nodup.of_map Prod.fst ?_
    rw [List.map_map]
    exact (Candidate.chained known candidate).distinct
  · obtain ⟨n, q, ran, ended⟩ := ends (fun src => fileExists src.entry) (room g)
      fun _ candidate _ mem => room_candidate (Candidate.chained known candidate) mem
    have spread := (spread_start _).loop ran
    refine ⟨n, q, ran, ended, spread.stopped, fun missed t targ s => ⟨?_, ?_⟩⟩
    · rintro ⟨src, mem, rfl, entry⟩
      have reached := Candidate.reached known ((spread.tried_iff ended missed).1 mem)
      rwa [entry] at reached
    · rintro ⟨reach, other⟩
      obtain ⟨src, candidate, rfl, rfl⟩ := (exists_candidate known targ reach).resolve_left other
      exact ⟨src, (spread.tried_iff ended missed).2 candidate, rfl, candidate.entry_eq known⟩

/-- The suffixes `.a`, `.b` and `.c` -/
inductive Dot where
  | a
  | b
  | c
  deriving DecidableEq, Repr

def Dot.name : Dot → Name
  | .a => [46, 97]
  | .b => [46, 98]
  | .c => [46, 99]

/-- `.b` makes `.a`, and `.b` and `.c` make each other. -/
def cycle : Graph Dot where
  sufflist := [.a, .b, .c]
  name := Dot.name
  children := fun s => if s = .b then [.c] else [.b]
  closed := by decide

/-- `foo.a` -/
def fooA : Entry Dot := ⟨[102, 111, 111, 46, 97], [102, 111, 111], .a⟩

/-- The candidates for `foo.a` when no file exists: `foo.b` and `foo.c`. -/
theorem search_complete_cycle :
    ∃ n q, loop (findIteration cycle fun _ => false) n
        ⟨recordPossibleSuffixes cycle [fooA], [], none⟩ = some q ∧
      findIteration cycle (fun _ => false) q = none ∧
      ∀ s ∈ [Dot.b, Dot.c], ∃ src ∈ q.tried, src.root = fooA ∧
        src.entry = ⟨fooA.pre ++ cycle.name s, fooA.pre, s⟩ := by
  obtain ⟨-, n, q, ran, ended, stopped, complete⟩ :=
    search_complete cycle (fun _ => false) [fooA] (by decide)
  have missed : q.hit = none := by
    cases hit : q.hit with
    | none => rfl
    | some src => cases stopped src hit
  have toB : Relation.ReflTransGen (Rule cycle) .a .b := .single (List.mem_singleton_self Dot.b)
  have toC : Relation.ReflTransGen (Rule cycle) .a .c := toB.tail (List.mem_singleton_self Dot.c)
  refine ⟨n, q, ran, ended, List.forall_mem_cons.2 ⟨?_, List.forall_mem_singleton.2 ?_⟩⟩
  · exact (complete missed fooA (List.mem_singleton_self _) .b).2 ⟨toB, by decide⟩
  · exact (complete missed fooA (List.mem_singleton_self _) .c).2 ⟨toC, by decide⟩

/-- `.a` and `.b` make each other. -/
def back : Graph Dot where
  sufflist := [.a, .b]
  name := Dot.name
  children := fun s => if s = .b then [.a] else [.b]
  closed := by decide

/-- A suffix that is reached along the rules and has no candidate: `.a` for `foo.a`, whose chain begins
with it. -/
theorem own_suffix_cut :
    ¬ ∀ (g : Graph Dot) (targs : List (Entry Dot)), (∀ t ∈ targs, t.suff ∈ g.sufflist) →
      ∀ n q, loop (findIteration g fun _ => false) n ⟨recordPossibleSuffixes g targs, [], none⟩ =
          some q → findIteration g (fun _ => false) q = none →
        ∀ t ∈ targs, ∀ s, Relation.TransGen (Rule g) t.suff s → ∃ src ∈ q.tried, src.entry.suff = s := by
  intro kept
  have there : Rule back .a .b := List.mem_singleton_self Dot.b
  have again : Rule back .b .a := List.mem_singleton_self Dot.a
  have known : ∀ t ∈ [fooA], t.suff ∈ back.sufflist := by decide
  have ran : loop (findIteration back fun _ => false) 1
      ⟨recordPossibleSuffixes back [fooA], [], none⟩ =
      some ⟨[], recordPossibleSuffixes back [fooA], none⟩ := by decide
  obtain ⟨src, mem, suff⟩ := kept back [fooA] known _ _ ran rfl fooA (List.mem_singleton_self _)
    .a (.tail (.single there) again)
  have other : ∀ src ∈ recordPossibleSuffixes back [fooA], src.entry.suff ≠ .a := by decide
  exact other src mem suff

end SecurityAudits.OpenbsdBin.SuffAddSrc
