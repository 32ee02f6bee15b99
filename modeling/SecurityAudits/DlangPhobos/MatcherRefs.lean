import SecurityAudits.Lib.Run
import Mathlib.Algebra.Order.Ring.Nat
import Mathlib.Data.List.Nodup
import Mathlib.Logic.Function.Basic

/-!
# The references to a matcher

The copies of a `RegexMatch` share one matcher, whose factory counts them: `incRef` for a new copy,
`decRef` for one that is destroyed, and the last of these frees the matcher (`std/regex/internal/ir.d`).
The copies may be in any threads, so a step is one atomic access to the count, and the calls interleave
in any way.

An access to storage that has been freed has no result, and neither has an assertion that fails.
`Owns` is what the owners of the copies keep to: none is used after its destruction has begun.
-/

namespace SecurityAudits.DlangPhobos.MatcherRefs
set_option autoImplicit false
open SecurityAudits.Run

variable {Ref : Type}

/-- Where a copy is in its life. -/
inductive Phase where
  | unborn
  | held
  /-- In `decRef`, after the assertion. -/
  | asserted
  /-- In `decRef`, before `pureFree`. -/
  | freeing
  | destroyed
  deriving DecidableEq, Repr

/-- The copy is one of those in the count. -/
def Phase.counts : Phase → Bool
  | .held | .asserted => true
  | _ => false

structure State (Ref : Type) where
  /-- `m.refCount`, a `size_t` -/
  refCount : Nat
  freed : Bool
  phase : Ref → Phase

inductive Action (Ref : Type) where
  /-- `incRef` for `copy`, made of `r` -/
  | incRef (r copy : Ref)
  /-- `assert(atomicLoad(m.refCount) != 0)` -/
  | load (r : Ref)
  /-- `auto cnt = atomicOp!"-="(m.refCount, 1)` -/
  | subtract (r : Ref)
  /-- `pureFree` -/
  | free (r : Ref)

variable [DecidableEq Ref]

def State.goto (s : State Ref) (r : Ref) (phase : Phase) : State Ref :=
  { s with phase := Function.update s.phase r phase }

/-- `incRef` and `decRef`, an access at a time -/
def step (s : State Ref) (a : Action Ref) : Option (State Ref) :=
  if s.freed then none
  else match a with
    | .incRef _ copy => some { s.goto copy .held with refCount := (s.refCount + 1) % 2 ^ 64 }
    | .load r => if s.refCount ≠ 0 then some (s.goto r .asserted) else none
    | .subtract r =>
      let cnt := (s.refCount + (2 ^ 64 - 1)) % 2 ^ 64
      some { s.goto r (if cnt = 0 then .freeing else .destroyed) with refCount := cnt }
    | .free r => some { s.goto r .destroyed with freed := true }

/-- The matcher with its first copy. -/
def created (r : Ref) : State Ref := ⟨1, false, Function.update (fun _ => .unborn) r .held⟩

omit [DecidableEq Ref] in
/-- The calls are those of the copies, and there are fewer copies than a `size_t` counts. -/
def Owns (s : State Ref) : Action Ref → Prop
  | .incRef r copy => s.phase r = .held ∧ s.phase copy = .unborn ∧ s.refCount + 1 < 2 ^ 64
  | .load r => s.phase r = .held
  | .subtract r => s.phase r = .asserted
  | .free r => s.phase r = .freeing

/-! ## The count -/

section

omit [DecidableEq Ref]

structure Inv (s : State Ref) (live : List Ref) : Prop where
  nodup : live.Nodup
  mem_iff : ∀ r, r ∈ live ↔ (s.phase r).counts = true
  count : s.refCount = live.length
  small : live.length < 2 ^ 64
  /-- The copy that frees the matcher is alone. -/
  last : ∀ r, s.phase r = .freeing → live = [] ∧ s.freed = false ∧ ∀ q, s.phase q = .freeing → q = r
  /-- Without copies the matcher is freed, or will be. -/
  unused : live = [] → s.freed = true ∨ ∃ r, s.phase r = .freeing
  used : live ≠ [] → s.freed = false

end

variable {s t : State Ref} {live : List Ref} {r q : Ref} {phase : Phase}

theorem goto_self : (s.goto r phase).phase r = phase := Function.update_self ..

theorem goto_other (other : q ≠ r) : (s.goto r phase).phase q = s.phase q :=
  Function.update_of_ne other ..

theorem inv_created (r : Ref) : Inv (created r) [r] where
  nodup := List.nodup_singleton r
  mem_iff q := by
    rw [List.mem_singleton, created]
    by_cases same : q = r
    · subst same
      simp [Phase.counts]
    · simp [Phase.counts, same]
  count := rfl
  small := Nat.one_lt_two_pow (by decide)
  last q freeing := by
    rw [created] at freeing
    by_cases same : q = r
    · subst same
      simp at freeing
    · simp [same] at freeing
  unused := nofun
  used _ := rfl

section

omit [DecidableEq Ref]

theorem Inv.mem_of_held (inv : Inv s live) (held : s.phase r = .held) : r ∈ live :=
  (inv.mem_iff r).2 (by rw [held]; rfl)

theorem Inv.mem_of_asserted (inv : Inv s live) (asserted : s.phase r = .asserted) : r ∈ live :=
  (inv.mem_iff r).2 (by rw [asserted]; rfl)

theorem Inv.not_freeing (inv : Inv s live) (mem : r ∈ live) (q : Ref) : s.phase q ≠ .freeing :=
  fun freeing => List.ne_nil_of_mem mem (inv.last q freeing).1

theorem Inv.not_freed (inv : Inv s live) (mem : r ∈ live) : s.freed = false :=
  inv.used (List.ne_nil_of_mem mem)

end

/-- A copy moves, and is in the count as before. -/
theorem Inv.mem_goto (inv : Inv s live) (same : phase.counts = (s.phase r).counts) (q : Ref) :
    q ∈ live ↔ ((s.goto r phase).phase q).counts = true := by
  rw [inv.mem_iff]
  by_cases is : q = r
  · rw [is, goto_self, same]
  · rw [goto_other is]

/-- No copy is about to free the matcher when one of those in the count has moved. -/
theorem Inv.not_freeing_goto (inv : Inv s live) (mem : r ∈ live) (c : Ref) (phase : Phase)
    (busy : phase ≠ .freeing) (q : Ref) : (s.goto c phase).phase q ≠ .freeing := by
  by_cases is : q = c
  · rw [is, goto_self]
    exact busy
  · rw [goto_other is]
    exact inv.not_freeing mem q

theorem Inv.incRef {copy : Ref} (inv : Inv s live) (held : s.phase r = .held)
    (new : s.phase copy = .unborn) (room : s.refCount + 1 < 2 ^ 64) :
    ∃ t, step s (.incRef r copy) = some t ∧ Inv t (copy :: live) := by
  have mem := inv.mem_of_held held
  have other : copy ∉ live := fun mem => by
    have counts := (inv.mem_iff copy).1 mem
    rw [new] at counts
    cases counts
  have none := inv.not_freeing_goto mem copy .held (by decide)
  refine ⟨{ s.goto copy .held with refCount := (s.refCount + 1) % 2 ^ 64 }, ?_, ?_⟩
  · rw [step, inv.not_freed mem]
    rfl
  refine ⟨List.nodup_cons.2 ⟨other, inv.nodup⟩, fun q => ?_, ?_, ?_, fun q freeing => absurd freeing (none q),
    nofun, fun _ => inv.not_freed mem⟩
  · by_cases is : q = copy
    · rw [is]
      exact iff_of_true List.mem_cons_self (by rw [goto_self]; rfl)
    · rw [List.mem_cons, or_iff_right is, inv.mem_iff]
      exact iff_of_eq (congrArg (fun phase => Phase.counts phase = true) (goto_other is).symm)
  · exact (Nat.mod_eq_of_lt room).trans (congrArg (· + 1) inv.count)
  · rw [List.length_cons, ← inv.count]
    exact room

theorem Inv.load (inv : Inv s live) (held : s.phase r = .held) :
    ∃ t, step s (.load r) = some t ∧ Inv t live := by
  have mem := inv.mem_of_held held
  have counted : s.refCount ≠ 0 := by
    rw [inv.count]
    exact (List.length_pos_of_mem mem).ne'
  have none := inv.not_freeing_goto mem r .asserted (by decide)
  refine ⟨s.goto r .asserted, ?_, ?_⟩
  · rw [step, inv.not_freed mem]
    exact if_pos counted
  · exact ⟨inv.nodup, inv.mem_goto (by rw [held]; rfl), inv.count, inv.small,
      fun q freeing => absurd freeing (none q), fun empty => absurd empty (List.ne_nil_of_mem mem),
      inv.used⟩

/-- What is left of the count by `atomicOp!"-="`. -/
theorem Inv.count_erase (inv : Inv s live) (mem : r ∈ live) :
    (s.refCount + (2 ^ 64 - 1)) % 2 ^ 64 = (live.erase r).length := by
  have positive := List.length_pos_of_mem mem
  have small := inv.small
  rw [inv.count, List.length_erase_of_mem mem,
    show live.length + (2 ^ 64 - 1) = live.length - 1 + 2 ^ 64 by omega, Nat.add_mod_right]
  exact Nat.mod_eq_of_lt (by omega)

theorem Inv.subtract (inv : Inv s live) (asserted : s.phase r = .asserted) :
    ∃ t, step s (.subtract r) = some t ∧ Inv t (live.erase r) := by
  have mem := inv.mem_of_asserted asserted
  have taken : step s (.subtract r) = some
      { s.goto r (if (live.erase r).length = 0 then .freeing else .destroyed) with
        refCount := (live.erase r).length } := by
    rw [step, inv.not_freed mem, ← inv.count_erase mem]
    rfl
  have small : (live.erase r).length < 2 ^ 64 :=
    Nat.lt_of_le_of_lt (List.erase_sublist.length_le) inv.small
  have mem_iff : ∀ phase : Phase, phase.counts = false →
      ∀ q, q ∈ live.erase r ↔ ((s.goto r phase).phase q).counts = true := by
    intro phase out q
    rw [inv.nodup.mem_erase_iff, inv.mem_iff]
    by_cases is : q = r
    · rw [is, goto_self, out]
      exact iff_of_false (fun both => both.1 rfl) nofun
    · rw [goto_other is]
      exact and_iff_right is
  refine ⟨_, taken, ?_⟩
  by_cases empty : (live.erase r).length = 0
  · rw [if_pos empty]
    refine ⟨inv.nodup.erase r, mem_iff _ rfl, rfl, small, fun q freeing => ?_, fun _ => ?_, ?_⟩
    · have only : ∀ q, (s.goto r .freeing).phase q = .freeing → q = r := fun q freeing =>
        by_contra fun other => inv.not_freeing mem q ((goto_other other).symm.trans freeing)
      refine ⟨List.length_eq_zero_iff.1 empty, inv.not_freed mem, fun p freeing' => ?_⟩
      rw [only q freeing, only p freeing']
    · exact .inr ⟨r, goto_self⟩
    · exact fun some => absurd (List.length_eq_zero_iff.1 empty) some
  · rw [if_neg empty]
    have none := inv.not_freeing_goto mem r .destroyed (by decide)
    exact ⟨inv.nodup.erase r, mem_iff _ rfl, rfl, small, fun q freeing => absurd freeing (none q),
      fun none => absurd (List.length_eq_zero_iff.2 none) empty, fun _ => inv.not_freed mem⟩

theorem Inv.free (inv : Inv s live) (freeing : s.phase r = .freeing) :
    ∃ t, step s (.free r) = some t ∧ Inv t live := by
  obtain ⟨empty, unfreed, alone⟩ := inv.last r freeing
  refine ⟨{ s.goto r .destroyed with freed := true }, ?_, ?_⟩
  · rw [step, unfreed]
    rfl
  · refine ⟨inv.nodup, inv.mem_goto (by rw [freeing]; rfl), inv.count, inv.small, fun q freeing' => ?_,
      fun _ => .inl rfl, fun some => absurd empty some⟩
    by_cases is : q = r
    · subst is
      cases goto_self.symm.trans freeing'
    · exact absurd (alone q ((goto_other is).symm.trans freeing')) is

/-- The step lemma. -/
theorem Inv.step (inv : ∃ live, Inv s live) {a : Action Ref} (owns : Owns s a) :
    ∃ t, MatcherRefs.step s a = some t ∧ ∃ live, Inv t live := by
  obtain ⟨live, inv⟩ := inv
  cases a with
  | incRef r copy =>
    obtain ⟨t, taken, after⟩ := inv.incRef owns.1 owns.2.1 owns.2.2
    exact ⟨t, taken, _, after⟩
  | load r =>
    obtain ⟨t, taken, after⟩ := inv.load owns
    exact ⟨t, taken, _, after⟩
  | subtract r =>
    obtain ⟨t, taken, after⟩ := inv.subtract owns
    exact ⟨t, taken, _, after⟩
  | free r =>
    obtain ⟨t, taken, after⟩ := inv.free owns
    exact ⟨t, taken, _, after⟩

omit [DecidableEq Ref] in
/-- The count is that of the copies, and the storage is there for as long as one needs it. -/
structure Counted (s : State Ref) : Prop where
  count : ∃ live : List Ref, live.Nodup ∧ (∀ r, r ∈ live ↔ (s.phase r).counts = true) ∧
    s.refCount = live.length
  freed_iff : s.freed = true ↔ ∀ r, (s.phase r).counts = false ∧ s.phase r ≠ .freeing
  freeing : ∀ r q, s.phase r = .freeing → s.phase q = .freeing → q = r

omit [DecidableEq Ref] in
theorem Inv.counted (inv : Inv s live) : Counted s where
  count := ⟨live, inv.nodup, inv.mem_iff, inv.count⟩
  freed_iff := by
    refine ⟨fun freed r => ⟨?_, fun freeing => ?_⟩, fun gone => ?_⟩
    · refine Bool.eq_false_iff.2 fun counts => ?_
      rw [inv.not_freed ((inv.mem_iff r).2 counts)] at freed
      cases freed
    · rw [(inv.last r freeing).2.1] at freed
      cases freed
    · have empty : live = [] := List.eq_nil_iff_forall_not_mem.2 fun r mem => by
        have counts := (inv.mem_iff r).1 mem
        rw [(gone r).1] at counts
        cases counts
      exact (inv.unused empty).resolve_right fun ⟨r, freeing⟩ => (gone r).2 freeing
  freeing r q first := (inv.last r first).2.2 q

/-- **The matcher lives as long as its copies.** However the calls of the copies interleave, no assertion
fails, nothing is read, written or freed after `pureFree`, and the matcher is freed when the last copy is
gone. -/
theorem matcher_counted (first : Ref) {as : List (Action Ref)}
    (owns : Obeys step Owns (created first) as) :
    ∃ t, exec step (created first) as = some t ∧ Counted t := by
  have enabled : ∀ (s : State Ref) a, (∃ live, Inv s live) → Owns s a →
      ∃ t, step s a = some t ∧ ∃ live, Inv t live := fun _ _ inv owns => Inv.step inv owns
  obtain ⟨t, run, live, inv⟩ := exec_of_obeys enabled ⟨_, inv_created first⟩ owns
  exact ⟨t, run, inv.counted⟩

/-- Two copies are destroyed at once. -/
def together : List (Action Nat) :=
  [.incRef 0 1, .load 0, .load 1, .subtract 0, .subtract 1, .free 1]

theorem matcher_counted_together :
    ∃ t, exec step (created 0) together = some t ∧ Counted t ∧ t.freed = true := by
  have owns : Obeys step Owns (created 0) together := by
    simp [together, Obeys, Owns, step, created, State.goto]
  obtain ⟨t, run, counted⟩ := matcher_counted 0 owns
  have freed : (exec step (created 0) together).map State.freed = some true := by decide +kernel
  rw [run] at freed
  exact ⟨t, run, counted, Option.some.inj freed⟩

end SecurityAudits.DlangPhobos.MatcherRefs
