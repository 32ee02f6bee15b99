import Mathlib.Algebra.Order.Ring.Nat
import SecurityAudits.Lib.Memory
import SecurityAudits.Lib.Run
import SecurityAudits.Lib.Traversal

/-!
# The dump of a mount list

`print_dump` of `showmount` prints the binary tree of the mounts. It went through the tree by
recursion, and does so with a stack of its own now, an array that doubles when it is full
(`usr.bin/showmount/showmount.c`).

`Lib.Traversal` says what such a stack is for. The state of the loops follows its walk (`Tracks`),
and `printDump_inorder` compares what is printed with the recursion. `strvis` and `reallocarray`
are parameters.
-/

namespace SecurityAudits.OpenbsdBin.PrintDump
set_option autoImplicit false

open Memory (Buffer Holds grow store)
open Run (loop loop_invariant loop_ends_ranked)
open Traversal (Frame Walk inorder)

/-! ## What is printed -/

/-- The names of an entry. -/
structure Mount where
  mlHost : List UInt8
  mlDirp : List UInt8
  deriving DecidableEq

/-- `struct mountlist *`: `nil` is `NULL`, and a node has `ml_left` and `ml_right`. -/
abbrev Mountlist := BinaryTree Mount

/-- `ALL`, `DIRS` and the others -/
inductive Kind where
  | all
  | dirs
  | other
  deriving DecidableEq

/-- `strvis(_, _, VIS_CSTYLE)` and `type` -/
structure Format where
  strvis : List UInt8 → List UInt8
  type : Kind

def colon : UInt8 := 0x3a

def newline : UInt8 := 0x0a

/-- The `printf` for an entry. -/
def Format.line (format : Format) (m : Mount) : List UInt8 :=
  match format.type with
  | .all => format.strvis m.mlHost ++ colon :: format.strvis m.mlDirp ++ [newline]
  | .dirs => format.strvis m.mlDirp ++ [newline]
  | .other => format.strvis m.mlHost ++ [newline]

/-- The recursion that has been replaced: the lines that it prints. -/
def printDumpRecursive (format : Format) : Mountlist → List (List UInt8)
  | .nil => []
  | .node m left right =>
    printDumpRecursive format left ++ format.line m :: printDumpRecursive format right

/-! ## The loops -/

/-- `reallocarray` to `n` pointers, which may fail, and does where the bytes of them overflow. -/
structure Reallocarray where
  succeeds : Nat → Bool
  fits : ∀ n, succeeds n = true → n * 8 < 2 ^ 64

/-- At the head of a loop, returned, left by an `errx` or an `err`, or outside the stack. -/
inductive Pc where
  | outer
  | inner
  | returned
  | tooLarge
  | reallocarray
  | outside
  deriving DecidableEq

structure State where
  pc : Pc
  mp : Mountlist
  stack : Buffer Mountlist
  stacklen : Nat
  stacksize : Nat
  printed : List (List UInt8)

def start (mp : Mountlist) : State := ⟨.outer, mp, [], 0, 0, []⟩

/-- `if (stacklen == stacksize)` -/
def State.makeRoom (realloc : Reallocarray) (s : State) : Except Pc State :=
  if s.stacklen = s.stacksize then
    let newstacksize := if s.stacksize = 0 then 32 else s.stacksize * 2 % 2 ^ 64
    if newstacksize ≤ s.stacksize then .error .tooLarge
    else if realloc.succeeds newstacksize then
      .ok { s with stack := grow s.stack newstacksize, stacksize := newstacksize }
    else .error .reallocarray
  else .ok s

/-- The body of the inner loop. -/
def State.push (realloc : Reallocarray) (s : State) : State :=
  match s.makeRoom realloc with
  | .error pc => { s with pc := pc }
  | .ok s =>
    match store s.stack s.stacklen s.mp with
    | some stack => { s with stack := stack, stacklen := s.stacklen + 1, mp := s.mp.left }
    | none => { s with pc := .outside }

/-- What comes behind the inner loop. -/
def State.pop (format : Format) (s : State) : State :=
  if s.stacklen = 0 then { s with pc := .outside }
  else
    match s.stack[s.stacklen - 1]? with
    | some (some (.node m _ right)) =>
      { s with pc := .outer, stacklen := s.stacklen - 1, printed := s.printed ++ [format.line m],
               mp := right }
    | _ => { s with pc := .outside }

/-- One iteration of the inner loop, or a step from one loop to the other. -/
def step (format : Format) (realloc : Reallocarray) (s : State) : Option State :=
  match s.pc with
  | .outer => some { s with pc := if s.mp ≠ .nil ∨ s.stacklen ≠ 0 then .inner else .returned }
  | .inner => some (if s.mp ≠ .nil then s.push realloc else s.pop format)
  | _ => none

/-! ## The state follows the walk -/

variable {format : Format} {realloc : Reallocarray} {mp : Mountlist} {s t : State} {w : Walk Mount}

/-- `reallocarray` refuses a stack for the tree `mp`. -/
def Refuses (realloc : Reallocarray) (mp : Mountlist) : Prop :=
  ∃ n ≤ max 32 (2 * mp.height), realloc.succeeds n = false

/-- Where the loops stand: the inner one has something to take, nothing is pending behind the outer
one, and only `reallocarray` gives an error. -/
def Standing (realloc : Reallocarray) (mp : Mountlist) (s : State) (w : Walk Mount) : Prop :=
  match s.pc with
  | .outer => True
  | .inner => s.mp ≠ .nil ∨ s.stacklen ≠ 0
  | .returned => w.pending = []
  | .reallocarray => Refuses realloc mp
  | .tooLarge => False
  | .outside => False

structure Tracks (format : Format) (realloc : Reallocarray) (mp : Mountlist) (s : State)
    (w : Walk Mount) : Prop where
  here : s.mp = w.here
  stack : Holds s.stack (w.above.reverse.map Frame.tree)
  stacklen : s.stacklen = w.above.length
  /-- `stacksize` is the size of the stack. -/
  stacksize : s.stack.length = s.stacksize
  fits : s.stacksize * 8 < 2 ^ 64
  within : w.Within mp.height
  printed : s.printed ++ w.pending.map format.line = (inorder mp).map format.line
  standing : Standing realloc mp s w

theorem tracks_start : Tracks format realloc mp (start mp) (Walk.start mp) where
  here := rfl
  stack := Memory.holds_nil
  stacklen := rfl
  stacksize := rfl
  fits := Nat.two_pow_pos 64
  within := Traversal.within_start mp
  printed := by rw [Traversal.pending_start]; rfl
  standing := trivial

theorem Tracks.sound (tracks : Tracks format realloc mp s w) :
    s.pc ≠ .tooLarge ∧ s.pc ≠ .outside := by
  have standing := tracks.standing
  rw [Standing] at standing
  constructor
  · intro pc
    rw [pc] at standing
    exact standing
  · intro pc
    rw [pc] at standing
    exact standing

theorem Tracks.inner (tracks : Tracks format realloc mp s w) (pc : s.pc = .inner) :
    s.mp ≠ .nil ∨ s.stacklen ≠ 0 := by
  have standing := tracks.standing
  rw [Standing, pc] at standing
  exact standing

/-- There is room for one more on the stack, or `reallocarray` has refused it. -/
theorem Tracks.makeRoom (tracks : Tracks format realloc mp s w) :
    (∃ stack size, s.makeRoom realloc = .ok { s with stack := stack, stacksize := size } ∧
      Holds stack (w.above.reverse.map Frame.tree) ∧ stack.length = size ∧ size * 8 < 2 ^ 64 ∧
      s.stacklen < size) ∨
    s.makeRoom realloc = .error .reallocarray ∧ Refuses realloc mp := by
  have inside := tracks.stack.length_le
  rw [List.length_map, List.length_reverse, ← tracks.stacklen, tracks.stacksize] at inside
  have low := tracks.within.here
  rw [← tracks.stacklen] at low
  have fits := tracks.fits
  rw [State.makeRoom]
  by_cases full : s.stacklen = s.stacksize
  · rw [if_pos full]
    obtain ⟨new, doubled, larger, bound⟩ : ∃ new,
        (if s.stacksize = 0 then 32 else s.stacksize * 2 % 2 ^ 64) = new ∧ s.stacksize < new ∧
          new ≤ max 32 (2 * mp.height) := by
      refine ⟨_, rfl, ?_, ?_⟩
      · split <;> omega
      · split <;> omega
    rw [doubled]
    dsimp only
    rw [if_neg (Nat.not_le_of_gt larger)]
    by_cases succeeds : realloc.succeeds new = true
    · rw [if_pos succeeds]
      obtain ⟨held, length⟩ := tracks.stack.grow (tracks.stacksize.le.trans larger.le)
      exact .inl ⟨_, new, rfl, held, length, realloc.fits new succeeds, full ▸ larger⟩
    · rw [if_neg succeeds]
      exact .inr ⟨rfl, new, bound, Bool.not_eq_true _ ▸ succeeds⟩
  · rw [if_neg full]
    exact .inl ⟨s.stack, s.stacksize, rfl, tracks.stack, tracks.stacksize, fits,
      Nat.lt_of_le_of_ne inside full⟩

/-- The inner loop takes a node on the stack. -/
theorem Tracks.push {f : Frame Mount} {above : List (Frame Mount)}
    (tracks : Tracks format realloc mp s ⟨f.tree, above⟩) (inner : s.pc = .inner) :
    Tracks format realloc mp (s.push realloc) (Walk.down f above) ∧
        (s.push realloc).pc = .inner ∨
      Tracks format realloc mp (s.push realloc) ⟨f.tree, above⟩ ∧
        (s.push realloc).pc = .reallocarray := by
  rcases tracks.makeRoom with ⟨stack, size, room, held, length, fits, more⟩ | ⟨refused, refuses⟩
  · refine .inl ?_
    obtain ⟨stored, put, same, holds⟩ := held.store f.tree (by
      rw [List.length_map, List.length_reverse, length, ← tracks.stacklen]
      exact more)
    rw [List.length_map, List.length_reverse, ← tracks.stacklen] at put
    rw [State.push, room]
    dsimp only
    rw [tracks.here, put]
    refine ⟨{ tracks with
      here := rfl
      stack := ?_
      stacklen := ?_
      stacksize := same.trans length
      fits := fits
      within := tracks.within.down
      printed := ?_
      standing := ?_ }, inner⟩
    · rw [Walk.down, List.reverse_cons, List.map_append]
      exact holds
    · exact congrArg (· + 1) tracks.stacklen
    · rw [Traversal.pending_down]
      exact tracks.printed
    · rw [Standing, inner]
      exact .inr (Nat.succ_ne_zero _)
  · rw [State.push, refused]
    exact .inr ⟨{ tracks with standing := refuses }, rfl⟩

/-- Behind the inner loop the node on top of the stack is printed. -/
theorem Tracks.pop {f : Frame Mount} {above : List (Frame Mount)}
    (tracks : Tracks format realloc mp s ⟨.nil, f :: above⟩) :
    Tracks format realloc mp (s.pop format) (Walk.behind f above) ∧
      (s.pop format).pc = .outer := by
  have stacklen : s.stacklen = above.length + 1 := tracks.stacklen
  have held := tracks.stack
  rw [List.reverse_cons, List.map_append, List.map_singleton] at held
  have top := held.last
  rw [List.length_map, List.length_reverse] at top
  rw [State.pop, stacklen, if_neg (Nat.succ_ne_zero _), Nat.add_sub_cancel, top, Frame.tree]
  refine ⟨{ tracks with
    here := rfl
    stack := held.front
    stacklen := rfl
    within := tracks.within.behind
    printed := ?_
    standing := trivial }, rfl⟩
  have printed := tracks.printed
  rw [Traversal.pending_behind, List.map_cons] at printed
  rw [List.append_assoc]
  exact printed

/-- The steps to the end: two for every step of the walk, and one to the first loop's head. -/
def rank (s : State) (w : Walk Mount) : Nat :=
  match s.pc with
  | .outer => 2 * w.work + 1
  | .inner => 2 * w.work
  | _ => 0

/-- At the head of the outer loop. -/
theorem Tracks.enter (tracks : Tracks format realloc mp s w) :
    Tracks format realloc mp
      { s with pc := if s.mp ≠ .nil ∨ s.stacklen ≠ 0 then .inner else .returned } w := by
  by_cases more : s.mp ≠ .nil ∨ s.stacklen ≠ 0
  · rw [if_pos more]
    exact { tracks with standing := more }
  · rw [if_neg more]
    obtain ⟨null, empty⟩ := not_or.1 more
    have here : w.here = .nil := tracks.here.symm.trans (not_not.1 null)
    have above : w.above = [] :=
      List.length_eq_zero_iff.1 (tracks.stacklen.symm.trans (not_not.1 empty))
    have none' : w.pending = [] := by
      rw [Walk.pending, here, above]
      rfl
    exact { tracks with standing := none' }

/-- The step lemma. -/
theorem Tracks.step (tracks : Tracks format realloc mp s w)
    (running : step format realloc s = some t) :
    ∃ w', Tracks format realloc mp t w' ∧ rank t w' < rank s w := by
  rw [PrintDump.step] at running
  cases pc : s.pc with
  | outer =>
    rw [pc] at running
    obtain rfl := Option.some.inj running
    refine ⟨w, tracks.enter, ?_⟩
    rw [rank, rank, pc]
    by_cases more : s.mp ≠ .nil ∨ s.stacklen ≠ 0
    · rw [if_pos more]
      exact Nat.lt_succ_self _
    · rw [if_neg more]
      exact Nat.succ_pos _
  | inner =>
    rw [pc] at running
    obtain rfl := Option.some.inj running
    obtain ⟨here, above⟩ := w
    have same : s.mp = here := tracks.here
    cases here with
    | node m left right =>
      have work : (Walk.down ⟨m, left, right⟩ above).work + 1 =
          (Walk.mk (.node m left right) above).work := Traversal.work_down
      have mine : rank s ⟨.node m left right, above⟩ =
          2 * (Walk.mk (.node m left right) above).work := by rw [rank, pc]
      rw [if_pos fun null => nomatch same.symm.trans null, mine]
      rcases @Tracks.push format realloc mp s ⟨m, left, right⟩ above tracks pc with
        ⟨pushed, inner⟩ | ⟨refused, failed⟩
      · refine ⟨_, pushed, ?_⟩
        rw [rank, inner]
        dsimp only
        omega
      · refine ⟨_, refused, ?_⟩
        rw [rank, failed]
        dsimp only
        omega
    | nil =>
      rw [if_neg (not_not.2 same)]
      cases above with
      | nil =>
        rcases tracks.inner pc with not | not
        · exact absurd same not
        · exact absurd tracks.stacklen not
      | cons f above =>
        have work := @Traversal.work_behind _ f above
        obtain ⟨popped, outer⟩ := tracks.pop
        refine ⟨_, popped, ?_⟩
        rw [rank, rank, pc, outer]
        dsimp only
        omega
  | returned => rw [pc] at running; cases running
  | tooLarge => rw [pc] at running; cases running
  | reallocarray => rw [pc] at running; cases running
  | outside => rw [pc] at running; cases running

/-- The state follows some walk along `mp`. -/
def Followed (format : Format) (realloc : Reallocarray) (mp : Mountlist) (s : State) : Prop :=
  ∃ w, Tracks format realloc mp s w

/-- The run lemma. -/
theorem followed_of_run {n : Nat} (run : loop (step format realloc) n (start mp) = some s) :
    Followed format realloc mp s := by
  have preserved : ∀ s t, Followed format realloc mp s → step format realloc s = some t →
      Followed format realloc mp t := by
    rintro s t ⟨w, tracks⟩ running
    obtain ⟨w', tracks', -⟩ := tracks.step running
    exact ⟨w', tracks'⟩
  exact loop_invariant preserved ⟨Walk.start mp, tracks_start⟩ run

theorem printDumpRecursive_eq (format : Format) (mp : Mountlist) :
    printDumpRecursive format mp = (inorder mp).map format.line := by
  induction mp with
  | nil => rfl
  | node m left right leftIh rightIh =>
    rw [printDumpRecursive, inorder, List.map_append, List.map_cons, leftIh, rightIh]

/-- The loops end, and have printed the whole tree if they have not been left. -/
theorem run_ends (format : Format) (realloc : Reallocarray) (mp : Mountlist) :
    ∃ n s, n ≤ 4 * mp.numNodes + 1 ∧ loop (step format realloc) n (start mp) = some s ∧
      step format realloc s = none ∧
      (s.pc = .returned ∧ s.printed = (inorder mp).map format.line ∨
        s.pc = .reallocarray ∧ Refuses realloc mp) := by
  have lowers : ∀ m s t, (∃ w, Tracks format realloc mp s w ∧ rank s w = m) →
      step format realloc s = some t →
      ∃ m' < m, ∃ w, Tracks format realloc mp t w ∧ rank t w = m' := by
    rintro m s t ⟨w, tracks, rfl⟩ running
    obtain ⟨w', followed, lower⟩ := tracks.step running
    exact ⟨rank t w', lower, w', followed, rfl⟩
  obtain ⟨n, s, -, few, run, over', w, tracks, -⟩ :=
    loop_ends_ranked lowers ⟨Walk.start mp, tracks_start, rfl⟩
  refine ⟨n, s, ?_, run, over', ?_⟩
  · have work := Traversal.work_start mp
    have steps : n ≤ 2 * (Walk.start mp).work + 1 := few
    omega
  · have standing := tracks.standing
    rw [Standing] at standing
    rw [step] at over'
    cases pc : s.pc with
    | outer => rw [pc] at over'; cases over'
    | inner => rw [pc] at over'; cases over'
    | returned =>
      have printed := tracks.printed
      rw [pc] at standing
      rw [standing, List.map_nil, List.append_nil] at printed
      exact .inl ⟨rfl, printed⟩
    | reallocarray =>
      rw [pc] at standing
      exact .inr ⟨rfl, standing⟩
    | tooLarge => rw [pc] at standing; exact standing.elim
    | outside => rw [pc] at standing; exact standing.elim

/-- **The dump of a tree.** At every moment the stack is allocated to its size, holds no more than
the tree is high, and is not indexed outside; the error for a dump that is too large is never met.
The loops end. Then they have printed what the recursion did, a line for each entry, unless
`reallocarray` has refused the memory of a stack no more than twice as high as the tree, or 32
high. -/
theorem printDump_inorder (format : Format) (realloc : Reallocarray) (mp : Mountlist) :
    (∀ n s, loop (step format realloc) n (start mp) = some s →
      s.stack.length = s.stacksize ∧ s.stacklen ≤ mp.height ∧ s.pc ≠ .outside ∧
        s.pc ≠ .tooLarge) ∧
    ∃ n s, n ≤ 4 * mp.numNodes + 1 ∧ loop (step format realloc) n (start mp) = some s ∧
      step format realloc s = none ∧
      (s.pc = .returned ∧ s.printed = printDumpRecursive format mp ∧
          s.printed = (inorder mp).map format.line ∧ s.printed.length = mp.numNodes ∨
        s.pc = .reallocarray ∧ Refuses realloc mp) := by
  constructor
  · intro n s run
    obtain ⟨w, tracks⟩ := followed_of_run run
    refine ⟨tracks.stacksize, ?_, tracks.sound.2, tracks.sound.1⟩
    rw [tracks.stacklen]
    exact (Nat.le_add_left _ _).trans tracks.within.here
  · obtain ⟨n, s, few, run, over', ends⟩ := run_ends format realloc mp
    refine ⟨n, s, few, run, over', ends.imp_left fun ⟨pc, printed⟩ => ⟨pc, ?_, printed, ?_⟩⟩
    · rw [printDumpRecursive_eq, printed]
    · rw [printed, List.length_map, Traversal.length_inorder]

/-- Memory that does not run out. -/
def ample : Reallocarray := ⟨fun n => decide (n * 8 < 2 ^ 64), fun _ => of_decide_eq_true⟩

/-- Three mounts, printed as they are. -/
def threeMounts : Mountlist :=
  .node ⟨[98], [47]⟩ (.node ⟨[97], [47]⟩ .nil .nil) (.node ⟨[99], [47]⟩ .nil .nil)

theorem printDump_inorder_threeMounts :
    ∃ n s, loop (step ⟨id, .other⟩ ample) n (start threeMounts) = some s ∧ s.pc = .returned ∧
      s.printed = [[97, 10], [98, 10], [99, 10]] := by
  obtain ⟨n, s, -, run, -, ⟨returned, printed, -⟩ | ⟨-, size, small, refused⟩⟩ :=
    (printDump_inorder ⟨id, .other⟩ ample threeMounts).2
  · exact ⟨n, s, run, returned, printed⟩
  · have height : max 32 (2 * threeMounts.height) = 32 := by decide
    have fits : size * 8 < 2 ^ 64 := by omega
    exact absurd fits (of_decide_eq_false refused)

end SecurityAudits.OpenbsdBin.PrintDump
