import SecurityAudits.Lib.Marking

/-!
# `LIST -R`

`listdir` (`modules/mod_ls.c`) lists a directory and then, with `-R`, changes into each of its
subdirectories and calls itself. Symbolic links may lead back up, so it keeps the device and inode
numbers of the directories it has been in, `list_seen_dirs`, and does nothing in one that is there.
`dolist` begins every command with an empty array.

The file system is a parameter: what `stat` says in a directory, and the subdirectories that `listdir`
changes into, through links or not, in the order in which it does. The limits of `ListOptions` are not
set.
-/

namespace SecurityAudits.Proftpd.ListR
set_option autoImplicit false
open SecurityAudits.Marking

/-- `struct list_seen_dir` -/
structure ListSeenDir where
  dev : Nat
  ino : Nat
  deriving DecidableEq, Repr

structure FileSystem (Dir : Type) where
  /-- `pr_fsio_stat(".")`, none when it fails -/
  stat : Dir → Option ListSeenDir
  subdirs : Dir → List Dir

/-- `list_seen_dirs`, and the directories whose entries have been sent. -/
structure State (Dir : Type) where
  seen : List ListSeenDir
  sent : List Dir

variable {Dir : Type}

/-- `listdir_seen_dir`: whether the directory is new, and the array after it. -/
def listdirSeenDir (fs : FileSystem Dir) (seen : List ListSeenDir) (dir : Dir) :
    Bool × List ListSeenDir :=
  match fs.stat dir with
  | none => (false, seen)
  | some st =>
    if seen.any fun d => d.dev == st.dev && d.ino == st.ino then (false, seen)
    else (true, seen ++ [st])

/-- `listdir`; `depth` bounds how deep the calls are nested. -/
def listdir (fs : FileSystem Dir) (optR : Bool) : (depth : Nat) → State Dir → Dir → Option (State Dir)
  | 0, _, _ => none
  | depth + 1, s, dir =>
    if optR then
      match listdirSeenDir fs s.seen dir with
      | (false, seen) => some { s with seen := seen }
      | (true, seen) => (fs.subdirs dir).foldlM (listdir fs optR depth) ⟨seen, s.sent ++ [dir]⟩
    else some { s with sent := s.sent ++ [dir] }

/-- `dolist`, on the directories that the argument stands for. -/
def dolist (fs : FileSystem Dir) (optR : Bool) (depth : Nat) (s : State Dir) (dirs : List Dir) :
    Option (State Dir) :=
  dirs.foldlM (listdir fs optR depth) { s with seen := [] }

/-! ## The array as marks -/

/-- The directories that `listdir_seen_dir` turns away. -/
def FileSystem.marks (fs : FileSystem Dir) (seen : List ListSeenDir) : Marks Dir :=
  fun d => (fs.stat d).all fun st => st ∈ seen

/-- The numbers of a directory are those of no other. -/
def FileSystem.Identifies (fs : FileSystem Dir) : Prop :=
  ∀ d e st, fs.stat d = some st → fs.stat e = some st → d = e

variable {fs : FileSystem Dir} {seen seen' : List ListSeenDir} {d dir : Dir} {dirs : List Dir}
  {s : State Dir} {before new : List Dir} {depth : Nat}

theorem any_seen (st : ListSeenDir) :
    (seen.any fun d => d.dev == st.dev && d.ino == st.ino) = true ↔ st ∈ seen := by
  rw [List.any_eq_true]
  constructor
  · rintro ⟨⟨dev, ino⟩, listed, same⟩
    obtain ⟨rfl, rfl⟩ : dev = st.dev ∧ ino = st.ino := by simpa using same
    exact listed
  · intro listed
    exact ⟨st, listed, by simp⟩

theorem seenDir_marked (marked : fs.marks seen dir = true) :
    listdirSeenDir fs seen dir = (false, seen) := by
  rw [listdirSeenDir]
  cases found : fs.stat dir with
  | none => rfl
  | some st =>
    have listed : st ∈ seen := by simpa [FileSystem.marks, found] using marked
    exact if_pos ((any_seen st).2 listed)

theorem seenDir_free (free : fs.marks seen dir = false) :
    ∃ st, fs.stat dir = some st ∧ listdirSeenDir fs seen dir = (true, seen ++ [st]) := by
  rw [listdirSeenDir]
  cases found : fs.stat dir with
  | none => simp [FileSystem.marks, found] at free
  | some st =>
    have missing : st ∉ seen := by simpa [FileSystem.marks, found] using free
    exact ⟨st, rfl, if_neg fun any => missing ((any_seen st).1 any)⟩

variable [DecidableEq Dir]

/-- A new entry of the array is the mark of one directory. -/
theorem marks_snoc (identifies : fs.Identifies) {st : ListSeenDir} (found : fs.stat dir = some st) :
    fs.marks (seen ++ [st]) = mark (fs.marks seen) dir := by
  funext d
  by_cases same : d = dir
  · subst same
    rw [mark_self]
    simp [FileSystem.marks, found]
  · rw [mark_of_ne same]
    cases found' : fs.stat d with
    | none => simp [FileSystem.marks, found']
    | some st' =>
      have apart : st' ≠ st := by
        rintro rfl
        exact same (identifies d dir st' found' found)
      simp [FileSystem.marks, found', apart]

/-! ## One command -/

/-- What a command has sent, when `before` had been sent at its beginning: every directory it has been in,
once. -/
structure Sound (fs : FileSystem Dir) (before new : List Dir) (s : State Dir) : Prop where
  sent : s.sent = before ++ new
  once : new.Nodup
  listed : ∀ d, d ∈ new ↔ (fs.stat d).isSome = true ∧ fs.marks s.seen d = true

omit [DecidableEq Dir] in
theorem Sound.start (fs : FileSystem Dir) (before : List Dir) : Sound fs before [] ⟨[], before⟩ where
  sent := (List.append_nil before).symm
  once := List.nodup_nil
  listed d := by
    cases found : fs.stat d <;> simp [FileSystem.marks, found]

/-- A new directory is sent. -/
theorem Sound.enter (identifies : fs.Identifies) (sound : Sound fs before new s) {st : ListSeenDir}
    (found : fs.stat dir = some st) (free : fs.marks s.seen dir = false) :
    Sound fs before (new ++ [dir]) ⟨s.seen ++ [st], s.sent ++ [dir]⟩ where
  sent := by rw [sound.sent, List.append_assoc]
  once := by
    have unsent : dir ∉ new := fun listed => by
      rw [((sound.listed dir).1 listed).2] at free
      cases free
    rw [← List.concat_eq_append]
    exact sound.once.concat unsent
  listed d := by
    rw [marks_snoc identifies found, mark_iff, List.mem_append, List.mem_singleton, sound.listed]
    by_cases same : d = dir
    · subst same
      simp [found]
    · simp [same]

/-- What a search does to the array and to what has been sent. -/
structure Searched (fs : FileSystem Dir) (before : List Dir) (s : State Dir) (dirs : List Dir)
    (s' : State Dir) : Prop where
  visits : Visits fs.subdirs (fs.marks s.seen) dirs (fs.marks s'.seen)
  sound : ∃ new, Sound fs before new s'

variable [Fintype Dir]

omit [DecidableEq Dir] in
/-- Directories searched one after another. -/
theorem foldlM_searched {search : State Dir → Dir → Option (State Dir)}
    (each : ∀ s dir, (∃ new, Sound fs before new s) → unmarked (fs.marks s.seen) < depth →
      ∃ s', search s dir = some s' ∧ Searched fs before s [dir] s')
    (sound : ∃ new, Sound fs before new s) (deep : unmarked (fs.marks s.seen) < depth)
    (dirs : List Dir) : ∃ s', dirs.foldlM search s = some s' ∧ Searched fs before s dirs s' := by
  induction dirs generalizing s with
  | nil => exact ⟨s, rfl, .nil, sound⟩
  | cons dir dirs ih =>
    obtain ⟨m, first, one⟩ := each s dir sound deep
    obtain ⟨s', rest, more⟩ := ih one.sound ((unmarked_mono one.visits.kept).trans_lt deep)
    refine ⟨s', ?_, one.visits.cons more.visits, more.sound⟩
    rw [List.foldlM_cons, first, Option.bind_eq_bind, Option.bind_some, rest]

/-- Calls nested as deep as there are new directories are deep enough. -/
theorem listdir_searched (identifies : fs.Identifies) (sound : ∃ new, Sound fs before new s)
    (deep : unmarked (fs.marks s.seen) < depth) (dir : Dir) :
    ∃ s', listdir fs true depth s dir = some s' ∧ Searched fs before s [dir] s' := by
  induction depth generalizing s dir with
  | zero => cases deep
  | succ depth ih =>
    rw [listdir, if_pos rfl]
    cases marked : fs.marks s.seen dir with
    | true =>
      rw [seenDir_marked marked]
      exact ⟨s, rfl, .skip marked, sound⟩
    | false =>
      obtain ⟨new, sound⟩ := sound
      obtain ⟨st, found, enters⟩ := seenDir_free marked
      have fewer := unmarked_mark marked
      rw [← marks_snoc identifies found] at fewer
      obtain ⟨s', run, below⟩ := foldlM_searched (fun s dir sound deep => ih sound deep dir)
        ⟨_, sound.enter identifies found marked⟩ (by dsimp only; omega) (fs.subdirs dir)
      refine ⟨s', ?_, .node marked ?_, below.sound⟩
      · rw [enters]
        exact run
      · rw [← marks_snoc identifies found]
        exact below.visits

/-- The directories that a command with `-R` comes to: through directories of which it can tell the
numbers. -/
def Comes (fs : FileSystem Dir) (dirs : List Dir) (d : Dir) : Prop :=
  ∃ dir ∈ dirs, Reach fs.subdirs (fs.marks []) dir d

/-- **`LIST -R` ends, and lists everything once.** On every file system, with cycles or without, and
whatever earlier commands have left in the array, calls nested one deeper than there are directories are
deep enough, and what is sent are the directories that the command comes to, each once. -/
theorem dolist_once (fs : FileSystem Dir) (identifies : fs.Identifies) (s : State Dir) (dirs : List Dir) :
    ∃ s' new, dolist fs true (Fintype.card Dir + 1) s dirs = some s' ∧ s'.sent = s.sent ++ new ∧
      new.Nodup ∧ ∀ d, d ∈ new ↔ Comes fs dirs d := by
  have deep : unmarked (fs.marks []) < Fintype.card Dir + 1 := Nat.lt_succ_of_le unmarked_le_card
  obtain ⟨s', run, visits, new, sound⟩ :=
    foldlM_searched (fun s dir sound deep => listdir_searched identifies sound deep dir)
      ⟨[], Sound.start fs s.sent⟩ deep dirs
  have unknown : ∀ d, fs.marks [] d = true ↔ fs.stat d = none := by
    intro d
    cases found : fs.stat d <;> simp [FileSystem.marks, found]
  refine ⟨s', new, run, sound.sent, sound.once, fun d => ?_⟩
  rw [sound.listed]
  constructor
  · rintro ⟨known, marked⟩
    refine (visits.sound d marked).resolve_left fun before => ?_
    rw [(unknown d).1 before] at known
    cases known
  · rintro ⟨dir, listed, reach⟩
    refine ⟨Option.isSome_iff_ne_none.2 fun none => ?_, visits.reached listed reach⟩
    have free := reach.free
    rw [(unknown d).2 none] at free
    cases free

/-- A directory with two others in it, one of which has a link back up, and one that cannot be read. -/
def looped : FileSystem (Fin 4) where
  stat d := if d = 3 then none else some ⟨8, 100 + d⟩
  subdirs d := if d = 0 then [1, 2] else if d = 1 then [0] else if d = 2 then [1, 3] else [0]

theorem looped_identifies : looped.Identifies := by
  unfold FileSystem.Identifies
  intro d e st one two
  have numbers : ∀ d e, looped.stat d = looped.stat e → looped.stat d ≠ none → d = e := by decide
  exact numbers d e (one.trans two.symm) (by rw [one]; exact Option.some_ne_none st)

theorem dolist_once_looped :
    (dolist looped true 5 ⟨[⟨8, 101⟩], []⟩ [0]).map State.sent = some [0, 1, 2] ∧
      ∃ s' new, dolist looped true 5 ⟨[⟨8, 101⟩], []⟩ [0] = some s' ∧ s'.sent = [] ++ new ∧
        new.Nodup ∧ ∀ d, d ∈ new ↔ Comes looped [0] d :=
  ⟨by decide, dolist_once looped looped_identifies ⟨[⟨8, 101⟩], []⟩ [0]⟩

end SecurityAudits.Proftpd.ListR
