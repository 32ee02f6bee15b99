import Mathlib.Logic.Function.Basic

/-!
# `Command::spawn` on VxWorks

The child gets its standard streams by what the parent has in descriptors 0, 1 and 2 when `rtpSpawn` is
called: `spawn` saves those that are redirected with `dup`, puts the child's in their place with `dup2`,
and puts its own back afterwards. Any of the calls may fail, and the macro `t!` then puts back what has
been saved, as far as it can, before it returns the error.

An `Env` has the answer of the system at each of the calls. `spawn_restores` is about the table of
descriptors that the parent is left with.
-/

namespace SecurityAudits.RustStdlib.VxworksSpawn
set_option autoImplicit false

inductive Stream where
  | stdin
  | stdout
  | stderr
  deriving DecidableEq

/-- `STDIN_FILENO`, `STDOUT_FILENO` and `STDERR_FILENO` -/
def Stream.fileno : Stream → Nat
  | stdin => 0
  | stdout => 1
  | stderr => 2

/-- The open files of the parent by their descriptors. -/
abbrev Table (File : Type) := Nat → Option File

variable {File Error Pid : Type}

structure Env (Error Pid : Type) where
  /-- `dup(fileno)`, with the descriptor it returns -/
  dup : Stream → Except Error Nat
  /-- `dup2(fd, fileno)` -/
  dup2 : Stream → Except Error Unit
  /-- The calls from there to `rtpSpawn`, `chdir` first -/
  setup : List (Except Error Unit)
  rtpSpawn : Except Error Pid
  /-- `dup2(orig, fileno)` after `rtpSpawn` -/
  putBack : Stream → Except Error Unit
  /-- `dup2(orig, fileno)` in `t!` -/
  rescue : Stream → Bool

/-- The table, and the variables `orig_stdin`, `orig_stdout` and `orig_stderr`. -/
structure Parent (File : Type) where
  table : Table File
  orig : Stream → Nat

def Parent.close (s : Parent File) (fd : Nat) : Parent File :=
  { s with table := Function.update s.table fd none }

/-- `dup2(fd, fd')`, when it succeeds -/
def Parent.duplicate (s : Parent File) (fd fd' : Nat) : Parent File :=
  { s with table := Function.update s.table fd' (s.table fd) }

/-- What `t!` does for one of the streams. -/
def rescueStream (env : Env Error Pid) (s : Parent File) (k : Stream) : Parent File :=
  if s.orig k ≠ k.fileno then
    (if env.rescue k then s.duplicate (s.orig k) k.fileno else s).close (s.orig k)
  else s

def rescue (env : Env Error Pid) (s : Parent File) : Parent File :=
  rescueStream env (rescueStream env (rescueStream env s .stdin) .stdout) .stderr

/-- `t!(..)`: the value, or an early return that leaves the parent as it then is. -/
def t {α : Type} (env : Env Error Pid) (s : Parent File) : Except Error α →
    Except (Error × Parent File) α
  | .ok a => .ok a
  | .error e => .error (e, rescue env s)

/-- `if let Some(fd) = theirs.stdin.fd()`, and so for the other streams -/
def redirect (env : Env Error Pid) (theirs : Stream → Option Nat) (k : Stream) (s : Parent File) :
    Except (Error × Parent File) (Parent File) :=
  match theirs k with
  | none => pure s
  | some fd => do
    let orig ← t env s (env.dup k)
    let s := { s.duplicate k.fileno orig with orig := Function.update s.orig k orig }
    t env s (env.dup2 k)
    return s.duplicate fd k.fileno

/-- `orig_stdin = libc::STDIN_FILENO`: there is nothing to put back any more. -/
def Parent.forget (s : Parent File) (k : Stream) : Parent File :=
  { s with orig := Function.update s.orig k k.fileno }

/-- `if orig_stdin != libc::STDIN_FILENO` after `rtpSpawn`, and so for the other streams. `orig_stderr`, the
last, is not assigned in the source, and not read again either. -/
def putBack (env : Env Error Pid) (k : Stream) (s : Parent File) :
    Except (Error × Parent File) (Parent File) :=
  if s.orig k ≠ k.fileno then do
    t env s (env.putBack k)
    return ((s.duplicate (s.orig k) k.fileno).close (s.orig k)).forget k
  else pure s

/-- `spawn` from where the pipes are there: the answer of `rtpSpawn`, if it is called, and what the
parent is left with. -/
def spawn (env : Env Error Pid) (theirs : Stream → Option Nat) (table : Table File) :
    Except (Error × Parent File) (Except Error Pid × Parent File) := do
  let s : Parent File := ⟨table, Stream.fileno⟩
  let s ← redirect env theirs .stdin s
  let s ← redirect env theirs .stdout s
  let s ← redirect env theirs .stderr s
  env.setup.forM (t env s)
  let ret := env.rtpSpawn
  let s ← putBack env .stdin s
  let s ← putBack env .stdout s
  let s ← putBack env .stderr s
  return (ret, s)

/-- The table on return -/
def after (out : Except (Error × Parent File) (Except Error Pid × Parent File)) : Table File :=
  match out with
  | .ok (_, s) => s.table
  | .error (_, s) => s.table

/-- The standard streams are open, and `dup` returns descriptors that are not in use. -/
structure Lawful (env : Env Error Pid) (table : Table File) : Prop where
  isOpen : ∀ k : Stream, (table k.fileno).isSome = true
  unused : ∀ k orig, env.dup k = .ok orig → table orig = none
  distinct : ∀ j k orig, env.dup j = .ok orig → env.dup k = .ok orig → j = k

/-! ## What is saved -/

/-- What the parent had is where it was or is saved in a descriptor of its own, and nothing else is
open that was not before; what could not be put back is lost. -/
structure Saved (env : Env Error Pid) (table : Table File) (lost : Stream → Prop)
    (s : Parent File) : Prop where
  kept : ∀ k, s.orig k = k.fileno → s.table k.fileno = table k.fileno ∨ lost k
  saved : ∀ k, s.orig k ≠ k.fileno →
    env.dup k = .ok (s.orig k) ∧ s.table (s.orig k) = table k.fileno
  rest : ∀ fd, (∀ k : Stream, fd ≠ k.fileno) → (∀ k, s.orig k ≠ fd) → s.table fd = table fd

variable {env : Env Error Pid} {table : Table File} {lost : Stream → Prop} {s : Parent File}
  {theirs : Stream → Option Nat} {j k : Stream} {fd orig : Nat}

theorem fileno_injective : Function.Injective Stream.fileno := by
  intro j k same
  cases j <;> cases k <;> first | rfl | cases same

theorem Lawful.orig_ne (lawful : Lawful env table) (dup : env.dup k = .ok orig) (j : Stream) :
    orig ≠ j.fileno := by
  rintro rfl
  have here := lawful.isOpen j
  rw [lawful.unused k _ dup] at here
  cases here

theorem saved_start : Saved env table lost ⟨table, Stream.fileno⟩ where
  kept _ _ := .inl rfl
  saved _ moved := absurd rfl moved
  rest _ _ _ := rfl

theorem Saved.mono {lost' : Stream → Prop} (saved : Saved env table lost s)
    (more : ∀ k, lost k → lost' k) : Saved env table lost' s where
  kept k here := (saved.kept k here).imp_right (more k)
  saved := saved.saved
  rest := saved.rest

/-- All of the parent's streams are where they were. -/
theorem Saved.table_eq (saved : Saved env table lost s) (back : ∀ k, s.orig k = k.fileno)
    (fd : Nat) : s.table fd = table fd ∨ ∃ k : Stream, fd = k.fileno ∧ lost k := by
  by_cases std : ∃ k : Stream, fd = k.fileno
  · obtain ⟨k, rfl⟩ := std
    exact (saved.kept k (back k)).imp_right fun gone => ⟨k, rfl, gone⟩
  · have other : ∀ k : Stream, fd ≠ k.fileno := fun k same => std ⟨k, same⟩
    exact .inl (saved.rest fd other fun k same => other k (same.symm.trans (back k)))

/-- The saved descriptor is closed, once its file is back or is given up. -/
theorem Saved.release (saved : Saved env table lost s) (lawful : Lawful env table)
    (moved : s.orig k ≠ k.fileno) (back : Table File)
    (here : back k.fileno = s.table (s.orig k) ∨ lost k)
    (elsewhere : ∀ fd, fd ≠ k.fileno → back fd = s.table fd) :
    Saved env table lost (({ s with table := back }.close (s.orig k)).forget k) := by
  obtain ⟨dup, kept⟩ := saved.saved k moved
  have away := lawful.orig_ne dup
  have unchanged : ∀ fd, fd ≠ k.fileno → fd ≠ s.orig k →
      Function.update back (s.orig k) none fd = s.table fd :=
    fun fd std other => (Function.update_of_ne other ..).trans (elsewhere fd std)
  have orig_eq : ∀ j, j ≠ k → Function.update s.orig k k.fileno j = s.orig j :=
    fun j other => Function.update_of_ne other ..
  constructor
  case kept =>
    intro j at_
    by_cases same : j = k
    · subst same
      refine here.imp_left fun same => ?_
      exact (Function.update_of_ne (away j).symm ..).trans (same.trans kept)
    · have before : s.orig j = j.fileno := (orig_eq j same).symm.trans at_
      refine (saved.kept j before).imp_left fun kept => Eq.trans ?_ kept
      exact unchanged _ (fun eq => same (fileno_injective eq)) (away j).symm
  case saved =>
    intro j at_
    by_cases same : j = k
    · subst same
      exact absurd (Function.update_self ..) at_
    · have now : Function.update s.orig k k.fileno j = s.orig j := orig_eq j same
      have before : s.orig j ≠ j.fileno := fun eq => at_ (now.trans eq)
      obtain ⟨dup', there⟩ := saved.saved j before
      show env.dup j = .ok (Function.update s.orig k k.fileno j) ∧
        Function.update back (s.orig k) none (Function.update s.orig k k.fileno j) = table j.fileno
      rw [now]
      refine ⟨dup', (unchanged _ (lawful.orig_ne dup' k) ?_).trans there⟩
      exact fun eq => same (lawful.distinct j k _ dup' (eq ▸ dup))
  case rest =>
    intro fd std free
    by_cases same : fd = s.orig k
    · subst same
      exact (Function.update_self ..).trans (lawful.unused k _ dup).symm
    · refine (unchanged fd (std k) same).trans (saved.rest fd std fun j => ?_)
      by_cases mine : j = k
      · subst mine
        exact fun eq => same eq.symm
      · rw [← orig_eq j mine]
        exact free j

/-- `dup` -/
theorem Saved.dup (saved : Saved env table (fun _ => False) s) (lawful : Lawful env table)
    (at_ : s.orig k = k.fileno) (dup : env.dup k = .ok orig) :
    Saved env table (fun _ => False)
      { s.duplicate k.fileno orig with orig := Function.update s.orig k orig } := by
  have away := lawful.orig_ne dup
  have orig_eq : ∀ j, j ≠ k → Function.update s.orig k orig j = s.orig j :=
    fun j other => Function.update_of_ne other ..
  constructor
  case kept =>
    intro j here
    by_cases same : j = k
    · subst same
      exact absurd ((Function.update_self ..).symm.trans here) (away j)
    · have before : s.orig j = j.fileno := (orig_eq j same).symm.trans here
      exact (saved.kept j before).imp_left fun kept =>
        (Function.update_of_ne (away j).symm ..).trans kept
  case saved =>
    intro j moved
    by_cases same : j = k
    · subst same
      show env.dup j = .ok (Function.update s.orig j orig j) ∧ Function.update s.table orig
        (s.table j.fileno) (Function.update s.orig j orig j) = table j.fileno
      rw [Function.update_self, Function.update_self]
      exact ⟨dup, (saved.kept j at_).resolve_right id⟩
    · have now : Function.update s.orig k orig j = s.orig j := orig_eq j same
      have before : s.orig j ≠ j.fileno := fun eq => moved (now.trans eq)
      obtain ⟨dup', there⟩ := saved.saved j before
      show env.dup j = .ok (Function.update s.orig k orig j) ∧ Function.update s.table orig
        (s.table k.fileno) (Function.update s.orig k orig j) = table j.fileno
      rw [now, Function.update_of_ne]
      · exact ⟨dup', there⟩
      · intro eq
        exact same (lawful.distinct j k _ dup' (eq ▸ dup))
  case rest =>
    intro fd std free
    have other : fd ≠ orig := by
      intro eq
      exact free k ((Function.update_self ..).trans eq.symm)
    refine (Function.update_of_ne other ..).trans (saved.rest fd std fun j => ?_)
    by_cases mine : j = k
    · subst mine
      rw [at_]
      exact (std j).symm
    · rw [← orig_eq j mine]
      exact free j

/-- `dup2` over a stream that is saved -/
theorem Saved.dup2 (saved : Saved env table lost s) (lawful : Lawful env table)
    (moved : s.orig k ≠ k.fileno) (fd : Nat) :
    Saved env table lost (s.duplicate fd k.fileno) where
  kept j here := by
    have other : j ≠ k := by
      rintro rfl
      exact moved here
    refine (saved.kept j here).imp_left fun kept => Eq.trans ?_ kept
    exact Function.update_of_ne (fun eq => other (fileno_injective eq)) ..
  saved j moved' := by
    obtain ⟨dup, there⟩ := saved.saved j moved'
    exact ⟨dup, (Function.update_of_ne (lawful.orig_ne dup k) ..).trans there⟩
  rest fd' std free := (Function.update_of_ne (std k) ..).trans (saved.rest fd' std free)

/-! ## The macro -/

/-- What `t!` does for a stream does not depend on the variables of the others. -/
theorem rescueStream_forget (other : j ≠ k) :
    rescueStream env (s.forget k) j = (rescueStream env s j).forget k := by
  have same : (s.forget k).orig j = s.orig j := Function.update_of_ne other ..
  unfold rescueStream
  rw [same]
  split
  · split <;> rfl
  · rfl

theorem Saved.rescueStream (saved : Saved env table (fun j => env.rescue j = false) s)
    (lawful : Lawful env table) (k : Stream) :
    Saved env table (fun j => env.rescue j = false)
      ((VxworksSpawn.rescueStream env s k).forget k) := by
  unfold VxworksSpawn.rescueStream
  split
  case isTrue moved =>
    split
    case isTrue =>
      exact saved.release lawful moved _ (.inl (Function.update_self ..))
        fun fd other => Function.update_of_ne other ..
    case isFalse gone =>
      exact saved.release lawful moved _ (.inr (Bool.eq_false_iff.2 gone)) fun _ _ => rfl
  case isFalse there =>
    have same : s.forget k = s := by
      rw [Parent.forget, Function.update_eq_self_iff.2 (not_not.1 there).symm]
    rw [same]
    exact saved

/-- What an early return leaves. -/
def Rescued (env : Env Error Pid) (table : Table File) (s : Parent File) : Prop :=
  ∀ fd, s.table fd = table fd ∨ ∃ k : Stream, fd = k.fileno ∧ env.rescue k = false

theorem Saved.rescue (saved : Saved env table (fun _ => False) s) (lawful : Lawful env table) :
    Rescued env table (VxworksSpawn.rescue env s) := by
  have start : Saved env table (fun j => env.rescue j = false) s := saved.mono fun _ => False.elim
  have done := ((start.rescueStream lawful .stdin).rescueStream lawful .stdout).rescueStream lawful
    .stderr
  rw [rescueStream_forget (by decide), rescueStream_forget (by decide),
    rescueStream_forget (by decide)] at done
  refine done.table_eq fun k => ?_
  cases k <;> rfl

/-- An early return leaves the parent as `t!` does, and the value meets `P`. -/
def Ends {α : Type} (env : Env Error Pid) (table : Table File) (P : α → Prop) :
    Except (Error × Parent File) α → Prop
  | .ok a => P a
  | .error (_, s) => Rescued env table s

theorem Ends.bind {α β : Type} {P : α → Prop} {Q : β → Prop} {x : Except (Error × Parent File) α}
    {f : α → Except (Error × Parent File) β} (first : Ends env table P x)
    (later : ∀ a, P a → Ends env table Q (f a)) : Ends env table Q (x >>= f) := by
  cases x with
  | ok a => exact later a first
  | error e => exact first

theorem ends_t {α : Type} (saved : Saved env table (fun _ => False) s) (lawful : Lawful env table)
    (answer : Except Error α) : Ends env table (fun a => answer = .ok a) (t env s answer) := by
  cases answer with
  | ok a => rfl
  | error e => exact saved.rescue lawful

/-! ## `spawn` -/

/-- All is saved, and `t!` changes none of the variables but that of `k`. -/
def Moves (env : Env Error Pid) (table : Table File) (s : Parent File) (k : Stream)
    (s' : Parent File) : Prop :=
  Saved env table (fun _ => False) s' ∧ ∀ j, j ≠ k → s'.orig j = s.orig j

theorem ends_redirect (saved : Saved env table (fun _ => False) s) (lawful : Lawful env table)
    (at_ : s.orig k = k.fileno) : Ends env table (Moves env table s k) (redirect env theirs k s) := by
  unfold redirect
  split
  · exact ⟨saved, fun _ _ => rfl⟩
  · refine (ends_t saved lawful _).bind fun orig dup => ?_
    have saved' := saved.dup lawful at_ dup
    refine (ends_t saved' lawful _).bind fun _ _ => ?_
    refine ⟨saved'.dup2 lawful ?_ _, fun j other => Function.update_of_ne other ..⟩
    show Function.update s.orig k orig k ≠ k.fileno
    rw [Function.update_self]
    exact lawful.orig_ne dup k

theorem ends_putBack (saved : Saved env table (fun _ => False) s) (lawful : Lawful env table) :
    Ends env table (fun s' => Moves env table s k s' ∧ s'.orig k = k.fileno) (putBack env k s) := by
  unfold putBack
  split
  case isTrue moved =>
    refine (ends_t saved lawful _).bind fun _ _ => ?_
    have released := saved.release lawful moved (Function.update s.table k.fileno _)
      (.inl (Function.update_self ..)) fun fd other => Function.update_of_ne other ..
    exact ⟨⟨released, fun j other => Function.update_of_ne other ..⟩, Function.update_self ..⟩
  case isFalse there => exact ⟨⟨saved, fun _ _ => rfl⟩, not_not.1 there⟩

theorem ends_setup (saved : Saved env table (fun _ => False) s) (lawful : Lawful env table)
    (setup : List (Except Error Unit)) :
    Ends env table (fun _ => True) (setup.forM (t env s)) := by
  induction setup with
  | nil => trivial
  | cons answer setup ih =>
    rw [List.forM_eq_forM, List.forM_cons]
    exact (ends_t saved lawful answer).bind fun _ _ => ih

/-- **The parent gets its descriptors back.** Whichever of the calls fail, every descriptor is after
`spawn` what it was before, save a standard stream that `t!` could not put back; nothing is left open.
When `spawn` gets to its end, all are what they were. -/
theorem spawn_restores (theirs : Stream → Option Nat) (lawful : Lawful env table) :
    (∀ fd, after (spawn env theirs table) fd = table fd ∨
      ∃ k : Stream, fd = k.fileno ∧ env.rescue k = false) ∧
    ∀ ret s, spawn env theirs table = .ok (ret, s) → ret = env.rtpSpawn ∧ s.table = table := by
  have ends : Ends env table (fun r => r.1 = env.rtpSpawn ∧ r.2.table = table)
      (spawn env theirs table) := by
    unfold spawn
    refine (ends_redirect saved_start lawful rfl).bind fun s₁ ⟨saved₁, same₁⟩ => ?_
    have second : s₁.orig .stdout = Stream.stdout.fileno := same₁ _ (by decide)
    have third : s₁.orig .stderr = Stream.stderr.fileno := same₁ _ (by decide)
    refine (ends_redirect saved₁ lawful second).bind fun s₂ ⟨saved₂, same₂⟩ => ?_
    have third : s₂.orig .stderr = Stream.stderr.fileno := (same₂ _ (by decide)).trans third
    refine (ends_redirect saved₂ lawful third).bind fun s₃ ⟨saved₃, _⟩ => ?_
    refine (ends_setup saved₃ lawful env.setup).bind fun _ _ => ?_
    refine (ends_putBack saved₃ lawful).bind fun s₄ ⟨⟨saved₄, _⟩, stdin⟩ => ?_
    refine (ends_putBack saved₄ lawful).bind fun s₅ ⟨⟨saved₅, same₅⟩, stdout⟩ => ?_
    refine (ends_putBack saved₅ lawful).bind fun s₆ ⟨⟨saved₆, same₆⟩, stderr⟩ => ?_
    have back : ∀ k, s₆.orig k = k.fileno := by
      intro k
      cases k with
      | stdin => exact (same₆ _ (by decide)).trans ((same₅ _ (by decide)).trans stdin)
      | stdout => exact (same₆ _ (by decide)).trans stdout
      | stderr => exact stderr
    refine ⟨rfl, funext fun fd => ?_⟩
    exact (saved₆.table_eq back fd).resolve_right fun ⟨_, _, gone⟩ => gone
  cases done : spawn env theirs table with
  | ok r =>
    rw [done] at ends
    obtain ⟨ret, restored⟩ := ends
    refine ⟨fun fd => .inl (congrFun restored fd), ?_⟩
    rintro _ _ ⟨⟩
    exact ⟨ret, restored⟩
  | error e =>
    rw [done] at ends
    exact ⟨ends, nofun⟩

/-- All streams are redirected, `chdir` fails, and so does the attempt to put back `stdout`. -/
def noDirectory : Env Nat Nat where
  dup k := .ok (10 + k.fileno)
  dup2 _ := .ok ()
  setup := [.error 2]
  rtpSpawn := .ok 1
  putBack _ := .ok ()
  rescue k := k ≠ .stdout

/-- A parent with eight descriptors. -/
def eight : Table Nat := fun fd => if fd < 8 then some fd else none

theorem spawn_restores_noDirectory :
    after (spawn noDirectory (fun _ => some 7) eight) 0 = some 0 ∧
      after (spawn noDirectory (fun _ => some 7) eight) 2 = some 2 ∧
      after (spawn noDirectory (fun _ => some 7) eight) 11 = none := by
  have lawful : Lawful noDirectory eight := by
    constructor
    · intro k
      cases k <;> rfl
    · rintro k orig ⟨⟩
      cases k <;> rfl
    · intro j k orig one two
      cases one
      exact fileno_injective (Nat.add_left_cancel (Except.ok.inj two)).symm
  have restored : ∀ fd, fd ≠ 1 →
      after (spawn noDirectory (fun _ => some 7) eight) fd = eight fd := by
    intro fd other
    rcases (spawn_restores (fun _ => some 7) lawful).1 fd with same | ⟨k, rfl, gone⟩
    · exact same
    · cases k <;> first | exact absurd rfl other | cases gone
  exact ⟨restored 0 (by decide), restored 2 (by decide), restored 11 (by decide)⟩

end SecurityAudits.RustStdlib.VxworksSpawn
