import Mathlib.Logic.Basic

/-!
# Thread locals without threads

`LazyStorage` (`sys/thread_local/no_threads.rs`) holds a thread local of a target that has no threads:
a state and room for the value, which `get` fills at the first access. The initializer is code of the
user. It may access the same key, panic, and catch the panics of what it calls; before the patch a
second value, written by such an inner access, was dropped and overwritten while a pointer to it was
in use.

Programs are all that users of the key can do with it, initializers included. `eval_once` says that
every program sees a cell that is filled once and then never changes: the initializer runs as if the
key could not be accessed at all, and one that panics leaves the cell empty.
-/

namespace SecurityAudits.RustStdlib.LazyStorage
set_option autoImplicit false

variable {T : Type}

/-- Code that accesses the key, and in the end has a value or panics. -/
inductive Program (T : Type) where
  | ret (value : T)
  | panic
  /-- `LazyStorage::get(i, f)`; the program goes on with a pointer (`true`), or catches a panic. -/
  | get (i : Option T) (f : Program T) (next : Bool → Program T)
  /-- A read through a pointer that `get` has returned; `none` where no value is. -/
  | read (next : Option T → Program T)

/-! ## The functions -/

inductive State where
  | initial
  | alive
  | initializing
  deriving DecidableEq, Repr

/-- `LazyStorage<T>`; `none` for memory that has no value. -/
structure Storage (T : Type) where
  value : Option T
  state : State

/-- `initialize`, where `f` is the initializer: the storage, and whether there is a pointer or a panic.
The guard is dropped by a panic of the initializer and forgotten otherwise. -/
def initializeStorage (s : Storage T) (i : Option T) (f : Storage T → Option T × Storage T) :
    Bool × Storage T :=
  match s.state with
  | .alive => (false, s)
  | .initializing => (false, s)
  | .initial =>
    let s := { s with state := .initializing }
    let evaluated := match i with
      | some value => (some value, s)
      | none => f s
    match evaluated.1 with
    | some value => (true, { evaluated.2 with value := some value, state := .alive })
    | none => (false, { evaluated.2 with state := .initial })

/-- `get` -/
def get (s : Storage T) (i : Option T) (f : Storage T → Option T × Storage T) : Bool × Storage T :=
  match s.state with
  | .alive => (true, s)
  | .initial => initializeStorage s i f
  | .initializing => initializeStorage s i f

/-- A program on a storage: its value, if it does not panic, and the storage behind it. -/
def eval : Program T → Storage T → Option T × Storage T
  | .ret value => fun s => (some value, s)
  | .panic => fun s => (none, s)
  | .get i f next => fun s =>
    let got := get s i (eval f)
    eval (next got.1) got.2
  | .read next => fun s => eval (next s.value) s

/-! ## The cell -/

/-- A program for which every access to the key fails. -/
def denied : Program T → Option T
  | .ret value => some value
  | .panic => none
  | .get _ _ next => denied (next false)
  | .read next => denied (next none)

/-- A program on a cell that is empty or has its value for good. -/
def once : Program T → Option T → Option T × Option T
  | .ret value => fun cell => (some value, cell)
  | .panic => fun cell => (none, cell)
  | .get i f next => fun cell =>
    match cell with
    | some value => once (next true) (some value)
    | none =>
      match i.or (denied f) with
      | some value => once (next true) (some value)
      | none => once (next false) none
  | .read next => fun cell => once (next cell) cell

/-- The storage that holds a cell. -/
def store : Option T → Storage T
  | some value => ⟨some value, .alive⟩
  | none => ⟨none, .initial⟩

/-- The storage while an initializer runs. -/
def busy : Storage T := ⟨none, .initializing⟩

/-- The code of an initializer is denied the key, and leaves the storage alone. -/
theorem eval_busy (p : Program T) : eval p busy = (denied p, busy) := by
  induction p with
  | ret value => rfl
  | panic => rfl
  | get i f next _ ihNext => exact ihNext false
  | read next ih => exact ih none

theorem get_empty (i : Option T) (f : Program T) :
    get (store none) i (eval f) = match i.or (denied f) with
      | some value => (true, store (some value))
      | none => (false, store none) := by
  cases i with
  | some value => rfl
  | none =>
    have ran : eval f ⟨none, .initializing⟩ = (denied f, busy) := eval_busy f
    simp only [get, store, initializeStorage, ran, Option.none_or]
    cases denied f <;> rfl

/-- A value is never replaced. -/
theorem once_some (p : Program T) (value : T) : (once p (some value)).2 = some value := by
  induction p with
  | ret other => rfl
  | panic => rfl
  | get i f next _ ihNext => exact ihNext true
  | read next ih => exact ih (some value)

/-- **A thread local is filled once.** A program does with the storage what it does with the cell,
whatever its initializers access, and the cell keeps its value. -/
theorem eval_once (p : Program T) (cell : Option T) :
    eval p (store cell) = ((once p cell).1, store (once p cell).2) ∧
      ∀ value, cell = some value → (once p cell).2 = some value := by
  refine ⟨?_, fun value filled => filled ▸ once_some p value⟩
  induction p generalizing cell with
  | ret value => rfl
  | panic => rfl
  | get i f next _ ihNext =>
    cases cell with
    | some value => exact ihNext true (some value)
    | none =>
      simp only [eval, once, get_empty]
      cases i.or (denied f) with
      | some value => exact ihNext true (some value)
      | none => exact ihNext false none
  | read next ih =>
    have content : (store cell).value = cell := by cases cell <;> rfl
    simp only [eval, once, content]
    exact ih cell cell

/-- An initializer that accesses its own key, catches the panic and has a value of its own. -/
example (read : Option Nat → Program Nat) :
    let inner : Program Nat := .get none (.ret 1) fun pointer => .ret (if pointer then 2 else 3)
    eval (.get none inner fun _ => .read read) (store none) = eval (read (some 3)) (store (some 3)) :=
  rfl

end SecurityAudits.RustStdlib.LazyStorage
