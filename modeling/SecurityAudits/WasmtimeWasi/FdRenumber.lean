import SecurityAudits.Lib.Run
import Mathlib.Data.List.Nodup
import Mathlib.Logic.Function.Basic

/-!
# `fd_renumber` of preview 1

`fd_renumber` (`crates/wasi/src/p1.rs`) moves a descriptor of the guest to the number of another one.
What is behind a descriptor is a resource in the host's table, which nothing but an explicit drop hook
takes out again: a descriptor that is merely overwritten leaves its resource behind for good. So the
call takes the replaced descriptor out of `used`, and drops its resource once the transaction is over.

The system is a guest that calls `fd_renumber` as it likes, between any other calls, of which it is only
assumed that they leave descriptors and table tidy.
-/

namespace SecurityAudits.WasmtimeWasi.FdRenumber
set_option autoImplicit false
open SecurityAudits.Run

/-! ## The descriptors -/

/-- `types::Fd`, as the number it is. -/
abbrev Fd := UInt32

/-- An entry of the host's table, under the type its drop hook is for. -/
inductive Resource where
  | inputStream (rep : Nat)
  | outputStream (rep : Nat)
  | descriptor (rep : Nat)
  deriving DecidableEq, Repr

inductive Descriptor where
  | stdin (stream : Nat)
  | stdout (stream : Nat)
  | stderr (stream : Nat)
  | file (fd : Nat)
  | directory (fd : Nat)
  deriving DecidableEq, Repr

/-- The resource that the drop hook is called on. -/
def Descriptor.resource : Descriptor → Resource
  | .stdin stream => .inputStream stream
  | .stdout stream => .outputStream stream
  | .stderr stream => .outputStream stream
  | .file fd => .descriptor fd
  | .directory fd => .descriptor fd

structure State where
  /-- `descriptors.used` -/
  used : Fd → Option Descriptor
  /-- `descriptors.free` -/
  free : Fd → Bool
  /-- what the host's table has for descriptors -/
  table : List Resource

/-- The `drop` of the resource's type. It fails for a resource that is not in the table, and it may
fail for one that is. -/
def State.drop (s : State) (r : Resource) (goesThrough : Bool) : Option State :=
  if r ∈ s.table ∧ goesThrough = true then some { s with table := s.table.erase r } else none

/-! ## The call -/

structure Call where
  source : Fd
  dest : Fd
  /-- whether `self.transact()` succeeds -/
  transacts : Bool
  /-- whether the hook takes a resource that is in the table -/
  drops : Bool
  deriving DecidableEq, Repr

inductive Answer where
  | ok
  /-- the error of `self.transact()` -/
  | failed
  /-- `types::Errno::Badf` -/
  | badf
  /-- `types::Error::trap`, which ends the guest -/
  | trap
  /-- `unwrap` of a descriptor that is not there -/
  | panic
  deriving DecidableEq, Repr

def fdRenumber (s : State) (c : Call) : Answer × State :=
  if c.transacts = false then (.failed, s)
  else if (s.used c.dest).isNone then (.badf, s)
  else
    match s.used c.source with
    | none => (.badf, s)
    | some desc =>
      if c.source ≠ c.dest then
        let removed := Function.update s.used c.source none
        match removed c.dest with
        | none => (.panic, s)
        | some replaced =>
          let moved : State :=
            { s with
              used := Function.update removed c.dest (some desc)
              free := Function.update (Function.update s.free c.source true) c.dest false }
          -- the transaction is over here, and with it the hold on the descriptors
          match moved.drop replaced.resource c.drops with
          | none => (.trap, moved)
          | some dropped => (.ok, dropped)
      else (.ok, s)

inductive Action where
  | renumber (c : Call)
  /-- another call of the guest -/
  | other (next : State)

/-- A trap and a panic end the guest. -/
def step (s : State) : Action → Option State
  | .renumber c =>
    match fdRenumber s c with
    | (.ok, t) => some t
    | (.failed, t) => some t
    | (.badf, t) => some t
    | (.trap, _) => none
    | (.panic, _) => none
  | .other next => some next

/-! ## What the descriptors and the table owe each other -/

/-- Every entry of the table has one number, by which the guest can still reach it, and close it. -/
structure Tidy (s : State) : Prop where
  apart : ∀ n, s.free n = true → s.used n = none
  backed : ∀ n d, s.used n = some d → d.resource ∈ s.table
  once : ∀ m n d e, s.used m = some d → s.used n = some e → d.resource = e.resource → m = n
  reached : ∀ r ∈ s.table, ∃ n d, s.used n = some d ∧ d.resource = r
  nodup : s.table.Nodup

/-- The descriptors after `desc` has moved from `source` to `dest`. -/
structure Moved (s t : State) (source dest : Fd) (desc : Descriptor) : Prop where
  atDest : t.used dest = some desc
  atSource : t.used source = none
  elsewhere : ∀ n, n ≠ source → n ≠ dest → t.used n = s.used n
  freed : ∀ n, t.free n = true ↔ n = source ∨ (s.free n = true ∧ n ≠ dest)

variable {s t : State} {c : Call} {source dest : Fd} {desc replaced : Descriptor}

/-- The state between the transaction and the drop hook. -/
def State.move (s : State) (source dest : Fd) (desc : Descriptor) : State :=
  { s with
    used := Function.update (Function.update s.used source none) dest (some desc)
    free := Function.update (Function.update s.free source true) dest false }

theorem move_moved (apart : source ≠ dest) : Moved s (s.move source dest desc) source dest desc where
  atDest := Function.update_self ..
  atSource := by simp [State.move, Function.update_of_ne apart]
  elsewhere n notSource notDest := by
    simp [State.move, Function.update_of_ne notDest, Function.update_of_ne notSource]
  freed n := by
    by_cases isDest : n = dest
    · subst isDest
      simp [State.move, Ne.symm apart]
    · by_cases isSource : n = source
      · subst isSource
        simp [State.move, Function.update_of_ne isDest]
      · simp [State.move, isDest, isSource]

/-- The numbers a descriptor is found under after the move. -/
theorem Moved.used_cases (moved : Moved s t source dest desc) {n : Fd} {d : Descriptor}
    (found : t.used n = some d) : (n = dest ∧ d = desc) ∨ (n ≠ source ∧ n ≠ dest ∧ s.used n = some d) := by
  by_cases isDest : n = dest
  · subst isDest
    exact .inl ⟨rfl, (Option.some.inj (moved.atDest.symm.trans found)).symm⟩
  · by_cases isSource : n = source
    · subst isSource
      rw [moved.atSource] at found
      cases found
    · exact .inr ⟨isSource, isDest, (moved.elsewhere n isSource isDest).symm.trans found⟩

/-- The move keeps the table tidy when the resource of the replaced descriptor goes with it. -/
theorem Tidy.moved (tidy : Tidy s) (apart : source ≠ dest) (from_ : s.used source = some desc)
    (old : s.used dest = some replaced) (moved : Moved s t source dest desc)
    (table : t.table = s.table.erase replaced.resource) : Tidy t := by
  have mem_table : ∀ r, r ∈ t.table ↔ r ≠ replaced.resource ∧ r ∈ s.table := by
    intro r
    rw [table, tidy.nodup.mem_erase_iff]
  -- nothing but the replaced descriptor names its resource
  have others : ∀ n d, n ≠ dest → s.used n = some d → d.resource ≠ replaced.resource := by
    intro n d notDest found same
    exact notDest (tidy.once n dest d replaced found old same)
  refine ⟨fun n free => ?_, fun n d found => ?_, fun m n d e one two same => ?_, fun r held => ?_, ?_⟩
  · rcases (moved.freed n).1 free with rfl | ⟨wasFree, notDest⟩
    · exact moved.atSource
    · have unused := tidy.apart n wasFree
      have notSource : n ≠ source := by
        rintro rfl
        rw [from_] at unused
        cases unused
      rw [moved.elsewhere n notSource notDest, unused]
  · rw [mem_table]
    rcases moved.used_cases found with ⟨rfl, rfl⟩ | ⟨-, notDest, was⟩
    · exact ⟨others source d apart from_, tidy.backed source d from_⟩
    · exact ⟨others n d notDest was, tidy.backed n d was⟩
  · rcases moved.used_cases one with ⟨rfl, rfl⟩ | ⟨notSource, notDest, was⟩
    · rcases moved.used_cases two with ⟨rfl, -⟩ | ⟨notSource', -, was'⟩
      · rfl
      · exact absurd (tidy.once n source e d was' from_ same.symm) notSource'
    · rcases moved.used_cases two with ⟨rfl, rfl⟩ | ⟨-, -, was'⟩
      · exact absurd (tidy.once m source d e was from_ same) notSource
      · exact tidy.once m n d e was was' same
  · obtain ⟨left, held⟩ := (mem_table r).1 held
    obtain ⟨n, d, was, rfl⟩ := tidy.reached r held
    by_cases isSource : n = source
    · subst isSource
      obtain rfl : desc = d := Option.some.inj (from_.symm.trans was)
      exact ⟨dest, desc, moved.atDest, rfl⟩
    · have notDest : n ≠ dest := by
        rintro rfl
        obtain rfl : replaced = d := Option.some.inj (old.symm.trans was)
        exact left rfl
      exact ⟨n, d, (moved.elsewhere n isSource notDest).trans was, rfl⟩
  · rw [table]
    exact tidy.nodup.erase _

/-! ## What a call does -/

/-- What `fd_renumber` promises of a call in a state. -/
structure Renumbers (s : State) (c : Call) : Prop where
  failed : c.transacts = false → fdRenumber s c = (.failed, s)
  badf : c.transacts = true → (s.used c.source = none ∨ s.used c.dest = none) →
    fdRenumber s c = (.badf, s)
  same : c.transacts = true → c.source = c.dest → (s.used c.source).isSome →
    fdRenumber s c = (.ok, s)
  /-- the replaced descriptor's resource, and no other, leaves the table -/
  moves : ∀ desc replaced, c.transacts = true → c.source ≠ c.dest → s.used c.source = some desc →
    s.used c.dest = some replaced → c.drops = true →
    ∃ t, fdRenumber s c = (.ok, t) ∧ Moved s t c.source c.dest desc ∧
      t.table = s.table.erase replaced.resource
  /-- the guest is over when the hook fails, and then only -/
  traps : (fdRenumber s c).1 = .trap → c.drops = false
  noPanic : (fdRenumber s c).1 ≠ .panic

/-- A call on two numbers in use comes to the drop hook. -/
theorem fdRenumber_moves (transacts : c.transacts = true) (apart : c.source ≠ c.dest)
    (found : s.used c.source = some desc) (old : s.used c.dest = some replaced) :
    fdRenumber s c =
      match (s.move c.source c.dest desc).drop replaced.resource c.drops with
      | none => (.trap, s.move c.source c.dest desc)
      | some dropped => (.ok, dropped) := by
  have stays : Function.update s.used c.source none c.dest = some replaced := by
    rw [Function.update_of_ne (Ne.symm apart), old]
  simp [fdRenumber, State.move, transacts, apart, found, old, stays]

theorem move_drop (held : replaced.resource ∈ s.table) (drops : c.drops = true) :
    (s.move source dest desc).drop replaced.resource c.drops =
      some { s.move source dest desc with table := s.table.erase replaced.resource } := by
  simp [State.drop, State.move, held, drops]

/-- The ways a call goes. -/
theorem fdRenumber_cases (s : State) (c : Call) :
    (∃ answer, (answer = .ok ∨ answer = .failed ∨ answer = .badf) ∧ fdRenumber s c = (answer, s)) ∨
    ∃ desc replaced, c.transacts = true ∧ c.source ≠ c.dest ∧ s.used c.source = some desc ∧
      s.used c.dest = some replaced := by
  by_cases transacts : c.transacts = true
  · cases old : s.used c.dest with
    | none => exact .inl ⟨.badf, .inr (.inr rfl), by simp [fdRenumber, transacts, old]⟩
    | some replaced =>
      cases found : s.used c.source with
      | none => exact .inl ⟨.badf, .inr (.inr rfl), by simp [fdRenumber, transacts, old, found]⟩
      | some desc =>
        by_cases apart : c.source = c.dest
        · exact .inl ⟨.ok, .inl rfl, by simp [fdRenumber, transacts, apart, old]⟩
        · exact .inr ⟨desc, replaced, transacts, apart, rfl, rfl⟩
  · exact .inl ⟨.failed, .inr (.inl rfl), by simp [fdRenumber, Bool.eq_false_iff.2 transacts]⟩

/-- Where the descriptors are tidy a call does what it promises. -/
theorem Tidy.renumbers (tidy : Tidy s) (c : Call) : Renumbers s c where
  failed fails := by simp [fdRenumber, fails]
  badf transacts unused := by
    cases old : s.used c.dest with
    | none => simp [fdRenumber, transacts, old]
    | some replaced =>
      have unused : s.used c.source = none := unused.resolve_right (by simp [old])
      simp [fdRenumber, transacts, old, unused]
  same transacts same found := by
    obtain ⟨desc, found⟩ := Option.isSome_iff_exists.1 found
    have old : s.used c.dest = some desc := same ▸ found
    simp [fdRenumber, transacts, same, old]
  moves desc replaced transacts apart found old drops := by
    have moved : Moved s (s.move c.source c.dest desc) c.source c.dest desc := move_moved apart
    refine ⟨{ s.move c.source c.dest desc with table := s.table.erase replaced.resource }, ?_,
      ⟨moved.atDest, moved.atSource, moved.elsewhere, moved.freed⟩, rfl⟩
    rw [fdRenumber_moves transacts apart found old, move_drop (tidy.backed _ _ old) drops]
  traps trapped := by
    rcases fdRenumber_cases s c with ⟨answer, which, ends⟩ |
      ⟨desc, replaced, transacts, apart, found, old⟩
    · rw [ends] at trapped
      rcases which with rfl | rfl | rfl <;> cases trapped
    · by_contra drops
      rw [fdRenumber_moves transacts apart found old,
        move_drop (tidy.backed _ _ old) (by simpa using drops)] at trapped
      cases trapped
  noPanic := by
    rcases fdRenumber_cases s c with ⟨answer, which, ends⟩ |
      ⟨desc, replaced, transacts, apart, found, old⟩
    · rw [ends]
      rcases which with rfl | rfl | rfl <;> simp
    · rw [fdRenumber_moves transacts apart found old]
      split <;> simp

/-- The step rule. -/
theorem Tidy.step_renumber (tidy : Tidy s) (taken : step s (.renumber c) = some t) : Tidy t := by
  rcases fdRenumber_cases s c with ⟨answer, which, ends⟩ |
    ⟨desc, replaced, transacts, apart, found, old⟩
  · rw [step, ends] at taken
    rcases which with rfl | rfl | rfl <;> exact Option.some.inj taken ▸ tidy
  · have backed := tidy.backed _ _ old
    by_cases drops : c.drops = true
    · obtain ⟨t', ends, moved, table⟩ :=
        (tidy.renumbers c).moves desc replaced transacts apart found old drops
      rw [step, ends] at taken
      obtain rfl := Option.some.inj taken
      exact tidy.moved apart found old moved table
    · rw [step, fdRenumber_moves transacts apart found old] at taken
      simp [State.drop, drops] at taken

/-- The other calls of the guest leave descriptors and table tidy. -/
def OthersTidy (_ : State) : Action → Prop
  | .renumber _ => True
  | .other next => Tidy next

/-- **Renumbering leaks nothing.** Whatever the guest renumbers, and whatever it calls in between, every
resource of the table stays reachable by exactly one number, and every call answers as promised: it
never panics, and ends the guest only when the host's drop hook fails. -/
theorem fdRenumber_tidy {as : List Action} (start : Tidy s) (others : Along step OthersTidy s as)
    (run : exec step s as = some t) : Tidy t ∧ ∀ c, Renumbers t c := by
  have tidy : Tidy t := by
    refine exec_invariant_along (fun s a t tidy ok taken => ?_) start others run
    cases a with
    | renumber c => exact tidy.step_renumber taken
    | other next => exact Option.some.inj taken ▸ ok
  exact ⟨tidy, tidy.renumbers⟩

/-- A guest with standard input, an output stream, and a file. -/
def opened : State where
  used := fun n => if n = 0 then some (.stdin 0) else if n = 1 then some (.stdout 1)
    else if n = 3 then some (.file 7) else none
  free := fun n => n = 2
  table := [.inputStream 0, .outputStream 1, .descriptor 7]

theorem opened_tidy : Tidy opened where
  apart n free := by
    obtain rfl : n = 2 := by simpa [opened] using free
    rfl
  backed n d found := by
    unfold opened at found ⊢
    dsimp only at found
    split_ifs at found <;> cases found <;> decide
  once m n d e one two same := by
    unfold opened at one two
    dsimp only at one two
    split_ifs at one two <;> subst_vars <;> cases one <;> cases two <;> first | rfl | cases same
  reached r held := by
    rcases (by simpa [opened] using held : r = .inputStream 0 ∨ r = .outputStream 1 ∨
      r = .descriptor 7) with rfl | rfl | rfl
    exacts [⟨0, .stdin 0, rfl, rfl⟩, ⟨1, .stdout 1, rfl, rfl⟩, ⟨3, .file 7, rfl, rfl⟩]
  nodup := by decide

/-- The file takes the place of the output stream, which is dropped, and then a closed number is asked
for. -/
theorem fdRenumber_tidy_overStdout :
    let calls := [Action.renumber ⟨3, 1, true, true⟩, .renumber ⟨3, 0, true, true⟩]
    ((exec step opened calls).map fun t => (t.used 1, t.used 3, t.free 3, t.table)) =
        some (some (.file 7), none, true, [.inputStream 0, .descriptor 7]) ∧
      ∀ t, exec step opened calls = some t → Tidy t ∧ ∀ c, Renumbers t c := by
  refine ⟨by decide, fun t run => fdRenumber_tidy opened_tidy ?_ run⟩
  refine along_of_mem fun a listed s => ?_
  rcases (by simpa using listed : a = .renumber _ ∨ a = .renumber _) with rfl | rfl <;> trivial

end SecurityAudits.WasmtimeWasi.FdRenumber
