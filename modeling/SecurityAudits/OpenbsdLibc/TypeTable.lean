import SecurityAudits.Lib.Memory
import Mathlib.Algebra.Order.Ring.Nat

/-!
# The type table of a positional `printf`

`__find_arguments` (`stdio/vfprintf.c`) records the type of each argument of a format at the
argument's number. The table is an array of 8 bytes on the stack at first; `__grow_type_table`
replaces it by a mapping, and that by a larger one.

An argument number comes from the format, so the jump to it is of any length. `find_arguments`
carries the table through all `ADDTYPE`s of a format (`Recorded`); `growTo_spec` is the loop of one.
-/

namespace SecurityAudits.OpenbsdLibc.TypeTable
set_option autoImplicit false
open SecurityAudits.Memory

def intMax : Nat := 2147483647

/-- The value of an `int` expression that is not negative. An overflow is undefined. -/
def toInt (n : Nat) : Option Nat := if n ≤ intMax then some n else none

def staticArgTblSize : Nat := 8

/-- `unsigned char *typetable` with `int tablesize`. -/
structure Table where
  typetable : Buffer UInt8
  tablesize : Nat
  mapped : Bool
  deriving DecidableEq, Repr

inductive Errno where
  | eoverflow
  | enomem
  deriving DecidableEq, Repr

/-- The kernel's side: whether a mapping of so many bytes is granted when the table has the given
size, and the rest of `__grow_type_table` for a table that is mapped already, which moves it to a
new mapping or fails. -/
structure System where
  getpagesize : Nat
  mmap : Nat → Nat → Bool
  moveMapped : Buffer UInt8 → Nat → Option (Buffer UInt8)

/-- What is relied on: the page size is an `int`, and a table that is moved keeps its bytes. -/
structure System.Lawful (sys : System) : Prop where
  page : sys.getpagesize ≤ intMax
  moves : ∀ table size new, table.length ≤ size → sys.moveMapped table size = some new →
    new.length = size ∧ table <+: new

/-- `bcopy(src, dst, n)` -/
def bcopy (src dst : Buffer UInt8) (n : Nat) : Option (Buffer UInt8) :=
  if n ≤ src.length then copy dst 0 (src.take n) else none

/-- `__grow_type_table`; none when its behaviour is undefined. A table is of the size of its
mapping. -/
def growTypeTable (sys : System) (t : Table) : Option (Except Errno Table) :=
  if t.tablesize > intMax / 2 then some (.error .eoverflow)
  else
    (toInt (t.tablesize * 2)).bind fun doubled =>
      let newsize := if doubled < sys.getpagesize then sys.getpagesize else doubled
      if t.tablesize = staticArgTblSize then
        if sys.mmap t.tablesize newsize then
          (bcopy t.typetable (List.replicate newsize (some 0)) t.tablesize).map fun new =>
            .ok ⟨new, newsize, true⟩
        else some (.error .enomem)
      else
        match sys.moveMapped t.typetable newsize with
        | none => some (.error .enomem)
        | some new => some (.ok ⟨new, newsize, true⟩)

/-- The loop of `ADDTYPE`: `while (nextarg >= tablesize)`, with the table where it is left. None also
when it is not left within `fuel` iterations. -/
def growTo (sys : System) (nextarg : Nat) : Nat → Table → Option (Option Errno × Table)
  | 0, _ => none
  | fuel + 1, t =>
    if nextarg ≥ t.tablesize then
      (growTypeTable sys t).bind fun
        | .error e => some (some e, t)
        | .ok t => growTo sys nextarg fuel t
    else some (none, t)

/-- The variables of `__find_arguments`. `ret` is -1 when there is an error. -/
structure State where
  table : Table
  tablemax : Nat
  nextarg : Nat
  error : Option Errno
  deriving DecidableEq, Repr

/-- `ADDTYPE(type)` -/
def addtype (sys : System) (fuel : Nat) (type : UInt8) (s : State) : Option State :=
  (growTo sys s.nextarg fuel s.table).bind fun
    | (some e, t) => some { s with table := t, error := some e }
    | (none, t) =>
      let tablemax := if s.nextarg > s.tablemax then s.nextarg else s.tablemax
      (store t.typetable s.nextarg type).bind fun typetable =>
        (toInt (s.nextarg + 1)).map fun nextarg =>
          ⟨{ t with typetable := typetable }, tablemax, nextarg, s.error⟩

/-- An argument of the format: its number, if that is given, and its type. -/
structure Arg where
  number : Option Nat
  type : UInt8
  deriving DecidableEq, Repr

/-- One argument of the format, unless `goto finish` has been taken. -/
def step (sys : System) (fuel : Nat) (s : State) (a : Arg) : Option State :=
  match s.error with
  | some _ => some s
  | none => addtype sys fuel a.type { s with nextarg := a.number.getD s.nextarg }

def findArguments (sys : System) (fuel : Nat) : State → List Arg → Option State
  | s, [] => some s
  | s, a :: args => (step sys fuel s a).bind fun s => findArguments sys fuel s args

/-- The table is `stattypetable`, with all of its bytes set. -/
def start (stattypetable : Buffer UInt8) (nextarg : Nat) : State :=
  ⟨⟨stattypetable, staticArgTblSize, false⟩, 0, nextarg, none⟩

/-- What `finish:` unmaps. -/
def finish (s : State) : Option Nat := if s.table.mapped then some s.table.tablesize else none

/-- The writes that the arguments ask for: the number and the type of each. -/
def writes : Nat → List Arg → List (Nat × UInt8)
  | _, [] => []
  | nextarg, a :: args =>
    (a.number.getD nextarg, a.type) :: writes (a.number.getD nextarg + 1) args

/-! ## Growth -/

structure Table.Valid (t : Table) : Prop where
  size : t.typetable.length = t.tablesize
  static : staticArgTblSize ≤ t.tablesize
  isInt : t.tablesize ≤ intMax

variable {sys : System} {t : Table} {s : State} {ws : List (Nat × UInt8)}

theorem toInt_eq {n : Nat} (le : n ≤ intMax) : toInt n = some n := if_pos le

theorem bcopy_eq (src : Buffer UInt8) {n : Nat} (le : src.length ≤ n) :
    ∃ new, bcopy src (List.replicate n (some 0)) src.length = some new ∧ new.length = n ∧
      src <+: new := by
  refine ⟨src ++ (List.replicate n (some 0)).drop src.length, ?_, ?_, List.prefix_append _ _⟩
  · simp [bcopy, copy, le]
  · simp [le]

/-- A table that grows is at least doubled and keeps its bytes. -/
theorem growTypeTable_spec (lawful : sys.Lawful) (valid : t.Valid) :
    (growTypeTable sys t = some (.error .eoverflow) ∧ intMax / 2 < t.tablesize) ∨
    growTypeTable sys t = some (.error .enomem) ∨
    ∃ t', growTypeTable sys t = some (.ok t') ∧ t'.Valid ∧ 2 * t.tablesize ≤ t'.tablesize ∧
      t.typetable <+: t'.typetable := by
  by_cases large : t.tablesize > intMax / 2
  · exact .inl ⟨if_pos large, large⟩
  refine .inr ?_
  have fits : t.tablesize * 2 ≤ intMax := by omega
  obtain ⟨newsize, chosen⟩ : ∃ n, n = if t.tablesize * 2 < sys.getpagesize then sys.getpagesize
    else t.tablesize * 2 := ⟨_, rfl⟩
  have doubled : 2 * t.tablesize ≤ newsize := by
    split at chosen <;> omega
  have isInt : newsize ≤ intMax := by
    have page := lawful.page
    split at chosen <;> omega
  have static := valid.static
  rw [growTypeTable, if_neg large, toInt_eq fits]
  dsimp only [Option.bind_some]
  rw [← chosen]
  split
  · cases sys.mmap t.tablesize newsize with
    | false => exact .inl rfl
    | true =>
      have fits : t.typetable.length ≤ newsize := by rw [valid.size]; omega
      obtain ⟨new, copied, size, kept⟩ := bcopy_eq t.typetable fits
      rw [valid.size] at copied
      refine .inr ⟨⟨new, newsize, true⟩, ?_, ⟨size, by dsimp only; omega, isInt⟩, doubled, kept⟩
      rw [if_pos rfl, copied]
      rfl
  · cases moved : sys.moveMapped t.typetable newsize with
    | none => exact .inl rfl
    | some new =>
      obtain ⟨size, kept⟩ := lawful.moves _ _ _ (by rw [valid.size]; omega) moved
      exact .inr ⟨⟨new, newsize, true⟩, rfl, ⟨size, by dsimp only; omega, isInt⟩, doubled, kept⟩

/-- The loop of `ADDTYPE` ends: with room for the argument, or with an error, which is an overflow
for large numbers only. -/
theorem growTo_spec (lawful : sys.Lawful) (nextarg fuel : Nat) (valid : t.Valid)
    (enough : intMax < 2 ^ fuel * t.tablesize) :
    ∃ e t', growTo sys nextarg fuel t = some (e, t') ∧ t'.Valid ∧ t.typetable <+: t'.typetable ∧
      (e = none → nextarg < t'.tablesize) ∧ (e = some .eoverflow → intMax / 2 < nextarg) := by
  induction fuel generalizing t with
  | zero =>
    have isInt := valid.isInt
    rw [Nat.pow_zero, Nat.one_mul] at enough
    omega
  | succ fuel ih =>
    by_cases more : nextarg ≥ t.tablesize
    · rw [growTo, if_pos more]
      rcases growTypeTable_spec lawful valid with
        ⟨grown, large⟩ | grown | ⟨t', grown, valid', doubled, kept⟩
      · exact ⟨some .eoverflow, t, by rw [grown]; rfl, valid, List.prefix_refl _,
          fun none => (by cases none), fun _ => by omega⟩
      · exact ⟨some .enomem, t, by rw [grown]; rfl, valid, List.prefix_refl _,
          fun none => (by cases none), fun overflow => (by cases overflow)⟩
      · have enough' : intMax < 2 ^ fuel * t'.tablesize := by
          calc intMax < 2 ^ (fuel + 1) * t.tablesize := enough
            _ = 2 ^ fuel * (2 * t.tablesize) := by rw [Nat.pow_succ, Nat.mul_assoc]
            _ ≤ 2 ^ fuel * t'.tablesize := Nat.mul_le_mul_left _ doubled
        obtain ⟨e, last, ends, validLast, keptLast, room, overflow⟩ := ih valid' enough'
        exact ⟨e, last, by rw [grown]; exact ends, validLast, kept.trans keptLast, room, overflow⟩
    · exact ⟨none, t, by rw [growTo, if_neg more], valid, List.prefix_refl _, fun _ => by omega,
        fun overflow => (by cases overflow)⟩

/-! ## The arguments of a format -/

/-- The table after the writes `ws`: each number has the type that was written to it last, and
`tablemax` is the largest number written, or 0 when there is none. -/
structure Recorded (ws : List (Nat × UInt8)) (s : State) : Prop where
  valid : s.table.Valid
  types : ∀ i type, ws.reverse.lookup i = some type → s.table.typetable[i]? = some (some type)
  bound : ∀ w ∈ ws, w.1 ≤ s.tablemax
  largest : (ws = [] ∧ s.tablemax = 0) ∨ ∃ w ∈ ws, w.1 = s.tablemax

theorem recorded_start {stattypetable : Buffer UInt8} {nextarg : Nat}
    (size : stattypetable.length = staticArgTblSize) :
    Recorded [] (start stattypetable nextarg) where
  valid := ⟨size, Nat.le_refl _, by dsimp only [start]; decide⟩
  types _ _ recorded := by cases recorded
  bound _ member := by cases member
  largest := .inl ⟨rfl, rfl⟩

/-- A larger table in place of the table records the same. -/
theorem Recorded.grown {t' : Table} (recorded : Recorded ws s) (valid : t'.Valid)
    (kept : s.table.typetable <+: t'.typetable) (nextarg : Nat) (error : Option Errno) :
    Recorded ws { s with table := t', nextarg := nextarg, error := error } := by
  refine ⟨valid, fun i type last => ?_, recorded.bound, recorded.largest⟩
  obtain ⟨fresh, appended⟩ := kept
  have here := recorded.types i type last
  have inside := (List.getElem?_eq_some_iff.1 here).1
  dsimp only
  rw [← appended, List.getElem?_append_left inside]
  exact here

/-- A write to a number that the table has room for. -/
theorem Recorded.write {i : Nat} (recorded : Recorded ws s) (room : i < s.table.tablesize)
    (type : UInt8) (nextarg : Nat) :
    ∃ typetable, store s.table.typetable i type = some typetable ∧
      Recorded (ws ++ [(i, type)])
        ⟨{ s.table with typetable := typetable }, if i > s.tablemax then i else s.tablemax, nextarg,
          s.error⟩ := by
  have inside : i < s.table.typetable.length := by
    rw [recorded.valid.size]
    exact room
  refine ⟨_, if_pos inside, ⟨by simpa using recorded.valid.size, recorded.valid.static,
    recorded.valid.isInt⟩, fun j type' last => ?_, fun w member => ?_, .inr ?_⟩
  · rw [List.reverse_append, List.reverse_singleton, List.singleton_append, List.lookup_cons] at last
    by_cases same : j = i
    · rw [same, beq_self_eq_true, Option.some.injEq] at last
      dsimp only
      rw [same, ← last, List.getElem?_set_self inside]
    · rw [beq_false_of_ne same] at last
      dsimp only
      rw [List.getElem?_set_ne (Ne.symm same)]
      exact recorded.types j type' last
  · rcases List.mem_append.1 member with old | new
    · have bound := recorded.bound w old
      dsimp only
      split <;> omega
    · rw [List.mem_singleton.1 new]
      dsimp only
      split <;> omega
  · dsimp only
    by_cases larger : i > s.tablemax
    · exact ⟨(i, type), by simp, by rw [if_pos larger]⟩
    · rw [if_neg larger]
      rcases recorded.largest with ⟨-, zero⟩ | ⟨w, member, greatest⟩
      · exact ⟨(i, type), by simp, by dsimp only; omega⟩
      · exact ⟨w, List.mem_append_left _ member, greatest⟩

/-- `ADDTYPE`: the write is made inside the table, or `goto finish` is taken. -/
theorem addtype_spec (lawful : sys.Lawful) {fuel : Nat} (enough : 28 ≤ fuel) (type : UInt8)
    (recorded : Recorded ws s) :
    ∃ s', addtype sys fuel type s = some s' ∧
      ((∃ e, s'.error = some e ∧ (e = .eoverflow → intMax / 2 < s.nextarg) ∧ Recorded ws s') ∨
        (s'.error = s.error ∧ s'.nextarg = s.nextarg + 1 ∧
          Recorded (ws ++ [(s.nextarg, type)]) s')) := by
  have power : intMax < 2 ^ fuel * s.table.tablesize := by
    calc intMax < 2 ^ 28 * staticArgTblSize := by decide
      _ ≤ 2 ^ fuel * s.table.tablesize :=
        Nat.mul_le_mul (Nat.pow_le_pow_right (by decide) enough) recorded.valid.static
  obtain ⟨e, t, ends, valid, kept, room, overflow⟩ :=
    growTo_spec lawful s.nextarg fuel recorded.valid power
  rw [addtype, ends]
  cases e with
  | some e =>
    exact ⟨_, rfl, .inl ⟨e, rfl, fun isOverflow => overflow (by rw [isOverflow]),
      recorded.grown valid kept _ _⟩⟩
  | none =>
    have larger := recorded.grown valid kept s.nextarg s.error
    obtain ⟨typetable, stored, written⟩ := larger.write (room rfl) type (s.nextarg + 1)
    have inside := room rfl
    have isInt := valid.isInt
    refine ⟨_, ?_, .inr ⟨?_, ?_, written⟩⟩
    · dsimp only [Option.bind_some]
      rw [stored, Option.bind_some, toInt_eq (by omega)]
      rfl
    · rfl
    · rfl

/-- The arguments after an error are passed over. -/
theorem findArguments_error {fuel : Nat} {e : Errno} (error : s.error = some e) (args : List Arg) :
    findArguments sys fuel s args = some s := by
  induction args with
  | nil => rfl
  | cons a args ih =>
    rw [findArguments, step, error]
    exact ih

/-- The arguments of a format after the writes `ws`. -/
theorem findArguments_spec (lawful : sys.Lawful) {fuel : Nat} (enough : 28 ≤ fuel) (args : List Arg)
    (recorded : Recorded ws s) (running : s.error = none) :
    ∃ s', findArguments sys fuel s args = some s' ∧
      ((s'.error = none ∧ Recorded (ws ++ writes s.nextarg args) s') ∨
        ∃ done i type rest e, writes s.nextarg args = done ++ (i, type) :: rest ∧
          s'.error = some e ∧ (e = .eoverflow → intMax / 2 < i) ∧ Recorded (ws ++ done) s') := by
  induction args generalizing s ws with
  | nil =>
    refine ⟨s, rfl, .inl ⟨running, ?_⟩⟩
    rw [writes, List.append_nil]
    exact recorded
  | cons a args ih =>
    have moved : Recorded ws { s with nextarg := a.number.getD s.nextarg } :=
      recorded.grown recorded.valid (List.prefix_refl _) _ _
    obtain ⟨m, added, outcome⟩ := addtype_spec lawful enough a.type moved
    have advance : step sys fuel s a = some m := by
      rw [step, running]
      rw [running] at added
      exact added
    rw [findArguments, advance, Option.bind_some, writes]
    rcases outcome with ⟨e, error, overflow, kept⟩ | ⟨error, next, written⟩
    · refine ⟨m, findArguments_error error args, .inr ?_⟩
      exact ⟨[], _, _, _, e, rfl, error, overflow, by rw [List.append_nil]; exact kept⟩
    · obtain ⟨s', ends, last⟩ := ih written (error.trans running)
      rw [next] at last
      refine ⟨s', ends, ?_⟩
      rcases last with ⟨error', all⟩ | ⟨done, i, type, rest, e, split, error', overflow, kept⟩
      · exact .inl ⟨error', by rw [List.append_assoc] at all; exact all⟩
      · refine .inr ⟨(a.number.getD s.nextarg, a.type) :: done, i, type, rest, e, ?_, error',
          overflow, ?_⟩
        · rw [split]
          rfl
        · rw [List.append_assoc] at kept
          exact kept

/-- **The type table holds the type of every argument.** Whatever numbers the arguments of a format
have, no write leaves the table and no `int` overflows. Each growth loop ends within 28 iterations.
Either all types are recorded, or the function fails at some argument with those before it
recorded. -/
theorem findArguments_recorded (lawful : sys.Lawful) (stattypetable : Buffer UInt8)
    (size : stattypetable.length = staticArgTblSize) (nextarg : Nat) (args : List Arg) (fuel : Nat)
    (enough : 28 ≤ fuel) :
    ∃ s, findArguments sys fuel (start stattypetable nextarg) args = some s ∧
      ((s.error = none ∧ Recorded (writes nextarg args) s) ∨
        ∃ done i type rest e, writes nextarg args = done ++ (i, type) :: rest ∧
          s.error = some e ∧ (e = .eoverflow → intMax / 2 < i) ∧ Recorded done s) :=
  findArguments_spec lawful enough args (recorded_start size) rfl

/-- Every mapping is granted, and a table that is moved is followed by zeros. -/
def granting : System where
  getpagesize := 4096
  mmap _ _ := true
  moveMapped table size := some (table ++ List.replicate (size - table.length) (some 0))

theorem granting_lawful : granting.Lawful where
  page := by decide
  moves table size new fits moved := by
    cases moved
    refine ⟨?_, List.prefix_append _ _⟩
    rw [List.length_append, List.length_replicate]
    omega

theorem findArguments_recorded_granting :
    ∃ s, findArguments granting 28 (start (List.replicate 8 (some 0)) 1)
        [⟨some 5000, 7⟩, ⟨none, 3⟩] = some s ∧
      ((s.error = none ∧ Recorded [(5000, 7), (5001, 3)] s) ∨
        ∃ done i type rest e, [(5000, 7), (5001, 3)] = done ++ (i, type) :: rest ∧
          s.error = some e ∧ (e = .eoverflow → intMax / 2 < i) ∧ Recorded done s) :=
  findArguments_recorded granting_lawful _ (by decide) 1 [⟨some 5000, 7⟩, ⟨none, 3⟩] 28
    (Nat.le_refl _)

/-- What is unmapped in the end is the whole mapping. -/
theorem finish_eq (recorded : Recorded ws s) :
    finish s = if s.table.mapped then some s.table.typetable.length else none := by
  rw [finish, recorded.valid.size]

end SecurityAudits.OpenbsdLibc.TypeTable
