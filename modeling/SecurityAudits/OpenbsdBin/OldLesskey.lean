import SecurityAudits.Lib.CString

/-!
# Old-style lesskey files

`old_lesskey` (`usr.bin/less/decode.c`) checks a file that a user has `less` read before it becomes a
table of commands: a command is the keys with their NUL and an action byte, and a string with its NUL
where the action has the bit `A_EXTRA`. What walks the table later relies on that.

A pointer into the file is the list of the bytes from there to its end.
-/

namespace SecurityAudits.OpenbsdBin.OldLesskey
set_option autoImplicit false
open SecurityAudits.CString

/-- `while (p < end && *p != '\0') p++;`, and behind the NUL; none at the end. -/
def skipString : List UInt8 → Option (List UInt8)
  | [] => none
  | c :: p => if c = 0 then some p else skipString p

theorem skipString_lt {p q : List UInt8} (skips : skipString p = some q) : q.length < p.length := by
  induction p with
  | nil => cases skips
  | cons c p ih =>
    rw [skipString] at skips
    split at skips
    · cases skips
      exact Nat.lt_succ_self _
    · exact Nat.lt_succ_of_lt (ih skips)

/-- An iteration of the loop: the pointer behind the command, or none for the return of -1. -/
def command (aExtra : UInt8) (p : List UInt8) : Option (List UInt8) := do
  match ← skipString p with
  | [] => none
  | a :: p => if a &&& aExtra ≠ 0 then skipString p else return p

theorem command_lt {aExtra : UInt8} {p q : List UInt8} (reads : command aExtra p = some q) :
    q.length < p.length := by
  obtain ⟨rest, skips, reads⟩ := Option.bind_eq_some_iff.1 reads
  have shorter := skipString_lt skips
  cases rest with
  | nil => cases reads
  | cons a rest =>
    rw [List.length_cons] at shorter
    dsimp only at reads
    split at reads
    · exact Nat.lt_trans (skipString_lt reads) (Nat.lt_of_succ_lt shorter)
    · cases reads
      exact Nat.lt_of_succ_lt shorter

/-- `old_lesskey`: 0, when the file becomes a table, or -1 -/
def oldLesskey (aExtra : UInt8) (p : List UInt8) : Int :=
  if p.isEmpty then 0
  else
    match reads : command aExtra p with
    | none => -1
    | some q => oldLesskey aExtra q
termination_by p.length
decreasing_by exact command_lt reads

/-- The check that was there before: the last byte or the one before it is zero. -/
def endsOld (buf : List UInt8) : Prop := buf.getLast? = some 0 ∨ buf.dropLast.getLast? = some 0

/-! ## The format -/

variable {aExtra a : UInt8} {p q : List UInt8} {s : CStr}

/-- A command of the table. -/
structure Command (aExtra : UInt8) where
  keys : CStr
  action : UInt8
  extra : Option CStr
  marked : extra.isSome = true ↔ action &&& aExtra ≠ 0

def Command.bytes (c : Command aExtra) : List UInt8 :=
  c.keys.memory ++ c.action :: (c.extra.map CStr.memory).getD []

def table (commands : List (Command aExtra)) : List UInt8 := commands.flatMap Command.bytes

theorem skipString_memory (s : CStr) (q : List UInt8) : skipString (s.memory ++ q) = some q := by
  obtain ⟨chars, noNul⟩ := s
  rw [CStr.memory]
  induction chars with
  | nil => rfl
  | cons c chars ih =>
    rw [List.mem_cons, not_or] at noNul
    exact (if_neg (Ne.symm noNul.1)).trans (ih noNul.2)

theorem skipString_some (skips : skipString p = some q) : ∃ s : CStr, p = s.memory ++ q := by
  induction p with
  | nil => cases skips
  | cons c p ih =>
    rw [skipString] at skips
    split at skips
    case isTrue zero =>
      cases skips
      exact ⟨⟨[], List.not_mem_nil⟩, by rw [zero]; rfl⟩
    case isFalse nonzero =>
      obtain ⟨s, rfl⟩ := ih skips
      exact ⟨⟨c :: s.chars, List.not_mem_cons_of_ne_of_not_mem (Ne.symm nonzero) s.noNul⟩, rfl⟩

/-- An iteration reads a command of the format, and nothing else. -/
theorem command_iff : command aExtra p = some q ↔ ∃ c : Command aExtra, p = c.bytes ++ q := by
  constructor
  · intro found
    obtain ⟨rest, skips, reads⟩ := Option.bind_eq_some_iff.1 found
    clear found
    obtain ⟨keys, rfl⟩ := skipString_some skips
    cases rest with
    | nil => cases reads
    | cons a rest =>
      dsimp only at reads
      split at reads
      case isTrue marked =>
        obtain ⟨extra, rfl⟩ := skipString_some reads
        refine ⟨⟨keys, a, some extra, iff_of_true rfl marked⟩, ?_⟩
        rw [Command.bytes, List.append_assoc]
        rfl
      case isFalse plain =>
        cases reads
        refine ⟨⟨keys, a, none, iff_of_false nofun plain⟩, ?_⟩
        rw [Command.bytes, List.append_assoc]
        rfl
  · rintro ⟨⟨keys, action, extra, marked⟩, rfl⟩
    rw [Command.bytes, List.append_assoc, command, skipString_memory]
    cases extra with
    | none => exact if_neg fun set => by cases marked.2 set
    | some extra => exact (if_pos (marked.1 rfl)).trans (skipString_memory extra q)

theorem oldLesskey_nil : oldLesskey aExtra [] = 0 := by
  rw [oldLesskey]
  rfl

theorem oldLesskey_some (reads : command aExtra p = some q) :
    oldLesskey aExtra p = oldLesskey aExtra q := by
  have nonempty : ¬ p.isEmpty = true := by
    intro empty
    obtain rfl := List.isEmpty_iff.1 empty
    cases reads
  rw [oldLesskey, if_neg nonempty]
  split
  next none' =>
    rw [reads] at none'
    cases none'
  next q' some' =>
    rw [reads] at some'
    cases some'
    rfl

theorem oldLesskey_none (refuses : command aExtra p = none) (nonempty : p ≠ []) :
    oldLesskey aExtra p = -1 := by
  rw [oldLesskey, if_neg fun empty => nonempty (List.isEmpty_iff.1 empty)]
  split
  · rfl
  next q' some' =>
    rw [refuses] at some'
    cases some'

theorem oldLesskey_table (commands : List (Command aExtra)) :
    oldLesskey aExtra (table commands) = 0 := by
  induction commands with
  | nil => exact oldLesskey_nil
  | cons c commands ih =>
    have reads : command aExtra (table (c :: commands)) = some (table commands) :=
      command_iff.2 ⟨c, List.flatMap_cons⟩
    rw [oldLesskey_some reads, ih]

/-- The loop ends, with 0 on a table only. -/
theorem oldLesskey_cases (aExtra : UInt8) (p : List UInt8) :
    oldLesskey aExtra p = -1 ∨
      oldLesskey aExtra p = 0 ∧ ∃ commands : List (Command aExtra), p = table commands := by
  induction n : p.length using Nat.strong_induction_on generalizing p with
  | _ n ih =>
    subst n
    by_cases empty : p = []
    · subst empty
      exact .inr ⟨oldLesskey_nil, [], rfl⟩
    cases reads : command aExtra p with
    | none => exact .inl (oldLesskey_none reads empty)
    | some q =>
      rw [oldLesskey_some reads]
      refine (ih _ (command_lt reads) q rfl).imp_right fun ⟨accepts, commands, table_⟩ => ?_
      obtain ⟨c, split⟩ := command_iff.1 reads
      refine ⟨accepts, c :: commands, ?_⟩
      rw [split, table_]
      exact List.flatMap_cons.symm

theorem memory_append (s : CStr) (q : List UInt8) : s.memory ++ q = s.chars ++ 0 :: q := by
  rw [CStr.memory, List.append_assoc]
  rfl

/-- A string with its NUL is determined by the bytes. -/
theorem memory_injective {t : CStr} (same : s.memory ++ p = t.memory ++ q) : s = t ∧ p = q := by
  rw [memory_append, memory_append] at same
  obtain ⟨chars, rest⟩ := first_unique s.noNul t.noNul same
  obtain ⟨chars', noNul⟩ := s
  obtain rfl : chars' = t.chars := chars
  exact ⟨rfl, rest⟩

/-- The bytes of a command determine it. -/
theorem bytes_injective {c d : Command aExtra} (same : c.bytes ++ p = d.bytes ++ q) :
    c = d ∧ p = q := by
  obtain ⟨keys, action, extra, marked⟩ := c
  obtain ⟨keys', action', extra', marked'⟩ := d
  rw [Command.bytes, Command.bytes, List.append_assoc, List.append_assoc] at same
  obtain ⟨rfl, rest⟩ := memory_injective same
  obtain ⟨rfl, rest⟩ := List.cons.inj rest
  cases extra with
  | none =>
    cases extra' with
    | none => exact ⟨rfl, rest⟩
    | some extra' => cases marked.2 (marked'.1 rfl)
  | some extra =>
    cases extra' with
    | none => cases marked'.2 (marked.1 rfl)
    | some extra' =>
      have strings : extra.memory ++ p = extra'.memory ++ q := rest
      obtain ⟨rfl, behind⟩ := memory_injective strings
      exact ⟨rfl, behind⟩

theorem table_cons (c : Command aExtra) (commands : List (Command aExtra)) :
    table (c :: commands) = c.bytes ++ table commands := List.flatMap_cons

theorem table_cons_ne_nil (c : Command aExtra) (commands : List (Command aExtra)) :
    table (c :: commands) ≠ [] := by
  simp [table_cons, Command.bytes]

theorem table_injective {cs ds : List (Command aExtra)} (same : table cs = table ds) : cs = ds := by
  induction cs generalizing ds with
  | nil =>
    cases ds with
    | nil => rfl
    | cons d ds => exact absurd same.symm (table_cons_ne_nil d ds)
  | cons c cs ih =>
    cases ds with
    | nil => exact absurd same (table_cons_ne_nil c cs)
    | cons d ds =>
      rw [table_cons, table_cons] at same
      obtain ⟨rfl, rest⟩ := bytes_injective same
      rw [ih rest]

/-- A table ends as the check before asked: with a NUL and an action, or with a NUL. -/
theorem endsOld_table (c : Command aExtra) (commands : List (Command aExtra)) :
    endsOld (table (commands ++ [c])) := by
  rw [table, List.flatMap_append, List.flatMap_singleton, ← table]
  obtain ⟨keys, action, extra, -⟩ := c
  rw [Command.bytes, memory_append]
  cases extra with
  | none =>
    refine .inr ?_
    show (table commands ++ (keys.chars ++ [0, action])).dropLast.getLast? = some 0
    simp
  | some extra =>
    refine .inl ?_
    show (table commands ++ (keys.chars ++ 0 :: action :: (extra.chars ++ [0]))).getLast? = some 0
    simp [List.getLast?_append, List.getLast?_cons]

/-- **What is accepted is a table.** Whatever the file, the check ends within it. It accepts the tables
of commands and no other file, and the file determines the commands. Nothing is accepted that the check
before did not accept. -/
theorem oldLesskey_iff (aExtra : UInt8) (buf : List UInt8) :
    (oldLesskey aExtra buf = -1 ∨ oldLesskey aExtra buf = 0) ∧
    (oldLesskey aExtra buf = 0 ↔ ∃! commands : List (Command aExtra), buf = table commands) ∧
    (oldLesskey aExtra buf = 0 → buf ≠ [] → endsOld buf) := by
  have only : oldLesskey aExtra buf = 0 →
      ∃ commands : List (Command aExtra), buf = table commands := by
    intro accepts
    rcases oldLesskey_cases aExtra buf with refuses | ⟨-, isTable⟩
    · rw [refuses] at accepts
      cases accepts
    · exact isTable
  refine ⟨(oldLesskey_cases aExtra buf).imp_right And.left, ⟨fun accepts => ?_, ?_⟩,
    fun accepts nonempty => ?_⟩
  · obtain ⟨commands, rfl⟩ := only accepts
    exact ⟨commands, rfl, fun others same => (table_injective same).symm⟩
  · rintro ⟨commands, rfl, -⟩
    exact oldLesskey_table commands
  · obtain ⟨commands, rfl⟩ := only accepts
    rcases List.eq_nil_or_concat commands with rfl | ⟨front, c, rfl⟩
    · exact absurd rfl nonempty
    · rw [List.concat_eq_append]
      exact endsOld_table c front

end SecurityAudits.OpenbsdBin.OldLesskey
