import SecurityAudits.Lib.CString

/-!
# Multipart boundary lines

`asn1/asn_mime.c` splits an S/MIME message at the lines that `mime_bound_check` takes for
delimiters of the message's boundary. `mime_bound_check` is transcribed over `Lib.CString`, so a
read past the NUL of the line or of the boundary would leave it without a result.

`PartDelimiter` and `CloseDelimiter` are the grammar of delimiter lines, stated on the characters
of the line alone.
-/

namespace SecurityAudits.Libressl.MimeBound
set_option autoImplicit false

open CString (CStr deref skip strncmp)

/-- `"--"` -/
def dashes : CStr := ⟨[45, 45], by decide⟩

/-- `*line == ' ' || *line == '\t'` -/
def isBlank (c : UInt8) : Bool := c = 32 ∨ c = 9

/-- `*line == '\r' || *line == '\n' || *line == '\0'` -/
def endsLine (c : UInt8) : Bool := c = 13 ∨ c = 10 ∨ c = 0

/-- `mime_bound_check` behind `--` and the boundary: `line += blen + 2` and what follows. -/
def checkSuffix (line : List UInt8) : Option Nat := do
  let closes ← strncmp line dashes.memory 2
  if closes = 0 then do
    let line ← skip isBlank (line.drop 2)
    let c ← deref line
    return if endsLine c then 2 else 0
  else do
    let line ← skip isBlank line
    let c ← deref line
    return if endsLine c then 1 else 0

/-- `mime_bound_check` -/
def mimeBoundCheck (line : List UInt8) (linelen : Nat) (bound : List UInt8) (blen : Nat) :
    Option Nat :=
  -- quickly eliminate if too short
  if blen + 2 > linelen then some 0
  else do
    let opens ← strncmp line dashes.memory 2
    if opens ≠ 0 then return 0
    else do
      let differs ← strncmp (line.drop 2) bound blen
      if differs ≠ 0 then return 0
      else checkSuffix (line.drop (blen + 2))

/-- Only spaces and tabs up to the end of the line. -/
def BlankToEnd (rest : List UInt8) : Prop :=
  ∃ blanks after, rest = blanks ++ after ∧ (∀ c ∈ blanks, c = 32 ∨ c = 9) ∧
    (after = [] ∨ ∃ c, after.head? = some c ∧ (c = 13 ∨ c = 10))

/-- A line that begins a part of the message. -/
def PartDelimiter (bound line : List UInt8) : Prop :=
  ∃ rest, line = dashes.chars ++ bound ++ rest ∧ BlankToEnd rest

/-- The line behind the last part. -/
def CloseDelimiter (bound line : List UInt8) : Prop :=
  ∃ rest, line = dashes.chars ++ bound ++ dashes.chars ++ rest ∧ BlankToEnd rest

variable {bound line rest : List UInt8} {c : UInt8}

theorem isBlank_iff : isBlank c = true ↔ c = 32 ∨ c = 9 := decide_eq_true_iff

theorem endsLine_iff : endsLine c = true ↔ c = 13 ∨ c = 10 ∨ c = 0 := decide_eq_true_iff

theorem isBlank_of_special (special : c = 13 ∨ c = 10) : isBlank c = false := by
  rcases special with rfl | rfl <;> rfl

theorem blankToEnd_nil : BlankToEnd [] := ⟨[], [], rfl, List.forall_mem_nil _, .inl rfl⟩

/-- The first byte is a blank, or ends the line. -/
theorem blankToEnd_cons :
    BlankToEnd (c :: rest) ↔ isBlank c = true ∧ BlankToEnd rest ∨ c = 13 ∨ c = 10 := by
  constructor
  · rintro ⟨blanks, after, split, all, ends⟩
    cases blanks with
    | nil =>
      have front : after = c :: rest := split.symm
      rcases ends with nil | ⟨d, head, special⟩
      · cases front.symm.trans nil
      · rw [front] at head
        cases head
        exact .inr special
    | cons b blanks =>
      obtain ⟨rfl, rfl⟩ := List.cons.inj split
      exact .inl ⟨isBlank_iff.2 (all c List.mem_cons_self), blanks, after, rfl,
        fun d mem => all d (List.mem_cons_of_mem c mem), ends⟩
  · rintro (⟨blank, blanks, after, rfl, all, ends⟩ | special)
    · exact ⟨c :: blanks, after, rfl, List.forall_mem_cons.2 ⟨isBlank_iff.1 blank, all⟩, ends⟩
    · exact ⟨[], c :: rest, rfl, List.forall_mem_nil _, .inr ⟨c, rfl, special⟩⟩

theorem blankToEnd_cons_of_blank (blank : isBlank c = true) :
    BlankToEnd (c :: rest) ↔ BlankToEnd rest := by
  rw [blankToEnd_cons]
  constructor
  · rintro (⟨-, later⟩ | special)
    · exact later
    · rw [isBlank_of_special special] at blank
      cases blank
  · exact fun later => .inl ⟨blank, later⟩

theorem blankToEnd_cons_of_not_blank (other : isBlank c = false) (nonzero : c ≠ 0) :
    BlankToEnd (c :: rest) ↔ endsLine c = true := by
  rw [blankToEnd_cons, other, endsLine_iff]
  constructor
  · rintro (⟨blank, -⟩ | special)
    · cases blank
    · exact special.imp_right .inl
  · rintro (cr | lf | nul)
    · exact .inr (.inl cr)
    · exact .inr (.inr lf)
    · exact absurd nul nonzero

/-- What both loops over the blanks are for: the byte that they stop at tells whether only blanks
are left on the line. -/
theorem skip_isBlank (noNul : 0 ∉ rest) :
    ∃ p c, skip isBlank (rest ++ [0]) = some p ∧ deref p = some c ∧
      (endsLine c = true ↔ BlankToEnd rest) := by
  induction rest with
  | nil => exact ⟨[0], 0, rfl, rfl, iff_of_true rfl blankToEnd_nil⟩
  | cons c rest ih =>
    have nonzero : c ≠ 0 := fun zero => noNul (zero ▸ List.mem_cons_self)
    cases blank : isBlank c with
    | true =>
      obtain ⟨p, d, skips, reads, ends⟩ := ih fun mem => noNul (List.mem_cons_of_mem c mem)
      refine ⟨p, d, ?_, reads, ends.trans (blankToEnd_cons_of_blank blank).symm⟩
      exact (CString.skip_cons_of_pos blank).trans skips
    | false =>
      have stays : skip isBlank (c :: (rest ++ [0])) = some (c :: (rest ++ [0])) :=
        CString.skip_cons_of_neg blank
      exact ⟨_, c, stays, rfl, (blankToEnd_cons_of_not_blank blank nonzero).symm⟩

theorem exists_append_of_take {s t : List UInt8} {n : Nat} (same : s.take n = t) :
    ∃ rest, s = t ++ rest :=
  ⟨s.drop n, by rw [← same, List.take_append_drop]⟩

/-- `r` is the class of the line: `1`, `2`, or `0` when it is no delimiter. -/
structure Classifies (bound line : List UInt8) (r : Nat) : Prop where
  part : r = 1 ↔ PartDelimiter bound line
  close : r = 2 ↔ CloseDelimiter bound line
  range : r = 0 ∨ r = 1 ∨ r = 2

/-- A delimiter of either kind begins so. -/
def Begins (bound line : List UInt8) : Prop := ∃ rest, line = dashes.chars ++ bound ++ rest

theorem CloseDelimiter.begins (close : CloseDelimiter bound line) : Begins bound line := by
  obtain ⟨rest, split, -⟩ := close
  exact ⟨dashes.chars ++ rest, by rw [split, List.append_assoc]⟩

theorem PartDelimiter.begins (part : PartDelimiter bound line) : Begins bound line := by
  obtain ⟨rest, split, -⟩ := part
  exact ⟨rest, split⟩

theorem classifies_zero (other : ¬ Begins bound line) : Classifies bound line 0 where
  part := iff_of_false (by decide) fun part => other part.begins
  close := iff_of_false (by decide) fun close => other close.begins
  range := .inl rfl

theorem partDelimiter_iff :
    PartDelimiter bound (dashes.chars ++ bound ++ rest) ↔ BlankToEnd rest := by
  constructor
  · rintro ⟨rest', split, blank⟩
    rwa [List.append_cancel_left split]
  · exact fun blank => ⟨rest, rfl, blank⟩

theorem closeDelimiter_iff :
    CloseDelimiter bound (dashes.chars ++ bound ++ rest) ↔
      ∃ rest', rest = dashes.chars ++ rest' ∧ BlankToEnd rest' := by
  constructor
  · rintro ⟨rest', split, blank⟩
    rw [List.append_assoc (dashes.chars ++ bound)] at split
    exact ⟨rest', List.append_cancel_left split, blank⟩
  · rintro ⟨rest', rfl, blank⟩
    exact ⟨rest', (List.append_assoc _ _ _).symm, blank⟩

/-- `--` itself is not blank, so a line behind which it stands is no delimiter of a part. -/
theorem not_blankToEnd_dashes : ¬ BlankToEnd (dashes.chars ++ rest) := by
  intro blank
  have dash : isBlank 45 = false := rfl
  cases (blankToEnd_cons_of_not_blank dash (by decide)).1 blank

theorem classifies_close (ends : endsLine c = true ↔ BlankToEnd rest) :
    Classifies bound (dashes.chars ++ bound ++ (dashes.chars ++ rest))
      (if endsLine c then 2 else 0) where
  part := by
    rw [partDelimiter_iff]
    refine iff_of_false ?_ not_blankToEnd_dashes
    split <;> decide
  close := by
    rw [closeDelimiter_iff]
    have only : (∃ rest', dashes.chars ++ rest = dashes.chars ++ rest' ∧ BlankToEnd rest') ↔
        BlankToEnd rest := by
      refine ⟨?_, fun blank => ⟨rest, rfl, blank⟩⟩
      rintro ⟨rest', same, blank⟩
      rwa [List.append_cancel_left same]
    rw [only, ← ends]
    cases endsLine c <;> decide
  range := by cases endsLine c <;> decide

theorem classifies_part (ends : endsLine c = true ↔ BlankToEnd rest)
    (other : ∀ rest', rest ≠ dashes.chars ++ rest') :
    Classifies bound (dashes.chars ++ bound ++ rest) (if endsLine c then 1 else 0) where
  part := by
    rw [partDelimiter_iff, ← ends]
    cases endsLine c <;> decide
  close := by
    rw [closeDelimiter_iff]
    refine iff_of_false ?_ fun ⟨rest', split, _⟩ => other rest' split
    split <;> decide
  range := by cases endsLine c <;> decide

theorem checkSuffix_classifies (bound : List UInt8) (noNul : 0 ∉ rest) :
    ∃ r, checkSuffix (rest ++ [0]) = some r ∧
      Classifies bound (dashes.chars ++ bound ++ rest) r := by
  obtain ⟨closes, compared, zero⟩ :=
    CString.strncmp_terminated (p := []) (q := []) (n := 2) noNul dashes.noNul
  have compared : strncmp (rest ++ [0]) dashes.memory 2 = some closes := compared
  by_cases final : closes = 0
  · obtain ⟨rest, rfl⟩ := exists_append_of_take (zero.1 final)
    obtain ⟨p, c, skips, reads, ends⟩ :=
      skip_isBlank fun mem => noNul (List.mem_append_right dashes.chars mem)
    refine ⟨if endsLine c then 2 else 0, ?_, classifies_close ends⟩
    rw [checkSuffix, compared]
    show (if closes = 0 then (skip isBlank (rest ++ [0])).bind _ else _) = _
    rw [if_pos final, skips]
    show (deref p).bind _ = _
    rw [reads]
    rfl
  · have other : ∀ rest', rest ≠ dashes.chars ++ rest' := fun rest' split =>
      final (zero.2 (split ▸ rfl))
    obtain ⟨p, c, skips, reads, ends⟩ := skip_isBlank noNul
    refine ⟨if endsLine c then 1 else 0, ?_, classifies_part ends other⟩
    rw [checkSuffix, compared]
    show (if closes = 0 then _ else (skip isBlank (rest ++ [0])).bind _) = _
    rw [if_neg final, skips]
    show (deref p).bind _ = _
    rw [reads]
    rfl

theorem not_begins_of_length (short : bound.length + 2 > line.length) : ¬ Begins bound line := by
  rintro ⟨rest, rfl⟩
  have two : dashes.chars.length = 2 := rfl
  rw [List.length_append, List.length_append, two] at short
  omega

/-- **The classifier.** For every boundary and every line, `mime_bound_check` reads neither past
its NUL, and answers `1` for a delimiter of a part, `2` for the closing delimiter and `0` for any
other line. -/
theorem mimeBoundCheck_classifies (line bound : CStr) :
    ∃ r, mimeBoundCheck line.memory line.chars.length bound.memory bound.chars.length = some r ∧
      Classifies bound.chars line.chars r := by
  rw [mimeBoundCheck]
  by_cases short : bound.chars.length + 2 > line.chars.length
  · exact ⟨0, if_pos short, classifies_zero (not_begins_of_length short)⟩
  rw [if_neg short]
  obtain ⟨opens, compared, zero⟩ :=
    CString.strncmp_terminated (p := []) (q := []) (n := 2) line.noNul dashes.noNul
  have compared : strncmp line.memory dashes.memory 2 = some opens := compared
  rw [compared]
  by_cases dashed : opens = 0
  · obtain ⟨tail, split⟩ := exists_append_of_take (zero.1 dashed)
    have behind : line.memory.drop 2 = tail ++ [0] := by
      rw [CStr.memory, split]
      rfl
    have noNul : 0 ∉ tail := fun mem =>
      line.noNul (split ▸ List.mem_append_right dashes.chars mem)
    obtain ⟨differs, agrees, zero'⟩ := CString.strncmp_terminated (p := []) (q := [])
      (n := bound.chars.length) noNul bound.noNul
    have compared' : strncmp (line.memory.drop 2) bound.memory bound.chars.length =
        some differs := behind ▸ agrees
    rw [List.take_length] at zero'
    by_cases same : differs = 0
    · obtain ⟨rest, rfl⟩ := exists_append_of_take (zero'.1 same)
      have behind' : line.memory.drop (bound.chars.length + 2) = rest ++ [0] := by
        rw [Nat.add_comm, ← List.drop_drop, behind, List.append_assoc, List.drop_left]
      obtain ⟨r, checked, classifies⟩ := checkSuffix_classifies bound.chars
        fun mem => noNul (List.mem_append_right bound.chars mem)
      refine ⟨r, ?_, by rwa [split, ← List.append_assoc]⟩
      show (if opens ≠ 0 then _ else (strncmp (line.memory.drop 2) _ _).bind _) = _
      rw [if_neg (not_not_intro dashed), compared']
      show (if differs ≠ 0 then _ else checkSuffix _) = _
      rw [if_neg (not_not_intro same), behind', checked]
    · refine ⟨0, ?_, classifies_zero ?_⟩
      · show (if opens ≠ 0 then _ else (strncmp (line.memory.drop 2) _ _).bind _) = _
        rw [if_neg (not_not_intro dashed), compared']
        exact if_pos same
      · rintro ⟨rest, begins⟩
        rw [split, List.append_assoc] at begins
        exact same (zero'.2 (by rw [List.append_cancel_left begins, List.take_left]))
  · refine ⟨0, if_pos dashed, classifies_zero ?_⟩
    rintro ⟨rest, split⟩
    exact dashed (zero.2 (by rw [split]; rfl))

end SecurityAudits.Libressl.MimeBound
