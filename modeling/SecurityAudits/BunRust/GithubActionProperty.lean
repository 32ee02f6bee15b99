import SecurityAudits.Lib.Escape

/-!
# Annotations of GitHub Actions

A test that times out is shown as a command of a line of the log. The name of the test is anything,
and is written with a code for each character that has a meaning there (`test_command.rs`). The
formatter writes the stretches between such characters whole: `last` is where the next one begins.

A name is the list of its characters here, where the source scans bytes: the five that are looked for
are characters of their own in UTF-8, and occur in no other.
-/

namespace SecurityAudits.BunRust.GithubActionProperty
set_option autoImplicit false
open SecurityAudits.Escape

/-- `let escaped = match byte` -/
def escaped (byte : Char) : Option (List Char) :=
  if byte = '%' then some "%25".toList
  else if byte = '\r' then some "%0D".toList
  else if byte = '\n' then some "%0A".toList
  else if byte = ':' then some "%3A".toList
  else if byte = ',' then some "%2C".toList
  else none

structure State where
  last : Nat
  out : List Char
  deriving DecidableEq, Repr

/-- An iteration of `for (i, byte) in self.0.iter().copied().enumerate()` -/
def step (value : List Char) (s : State) (entry : Char × Nat) : State :=
  match escaped entry.1 with
  | none => s
  | some code =>
    let out := if entry.2 > s.last then s.out ++ (value.drop s.last).take (entry.2 - s.last) else s.out
    ⟨entry.2 + 1, out ++ code⟩

/-- `GithubActionProperty::fmt` -/
def fmt (value : List Char) : List Char :=
  let s := value.zipIdx.foldl (step value) ⟨0, []⟩
  if s.last < value.length then s.out ++ value.drop s.last else s.out

/-- The line of a test that has timed out, without the `\n` that ends it -/
def command (displayLabel : List Char) (timeout : Nat) : List Char :=
  "::error title=error: Test \"".toList ++ fmt displayLabel ++ "\" timed out after ".toList ++
    Nat.toDigits 10 timeout ++ "ms::".toList

/-- What is printed for a test that has timed out -/
def timedOut (displayLabel : List Char) (timeout : Nat) : List Char :=
  command displayLabel timeout ++ ['\n']

/-! ## The codes -/

def codes : Escape.Table Char where
  entries :=
    [('%', "%25".toList), ('\r', "%0D".toList), ('\n', "%0A".toList), (':', "%3A".toList),
      (',', "%2C".toList)]
  marker := '%'
  first := rfl
  distinct := by decide
  begins := by decide
  inner := by decide
  prefixFree := by decide

variable {c : Char} {value done rest code : List Char} {s : State}

theorem codeOf_eq (c : Char) : codeOf codes.entries c = (escaped c).getD [c] := by
  simp only [codes, codeOf, escaped]
  split_ifs <;> rfl

theorem escape_snoc (done : List Char) (c : Char) :
    codes.escape (done ++ [c]) = codes.escape done ++ (escaped c).getD [c] := by
  rw [Table.escape, List.flatMap_append, List.flatMap_singleton, codeOf_eq, Table.escape]

/-! ## The loop -/

/-- With what is kept back, what is written is the text up to here, escaped. -/
structure Upto (done : List Char) (s : State) : Prop where
  last : s.last ≤ done.length
  text : s.out ++ done.drop s.last = codes.escape done

theorem Upto.step (upto : Upto done s) (split : value = done ++ c :: rest) :
    Upto (done ++ [c]) (step value s (c, done.length)) := by
  have kept := upto.last
  have snoc := escape_snoc done c
  unfold GithubActionProperty.step
  cases isCode : escaped c with
  | none =>
    rw [isCode, Option.getD_none, ← upto.text, List.append_assoc] at snoc
    show Upto (done ++ [c]) s
    refine ⟨by rw [List.length_append]; omega, ?_⟩
    rw [snoc, List.drop_append_of_le_length kept]
  | some code =>
    rw [isCode, Option.getD_some, ← upto.text] at snoc
    have stretch : (value.drop s.last).take (done.length - s.last) = done.drop s.last := by
      rw [split, List.drop_append_of_le_length kept]
      exact List.take_left' List.length_drop
    have written : (if done.length > s.last
        then s.out ++ (value.drop s.last).take (done.length - s.last) else s.out) =
        s.out ++ done.drop s.last := by
      split
      · rw [stretch]
      · rw [List.drop_eq_nil_of_le (by omega), List.append_nil]
    have length : (done ++ [c]).length = done.length + 1 := List.length_append
    refine ⟨Nat.le_of_eq length.symm, ?_⟩
    dsimp only
    rw [written, snoc, ← length, List.drop_length, List.append_nil]

theorem Upto.loop (upto : Upto done s) (split : value = done ++ rest) :
    Upto value ((rest.zipIdx done.length).foldl (GithubActionProperty.step value) s) := by
  induction rest generalizing done s with
  | nil =>
    rw [List.append_nil] at split
    rw [split]
    exact upto
  | cons c rest ih =>
    have next := ih (upto.step split) (by rw [split, List.append_assoc]; rfl)
    rw [List.length_append] at next
    exact next

/-- The stretches and the codes between them are the text, escaped. -/
theorem fmt_eq_escape (value : List Char) : fmt value = codes.escape value := by
  have start : Upto [] ⟨0, []⟩ := ⟨Nat.le_refl 0, rfl⟩
  have upto : Upto value (value.zipIdx.foldl (GithubActionProperty.step value) ⟨0, []⟩) :=
    start.loop rfl
  have text := upto.text
  unfold fmt
  dsimp only
  split
  · exact text
  · rwa [List.drop_eq_nil_of_le (by omega), List.append_nil] at text

/-! ## The line -/

theorem not_mem_fmt (special : c ∈ ['\r', '\n', ':', ',']) : c ∉ fmt value := by
  rw [fmt_eq_escape]
  have replaced : ∀ e ∈ codes.entries, e.1 ≠ '%' → e.1 ∉ codes.escape value :=
    fun e mem other => codes.not_mem_escape mem other
  simp only [codes, List.forall_mem_cons] at replaced
  obtain ⟨-, return_, feed, colon, comma, -⟩ := replaced
  simp only [List.mem_cons, List.not_mem_nil, or_false] at special
  rcases special with rfl | rfl | rfl | rfl
  · exact return_ (by decide)
  · exact feed (by decide)
  · exact colon (by decide)
  · exact comma (by decide)

theorem not_mem_digits (n : Nat) (other : c.isDigit = false) : c ∉ Nat.toDigits 10 n := by
  intro mem
  have digit : c.isDigit = true := Nat.isDigit_of_mem_toDigits (by decide) (by decide) mem
  rw [other] at digit
  cases digit

theorem not_mem_command (special : c = '\n' ∨ c = '\r') (timeout : Nat) :
    c ∉ command value timeout := by
  have inFmt : c ∉ fmt value := by
    refine not_mem_fmt ?_
    rcases special with rfl | rfl
    · decide
    · decide
  have inDigits : c ∉ Nat.toDigits 10 timeout := by
    refine not_mem_digits timeout ?_
    rcases special with rfl | rfl
    · rfl
    · rfl
  unfold command
  simp only [List.mem_append, not_or]
  rcases special with rfl | rfl
  · exact ⟨⟨⟨⟨by decide, inFmt⟩, by decide⟩, inDigits⟩, by decide⟩
  · exact ⟨⟨⟨⟨by decide, inFmt⟩, by decide⟩, inDigits⟩, by decide⟩

/-- **A test that times out is shown as one command.** Whatever the name of the test, what is printed is
one line, and in the property stands the name with the code for each special character, from which it is
read back, with nothing in it that would end the property or the command. -/
theorem timedOut_line (displayLabel : List Char) (timeout : Nat) :
    fmt displayLabel = displayLabel.flatMap (fun c => (escaped c).getD [c]) ∧
      codes.unescape (fmt displayLabel) = displayLabel ∧
      (∀ c ∈ ['\r', '\n', ':', ','], c ∉ fmt displayLabel) ∧
      ∃ line, timedOut displayLabel timeout = line ++ ['\n'] ∧ '\n' ∉ line ∧ '\r' ∉ line := by
  refine ⟨?_, ?_, fun c special => not_mem_fmt special, command displayLabel timeout, rfl,
    not_mem_command (.inl rfl) timeout, not_mem_command (.inr rfl) timeout⟩
  · rw [fmt_eq_escape, Table.escape]
    exact congrArg (displayLabel.flatMap ·) (funext codeOf_eq)
  · rw [fmt_eq_escape]
    exact codes.unescape_escape displayLabel

end SecurityAudits.BunRust.GithubActionProperty
