import Mathlib.Data.List.TakeWhile

/-!
# The responses of a remote `rdist`

`response` (`rdist/common.c`) reads lines of the peer until one of them is an answer, and shows the
notices before it. It has been a function that calls itself for each notice (`responseRec`), and is
now a loop that counts them.

What the peer sends is a list of lines. There is no result where `response` waits for one more.
-/

namespace SecurityAudits.OpenbsdBin.RdistResponse
set_option autoImplicit false

/-- The first byte of a line, by the `case` that it has. -/
inductive Tag where
  | ack
  | logmsg
  | notemsg
  | errmsg
  | ferrmsg
  | other
  deriving DecidableEq, Repr

/-- A line: what `remline` returns, the first byte, and the text behind it. -/
structure Line where
  n : Int
  first : UInt8
  tag : Tag
  text : List UInt8

/-- A call of `message`, by its first argument. -/
inductive Message where
  | change (text : List UInt8)
  | notice (text : List UInt8)
  | nerror (text : List UInt8)
  | ferror (text : List UInt8)
  deriving DecidableEq, Repr

/-- What has been shown, whether `finish` has been called, and what is returned. -/
structure Result where
  messages : List Message
  finished : Bool
  value : Int
  deriving DecidableEq, Repr

/-- The cases that return. -/
def answer (line : Line) : Option Result :=
  match line.tag with
  | .ack => some ⟨[], false, 0⟩
  | .logmsg => if line.n - 1 > 0 then some ⟨[.change line.text], false, 1⟩ else some ⟨[], false, 0⟩
  | .notemsg => none
  | .other => some ⟨[.nerror (line.first :: line.text)], false, -1⟩
  | .errmsg => some ⟨[.nerror line.text], false, -1⟩
  | .ferrmsg => some ⟨[.ferror line.text], true, -1⟩

/-- A result, and the lines that are not read, after one more message before. -/
def after (message : Message) (r : Result × List Line) : Result × List Line :=
  ({ r.1 with messages := message :: r.1.messages }, r.2)

/-- `return(response())` for a notice -/
def responseRec : List Line → Option (Result × List Line)
  | [] => none
  | line :: lines =>
    match answer line with
    | some r => some (r, lines)
    | none => (responseRec lines).map (after (.notice line.text))

/-- `for (;;)`, with the count of notices -/
def responseLoop (bufsiz notices : Nat) : List Line → Option (Result × List Line)
  | [] => none
  | line :: lines =>
    match answer line with
    | some r => some (r, lines)
    | none =>
      if notices + 1 > bufsiz then some (⟨[], false, -1⟩, lines)
      else (responseLoop bufsiz (notices + 1) lines).map (after (.notice line.text))

def response (bufsiz : Nat) (lines : List Line) : Option (Result × List Line) :=
  responseLoop bufsiz 0 lines

/-! ## The notices before an answer -/

def isNotice (line : Line) : Bool := line.tag == .notemsg

/-- The notices that come first. -/
def leading (lines : List Line) : List Line := lines.takeWhile isNotice

def notices (lines : List Line) : List Message := lines.map fun line => .notice line.text

variable {bufsiz count : Nat} {line : Line} {lines rest : List Line} {r : Result}

theorem answer_eq_none : answer line = none ↔ isNotice line = true := by
  unfold answer isNotice
  cases line.tag with
  | logmsg =>
    refine iff_of_false (fun same => ?_) Bool.false_ne_true
    dsimp only at same
    split at same
    · cases same
    · cases same
  | notemsg => exact iff_of_true rfl rfl
  | _ => exact iff_of_false (fun same => by cases same) Bool.false_ne_true

theorem leading_answer (answered : answer line = some r) (lines : List Line) :
    leading (line :: lines) = [] := by
  refine List.takeWhile_cons_of_neg fun isNotice => ?_
  rw [answer_eq_none.2 isNotice] at answered
  cases answered

theorem leading_notice (notice : answer line = none) (lines : List Line) :
    leading (line :: lines) = line :: leading lines :=
  List.takeWhile_cons_of_pos (answer_eq_none.1 notice)

/-- With few notices the loop does what the recursion does. -/
theorem responseLoop_few (few : count + (leading lines).length ≤ bufsiz) :
    responseLoop bufsiz count lines = responseRec lines := by
  induction lines generalizing count with
  | nil => rfl
  | cons line lines ih =>
    rw [responseLoop, responseRec]
    cases answered : answer line with
    | some r => rfl
    | none =>
      rw [leading_notice answered, List.length_cons] at few
      dsimp only
      rw [if_neg (by omega), ih (by omega)]

/-- With more it ends at the first notice that is too many. -/
theorem responseLoop_many (started : count ≤ bufsiz)
    (many : bufsiz < count + (leading lines).length) :
    responseLoop bufsiz count lines =
      some (⟨notices (lines.take (bufsiz - count)), false, -1⟩, lines.drop (bufsiz - count + 1)) := by
  induction lines generalizing count with
  | nil => exact absurd many (Nat.not_lt.2 started)
  | cons line lines ih =>
    cases answered : answer line with
    | some r =>
      rw [leading_answer answered, List.length_nil] at many
      omega
    | none =>
      rw [leading_notice answered, List.length_cons] at many
      rw [responseLoop, answered]
      dsimp only
      by_cases last : count + 1 > bufsiz
      · rw [if_pos last, show bufsiz - count = 0 by omega]
        rfl
      · rw [if_neg last, ih (by omega) (by omega),
          show bufsiz - count = bufsiz - (count + 1) + 1 by omega]
        rfl

/-- The recursion shows every notice before it returns. -/
theorem responseRec_notices (returned : responseRec lines = some (r, rest)) :
    (leading lines).length ≤ r.messages.length := by
  induction lines generalizing r with
  | nil => cases returned
  | cons line lines ih =>
    rw [responseRec] at returned
    cases answered : answer line with
    | some r' =>
      rw [leading_answer answered]
      exact Nat.zero_le _
    | none =>
      rw [answered] at returned
      obtain ⟨⟨r', rest'⟩, later, same⟩ := Option.map_eq_some_iff.1 returned
      obtain ⟨rfl, rfl⟩ := Prod.mk.inj same
      rw [leading_notice answered]
      exact Nat.succ_le_succ (ih later)

/-- **The loop does what the recursion did**, for every peer that sends at most `BUFSIZ` notices before
its answer, and for no other: one more, and the loop returns -1, with the notices up to that one shown
and the lines behind it not read. -/
theorem response_refines (bufsiz : Nat) (lines : List Line) :
    (response bufsiz lines = responseRec lines ↔ (leading lines).length ≤ bufsiz) ∧
      (bufsiz < (leading lines).length → response bufsiz lines =
        some (⟨notices (lines.take bufsiz), false, -1⟩, lines.drop (bufsiz + 1))) := by
  have many : bufsiz < (leading lines).length → response bufsiz lines =
      some (⟨notices (lines.take bufsiz), false, -1⟩, lines.drop (bufsiz + 1)) := fun many =>
    responseLoop_many (Nat.zero_le _) (by omega)
  refine ⟨⟨fun same => ?_, fun few => responseLoop_few (by omega)⟩, many⟩
  by_contra more
  have cut := many (by omega)
  rw [same] at cut
  have shown := responseRec_notices cut
  simp only [notices, List.length_map, List.length_take] at shown
  omega

end SecurityAudits.OpenbsdBin.RdistResponse
