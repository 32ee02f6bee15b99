import Mathlib.Data.List.Basic

/-!
# Lines

A text protocol ends each line with CR LF, and a message's head with an empty line. A recipient is
anything that reads a line in which neither byte stands up to its CR LF; what it takes for the end of
other lines (a bare LF, or none at all) is its own choice.

`head_document` says that a head of such lines is read as it was meant, by any recipient.
-/

namespace SecurityAudits.Lines
set_option autoImplicit false

def CR : UInt8 := 13

def LF : UInt8 := 10

/-- Neither byte of a line end stands in the line. -/
def Clean (line : List UInt8) : Prop := ∀ c ∈ line, c ≠ CR ∧ c ≠ LF

instance (line : List UInt8) : Decidable (Clean line) :=
  List.decidableBAll (fun c => c ≠ CR ∧ c ≠ LF) line

/-- A line and its end. -/
def ended (line : List UInt8) : List UInt8 := line ++ [CR, LF]

/-- The lines of a head, and the empty line. -/
def document (lines : List (List UInt8)) : List UInt8 := lines.flatMap ended ++ ended []

structure Recipient where
  /-- The first line and what is behind its end; none while the end has not come. -/
  line : List UInt8 → Option (List UInt8 × List UInt8)
  reads : ∀ (text rest : List UInt8), Clean text → line (ended text ++ rest) = some (text, rest)

/-- The lines up to the empty one, and what is behind it. -/
def Recipient.head (r : Recipient) : Nat → List UInt8 → Option (List (List UInt8) × List UInt8)
  | 0, _ => none
  | fuel + 1, bytes => do
    let (text, rest) ← r.line bytes
    if text = [] then
      return ([], rest)
    let (lines, rest) ← r.head fuel rest
    return (text :: lines, rest)

variable {line : List UInt8} {lines : List (List UInt8)}

theorem clean_nil : Clean [] := List.forall_mem_nil _

theorem clean_append {a b : List UInt8} : Clean (a ++ b) ↔ Clean a ∧ Clean b :=
  List.forall_mem_append

theorem length_ended (line : List UInt8) : (ended line).length = line.length + 2 :=
  List.length_append

theorem length_lt_document (lines : List (List UInt8)) : lines.length < (document lines).length := by
  induction lines with
  | nil => decide
  | cons line lines ih =>
    have split : document (line :: lines) = ended line ++ document lines := by simp [document]
    rw [split, List.length_append, length_ended, List.length_cons]
    omega

/-- **A head reads back**: its lines, none of which is empty or has CR or LF in it, and then what is
behind the empty line. -/
theorem head_document (r : Recipient) (clean : ∀ line ∈ lines, Clean line)
    (full : ∀ line ∈ lines, line ≠ []) (rest : List UInt8) {fuel : Nat}
    (enough : lines.length < fuel) : r.head fuel (document lines ++ rest) = some (lines, rest) := by
  induction lines generalizing fuel with
  | nil =>
    obtain ⟨fuel, rfl⟩ := Nat.exists_eq_succ_of_ne_zero (Nat.ne_of_gt enough)
    rw [document, List.flatMap_nil, List.nil_append, Recipient.head, r.reads [] rest clean_nil]
    rfl
  | cons line lines ih =>
    obtain ⟨fuel, rfl⟩ := Nat.exists_eq_succ_of_ne_zero (Nat.ne_of_gt (Nat.zero_lt_of_lt enough))
    have here := clean line List.mem_cons_self
    have later := ih (fun l mem => clean l (List.mem_cons_of_mem _ mem))
      (fun l mem => full l (List.mem_cons_of_mem _ mem)) (Nat.lt_of_succ_lt_succ enough)
    have split : document (line :: lines) ++ rest = ended line ++ (document lines ++ rest) := by
      simp [document]
    rw [split, Recipient.head, r.reads line _ here]
    simp [full line List.mem_cons_self, later]

/-! ## A strict recipient -/

/-- A line ends with CR LF only. -/
def strictLine : List UInt8 → Option (List UInt8 × List UInt8)
  | [] => none
  | c :: bytes =>
    if c = CR ∧ bytes.head? = some LF then some ([], bytes.tail)
    else (strictLine bytes).map fun (text, rest) => (c :: text, rest)

def strict : Recipient where
  line := strictLine
  reads text rest clean := by
    induction text with
    | nil => rfl
    | cons c text ih =>
      have here := (clean c List.mem_cons_self).1
      have later := ih fun x mem => clean x (List.mem_cons_of_mem _ mem)
      rw [show ended (c :: text) ++ rest = c :: (ended text ++ rest) from rfl, strictLine,
        if_neg (fun both => here both.1), later]
      rfl

end SecurityAudits.Lines
