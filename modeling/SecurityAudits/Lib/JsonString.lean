import Mathlib.Data.List.Basic

/-!
# Strings of JSON

What stands between the quotes of a JSON string: characters as they are, other than the quote, the
backslash and the control characters, and escapes, which begin with a backslash. An escape with `u`
gives a UTF-16 unit by four hexadecimal digits, and two surrogates make one code point.

`decode` gives the code points of such a text, if it is one. The rules say what it does with one
character and with one escape in front of a text.
-/

namespace SecurityAudits.JsonString
set_option autoImplicit false

def hexValue (c : Char) : Option Nat :=
  if '0' ≤ c ∧ c ≤ '9' then some (c.toNat - '0'.toNat)
  else if 'a' ≤ c ∧ c ≤ 'f' then some (c.toNat - 'a'.toNat + 10)
  else if 'A' ≤ c ∧ c ≤ 'F' then some (c.toNat - 'A'.toNat + 10)
  else none

/-- Four hexadecimal digits. -/
def hex4 (a b c d : Char) : Option Nat := do
  return ((← hexValue a) * 16 + (← hexValue b)) * 256 + (← hexValue c) * 16 + (← hexValue d)

/-- The escapes of two characters. -/
def simpleEscape (c : Char) : Option Nat :=
  if c = '"' ∨ c = '\\' ∨ c = '/' then some c.toNat
  else if c = 'b' then some 0x08
  else if c = 'f' then some 0x0c
  else if c = 'n' then some 0x0a
  else if c = 'r' then some 0x0d
  else if c = 't' then some 0x09
  else none

/-- A character that stands for itself. -/
def Plain (c : Char) : Prop := ' ' ≤ c ∧ c ≠ '"' ∧ c ≠ '\\'

instance (c : Char) : Decidable (Plain c) := inferInstanceAs (Decidable (_ ∧ _ ∧ _))

/-- The UTF-16 units of the escapes, and the code points of the other characters. -/
def units : List Char → Option (List Nat)
  | [] => some []
  | '\\' :: 'u' :: a :: b :: c :: d :: rest =>
    (hex4 a b c d).bind fun n => (units rest).map (n :: ·)
  | '\\' :: e :: rest => (simpleEscape e).bind fun n => (units rest).map (n :: ·)
  | c :: rest => if Plain c then (units rest).map (c.toNat :: ·) else none

def IsHigh (n : Nat) : Prop := 0xd800 ≤ n ∧ n < 0xdc00

def IsLow (n : Nat) : Prop := 0xdc00 ≤ n ∧ n < 0xe000

instance (n : Nat) : Decidable (IsHigh n) := inferInstanceAs (Decidable (_ ∧ _))

instance (n : Nat) : Decidable (IsLow n) := inferInstanceAs (Decidable (_ ∧ _))

/-- Two surrogates make one code point; none stands alone. -/
def codePoints : List Nat → Option (List Nat)
  | [] => some []
  | [n] => if IsHigh n ∨ IsLow n then none else some [n]
  | n :: m :: rest =>
    if IsHigh n then
      if IsLow m then
        (codePoints rest).map fun later => (0x10000 + (n - 0xd800) * 0x400 + (m - 0xdc00)) :: later
      else none
    else if IsLow n then none
    else (codePoints (m :: rest)).map (n :: ·)

/-- The code points of what stands between the quotes. -/
def decode (s : List Char) : Option (List Nat) := (units s).bind codePoints

/-- The characters that are not part of an escape. -/
def unescaped : List Char → List Char
  | '\\' :: _ :: rest => unescaped rest
  | c :: rest => c :: unescaped rest
  | [] => []

variable {c : Char} {rest : List Char} {n : Nat} {ns : List Nat}

theorem units_plain (plain : Plain c) : units (c :: rest) = (units rest).map (c.toNat :: ·) := by
  have other := plain.2.2
  rw [units.eq_4]
  · exact if_pos plain
  · rintro a b d e rest' rfl
    exact absurd rfl other
  · rintro e rest' rfl
    exact absurd rfl other

theorem units_simple {e : Char} (other : e ≠ 'u') (escape : simpleEscape e = some n) :
    units ('\\' :: e :: rest) = (units rest).map (n :: ·) := by
  rw [units.eq_3, escape]
  · rfl
  · rintro a b c d rest' rfl
    exact absurd rfl other

theorem units_hex {a b c d : Char} (digits : hex4 a b c d = some n) :
    units ('\\' :: 'u' :: a :: b :: c :: d :: rest) = (units rest).map (n :: ·) := by
  rw [units, digits]
  rfl

theorem unescaped_plain (plain : Plain c) : unescaped (c :: rest) = c :: unescaped rest := by
  rw [unescaped.eq_2]
  rintro e rest' rfl
  exact absurd rfl plain.2.2

theorem unescaped_escape {e : Char} : unescaped ('\\' :: e :: rest) = unescaped rest := rfl

/-- Code points below the surrogates. -/
theorem codePoints_eq (small : ∀ n ∈ ns, n < 0xd800) : codePoints ns = some ns := by
  induction ns with
  | nil => rfl
  | cons n ns ih =>
    have here := small n List.mem_cons_self
    have notHigh : ¬ IsHigh n := fun high => absurd high.1 (Nat.not_le_of_lt here)
    have notLow : ¬ IsLow n := fun low => by
      have above := low.1
      omega
    have later := ih fun m member => small m (List.mem_cons_of_mem n member)
    cases ns with
    | nil => rw [codePoints, if_neg (fun surrogate => surrogate.elim notHigh notLow)]
    | cons m ns =>
      rw [codePoints, if_neg notHigh, if_neg notLow, later]
      rfl

end SecurityAudits.JsonString
