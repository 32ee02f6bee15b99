import Mathlib.Data.List.Basic

/-!
# Checked accesses

A program in a language with pointers may read or write outside its memory, and its loops may run
forever. Here both are a result, `fault`, apart from the program's own refusal, `fail`. An access is
to a list of bytes, by position; a loop has fuel.

`o.Safe P` says that the outcome is not a fault and that what the program ends with, if it is not
refused, meets `P`. The rules follow the program: one for each access, for a check, for a sequence
(`Safe.bind`), for a loop over a list (`safe_foldlM`) and for a loop with a rank (`safe_loop`).
`o.Total P` says that the program is not refused either.
-/

namespace SecurityAudits.Checked
set_option autoImplicit false

inductive Outcome (α : Type) where
  | fault
  | fail
  | done (a : α)
  deriving DecidableEq, Repr

namespace Outcome

variable {α β : Type}

protected def bind : Outcome α → (α → Outcome β) → Outcome β
  | .fault, _ => .fault
  | .fail, _ => .fail
  | .done a, f => f a

instance : Monad Outcome where
  pure := .done
  bind := Outcome.bind

/-- No fault, and a result that meets `P`. -/
def Safe (P : α → Prop) : Outcome α → Prop
  | .fault => False
  | .fail => True
  | .done a => P a

/-- A result, and one that meets `P`. -/
def Total (P : α → Prop) (o : Outcome α) : Prop := ∃ a, o = .done a ∧ P a

end Outcome

open Outcome

variable {α β σ : Type} {P : α → Prop} {Q : β → Prop}

/-- Go on only when `check` is met. -/
def require (check : Prop) [Decidable check] : Outcome Unit := if check then .done () else .fail

/-- A subtraction that the code relies on not to wrap -/
def sub (a b : Nat) : Outcome Nat := if b ≤ a then .done (a - b) else .fault

/-- `n` items from the position `start`. -/
def read (bytes : List α) (start n : Nat) : Outcome (List α) :=
  if start + n ≤ bytes.length then .done ((bytes.drop start).take n) else .fault

/-- The items `new` at the position `start`. -/
def write (bytes : List α) (start : Nat) (new : List α) : Outcome (List α) :=
  if start + new.length ≤ bytes.length then
    .done (bytes.take start ++ new ++ bytes.drop (start + new.length))
  else .fault

/-- A loop whose body goes on with a state or ends with a result. -/
def loop (body : σ → Outcome (σ ⊕ α)) : Nat → σ → Outcome α
  | 0, _ => .fault
  | fuel + 1, s =>
    body s >>= fun
      | .inl t => loop body fuel t
      | .inr a => pure a

/-- An integer in memory, lowest byte first. -/
def decode : List UInt8 → Nat
  | [] => 0
  | c :: bytes => c.toNat + 256 * decode bytes

/-- The `width` lowest bytes of an integer. -/
def encode : Nat → Nat → List UInt8
  | 0, _ => []
  | width + 1, n => UInt8.ofNat n :: encode width (n / 256)

@[simp] theorem length_encode (width n : Nat) : (encode width n).length = width := by
  induction width generalizing n with
  | zero => rfl
  | succ width ih => rw [encode, List.length_cons, ih]

/-! ## The rules -/

theorem Outcome.Safe.bind {o : Outcome α} {f : α → Outcome β} (first : o.Safe P)
    (rest : ∀ a, P a → (f a).Safe Q) : (o >>= f).Safe Q := by
  cases o with
  | fault => exact first
  | fail => exact trivial
  | done a => exact rest a first

theorem Outcome.Safe.mono {P' : α → Prop} {o : Outcome α} (safe : o.Safe P)
    (weaker : ∀ a, P a → P' a) : o.Safe P' := by
  cases o with
  | fault => exact safe
  | fail => exact trivial
  | done a => exact weaker a safe

theorem safe_require (check : Prop) [Decidable check] : (require check).Safe fun _ => check := by
  unfold require
  split
  · assumption
  · exact trivial

theorem safe_read {bytes : List α} {start n : Nat} (inside : start + n ≤ bytes.length) :
    (read bytes start n).Safe fun items => items = (bytes.drop start).take n := by
  rw [read, if_pos inside]
  rfl

theorem safe_write {bytes new : List α} {start : Nat} (inside : start + new.length ≤ bytes.length) :
    (write bytes start new).Safe fun bytes' => bytes'.length = bytes.length := by
  rw [write, if_pos inside]
  show (bytes.take start ++ new ++ bytes.drop (start + new.length)).length = bytes.length
  simp only [List.length_append, List.length_take, List.length_drop]
  omega

/-- The rule of a loop over a list, with an invariant of the state and of the items to come. -/
theorem safe_foldlM (Inv : List β → σ → Prop) {body : σ → β → Outcome σ} {items : List β}
    (step : ∀ b rest s, Inv (b :: rest) s → (body s b).Safe (Inv rest)) {s : σ}
    (start : Inv items s) : (items.foldlM body s).Safe (Inv []) := by
  induction items generalizing s with
  | nil => exact start
  | cons b items ih =>
    rw [List.foldlM_cons]
    exact (step b items s start).bind fun t inv => ih inv

/-- The rule of a loop: an iteration keeps the invariant and lowers the rank, or ends it. -/
theorem safe_loop (Inv : σ → Prop) (rank : σ → Nat) {body : σ → Outcome (σ ⊕ α)}
    (step : ∀ s, Inv s → (body s).Safe (Sum.elim (fun t => Inv t ∧ rank t < rank s) P))
    {fuel : Nat} {s : σ} (start : Inv s) (enough : rank s < fuel) : (loop body fuel s).Safe P := by
  induction fuel generalizing s with
  | zero => exact absurd enough (Nat.not_lt_zero _)
  | succ fuel ih =>
    refine (step s start).bind fun r after => ?_
    cases r with
    | inl t => exact ih after.1 (Nat.lt_of_lt_of_le after.2 (Nat.le_of_lt_succ enough))
    | inr a => exact after

theorem total_pure {a : α} (here : P a) : Total P (pure a) := ⟨a, rfl, here⟩

theorem Outcome.Total.bind {o : Outcome α} {f : α → Outcome β} (first : o.Total P)
    (rest : ∀ a, P a → (f a).Total Q) : (o >>= f).Total Q := by
  obtain ⟨a, rfl, here⟩ := first
  exact rest a here

theorem Outcome.Total.mono {P' : α → Prop} {o : Outcome α} (total : o.Total P)
    (weaker : ∀ a, P a → P' a) : o.Total P' := by
  obtain ⟨a, done, here⟩ := total
  exact ⟨a, done, weaker a here⟩

theorem total_sub {a b : Nat} (le : b ≤ a) : (sub a b).Total fun d => d = a - b :=
  ⟨a - b, if_pos le, rfl⟩

/-- The rule of a loop that is never refused. -/
theorem total_loop (Inv : σ → Prop) (rank : σ → Nat) {body : σ → Outcome (σ ⊕ α)}
    (step : ∀ s, Inv s → (body s).Total (Sum.elim (fun t => Inv t ∧ rank t < rank s) P))
    {fuel : Nat} {s : σ} (start : Inv s) (enough : rank s < fuel) : (loop body fuel s).Total P := by
  induction fuel generalizing s with
  | zero => exact absurd enough (Nat.not_lt_zero _)
  | succ fuel ih =>
    refine (step s start).bind fun r after => ?_
    cases r with
    | inl t => exact ih after.1 (Nat.lt_of_lt_of_le after.2 (Nat.le_of_lt_succ enough))
    | inr a => exact total_pure after

/-- The rule of a loop over a list, with an invariant of the state. -/
theorem total_foldlM (Inv : σ → Prop) {body : σ → β → Outcome σ}
    (step : ∀ s b, Inv s → (body s b).Total Inv) {s : σ} (start : Inv s) (items : List β) :
    (items.foldlM body s).Total Inv := by
  induction items generalizing s with
  | nil => exact total_pure start
  | cons b items ih =>
    rw [List.foldlM_cons]
    exact (step s b start).bind fun t inv => ih inv

end SecurityAudits.Checked
