import Mathlib.Data.Nat.Digits.Defs

/-!
# The datagram-flow-id header

`handle_input_expect_headers` of `lib/http3/server.c` reads the `datagram-flow-id` field of a
CONNECT-UDP request. A field is refused when it is empty or has a byte that is not a digit; else its
digits are accumulated in an unsigned integer of `w` bits, in which nothing detects an overflow.

`number` is what the digits spell, and `Fits` the fields for which that makes no difference: they are
exactly the fields whose flow id is right (`flowId_right_iff`).
-/

namespace SecurityAudits.H2o.DatagramFlowId
set_option autoImplicit false

/-- The code that `handle_input_expect_headers` returns on a field it refuses. -/
inductive ErrorCode where
  /-- `H2O_HTTP3_ERROR_GENERAL_PROTOCOL` -/
  | generalProtocol
  deriving DecidableEq, Repr

/-- A refused request: `*err_desc` and the returned code. -/
structure Refusal where
  errDesc : String
  code : ErrorCode
  deriving DecidableEq, Repr

/-- Both refusals of the field are this one. -/
def invalidFlowId : Refusal := ⟨"invalid datagram-flow-id", .generalProtocol⟩

/-- `'0' <= *p && *p <= '9'` -/
def isDigit (c : UInt8) : Bool := 48 ≤ c ∧ c ≤ 57

/-- The loop over the bytes of the field. -/
def accumulate {w : Nat} : BitVec w → List UInt8 → Except Refusal (BitVec w)
  | id, [] => .ok id
  | id, c :: rest =>
    if isDigit c then accumulate (id * 10 + BitVec.ofNat w c.toNat - BitVec.ofNat w 48) rest
    else .error invalidFlowId

/-- The flow id that the request gets from its field. -/
def datagramFlowId (w : Nat) (field : List UInt8) : Except Refusal (BitVec w) :=
  if field.length = 0 then .error invalidFlowId else accumulate 0 field

/-- A field of digits. -/
def Spells (field : List UInt8) : Prop := field ≠ [] ∧ ∀ c ∈ field, isDigit c = true

/-- The number that the digits of a field spell. -/
def number (field : List UInt8) : Nat :=
  Nat.ofDigits 10 (field.map fun c => c.toNat - 48).reverse

/-- The field is refused, or its flow id is the number it spells. -/
def Right (w : Nat) (field : List UInt8) : Prop :=
  ∀ id, datagramFlowId w field = .ok id → Spells field ∧ id.toNat = number field

/-- Unless they spell the same number, the fields do not get the same flow id. -/
def Apart (w : Nat) (field field' : List UInt8) : Prop :=
  ∀ id, datagramFlowId w field = .ok id → datagramFlowId w field' = .ok id →
    number field = number field'

/-- The field does not spell a number, or it spells one that `w` bits can hold. -/
def Fits (w : Nat) (field : List UInt8) : Prop :=
  field = [] ∨ (∃ c ∈ field, isDigit c = false) ∨ number field < 2 ^ w

variable {w n : Nat} {c : UInt8} {field field' : List UInt8}

theorem isDigit_iff : isDigit c = true ↔ 48 ≤ c.toNat ∧ c.toNat ≤ 57 := decide_eq_true_iff

theorem number_snoc (field : List UInt8) (c : UInt8) :
    number (field ++ [c]) = number field * 10 + (c.toNat - 48) := by
  rw [number, number, List.map_append, List.reverse_append, List.map_singleton,
    List.reverse_singleton, List.singleton_append, Nat.ofDigits_cons]
  omega

/-- One step of the loop, in the ring of `w`-bit integers. -/
theorem step_ofNat (digit : isDigit c = true) :
    BitVec.ofNat w n * 10 + BitVec.ofNat w c.toNat - BitVec.ofNat w 48 =
      BitVec.ofNat w (n * 10 + (c.toNat - 48)) := by
  obtain ⟨low, -⟩ := isDigit_iff.1 digit
  have split : n * 10 + c.toNat = n * 10 + (c.toNat - 48) + 48 := by omega
  have ten : (10 : BitVec w) = BitVec.ofNat w 10 := rfl
  rw [ten, ← BitVec.ofNat_mul, ← BitVec.ofNat_add, split, BitVec.ofNat_add, BitVec.add_sub_cancel]

/-- The loop keeps the number of the digits it has passed, modulo `2 ^ w`. -/
theorem accumulate_eq (passed rest : List UInt8) (digits : ∀ c ∈ rest, isDigit c = true) :
    accumulate (BitVec.ofNat w (number passed)) rest =
      .ok (BitVec.ofNat w (number (passed ++ rest))) := by
  induction rest generalizing passed with
  | nil => rw [List.append_nil]; rfl
  | cons c rest ih =>
    have digit := digits c List.mem_cons_self
    rw [accumulate, if_pos digit, step_ofNat digit, ← number_snoc,
      ih (passed ++ [c]) fun d mem => digits d (List.mem_cons_of_mem c mem),
      List.append_assoc, List.singleton_append]

theorem accumulate_refuses (id : BitVec w) (other : ∃ c ∈ field, isDigit c = false) :
    accumulate id field = .error invalidFlowId := by
  induction field generalizing id with
  | nil =>
    obtain ⟨c, mem, -⟩ := other
    cases mem
  | cons d field ih =>
    rw [accumulate]
    cases digit : isDigit d with
    | false => exact if_neg (by decide)
    | true =>
      rw [if_pos rfl]
      obtain ⟨c, mem, bad⟩ := other
      rcases List.mem_cons.1 mem with rfl | mem
      · cases digit.symm.trans bad
      · exact ih _ ⟨c, mem, bad⟩

theorem datagramFlowId_of_spells (spells : Spells field) :
    datagramFlowId w field = .ok (BitVec.ofNat w (number field)) := by
  rw [datagramFlowId, if_neg (mt List.length_eq_zero_iff.1 spells.1)]
  exact accumulate_eq [] field spells.2

theorem spells_or (field : List UInt8) :
    Spells field ∨ field = [] ∨ ∃ c ∈ field, isDigit c = false := by
  by_cases nil : field = []
  · exact .inr (.inl nil)
  · by_cases digits : ∀ c ∈ field, isDigit c = true
    · exact .inl ⟨nil, digits⟩
    · push Not at digits
      obtain ⟨c, mem, other⟩ := digits
      exact .inr (.inr ⟨c, mem, eq_false_of_ne_true other⟩)

/-- A field is accepted exactly when it spells a number. -/
theorem datagramFlowId_refuses (none : field = [] ∨ ∃ c ∈ field, isDigit c = false) :
    datagramFlowId w field = .error invalidFlowId := by
  rw [datagramFlowId]
  rcases none with rfl | other
  · exact if_pos rfl
  · split
    · rfl
    · exact accumulate_refuses 0 other

theorem right_iff : Right w field ↔ Fits w field := by
  constructor
  · intro right
    rcases spells_or field with spells | none
    · obtain ⟨-, exact'⟩ := right _ (datagramFlowId_of_spells spells)
      refine .inr (.inr ?_)
      rw [← exact']
      exact (BitVec.ofNat w (number field)).isLt
    · exact none.imp_right .inl
  · intro fits id accepted
    rcases spells_or field with spells | none
    · rw [datagramFlowId_of_spells spells] at accepted
      cases accepted
      refine ⟨spells, ?_⟩
      rcases fits with nil | ⟨c, mem, other⟩ | small
      · exact absurd nil spells.1
      · cases (spells.2 c mem).symm.trans other
      · rw [BitVec.toNat_ofNat, Nat.mod_eq_of_lt small]
    · rw [datagramFlowId_refuses none] at accepted
      cases accepted

/-- **When flow ids are right.** Two fields are each refused or given the number they spell, and
spell the same number if they get the same flow id, exactly when both fit the integer. -/
theorem flowId_right_iff (w : Nat) (field field' : List UInt8) :
    (Right w field ∧ Right w field' ∧ Apart w field field') ↔ Fits w field ∧ Fits w field' := by
  rw [right_iff, right_iff]
  refine ⟨fun ⟨fits, fits', _⟩ => ⟨fits, fits'⟩, fun ⟨fits, fits'⟩ => ⟨fits, fits', ?_⟩⟩
  intro id accepted accepted'
  obtain ⟨-, number⟩ := right_iff.2 fits id accepted
  obtain ⟨-, number'⟩ := right_iff.2 fits' id accepted'
  exact number.symm.trans number'

/-- The field of a one and `n` zeros. -/
def powerOfTen (n : Nat) : List UInt8 := 49 :: List.replicate n 48

theorem number_powerOfTen (n : Nat) : number (powerOfTen n) = 10 ^ n := by
  induction n with
  | zero => rfl
  | succ n ih =>
    rw [powerOfTen, List.replicate_succ', ← List.cons_append, number_snoc]
    show number (powerOfTen n) * 10 + 0 = _
    rw [ih, Nat.pow_succ, Nat.add_zero]

/-- No width is enough: some field gets a flow id that it does not spell. -/
theorem exists_not_right (w : Nat) : ∃ field, Spells field ∧ ¬ Right w field := by
  have spells : Spells (powerOfTen w) := by
    refine ⟨List.cons_ne_nil _ _, List.forall_mem_cons.2 ⟨rfl, fun c mem => ?_⟩⟩
    rw [List.eq_of_mem_replicate mem]
    rfl
  refine ⟨powerOfTen w, spells, fun right => ?_⟩
  rcases right_iff.1 right with nil | ⟨c, mem, other⟩ | small
  · cases nil
  · cases (spells.2 c mem).symm.trans other
  · rw [number_powerOfTen] at small
    exact absurd small (Nat.not_lt.2 (Nat.pow_le_pow_left (by decide) w))

/-- `18446744073709551616`, which is `2 ^ 64` -/
def wrapping : List UInt8 :=
  [49, 56, 52, 52, 54, 55, 52, 52, 48, 55, 51, 55, 48, 57, 53, 53, 49, 54, 49, 54]

/-- In 64 bits the field `18446744073709551616` is accepted, and gets the flow id of `0`. -/
theorem wrapping_not_right :
    datagramFlowId 64 wrapping = .ok 0 ∧ datagramFlowId 64 [48] = .ok 0 ∧
      ¬ Right 64 wrapping ∧ ¬ Apart 64 wrapping [48] := by
  have accepted : datagramFlowId 64 wrapping = .ok 0 := by decide +kernel
  have accepted' : datagramFlowId 64 [48] = .ok 0 := by decide
  have differ : number wrapping ≠ number [48] := by decide
  have zero : number wrapping ≠ 0 := by decide
  exact ⟨accepted, accepted', fun right => zero (right 0 accepted).2.symm,
    fun apart => differ (apart 0 accepted accepted')⟩

end SecurityAudits.H2o.DatagramFlowId
