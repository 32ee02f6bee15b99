import Mathlib.Data.List.Infix

/-!
# Readers of buffered bytes

A reader works on the bytes that have arrived so far. When they end too early it fails with a
distinguished error, `incomplete`, on which its caller waits for more and reads again. A reader
may also refuse to go on because of how few bytes are left (`demand`), as a bound on an
allocation does.

`Reads` describes a reader on one encoding and on every cut of it: which demands the encoding
makes, and that a cut is refused exactly when it does not meet the demands that it shows. The
rules say how readers compose.
-/

namespace SecurityAudits.Reading
set_option autoImplicit false

variable {ε α β : Type}

/-- A reader takes bytes from the front of what is buffered. -/
abbrev Reader (ε α : Type) := StateT (List UInt8) (Except ε) α

/-- Fail unless `count` bytes are left. -/
def demand (error : ε) (count : Nat) : Reader ε Unit := fun bytes =>
  if bytes.length < count then .error error else .ok ((), bytes)

/-- `read`, `count` times. -/
def times (read : Reader ε α) : Nat → Reader ε (List α)
  | 0 => pure []
  | count + 1 => do
    let a ← read
    let as ← times read count
    return a :: as

/-- At the position `position` of an encoding a reader demands `count` more bytes. -/
structure Demand where
  position : Nat
  count : Nat
  deriving DecidableEq

def Demand.shift (n : Nat) (d : Demand) : Demand := { d with position := n + d.position }

/-- The first `k` bytes meet every demand at a position within them. -/
def Met (demands : List Demand) (k : Nat) : Prop :=
  ∀ d ∈ demands, d.position ≤ k → d.position + d.count ≤ k

/-- `read` takes exactly `bytes`, whatever follows, and its value is `a`. On a cut of `bytes`
it finds them incomplete, or refuses them if a demand within the cut is not met. -/
structure Reads (incomplete : ε) (Refusal : ε → Prop) (read : Reader ε α) (bytes : List UInt8)
    (demands : List Demand) (a : α) : Prop where
  whole : ∀ rest, read (bytes ++ rest) = .ok (a, rest)
  cut : ∀ k < bytes.length, Met demands k → read (bytes.take k) = .error incomplete
  refused : ∀ k < bytes.length, ¬ Met demands k → ∃ e, Refusal e ∧ read (bytes.take k) = .error e
  within : ∀ d ∈ demands, d.position + d.count ≤ bytes.length

variable {incomplete : ε} {Refusal : ε → Prop} {read : Reader ε α} {f : α → Reader ε β}
variable {bytes later : List UInt8} {demands demandsLater : List Demand} {a : α} {b : β} {k : Nat}

theorem bind_apply (read : Reader ε α) (f : α → Reader ε β) (bytes : List UInt8) :
    (read >>= f) bytes = (read bytes).bind fun r => f r.1 r.2 := rfl

theorem met_nil : Met [] k := fun d mem => by cases mem

theorem met_append {ds es : List Demand} : Met (ds ++ es) k ↔ Met ds k ∧ Met es k :=
  List.forall_mem_append

/-- All demands of an encoding are met from its end on. -/
theorem Reads.met (reads : Reads incomplete Refusal read bytes demands a)
    (le : bytes.length ≤ k) : Met demands k :=
  fun d mem _ => (reads.within d mem).trans le

theorem met_shift_of_lt {n : Nat} (lt : k < n) : Met (demands.map (Demand.shift n)) k := by
  intro d mem within
  obtain ⟨e, memE, rfl⟩ := List.mem_map.1 mem
  have : n + e.position ≤ k := within
  omega

theorem met_shift {n : Nat} :
    Met (demands.map (Demand.shift n)) (n + k) ↔ Met demands k := by
  constructor
  · intro met d mem within
    have := met (d.shift n) (List.mem_map_of_mem mem) (Nat.add_le_add_left within n)
    have : n + d.position + d.count ≤ n + k := this
    omega
  · intro met d mem within
    obtain ⟨e, memE, rfl⟩ := List.mem_map.1 mem
    have : n + e.position ≤ n + k := within
    have := met e memE (by omega)
    show n + e.position + e.count ≤ n + k
    omega

theorem take_append_of_lt (lt : k < bytes.length) :
    (bytes ++ later).take k = bytes.take k := by
  rw [List.take_append, Nat.sub_eq_zero_of_le (Nat.le_of_lt lt), List.take_zero, List.append_nil]

theorem take_append_of_le (le : bytes.length ≤ k) :
    (bytes ++ later).take k = bytes ++ later.take (k - bytes.length) := by
  rw [List.take_append, List.take_of_length_le le]

/-- A reader that reads nothing. -/
theorem reads_pure (a : α) : Reads incomplete Refusal (pure a : Reader ε α) [] [] a where
  whole _ := rfl
  cut _ lt := absurd lt (Nat.not_lt_zero _)
  refused _ lt := absurd lt (Nat.not_lt_zero _)
  within _ mem := by cases mem

/-- One encoding behind the other: the demands of the second are shifted. -/
theorem Reads.bind (first : Reads incomplete Refusal read bytes demands a)
    (second : Reads incomplete Refusal (f a) later demandsLater b) :
    Reads incomplete Refusal (read >>= f) (bytes ++ later)
      (demands ++ demandsLater.map (Demand.shift bytes.length)) b where
  whole rest := by
    rw [bind_apply, List.append_assoc, first.whole]
    exact second.whole rest
  cut k lt met := by
    obtain ⟨metFirst, metSecond⟩ := met_append.1 met
    by_cases inFirst : k < bytes.length
    · rw [take_append_of_lt inFirst, bind_apply, first.cut k inFirst metFirst]
      rfl
    · obtain ⟨j, rfl⟩ := Nat.exists_eq_add_of_le (Nat.le_of_not_lt inFirst)
      rw [List.length_append] at lt
      rw [take_append_of_le (Nat.le_add_right _ j), Nat.add_sub_cancel_left, bind_apply,
        first.whole]
      exact second.cut j (by omega) (met_shift.1 metSecond)
  refused k lt unmet := by
    by_cases inFirst : k < bytes.length
    · have unmetFirst : ¬ Met demands k := fun met =>
        unmet (met_append.2 ⟨met, met_shift_of_lt inFirst⟩)
      obtain ⟨e, refusal, error⟩ := first.refused k inFirst unmetFirst
      refine ⟨e, refusal, ?_⟩
      rw [take_append_of_lt inFirst, bind_apply, error]
      rfl
    · obtain ⟨j, rfl⟩ := Nat.exists_eq_add_of_le (Nat.le_of_not_lt inFirst)
      rw [List.length_append] at lt
      have unmetSecond : ¬ Met demandsLater j := fun met =>
        unmet (met_append.2 ⟨first.met (Nat.le_add_right _ j), met_shift.2 met⟩)
      obtain ⟨e, refusal, error⟩ := second.refused j (by omega) unmetSecond
      refine ⟨e, refusal, ?_⟩
      rw [take_append_of_le (Nat.le_add_right _ j), Nat.add_sub_cancel_left, bind_apply,
        first.whole]
      exact error
  within d mem := by
    rw [List.length_append]
    rcases List.mem_append.1 mem with inFirst | inSecond
    · have := first.within d inFirst
      omega
    · obtain ⟨e, memE, rfl⟩ := List.mem_map.1 inSecond
      have := second.within e memE
      show bytes.length + e.position + e.count ≤ _
      omega

/-- The rule for a first encoding without demands. -/
theorem Reads.then (first : Reads incomplete Refusal read bytes [] a)
    (second : Reads incomplete Refusal (f a) later demandsLater b) :
    Reads incomplete Refusal (read >>= f) (bytes ++ later)
      (demandsLater.map (Demand.shift bytes.length)) b :=
  first.bind second

/-- A computation on the value reads nothing. -/
theorem Reads.pure_bind {f : α → β} (reads : Reads incomplete Refusal read bytes demands a) :
    Reads incomplete Refusal (read >>= fun a => pure (f a)) bytes demands (f a) := by
  have both : Reads incomplete Refusal (read >>= fun a => pure (f a)) (bytes ++ [])
      (demands ++ [].map (Demand.shift bytes.length)) (f a) := reads.bind (reads_pure (f a))
  rwa [List.append_nil, List.map_nil, List.append_nil] at both

/-- A demand in front of an encoding that is long enough to meet it. -/
theorem Reads.demand {error : ε} {count : Nat} {body : Reader ε β}
    (reads : Reads incomplete Refusal body bytes demands b) (enough : count ≤ bytes.length)
    (refusal : Refusal error) :
    Reads incomplete Refusal (demand error count >>= fun _ => body) bytes
      (⟨0, count⟩ :: demands) b where
  whole rest := by
    rw [bind_apply, Reading.demand, if_neg (by rw [List.length_append]; omega)]
    exact reads.whole rest
  cut k lt met := by
    have enoughLeft : 0 + count ≤ k := met ⟨0, count⟩ List.mem_cons_self (Nat.zero_le k)
    rw [bind_apply, Reading.demand, if_neg (by rw [List.length_take]; omega)]
    exact reads.cut k lt fun d mem => met d (List.mem_cons_of_mem _ mem)
  refused k lt unmet := by
    by_cases enoughLeft : count ≤ k
    · have unmetBody : ¬ Met demands k := by
        refine fun met => unmet fun d mem within => ?_
        rcases List.mem_cons.1 mem with rfl | inBody
        · show 0 + count ≤ k
          omega
        · exact met d inBody within
      obtain ⟨e, refusal', error'⟩ := reads.refused k lt unmetBody
      refine ⟨e, refusal', ?_⟩
      rw [bind_apply, Reading.demand, if_neg (by rw [List.length_take]; omega)]
      exact error'
    · refine ⟨error, refusal, ?_⟩
      rw [bind_apply, Reading.demand, if_pos (by rw [List.length_take]; omega)]
      rfl
  within d mem := by
    rcases List.mem_cons.1 mem with rfl | inBody
    · show 0 + count ≤ _
      omega
    · exact reads.within d inBody

/-- The reader of one byte. -/
def readByte (incomplete : ε) : Reader ε UInt8
  | [] => .error incomplete
  | c :: bytes => .ok (c, bytes)

theorem reads_byte (c : UInt8) : Reads incomplete Refusal (readByte incomplete) [c] [] c where
  whole _ := rfl
  cut k lt _ := by
    rw [Nat.lt_one_iff.1 lt]
    rfl
  refused _ _ unmet := absurd met_nil unmet
  within _ mem := by cases mem

/-- Bytes with the value they encode and the demands a reader makes on its way. -/
structure Encoding (α : Type) where
  bytes : List UInt8
  demands : List Demand
  value : α

/-- Two encodings, one behind the other. -/
def Encoding.pair (e : Encoding α) (f : Encoding β) : Encoding (α × β) where
  bytes := e.bytes ++ f.bytes
  demands := e.demands ++ f.demands.map (Demand.shift e.bytes.length)
  value := (e.value, f.value)

def Encoding.sequence : List (Encoding α) → Encoding (List α)
  | [] => ⟨[], [], []⟩
  | e :: es =>
    { bytes := e.bytes ++ (sequence es).bytes
      demands := e.demands ++ (sequence es).demands.map (Demand.shift e.bytes.length)
      value := e.value :: (sequence es).value }

/-- Encodings that are not empty are at least as many bytes as they are. -/
theorem Encoding.length_le_sequence {es : List (Encoding α)}
    (nonempty : ∀ e ∈ es, e.bytes ≠ []) : es.length ≤ (sequence es).bytes.length := by
  induction es with
  | nil => exact Nat.zero_le _
  | cons e es ih =>
    have rest := ih fun f mem => nonempty f (List.mem_cons_of_mem _ mem)
    have first := List.length_pos_iff.2 (nonempty e List.mem_cons_self)
    show es.length + 1 ≤ (e.bytes ++ (sequence es).bytes).length
    rw [List.length_append]
    omega

/-- The loop over the elements of a sequence. -/
theorem Reads.times {es : List (Encoding α)}
    (each : ∀ e ∈ es, Reads incomplete Refusal read e.bytes e.demands e.value) :
    Reads incomplete Refusal (times read es.length) (Encoding.sequence es).bytes
      (Encoding.sequence es).demands (Encoding.sequence es).value := by
  induction es with
  | nil => exact reads_pure []
  | cons e es ih =>
    have rest := ih fun f mem => each f (List.mem_cons_of_mem _ mem)
    exact (each e List.mem_cons_self).bind rest.pure_bind

theorem Reads.pair {readOther : Reader ε β} {e : Encoding α} {f : Encoding β}
    (first : Reads incomplete Refusal read e.bytes e.demands e.value)
    (second : Reads incomplete Refusal readOther f.bytes f.demands f.value) :
    Reads incomplete Refusal (do let a ← read; let b ← readOther; return (a, b))
      (e.pair f).bytes (e.pair f).demands (e.pair f).value :=
  first.bind second.pure_bind

/-- A cut is refused exactly when it does not meet its demands; a whole encoding never is. -/
theorem Reads.refused_iff (reads : Reads incomplete Refusal read bytes demands a)
    (accepted : ¬ Refusal incomplete) (le : k ≤ bytes.length) :
    (∀ e, read (bytes.take k) = .error e → ¬ Refusal e) ↔ Met demands k := by
  rcases Nat.lt_or_eq_of_le le with lt | rfl
  · constructor
    · intro never
      by_contra unmet
      obtain ⟨e, refusal, error⟩ := reads.refused k lt unmet
      exact never e error refusal
    · intro met e error
      rw [reads.cut k lt met] at error
      cases error
      exact accepted
  · refine ⟨fun _ => reads.met le, fun _ e error => ?_⟩
    have whole := reads.whole []
    rw [List.append_nil] at whole
    rw [List.take_length, whole] at error
    cases error

end SecurityAudits.Reading
