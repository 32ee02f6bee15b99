import Mathlib.Data.List.Basic

/-!
# Header values in one buffer

`HttpHeaders::values_set` of `src/wiggle_abi/headers.rs` gets all values of a header in one buffer
from the guest, separated by NULs, and takes the buffer with or without a NUL behind the last
value. Which of the two it has is decided by its last byte.

The type of header values and their conversions are those of the `http` crate, and parameters here
(`Http`). A buffer of values is read back exactly when there is a value in it
(`readsBack_iff`): the buffer of no values is empty, does not end in a NUL, and is read as one empty
value.
-/

namespace SecurityAudits.Viceroy.HeaderValues
set_option autoImplicit false

variable {ε V : Type}

/-- The type `HeaderValue`: `from_bytes` accepts the bytes of a value, as that value. -/
structure Http (ε V : Type) where
  fromBytes : List UInt8 → Except ε V
  asBytes : V → List UInt8
  fromBytes_asBytes : ∀ v, fromBytes (asBytes v) = .ok v

/-- The segments of the buffer that are values. -/
def segments (valuesBytes : List UInt8) : List (List UInt8) :=
  let iter := valuesBytes.splitOn 0
  -- only discard the trailing empty segment when the input is NUL-terminated
  if [0].isSuffixOf valuesBytes then iter.dropLast else iter

/-- The values that `values_set` reads from the buffer, or the error of the first segment that is
not a value. -/
def readValues (http : Http ε V) (valuesBytes : List UInt8) : Except ε (List V) :=
  (segments valuesBytes).mapM http.fromBytes

/-- The buffer of values with a NUL behind each. -/
def encode (http : Http ε V) (values : List V) : List UInt8 :=
  values.flatMap fun v => http.asBytes v ++ [0]

/-- The buffer of `values` is read as these values, and so is the buffer without its final NUL
when the last value is not empty. -/
def ReadsBack (http : Http ε V) (values : List V) : Prop :=
  readValues http (encode http values) = .ok values ∧
    ∀ last ∈ values.getLast?, http.asBytes last ≠ [] →
      readValues http (encode http values).dropLast = .ok values

variable {http : Http ε V} {values : List V} {v : V} {rest : List UInt8}

theorem encode_append (values later : List V) :
    encode http (values ++ later) = encode http values ++ encode http later :=
  List.flatMap_append

theorem encode_snoc (values : List V) (v : V) :
    encode http (values ++ [v]) = encode http values ++ http.asBytes v ++ [0] := by
  rw [encode_append, List.append_assoc]
  exact congrArg _ (List.append_nil _)

/-- Each value in front is one segment. -/
theorem splitOn_encode (noNul : ∀ v ∈ values, 0 ∉ http.asBytes v) (rest : List UInt8) :
    (encode http values ++ rest).splitOn 0 = values.map http.asBytes ++ rest.splitOn 0 := by
  induction values with
  | nil => rfl
  | cons v values ih =>
    have split : encode http (v :: values) ++ rest =
        http.asBytes v ++ 0 :: (encode http values ++ rest) := by
      rw [encode, List.flatMap_cons, List.append_assoc, List.append_assoc]
      rfl
    rw [split, List.splitOn_append_cons_self_of_not_mem (noNul v List.mem_cons_self),
      ih fun w mem => noNul w (List.mem_cons_of_mem v mem)]
    rfl

theorem mapM_asBytes (values : List V) :
    (values.map http.asBytes).mapM http.fromBytes = .ok values := by
  induction values with
  | nil => rfl
  | cons v values ih =>
    rw [List.map_cons, List.mapM_cons, http.fromBytes_asBytes, ih]
    rfl

theorem readValues_terminated (noNul : ∀ v ∈ values, 0 ∉ http.asBytes v) (some : values ≠ []) :
    readValues http (encode http values) = .ok values := by
  have ends : [0].isSuffixOf (encode http values) = true := by
    obtain ⟨init, last, rfl⟩ := values.eq_nil_or_concat'.resolve_left some
    rw [List.isSuffixOf_iff_suffix, encode_snoc]
    exact List.suffix_append _ _
  have split := splitOn_encode noNul []
  rw [List.append_nil, List.splitOn_nil] at split
  rw [readValues, segments, if_pos ends, split, List.dropLast_concat]
  exact mapM_asBytes values

/-- Without a NUL at its end, the buffer ends in the last byte of the last value. -/
theorem readValues_unterminated (noNul : ∀ w ∈ values, 0 ∉ http.asBytes w)
    (noNul' : 0 ∉ http.asBytes v) (some : http.asBytes v ≠ []) :
    readValues http (encode http values ++ http.asBytes v) = .ok (values ++ [v]) := by
  have ends : ¬ [0].isSuffixOf (encode http values ++ http.asBytes v) = true := by
    obtain ⟨init, c, last⟩ := (http.asBytes v).eq_nil_or_concat'.resolve_left some
    rw [List.isSuffixOf_iff_suffix, last, ← List.append_assoc]
    rintro ⟨front, same⟩
    obtain ⟨-, nul⟩ := List.append_inj' same rfl
    have zero : 0 = c := (List.cons.inj nul).1
    refine noNul' ?_
    rw [last, zero]
    exact List.mem_append_right init List.mem_cons_self
  rw [readValues, segments, if_neg ends, splitOn_encode noNul, List.splitOn_eq_singleton noNul']
  have all : values.map http.asBytes ++ [http.asBytes v] = (values ++ [v]).map http.asBytes := by
    rw [List.map_append, List.map_singleton]
  rw [all]
  exact mapM_asBytes (values ++ [v])

/-- The empty buffer is one empty segment, so it is never read as no values. -/
theorem readValues_nil : readValues http (encode http []) ≠ .ok [] := by
  show (http.fromBytes [] >>= fun v => pure [v]) ≠ .ok []
  cases http.fromBytes [] with
  | error e => nofun
  | ok v => nofun

/-- **When the values are read back.** A buffer of values without NULs is read as these values,
with its final NUL and without it, exactly when there are any. -/
theorem readsBack_iff (noNul : ∀ v ∈ values, 0 ∉ http.asBytes v) :
    ReadsBack http values ↔ values ≠ [] := by
  constructor
  · rintro ⟨reads, -⟩ rfl
    exact readValues_nil reads
  · intro some
    refine ⟨readValues_terminated noNul some, fun last isLast nonempty => ?_⟩
    obtain ⟨init, v, rfl⟩ := values.eq_nil_or_concat'.resolve_left some
    rw [List.getLast?_concat, Option.mem_some_iff] at isLast
    subst isLast
    obtain ⟨noNulInit, noNulLast⟩ := List.forall_mem_append.1 noNul
    rw [encode_snoc, List.dropLast_concat]
    exact readValues_unterminated noNulInit (noNulLast v List.mem_cons_self) nonempty

/-- Header values as the bytes that `HeaderValue::from_bytes` lets through: tabs, and what is not
a control character. -/
def visible : Http Unit { bytes : List UInt8 // bytes.all fun c => c = 9 ∨ 32 ≤ c ∧ c ≠ 127 } where
  fromBytes bytes :=
    if valid : bytes.all fun c => c = 9 ∨ 32 ≤ c ∧ c ≠ 127 then .ok ⟨bytes, valid⟩ else .error ()
  asBytes v := v.1
  fromBytes_asBytes v := dif_pos v.2

/-- The values `a`, the empty value and `bc` are read back. -/
theorem readsBack_values : ReadsBack visible [⟨[97], rfl⟩, ⟨[], rfl⟩, ⟨[98, 99], rfl⟩] :=
  (readsBack_iff (by decide)).2 (List.cons_ne_nil _ _)

/-- No values are read as one empty value. -/
theorem not_readsBack_nil :
    readValues visible (encode visible []) = .ok [⟨[], rfl⟩] ∧ ¬ ReadsBack visible [] :=
  ⟨rfl, fun reads => readValues_nil reads.1⟩

end SecurityAudits.Viceroy.HeaderValues
