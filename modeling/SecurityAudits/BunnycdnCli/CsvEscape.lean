import SecurityAudits.Lib.Csv
import SecurityAudits.Lib.Escape

/-!
# Values in CSV output

`csvEscape` (`packages/database-shell/src/format.ts`) puts a value in quotes when it has a symbol
with a meaning in it, and else leaves it as it is. A string of JavaScript is the list of its code
units, of any kind.

The two ways of writing a value are the two kinds of fields of `Lib.Csv`, so a record of escaped
values has one reading (`csvEscape_round_trip`).
-/

namespace SecurityAudits.BunnycdnCli.CsvEscape
set_option autoImplicit false

open Csv (Marks Body Field)

/-- `,`, `"`, `\r` and `\n` -/
def marks : Marks UInt16 := ⟨44, 34, 13, 10, by decide⟩

/-- `csvEscape` -/
def csvEscape (value : List UInt16) : List UInt16 :=
  if 44 ∈ value ∨ 34 ∈ value ∨ 10 ∈ value ∨ 13 ∈ value then
    34 :: (Escape.replace 34 [34, 34] value ++ [34])
  else value

variable {value : List UInt16}

theorem body_replace (value : List UInt16) :
    Body marks (Escape.replace 34 [34, 34] value) value := by
  induction value with
  | nil => exact .nil
  | cons c value ih =>
    by_cases quote : c = 34
    · have here : Escape.replace 34 [34, 34] (c :: value) =
          34 :: 34 :: Escape.replace 34 [34, 34] value := by
        rw [Escape.replace, List.flatMap_cons, if_pos quote]
        rfl
      rw [here, quote]
      exact .doubled ih
    · have here : Escape.replace 34 [34, 34] (c :: value) =
          c :: Escape.replace 34 [34, 34] value := by
        rw [Escape.replace, List.flatMap_cons, if_neg quote]
        rfl
      rw [here]
      exact .symbol quote ih

/-- An escaped value is a field that stands for it. -/
theorem field_csvEscape (value : List UInt16) : Field marks (csvEscape value) value := by
  unfold csvEscape
  by_cases special : 44 ∈ value ∨ 34 ∈ value ∨ 10 ∈ value ∨ 13 ∈ value
  · rw [if_pos special]
    exact .quoted (body_replace value)
  · rw [if_neg special]
    refine .plain fun c mem => ⟨?_, ?_, ?_, ?_⟩
    · rintro rfl
      exact special (.inl mem)
    · rintro rfl
      exact special (.inr (.inl mem))
    · rintro rfl
      exact special (.inr (.inr (.inr mem)))
    · rintro rfl
      exact special (.inr (.inr (.inl mem)))

/-- **The round trip.** Values that are escaped and joined with commas are read as one record, of
these values, and in no other way. -/
theorem csvEscape_round_trip (first : List UInt16) (others : List (List UInt16))
    (records : List (List (List UInt16))) :
    Csv.File marks (List.intercalate [44] ((first :: others).map csvEscape)) records ↔
      records = [first :: others] :=
  Csv.file_join_iff field_csvEscape (List.cons_ne_nil first others)

end SecurityAudits.BunnycdnCli.CsvEscape
