import Mathlib.Data.List.Basic

/-!
# Framing

A code writes each item as a string of symbols, and a message is the codes of its items, one
after the other with nothing between them. `Reads code view` says that a reader who is past the
items before knows from the stream what `view` shows of the next item, and where its code ends.

The rules put such codes together: a field of fixed width (`Reads.fixed`), a string behind its
length (`Reads.counted`), a field whose form depends on the fields before it (`Reads.seq`), and a
message (`Reads.flatMap`).
-/

namespace SecurityAudits.Framing
set_option autoImplicit false

variable {α β γ δ : Type} {code code' : α → List β} {view : α → γ} {view' : α → δ}

/-- The stream determines the view of the item at its front, and the rest of the stream. -/
def Reads (code : α → List β) (view : α → γ) : Prop :=
  ∀ a b rest rest', code a ++ rest = code b ++ rest' → view a = view b ∧ rest = rest'

/-- A field of `width` symbols. -/
theorem Reads.fixed (width : Nat) (length : ∀ a, (code a).length = width)
    (shows : ∀ a b, code a = code b → view a = view b) : Reads code view := by
  intro a b rest rest' same
  obtain ⟨codes, rests⟩ := List.append_inj same ((length a).trans (length b).symm)
  exact ⟨shows a b codes, rests⟩

/-- A string behind its length, when the code of the length determines it. -/
theorem Reads.counted {header : α → List β} {body : α → List β}
    (counts : Reads header fun a => (body a).length) :
    Reads (fun a => header a ++ body a) body := by
  intro a b rest rest' same
  rw [List.append_assoc, List.append_assoc] at same
  obtain ⟨length, same⟩ := counts a b _ _ same
  exact List.append_inj same length

/-- Two fields, the second of which is read with the view of the first known. -/
theorem Reads.seq (first : Reads code view)
    (second : ∀ a b rest rest', view a = view b → code' a ++ rest = code' b ++ rest' →
      view' a = view' b ∧ rest = rest') :
    Reads (fun a => code a ++ code' a) fun a => (view a, view' a) := by
  intro a b rest rest' same
  rw [List.append_assoc, List.append_assoc] at same
  obtain ⟨views, same⟩ := first a b _ _ same
  obtain ⟨views', rests⟩ := second a b rest rest' views same
  exact ⟨Prod.ext views views', rests⟩

/-- The rule of messages: the stream determines the views of all items, in order. -/
theorem Reads.flatMap (reads : Reads code view) (nonempty : ∀ a, code a ≠ []) {as bs : List α}
    (same : as.flatMap code = bs.flatMap code) : as.map view = bs.map view := by
  induction as generalizing bs with
  | nil =>
    cases bs with
    | nil => rfl
    | cons b bs =>
      rw [List.flatMap_nil, List.flatMap_cons] at same
      exact absurd (List.append_eq_nil_iff.1 same.symm).1 (nonempty b)
  | cons a as ih =>
    cases bs with
    | nil =>
      rw [List.flatMap_nil, List.flatMap_cons] at same
      exact absurd (List.append_eq_nil_iff.1 same).1 (nonempty a)
    | cons b bs =>
      rw [List.flatMap_cons, List.flatMap_cons] at same
      obtain ⟨views, rest⟩ := reads a b _ _ same
      rw [List.map_cons, List.map_cons, views, ih rest]

end SecurityAudits.Framing
