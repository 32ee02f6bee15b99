import Mathlib.Data.List.Basic

/-!
# Comma-separated values

The grammar of RFC 4180 over any alphabet with a comma, a quote and two line-end symbols: a field is
plain, without any of these, or is in quotes, with its quotes doubled. What derives a text and what
it stands for are one relation.

A field, and a record, can be told from what follows it (`Field.prefix_unique`,
`Record.prefix_unique`). So a text that is one record is nothing else (`Record.file_unique`), and any
way of writing fields gives back the fields it has written (`file_join_iff`).
-/

namespace SecurityAudits.Csv
set_option autoImplicit false

/-- The symbols with a meaning. -/
structure Marks (α : Type) where
  comma : α
  quote : α
  cr : α
  lf : α
  distinct : quote ≠ comma ∧ quote ≠ cr ∧ quote ≠ lf ∧ comma ≠ cr ∧ comma ≠ lf

variable {α : Type} {m : Marks α}

/-- `TEXTDATA` -/
def Marks.Plain (m : Marks α) (x : α) : Prop :=
  x ≠ m.comma ∧ x ≠ m.quote ∧ x ≠ m.cr ∧ x ≠ m.lf

/-- The text between the quotes of a field. -/
inductive Body (m : Marks α) : List α → List α → Prop where
  | nil : Body m [] []
  | symbol {x : α} {s v : List α} (other : x ≠ m.quote) (rest : Body m s v) :
      Body m (x :: s) (x :: v)
  | doubled {s v : List α} (rest : Body m s v) : Body m (m.quote :: m.quote :: s) (m.quote :: v)

/-- A field, and the string that it stands for. -/
inductive Field (m : Marks α) : List α → List α → Prop where
  | plain {s : List α} (text : ∀ x ∈ s, m.Plain x) : Field m s s
  | quoted {s v : List α} (body : Body m s v) : Field m (m.quote :: (s ++ [m.quote])) v

/-- Fields with commas between them. -/
inductive Record (m : Marks α) : List α → List (List α) → Prop where
  | last {s v : List α} (field : Field m s v) : Record m s [v]
  | cons {s v r : List α} {vs : List (List α)} (field : Field m s v) (rest : Record m r vs) :
      Record m (s ++ m.comma :: r) (v :: vs)

def Marks.LineEnd (m : Marks α) (e : List α) : Prop := e = [m.cr] ∨ e = [m.lf] ∨ e = [m.cr, m.lf]

/-- Records with line ends between them, and perhaps one behind the last. -/
inductive File (m : Marks α) : List α → List (List (List α)) → Prop where
  | last {s : List α} {vs : List (List α)} (record : Record m s vs) : File m s [vs]
  | ended {s e : List α} {vs : List (List α)} (record : Record m s vs) (lineEnd : m.LineEnd e) :
      File m (s ++ e) [vs]
  | cons {s e r : List α} {vs : List (List α)} {rs : List (List (List α))} (record : Record m s vs)
      (lineEnd : m.LineEnd e) (rest : File m r rs) : File m (s ++ (e ++ r)) (vs :: rs)

/-! ## What can follow -/

/-- Nothing follows, or a symbol that does not belong to a field. -/
def Marks.AfterField (m : Marks α) (r : List α) : Prop :=
  ∀ x ∈ r.head?, x = m.comma ∨ x = m.cr ∨ x = m.lf

/-- Nothing follows, or a line end. -/
def Marks.AfterRecord (m : Marks α) (r : List α) : Prop := ∀ x ∈ r.head?, x = m.cr ∨ x = m.lf

variable {s s' r r' v v' e : List α} {vs vs' : List (List α)} {rs : List (List (List α))}

theorem Marks.AfterRecord.afterField (after : m.AfterRecord r) : m.AfterField r :=
  fun x mem => .inr (after x mem)

theorem afterField_comma : m.AfterField (m.comma :: r) := by
  intro x mem
  exact .inl (Option.some.inj mem).symm

theorem Marks.LineEnd.afterRecord (lineEnd : m.LineEnd e) : m.AfterRecord (e ++ r) := by
  rcases lineEnd with rfl | rfl | rfl
  · exact fun x mem => .inl (Option.some.inj mem).symm
  · exact fun x mem => .inr (Option.some.inj mem).symm
  · exact fun x mem => .inl (Option.some.inj mem).symm

theorem Marks.LineEnd.ne_nil (lineEnd : m.LineEnd e) : e ≠ [] := by
  rcases lineEnd with rfl | rfl | rfl
  · exact List.cons_ne_nil _ _
  · exact List.cons_ne_nil _ _
  · exact List.cons_ne_nil _ _

theorem not_afterField_quote : ¬ m.AfterField (m.quote :: r) := by
  intro after
  obtain ⟨comma, cr, lf, -, -⟩ := m.distinct
  rcases after m.quote rfl with same | same | same
  · exact comma same
  · exact cr same
  · exact lf same

theorem not_afterRecord_comma : ¬ m.AfterRecord (m.comma :: r) := by
  intro after
  obtain ⟨-, -, -, cr, lf⟩ := m.distinct
  rcases after m.comma rfl with same | same
  · exact cr same
  · exact lf same

theorem Marks.Plain.not_afterField {x : α} (plain : m.Plain x) : ¬ m.AfterField (x :: r) := by
  intro after
  rcases after x rfl with same | same | same
  · exact plain.1 same
  · exact plain.2.2.1 same
  · exact plain.2.2.2 same

/-! ## One reading -/

/-- The quote that ends a body is the first one that is not doubled. -/
theorem Body.prefix_unique (body : Body m s v) (body' : Body m s' v')
    (same : s ++ m.quote :: r = s' ++ m.quote :: r') (after : m.AfterField r)
    (after' : m.AfterField r') : s = s' ∧ v = v' ∧ r = r' := by
  induction body generalizing s' v' with
  | nil =>
    cases body' with
    | nil => exact ⟨rfl, rfl, (List.cons.inj same).2⟩
    | symbol other => exact absurd (List.cons.inj same).1.symm other
    | doubled =>
      obtain ⟨-, rest⟩ := List.cons.inj same
      rw [rest] at after
      exact absurd after not_afterField_quote
  | symbol other rest ih =>
    cases body' with
    | nil => exact absurd (List.cons.inj same).1 other
    | symbol other' rest' =>
      obtain ⟨rfl, later⟩ := List.cons.inj same
      obtain ⟨rfl, rfl, behind⟩ := ih rest' later
      exact ⟨rfl, rfl, behind⟩
    | doubled => exact absurd (List.cons.inj same).1 other
  | doubled rest ih =>
    cases body' with
    | nil =>
      obtain ⟨-, rest'⟩ := List.cons.inj same
      rw [← rest'] at after'
      exact absurd after' not_afterField_quote
    | symbol other => exact absurd (List.cons.inj same).1.symm other
    | doubled rest' =>
      obtain ⟨-, later⟩ := List.cons.inj (List.cons.inj same).2
      obtain ⟨rfl, rfl, behind⟩ := ih rest' later
      exact ⟨rfl, rfl, behind⟩

/-- A plain field ends at the first symbol with a meaning. -/
theorem plain_prefix_unique (text : ∀ x ∈ s, m.Plain x) (text' : ∀ x ∈ s', m.Plain x)
    (same : s ++ r = s' ++ r') (after : m.AfterField r) (after' : m.AfterField r') :
    s = s' ∧ r = r' := by
  induction s generalizing s' with
  | nil =>
    cases s' with
    | nil => exact ⟨rfl, same⟩
    | cons x s' =>
      have begins : r = x :: (s' ++ r') := same
      rw [begins] at after
      exact absurd after (text' x List.mem_cons_self).not_afterField
  | cons x s ih =>
    cases s' with
    | nil =>
      have begins : x :: (s ++ r) = r' := same
      rw [← begins] at after'
      exact absurd after' (text x List.mem_cons_self).not_afterField
    | cons y s' =>
      obtain ⟨rfl, later⟩ := List.cons.inj same
      obtain ⟨rfl, behind⟩ := ih (fun z mem => text z (List.mem_cons_of_mem _ mem))
        (fun z mem => text' z (List.mem_cons_of_mem _ mem)) later
      exact ⟨rfl, behind⟩

/-- A field in quotes is no plain one, whatever follows. -/
theorem not_plain_quoted (text : ∀ x ∈ s, m.Plain x) (after : m.AfterField r) :
    s ++ r ≠ m.quote :: r' := by
  intro same
  cases s with
  | nil =>
    have begins : r = m.quote :: r' := same
    rw [begins] at after
    exact not_afterField_quote after
  | cons x s => exact (text x List.mem_cons_self).2.1 (List.cons.inj same).1

theorem Field.prefix_unique (field : Field m s v) (field' : Field m s' v')
    (same : s ++ r = s' ++ r') (after : m.AfterField r) (after' : m.AfterField r') :
    s = s' ∧ v = v' ∧ r = r' := by
  cases field with
  | plain text =>
    cases field' with
    | plain text' =>
      obtain ⟨rfl, behind⟩ := plain_prefix_unique text text' same after after'
      exact ⟨rfl, rfl, behind⟩
    | quoted body' => exact absurd same (not_plain_quoted text after)
  | quoted body =>
    cases field' with
    | plain text' => exact absurd same.symm (not_plain_quoted text' after')
    | quoted body' =>
      rw [List.cons_append, List.cons_append, List.append_assoc, List.append_assoc] at same
      obtain ⟨-, rest⟩ := List.cons.inj same
      obtain ⟨rfl, rfl, behind⟩ := body.prefix_unique body' rest after after'
      exact ⟨rfl, rfl, behind⟩

theorem Record.prefix_unique (record : Record m s vs) (record' : Record m s' vs')
    (same : s ++ r = s' ++ r') (after : m.AfterRecord r) (after' : m.AfterRecord r') :
    s = s' ∧ vs = vs' ∧ r = r' := by
  induction record generalizing s' vs' with
  | last field =>
    cases record' with
    | last field' =>
      obtain ⟨rfl, rfl, behind⟩ :=
        field.prefix_unique field' same after.afterField after'.afterField
      exact ⟨rfl, rfl, behind⟩
    | cons field' rest' =>
      rw [List.append_assoc] at same
      obtain ⟨-, -, behind⟩ := field.prefix_unique field' same after.afterField afterField_comma
      rw [behind] at after
      exact absurd after not_afterRecord_comma
  | cons field rest ih =>
    cases record' with
    | last field' =>
      rw [List.append_assoc] at same
      obtain ⟨-, -, behind⟩ := field.prefix_unique field' same afterField_comma after'.afterField
      rw [← behind] at after'
      exact absurd after' not_afterRecord_comma
    | cons field' rest' =>
      rw [List.append_assoc, List.append_assoc] at same
      obtain ⟨rfl, rfl, behind⟩ := field.prefix_unique field' same afterField_comma afterField_comma
      obtain ⟨rfl, rfl, later⟩ := ih rest' (List.cons.inj behind).2
      exact ⟨rfl, rfl, later⟩

/-- A text that is one record is no other file. -/
theorem Record.file_unique (record : Record m s vs) (file : File m s rs) : rs = [vs] := by
  have nothing : m.AfterRecord [] := fun x mem => by cases mem
  cases file with
  | last record' =>
    obtain ⟨-, rfl, -⟩ := record'.prefix_unique (r := []) record rfl nothing nothing
    rfl
  | ended record' lineEnd =>
    have ended := lineEnd.afterRecord (r := [])
    rw [List.append_nil] at ended
    obtain ⟨-, -, none'⟩ := record.prefix_unique record' (List.append_nil _) nothing ended
    exact absurd none'.symm lineEnd.ne_nil
  | cons record' lineEnd rest =>
    obtain ⟨-, -, none'⟩ :=
      record.prefix_unique record' (List.append_nil _) nothing lineEnd.afterRecord
    exact absurd (List.append_eq_nil_iff.1 none'.symm).1 lineEnd.ne_nil

/-! ## Writing -/

/-- Fields with commas between them. -/
def join (m : Marks α) (fields : List (List α)) : List α := List.intercalate [m.comma] fields

theorem record_join {write : List α → List α} (writes : ∀ v, Field m (write v) v)
    {fields : List (List α)} (some' : fields ≠ []) :
    Record m (join m (fields.map write)) fields := by
  induction fields with
  | nil => exact absurd rfl some'
  | cons v fields ih =>
    cases fields with
    | nil =>
      have single : join m ([v].map write) = write v := List.append_nil _
      rw [single]
      exact .last (writes v)
    | cons w fields =>
      exact .cons (writes v) (ih (List.cons_ne_nil _ _))

/-- The round trip, whatever way of writing fields. -/
theorem file_join_iff {write : List α → List α} (writes : ∀ v, Field m (write v) v)
    {fields : List (List α)} (some' : fields ≠ []) :
    File m (join m (fields.map write)) rs ↔ rs = [fields] := by
  have record := record_join writes some'
  exact ⟨record.file_unique, fun same => same ▸ .last record⟩

end SecurityAudits.Csv
