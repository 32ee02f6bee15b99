import SecurityAudits.Lib.Labels

/-!
# The callback of a JSONP response

A client names the function that the script of the response calls. `validJsonpCallback`
(`requestsession.cpp`) lets a name through character by character, with one flag for what may come
next. `checkCallback_accepts` says what it lets through: identifiers with dots between them.
-/

namespace SecurityAudits.Pushpin.JsonpCallback
set_option autoImplicit false
open SecurityAudits.Labels

/-- `A-Z`, `a-z`, `_` and `$` -/
def IsStart (c : UInt8) : Prop := (65 ≤ c ∧ c ≤ 90) ∨ (97 ≤ c ∧ c ≤ 122) ∨ c = 95 ∨ c = 36

/-- The same, and `0-9` -/
def IsPart (c : UInt8) : Prop :=
  (65 ≤ c ∧ c ≤ 90) ∨ (97 ≤ c ∧ c ≤ 122) ∨ (48 ≤ c ∧ c ≤ 57) ∨ c = 95 ∨ c = 36

instance : DecidablePred IsStart := fun c =>
  inferInstanceAs (Decidable ((65 ≤ c ∧ c ≤ 90) ∨ (97 ≤ c ∧ c ≤ 122) ∨ c = 95 ∨ c = 36))

instance : DecidablePred IsPart := fun c =>
  inferInstanceAs (Decidable
    ((65 ≤ c ∧ c ≤ 90) ∨ (97 ≤ c ∧ c ≤ 122) ∨ (48 ≤ c ∧ c ≤ 57) ∨ c = 95 ∨ c = 36))

/-- `'.'` -/
def dot : UInt8 := 46

/-- An iteration: `expectStart` after it, or none where the function returns false. -/
def step (expectStart : Bool) (c : UInt8) : Option Bool :=
  if expectStart then if ¬ IsStart c then none else some false
  else if c = dot then some true
  else if ¬ IsPart c then none
  else some false

def validJsonpCallback (callback : List UInt8) : Bool :=
  if callback.isEmpty then false
  else
    match callback.foldlM step true with
    | none => false
    | some expectStart => !expectStart

/-- The error message of the request, if the callback is rejected. -/
def checkCallback (callback : List UInt8) : Option String :=
  if ¬ validJsonpCallback callback then some "Invalid callback parameter." else none

/-- How the script of a response begins: `"/**/" + jsonpCallback + "("` -/
def jsonpStart (callback : List UInt8) : List UInt8 := [47, 42, 42, 47] ++ callback ++ [40]

/-! ## Identifiers -/

def Identifier : List UInt8 → Prop
  | [] => False
  | c :: rest => IsStart c ∧ ∀ d ∈ rest, IsPart d

variable {c : UInt8} {callback first : List UInt8} {rest : List (List UInt8)}

theorem dot_not_start : ¬ IsStart dot := by decide

theorem IsStart.part (start : IsStart c) : IsPart c := by
  rcases start with upper | lower | other
  · exact .inl upper
  · exact .inr (.inl lower)
  · exact .inr (.inr (.inr other))

theorem Identifier.part (identifier : Identifier first) : ∀ c ∈ first, IsPart c := by
  cases first with
  | nil => exact identifier.elim
  | cons c rest =>
    intro d mem
    rcases List.mem_cons.1 mem with rfl | later
    · exact identifier.1.part
    · exact identifier.2 d later

/-! ## The scan -/

/-- Where an identifier is to begin, the scan goes through when all parts are identifiers, and within
one, when the first part goes on with its characters. -/
theorem scan_iff (cs : List UInt8) :
    (cs.foldlM step true = some false ↔ ∀ part ∈ cs.splitOn dot, Identifier part) ∧
      ∀ first rest, cs.splitOn dot = first :: rest → (cs.foldlM step false = some false ↔
        (∀ c ∈ first, IsPart c) ∧ ∀ part ∈ rest, Identifier part) := by
  induction cs with
  | nil =>
    refine ⟨iff_of_false (fun same => ?_) fun all => ?_, ?_⟩
    · cases same
    · exact all [] List.mem_cons_self
    · rintro first rest split
      cases split
      exact iff_of_true rfl ⟨fun _ mem => absurd mem List.not_mem_nil,
        fun _ mem => absurd mem List.not_mem_nil⟩
  | cons c cs ih =>
    obtain ⟨first, rest, split⟩ := List.exists_cons_of_ne_nil (List.splitOn_ne_nil dot cs)
    obtain ⟨fresh, within⟩ := ih
    by_cases isDot : c = dot
    · subst isDot
      rw [splitOn_cons_dot]
      constructor
      · refine iff_of_false (fun same => ?_) fun all => all [] List.mem_cons_self
        rw [List.foldlM_cons, step, if_pos rfl, if_pos dot_not_start] at same
        cases same
      · rintro first' rest' split'
        obtain ⟨rfl, rfl⟩ := List.cons.inj split'
        rw [List.foldlM_cons, step, if_neg Bool.false_ne_true, if_pos rfl]
        refine fresh.trans ⟨fun all => ⟨fun _ mem => absurd mem List.not_mem_nil, all⟩, And.right⟩
    · rw [splitOn_cons_other isDot split]
      have later := within first rest split
      constructor
      · rw [List.foldlM_cons, step, if_pos rfl, List.forall_mem_cons]
        by_cases start : IsStart c
        · rw [if_neg (not_not_intro start)]
          exact later.trans ⟨fun ⟨parts, all⟩ => ⟨⟨start, parts⟩, all⟩,
            fun ⟨identifier, all⟩ => ⟨identifier.2, all⟩⟩
        · rw [if_pos start]
          exact iff_of_false (fun same => by cases same) fun all => start all.1.1
      · rintro first' rest' split'
        obtain ⟨rfl, rfl⟩ := List.cons.inj split'
        rw [List.foldlM_cons, step, if_neg Bool.false_ne_true, if_neg isDot, List.forall_mem_cons]
        by_cases part : IsPart c
        · rw [if_neg (not_not_intro part)]
          exact later.trans ⟨fun ⟨parts, all⟩ => ⟨⟨part, parts⟩, all⟩,
            fun ⟨⟨_, parts⟩, all⟩ => ⟨parts, all⟩⟩
        · rw [if_pos part]
          exact iff_of_false (fun same => by cases same) fun all => part all.1.1

theorem validJsonpCallback_iff :
    validJsonpCallback callback = true ↔ ∀ part ∈ callback.splitOn dot, Identifier part := by
  rw [← (scan_iff callback).1, validJsonpCallback]
  cases callback with
  | nil => exact iff_of_false Bool.false_ne_true fun same => by cases same
  | cons c cs =>
    rw [List.isEmpty_cons, if_neg Bool.false_ne_true]
    cases (c :: cs).foldlM step true with
    | none => exact iff_of_false Bool.false_ne_true fun same => by cases same
    | some expectStart => cases expectStart <;> decide

/-- A character that is no dot is in one of the parts. -/
theorem mem_part (mem : c ∈ callback) (other : c ≠ dot) : ∃ part ∈ callback.splitOn dot, c ∈ part := by
  induction callback with
  | nil => exact absurd mem List.not_mem_nil
  | cons d cs ih =>
    by_cases isDot : d = dot
    · subst isDot
      obtain ⟨part, listed, mem⟩ := ih ((List.mem_cons.1 mem).resolve_left other)
      rw [splitOn_cons_dot]
      exact ⟨part, List.mem_cons_of_mem _ listed, mem⟩
    · obtain ⟨first, rest, split⟩ := List.exists_cons_of_ne_nil (List.splitOn_ne_nil dot cs)
      rw [splitOn_cons_other isDot split]
      rcases List.mem_cons.1 mem with rfl | later
      · exact ⟨c :: first, List.mem_cons_self, List.mem_cons_self⟩
      · obtain ⟨part, listed, mem⟩ := ih later
        rw [split] at listed
        rcases List.mem_cons.1 listed with rfl | listed
        · exact ⟨d :: part, List.mem_cons_self, List.mem_cons_of_mem d mem⟩
        · exact ⟨part, List.mem_cons_of_mem _ listed, mem⟩

/-- Identifiers with dots between them have no other characters. -/
theorem chars_of_parts (parts : ∀ part ∈ callback.splitOn dot, Identifier part) (mem : c ∈ callback) :
    IsPart c ∨ c = dot := by
  by_cases isDot : c = dot
  · exact .inr isDot
  · obtain ⟨part, listed, mem⟩ := mem_part mem isDot
    exact .inl ((parts part listed).part c mem)

theorem checkCallback_iff :
    checkCallback callback = none ↔ ∀ part ∈ callback.splitOn dot, Identifier part := by
  rw [← validJsonpCallback_iff, checkCallback]
  by_cases valid : validJsonpCallback callback = true
  · rw [if_neg (not_not_intro valid)]
    exact iff_of_true rfl valid
  · rw [if_pos valid]
    exact iff_of_false (fun same => by cases same) valid

/-- A call of another function, and a comment -/
example : checkCallback [97, 40, 41, 47, 47] = some "Invalid callback parameter." := by decide

end SecurityAudits.Pushpin.JsonpCallback
