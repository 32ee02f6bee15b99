import SecurityAudits.Lib.Checked

/-!
# The scan for META directives

`metafix` (`modules/filters/mod_proxy_html.c`) looks for META directives in a part of a page, which
is not terminated: a regular expression finds the next one, and pointers go over the bytes of the
match for the name of the header and for its content. Pointers are offsets from `buf`.

A dereference at or behind `match_end` is a fault, and so are a pointer that is more than one behind
it, a copy of a negative length, and a loop that goes on for too long. `metafix` has none of these,
whatever is in the buffer and wherever the expression matches (`metafix_total`).
-/

open SecurityAudits.Checked SecurityAudits.Checked.Outcome

namespace SecurityAudits.ApacheHttpd.Metafix
set_option autoImplicit false

/-- `pmatch[0]` and the end of `pmatch[1]`, from where the search began. -/
structure Match where
  so : Nat
  eo : Nat
  eo1 : Nat
  deriving DecidableEq, Repr

/-- The functions of the libraries, and the lines of the loop that are not part of the patch. -/
structure Functions where
  /-- `ap_regexec_len(seek_meta, ..)`, when it matches -/
  regexec : List UInt8 → Option Match
  /-- `apr_strmatch(seek_content, ..)`, when it is not null -/
  strmatch : List UInt8 → Option Nat
  /-- `ap_cstr_casecmpn` -/
  casecmpn : List UInt8 → List UInt8 → Nat → Int
  isalpha : UInt8 → Bool
  isalnum : UInt8 → Bool
  isspace : UInt8 → Bool
  /-- The end of the loop's body: `offs` after it. -/
  advance : Nat → Match → List UInt8 → Option (List UInt8) → Nat

/-- A string literal -/
def literal (s : String) : List UInt8 := s.toList.map fun c => UInt8.ofNat c.toNat

/-! ## Pointers -/

/-- A pointer, at most one behind `match_end` -/
def place (matchEnd p : Nat) : Outcome Nat := if p ≤ matchEnd + 1 then .done p else .fault

/-- `*p` -/
def deref (buf : List UInt8) (matchEnd p : Nat) : Outcome UInt8 :=
  if p < matchEnd then buf[p]?.elim .fault .done else .fault

/-- `apr_pstrmemdup(r->pool, p, q-p)` -/
def pstrmemdup (buf : List UInt8) (matchEnd p q : Nat) : Outcome (List UInt8) :=
  if p ≤ q ∧ q ≤ matchEnd then .done ((buf.drop p).take (q - p)) else .fault

/-- `while (q < match_end && pass(*q)) ++q;` -/
def scan (buf : List UInt8) (matchEnd : Nat) (pass : UInt8 → Bool) (q : Nat) : Outcome Nat :=
  loop (fun q =>
    if q < matchEnd then do
      let c ← deref buf matchEnd q
      if pass c then do
        let q ← place matchEnd (q + 1)
        return .inl q
      else return .inr q
    else return .inr q) (matchEnd + 2) q

/-- `while (++p < match_end && pass(*p));` -/
def scanNext (buf : List UInt8) (matchEnd : Nat) (pass : UInt8 → Bool) (p : Nat) : Outcome Nat :=
  loop (fun p => do
    let p ← place matchEnd (p + 1)
    if p < matchEnd then do
      let c ← deref buf matchEnd p
      if pass c then return .inl p else return .inr p
    else return .inr p) (matchEnd + 2) p

/-! ## The function -/

/-- The value at `p`: quoted, or up to a space or the end of the directive. -/
def contentAt (f : Functions) (buf : List UInt8) (matchEnd p : Nat) :
    Outcome (Option (List UInt8)) := do
  let c ← deref buf matchEnd p
  if c = 39 ∨ c = 34 then do
    let delim ← deref buf matchEnd p
    let p ← place matchEnd (p + 1)
    let q ← scan buf matchEnd (fun c => c != delim) p
    if q ≥ matchEnd then return none
    else do
      let c ← deref buf matchEnd q
      if c ≠ delim then return none
      else do
        let content ← pstrmemdup buf matchEnd p q
        return some content
  else do
    let q ← scan buf matchEnd (fun c => !f.isspace c && c != 62) p
    let content ← pstrmemdup buf matchEnd p q
    return some content

/-- `while (p < match_end)`, from the position of `content`. Every path through the body ends with a
`break`. -/
def findContent (f : Functions) (buf : List UInt8) (matchEnd p : Nat) :
    Outcome (Option (List UInt8)) :=
  if p < matchEnd then do
    let p ← place matchEnd (p + 7)
    let p ← scan buf matchEnd f.isspace p
    if p ≥ matchEnd then return none
    else do
      let c ← deref buf matchEnd p
      if c ≠ 61 then return none
      else do
        let p ← scanNext buf matchEnd f.isspace p
        if p ≥ matchEnd then return none else contentAt f buf matchEnd p
  else return none

/-- `if (ap_cstr_casecmpn(header, "Content-", 8))`: the content of a directive with this header. -/
def contentOf (f : Functions) (buf : List UInt8) (offs : Nat) (m : Match) (header : List UInt8) :
    Outcome (Option (List UInt8)) :=
  if f.casecmpn header (literal "Content-") 8 ≠ 0 then
    match f.strmatch ((buf.drop (offs + m.so)).take (m.eo - m.so)) with
    | none => return none
    | some i => findContent f buf (offs + m.eo) (offs + m.so + i)
  else return none

/-- Where the loop is, and what was copied for each directive so far: a header and its content. -/
structure State where
  offs : Nat
  found : List (List UInt8 × Option (List UInt8))

/-- An iteration of the outer loop, or the state that it ends with. -/
def iteration (f : Functions) (buf : List UInt8) (s : State) : Outcome (State ⊕ State) :=
  if s.offs < buf.length then
    match f.regexec (buf.drop s.offs) with
    | none => return .inr s
    | some m => do
      let matchEnd := s.offs + m.eo
      let p ← place matchEnd (s.offs + m.eo1)
      let p ← scanNext buf matchEnd (fun c => !f.isalpha c) p
      if p ≥ matchEnd then return .inl { s with offs := s.offs + m.eo }
      else do
        let q ← scan buf matchEnd (fun c => f.isalnum c || c == 45) p
        let header ← pstrmemdup buf matchEnd p q
        let content ← contentOf f buf s.offs m header
        return .inl ⟨f.advance s.offs m header content, s.found ++ [(header, content)]⟩
  else return .inr s

/-- `metafix`: at most one iteration for each byte. -/
def metafix (f : Functions) (buf : List UInt8) : Outcome State :=
  loop (iteration f buf) (buf.length + 1) ⟨0, []⟩

/-- What is assumed of the functions: a match is not empty and inside what was searched, and its group
inside it; the seven characters that the string search finds are inside its bytes; and the body ends
with the advance that it also makes before its `continue`. -/
structure Functions.Lawful (f : Functions) : Prop where
  nonempty : ∀ bytes m, f.regexec bytes = some m → m.so < m.eo
  inside : ∀ bytes m, f.regexec bytes = some m → m.eo ≤ bytes.length
  group : ∀ bytes m, f.regexec bytes = some m → m.eo1 ≤ m.eo
  strmatch : ∀ bytes i, f.strmatch bytes = some i → i + 7 ≤ bytes.length
  advance : ∀ offs m header content, f.advance offs m header content = offs + m.eo

/-! ## The loops of pointers -/

variable {buf : List UInt8} {matchEnd p q : Nat}

theorem total_place (le : p ≤ matchEnd + 1) : (place matchEnd p).Total fun p' => p' = p :=
  ⟨p, if_pos le, rfl⟩

theorem total_deref (within : matchEnd ≤ buf.length) (below : p < matchEnd) :
    (deref buf matchEnd p).Total fun _ => True := by
  have here : p < buf.length := Nat.lt_of_lt_of_le below within
  exact ⟨buf[p], by rw [deref, if_pos below, List.getElem?_eq_getElem here]; rfl, trivial⟩

theorem total_pstrmemdup (le : p ≤ q) (atEnd : q ≤ matchEnd) :
    (pstrmemdup buf matchEnd p q).Total fun _ => True :=
  ⟨_, if_pos ⟨le, atEnd⟩, trivial⟩

/-- A scan stays before `match_end`. -/
theorem total_scan (within : matchEnd ≤ buf.length) (pass : UInt8 → Bool) (le : q ≤ matchEnd) :
    (scan buf matchEnd pass q).Total fun q' => q ≤ q' ∧ q' ≤ matchEnd := by
  refine total_loop (fun q' => q ≤ q' ∧ q' ≤ matchEnd) (fun q' => matchEnd - q') ?_
    ⟨Nat.le_refl q, le⟩ (by omega)
  rintro q' ⟨from', le'⟩
  split
  case isTrue below =>
    refine (total_deref within below).bind fun c _ => ?_
    split
    · refine (total_place (by omega)).bind fun next same => total_pure ?_
      exact ⟨by omega, by omega⟩
    · exact total_pure ⟨from', le'⟩
  case isFalse => exact total_pure ⟨from', le'⟩

/-- A scan that goes on first comes to `match_end`, or one behind it when it started there. -/
theorem total_scanNext (within : matchEnd ≤ buf.length) (pass : UInt8 → Bool) (le : p ≤ matchEnd) :
    (scanNext buf matchEnd pass p).Total fun _ => True := by
  refine total_loop (fun p' => p' ≤ matchEnd) (fun p' => matchEnd + 1 - p') ?_ le (by omega)
  intro p' le'
  refine (total_place (by omega)).bind fun next same => ?_
  split
  case isTrue below =>
    refine (total_deref within below).bind fun c _ => ?_
    split
    · exact total_pure ⟨by omega, by omega⟩
    · exact total_pure trivial
  case isFalse => exact total_pure trivial

/-! ## The loop over the matches -/

variable {f : Functions}

theorem total_contentAt (within : matchEnd ≤ buf.length) (below : p < matchEnd) :
    (contentAt f buf matchEnd p).Total fun _ => True := by
  refine (total_deref within below).bind fun c _ => ?_
  split
  case isTrue quote =>
    refine (total_deref within below).bind fun delim _ => ?_
    refine (total_place (by omega)).bind fun p' same => ?_
    refine (total_scan within _ (by omega)).bind fun q bounds => ?_
    split
    case isTrue => exact total_pure trivial
    case isFalse inside =>
      refine (total_deref within (Nat.lt_of_not_le inside)).bind fun c _ => ?_
      split
      · exact total_pure trivial
      · exact (total_pstrmemdup bounds.1 bounds.2).bind fun content _ => total_pure trivial
  case isFalse =>
    refine (total_scan within _ (Nat.le_of_lt below)).bind fun q bounds => ?_
    exact (total_pstrmemdup bounds.1 bounds.2).bind fun content _ => total_pure trivial

theorem total_findContent (within : matchEnd ≤ buf.length) (seven : p + 7 ≤ matchEnd) :
    (findContent f buf matchEnd p).Total fun _ => True := by
  rw [findContent]
  split
  case isTrue =>
    refine (total_place (by omega)).bind fun p' same => ?_
    refine (total_scan within _ (by omega)).bind fun p bounds => ?_
    split
    case isTrue => exact total_pure trivial
    case isFalse inside =>
      refine (total_deref within (Nat.lt_of_not_le inside)).bind fun c _ => ?_
      split
      · exact total_pure trivial
      · refine (total_scanNext within _ bounds.2).bind fun p _ => ?_
        split
        case isTrue => exact total_pure trivial
        case isFalse inside => exact total_contentAt within (Nat.lt_of_not_le inside)
  case isFalse => exact total_pure trivial

theorem total_contentOf (lawful : f.Lawful) {offs : Nat} {m : Match}
    (within : offs + m.eo ≤ buf.length) (header : List UInt8) :
    (contentOf f buf offs m header).Total fun _ => True := by
  rw [contentOf]
  split
  case isTrue =>
    cases position : f.strmatch ((buf.drop (offs + m.so)).take (m.eo - m.so)) with
    | none => exact total_pure trivial
    | some i =>
      have seven := lawful.strmatch _ i position
      rw [List.length_take] at seven
      exact total_findContent within (by omega)
  case isFalse => exact total_pure trivial

/-- **An iteration has no fault**, and goes on behind the match if it goes on. -/
theorem total_iteration (lawful : f.Lawful) (s : State) :
    (iteration f buf s).Total
      (Sum.elim (fun t => s.offs < t.offs ∧ s.offs < buf.length) fun _ => True) := by
  rw [iteration]
  split
  case isTrue more =>
    cases found : f.regexec (buf.drop s.offs) with
    | none => exact total_pure trivial
    | some m =>
      have nonempty := lawful.nonempty _ m found
      have group := lawful.group _ m found
      have within : s.offs + m.eo ≤ buf.length := by
        have inside := lawful.inside _ m found
        rw [List.length_drop] at inside
        omega
      refine (total_place (by omega)).bind fun p same => ?_
      refine (total_scanNext within _ (by omega)).bind fun p _ => ?_
      split
      case isTrue => exact total_pure ⟨by show s.offs < s.offs + m.eo; omega, more⟩
      case isFalse below =>
        have header := total_scan within (fun c => f.isalnum c || c == 45)
          (Nat.le_of_not_le below)
        refine header.bind fun q bounds => ?_
        refine (total_pstrmemdup bounds.1 bounds.2).bind fun header _ => ?_
        refine (total_contentOf lawful within header).bind fun content _ => total_pure ⟨?_, more⟩
        show s.offs < f.advance s.offs m header content
        rw [lawful.advance]
        omega
  case isFalse => exact total_pure trivial

/-- **`metafix` stays inside the buffer and ends.** Whatever the buffer is, it has a result, so no
pointer is dereferenced at or behind `match_end`, or more than one behind it, and no copy has a
negative length; and an iteration that the loop goes on from has advanced `offs`. -/
theorem metafix_total (f : Functions) (lawful : f.Lawful) (buf : List UInt8) :
    (∃ s, metafix f buf = .done s) ∧
      ∀ s t, iteration f buf s = .done (.inl t) → s.offs < t.offs := by
  constructor
  · have step : ∀ s, True → (iteration f buf s).Total (Sum.elim
        (fun t => True ∧ buf.length - t.offs < buf.length - s.offs) fun _ => True) := by
      refine fun s _ => (total_iteration lawful s).mono fun r after => ?_
      cases r with
      | inl t => exact ⟨trivial, Nat.sub_lt_sub_left after.2 after.1⟩
      | inr t => exact trivial
    have enough : buf.length - (⟨0, []⟩ : State).offs < buf.length + 1 := Nat.lt_succ_self _
    obtain ⟨s, done, -⟩ :=
      total_loop (fun _ => True) (fun s : State => buf.length - s.offs) step trivial enough
    exact ⟨s, done⟩
  · intro s t next
    obtain ⟨r, done, after⟩ := @total_iteration buf f lawful s
    cases done.symm.trans next
    exact after.1

/-- A page that is one directive -/
def refresh : List UInt8 := literal "<meta http-equiv=refresh content='5'>"

/-- The functions of the C locale; the expression matches the directive of `refresh`. -/
def asciiFunctions : Functions where
  regexec bytes := if bytes = refresh then some ⟨0, 37, 16⟩ else none
  strmatch bytes := (List.range bytes.length).find? fun i =>
    (bytes.drop i).take 7 == literal "content" && decide (i + 7 ≤ bytes.length)
  casecmpn a b n :=
    let lower := fun c : UInt8 => if 65 ≤ c && c ≤ 90 then c + 32 else c
    if (a.take n).map lower = (b.take n).map lower then 0 else 1
  isalpha c := (65 ≤ c && c ≤ 90) || (97 ≤ c && c ≤ 122)
  isalnum c := (65 ≤ c && c ≤ 90) || (97 ≤ c && c ≤ 122) || (48 ≤ c && c ≤ 57)
  isspace c := c == 32 || (9 ≤ c && c ≤ 13)
  advance offs m _ _ := offs + m.eo

theorem asciiFunctions_regexec {bytes : List UInt8} {m : Match}
    (found : asciiFunctions.regexec bytes = some m) : bytes = refresh ∧ m = ⟨0, 37, 16⟩ := by
  rw [show asciiFunctions.regexec bytes = if bytes = refresh then some ⟨0, 37, 16⟩ else none
    from rfl] at found
  split at found
  case isTrue same => exact ⟨same, (Option.some.inj found).symm⟩
  case isFalse => cases found

theorem asciiFunctions_lawful : asciiFunctions.Lawful where
  nonempty bytes m found := by
    rw [(asciiFunctions_regexec found).2]
    decide
  inside bytes m found := by
    rw [(asciiFunctions_regexec found).1, (asciiFunctions_regexec found).2]
    decide
  group bytes m found := by
    rw [(asciiFunctions_regexec found).2]
    decide
  strmatch bytes i position := by
    have both := List.find?_some position
    simp only [Bool.and_eq_true, decide_eq_true_eq] at both
    exact both.2
  advance _ _ _ _ := rfl

theorem metafix_total_refresh : ∃ s, metafix asciiFunctions refresh = .done s :=
  (metafix_total asciiFunctions asciiFunctions_lawful refresh).1

end SecurityAudits.ApacheHttpd.Metafix
