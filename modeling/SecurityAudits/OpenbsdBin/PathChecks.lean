import SecurityAudits.Lib.FileTree
import SecurityAudits.Lib.Labels

/-!
# Two checks for `..`

`zic` puts a zone's name behind its output directory, and `amd` an exported directory behind a mount
point. Both names are somebody else's, and both programs now look for `..` in them: `isvalidpath`
(`zic/zic.c`) from slash to slash, `valid_export_path` (`amd/host_ops.c`) from one pair of dots to the
next. `checks_agree` says that the two find the same, and that what they pass stays below.

Names are C strings, without their NUL.
-/

namespace SecurityAudits.OpenbsdBin.PathChecks
set_option autoImplicit false
open SecurityAudits.FileTree SecurityAudits.Labels

def up : List Char := ['.', '.']

/-! ## `zic` -/

/-- The loop of `isvalidpath`, from `cp`; `fuel` bounds how often it is run. -/
def componentLoop : Nat → List Char → Bool
  | 0, _ => false
  | fuel + 1, cp =>
    if cp.takeWhile (· ≠ '/') = up then false
    else
      match cp.dropWhile (· ≠ '/') with
      | [] => true
      | _ :: cp => componentLoop fuel cp

def isvalidpath (name : List Char) : Bool :=
  if name.head? = some '/' then false else componentLoop (name.length + 1) name

/-! ## `amd` -/

/-- `strstr(cp, "..")`, with `cp[-1]` there, and what is behind the dots. -/
def strstr (before : Option Char) : List Char → Option (Option Char × List Char)
  | c :: d :: rest =>
    if c = '.' ∧ d = '.' then some (before, rest) else strstr (some c) (d :: rest)
  | _ => none

/-- The loop of `valid_export_path`, from `cp`, which has `before` in front of it. -/
def dotsLoop : Nat → Option Char → List Char → Bool
  | 0, _, _ => false
  | fuel + 1, before, cp =>
    match strstr before cp with
    | none => true
    | some (before, rest) =>
      if (before = none ∨ before = some '/') ∧ (rest.head? = some '/' ∨ rest = []) then false
      else dotsLoop fuel (some '.') rest

def validExportPath (dir : List Char) : Bool := dotsLoop (dir.length + 1) none dir

/-! ## The components -/

variable {c : Char} {path cp first : List Char} {rest : List (List Char)} {fuel : Nat}
  {before : Option Char}

/-- The first component is what is before the first slash. -/
theorem splitOn_takeWhile (path : List Char) :
    path.splitOn '/' = path.takeWhile (· ≠ '/') ::
      match path.dropWhile (· ≠ '/') with
      | [] => []
      | _ :: later => later.splitOn '/' := by
  induction path with
  | nil => rfl
  | cons c path ih =>
    by_cases slash : c = '/'
    · subst slash
      rw [splitOn_cons_dot]
      rfl
    · rw [splitOn_cons_other slash ih, List.takeWhile_cons_of_pos (by simpa using slash),
        List.dropWhile_cons_of_pos (by simpa using slash)]

theorem length_dropWhile {later : List Char} (left : cp.dropWhile (· ≠ '/') = c :: later) :
    later.length < cp.length := by
  have shorter := (List.dropWhile_sublist (p := fun c => decide (c ≠ '/')) (l := cp)).length_le
  rw [left, List.length_cons] at shorter
  exact shorter

theorem componentLoop_iff (enough : cp.length < fuel) :
    componentLoop fuel cp = true ↔ up ∉ cp.splitOn '/' := by
  induction fuel generalizing cp with
  | zero => exact absurd enough (Nat.not_lt_zero _)
  | succ fuel ih =>
    rw [componentLoop, splitOn_takeWhile, List.mem_cons, not_or]
    by_cases dots : cp.takeWhile (· ≠ '/') = up
    · rw [if_pos dots]
      exact iff_of_false Bool.false_ne_true fun both => both.1 dots.symm
    · rw [if_neg dots]
      cases left : cp.dropWhile (· ≠ '/') with
      | nil => exact iff_of_true rfl ⟨Ne.symm dots, List.not_mem_nil⟩
      | cons c later =>
        have shorter := length_dropWhile left
        exact (ih (by omega)).trans ⟨fun clean => ⟨Ne.symm dots, clean⟩, And.right⟩

theorem isvalidpath_iff (name : List Char) :
    isvalidpath name = true ↔ name.head? ≠ some '/' ∧ up ∉ name.splitOn '/' := by
  unfold isvalidpath
  by_cases absolute : name.head? = some '/'
  · rw [if_pos absolute]
    exact iff_of_false Bool.false_ne_true fun both => both.1 absolute
  · rw [if_neg absolute, componentLoop_iff (Nat.lt_succ_self _)]
    exact ⟨fun clean => ⟨absolute, clean⟩, And.right⟩

/-! ## The pairs of dots -/

/-- A component begins here. -/
def Fresh (before : Option Char) : Prop := before = none ∨ before = some '/'

instance (before : Option Char) : Decidable (Fresh before) := inferInstanceAs (Decidable (_ ∨ _))

/-- None of the components that begin in `cp` is `..`. -/
def Clean (before : Option Char) (cp : List Char) : Prop :=
  up ∉ if Fresh before then cp.splitOn '/' else (cp.splitOn '/').tail

/-- A component ends here. -/
def Ends (rest : List Char) : Prop := rest.head? = some '/' ∨ rest = []

theorem ends_iff (split : path.splitOn '/' = first :: rest) : Ends path ↔ first = [] := by
  rw [splitOn_takeWhile] at split
  obtain ⟨rfl, -⟩ := List.cons.inj split
  unfold Ends
  cases path with
  | nil => exact iff_of_true (.inr rfl) rfl
  | cons c path =>
    by_cases slash : c = '/'
    · subst slash
      exact iff_of_true (.inl rfl) rfl
    · rw [List.takeWhile_cons_of_pos (by simpa using slash)]
      exact iff_of_false (by simpa using slash) (List.cons_ne_nil _ _)

theorem not_fresh (other : c ≠ '/') : ¬ Fresh (some c) := by
  rintro (none | slash)
  · cases none
  · exact other (Option.some.inj slash)

/-- A character with which no pair of dots begins. -/
theorem clean_cons (noDots : ¬ (c = '.' ∧ cp.head? = some '.')) :
    Clean before (c :: cp) ↔ Clean (some c) cp := by
  unfold Clean
  by_cases slash : c = '/'
  · subst slash
    have fresh : Fresh (some '/') := .inr rfl
    rw [splitOn_cons_dot, if_pos fresh]
    split
    · rw [List.mem_cons, not_or]
      exact ⟨And.right, fun clean => ⟨List.cons_ne_nil _ _, clean⟩⟩
    · rfl
  · obtain ⟨first, rest, split⟩ := List.exists_cons_of_ne_nil (List.splitOn_ne_nil '/' cp)
    rw [splitOn_cons_other slash split, split, if_neg (not_fresh slash), List.tail_cons]
    split
    · rw [List.mem_cons, not_or]
      refine ⟨And.right, fun clean => ⟨fun dots => noDots ?_, clean⟩⟩
      obtain ⟨isDot, rfl⟩ := List.cons.inj dots
      refine ⟨isDot.symm, ?_⟩
      cases cp with
      | nil => cases split
      | cons d cp =>
        rw [splitOn_takeWhile] at split
        by_cases slash' : d = '/'
        · subst slash'
          cases (List.cons.inj split).1
        · rw [List.takeWhile_cons_of_pos (by simpa using slash')] at split
          exact congrArg some (List.cons.inj (List.cons.inj split).1).1
    · rfl

/-- A pair of dots. -/
theorem clean_dots : Clean before ('.' :: '.' :: cp) ↔
    ¬ (Fresh before ∧ Ends cp) ∧ Clean (some '.') cp := by
  unfold Clean
  obtain ⟨first, rest, split⟩ := List.exists_cons_of_ne_nil (List.splitOn_ne_nil '/' cp)
  have dots : ('.' :: '.' :: cp).splitOn '/' = ('.' :: '.' :: first) :: rest :=
    splitOn_cons_other (by decide) (splitOn_cons_other (by decide) split)
  rw [dots, ends_iff split, split, if_neg (not_fresh (by decide)), List.tail_cons, List.tail_cons]
  by_cases fresh : Fresh before
  · rw [if_pos fresh, List.mem_cons, not_or]
    refine and_congr_left' (not_congr ⟨fun same => ⟨fresh, ?_⟩, fun both => ?_⟩)
    · exact (List.cons.inj (List.cons.inj same).2).2.symm
    · rw [both.2]
      rfl
  · rw [if_neg fresh]
    exact ⟨fun clean => ⟨fun both => fresh both.1, clean⟩, And.right⟩

/-- What is before the pair that is found does not matter, and the pair is a component or not. -/
theorem strstr_clean (before : Option Char) (cp : List Char) :
    (strstr before cp = none ∧ Clean before cp) ∨
      ∃ before' rest, strstr before cp = some (before', rest) ∧ rest.length < cp.length ∧
        (Clean before cp ↔ ¬ (Fresh before' ∧ Ends rest) ∧ Clean (some '.') rest) := by
  induction cp generalizing before with
  | nil =>
    refine .inl ⟨rfl, ?_⟩
    unfold Clean
    split
    · decide
    · decide
  | cons c cp ih =>
    cases cp with
    | nil =>
      refine .inl ⟨rfl, (clean_cons fun both => by cases both.2).2 ?_⟩
      unfold Clean
      split
      · decide
      · decide
    | cons d rest =>
      by_cases dots : c = '.' ∧ d = '.'
      · obtain ⟨rfl, rfl⟩ := dots
        refine .inr ⟨before, rest, rfl, ?_, clean_dots⟩
        rw [List.length_cons, List.length_cons]
        omega
      · have noDots : ¬ (c = '.' ∧ (d :: rest).head? = some '.') := fun both =>
          dots ⟨both.1, Option.some.inj both.2⟩
        rw [strstr, if_neg dots]
        rcases ih (some c) with ⟨absent, clean⟩ | ⟨before', rest', found, shorter, clean⟩
        · exact .inl ⟨absent, (clean_cons noDots).2 clean⟩
        · exact .inr ⟨before', rest', found, Nat.lt_succ_of_lt shorter,
            (clean_cons noDots).trans clean⟩

theorem dotsLoop_iff (before : Option Char) (enough : cp.length < fuel) :
    dotsLoop fuel before cp = true ↔ Clean before cp := by
  induction fuel generalizing before cp with
  | zero => exact absurd enough (Nat.not_lt_zero _)
  | succ fuel ih =>
    rw [dotsLoop]
    rcases strstr_clean before cp with ⟨absent, clean⟩ | ⟨before', rest, found, shorter, clean⟩
    · rw [absent]
      exact iff_of_true rfl clean
    · rw [found, clean]
      dsimp only
      split
      case isTrue component => exact iff_of_false Bool.false_ne_true fun both => both.1 component
      case isFalse other =>
        exact (ih (some '.') (by omega)).trans ⟨fun clean => ⟨other, clean⟩, And.right⟩

theorem validExportPath_iff (dir : List Char) :
    validExportPath dir = true ↔ up ∉ dir.splitOn '/' :=
  dotsLoop_iff none (Nat.lt_succ_self _)

/-! ## Both checks -/

/-- **The two checks agree**, and pass just the names that do not go up: `zic` refuses the absolute ones
besides. What they pass leads from any directory to one below it. -/
theorem checks_agree (path : List Char) :
    isvalidpath path = (decide (path.head? ≠ some '/') && validExportPath path) ∧
      (validExportPath path = true ↔ up ∉ path.splitOn '/') ∧
      (validExportPath path = true → ∀ root : Loc, root <+: lexical root (Path.ofText path).comps) := by
  refine ⟨?_, validExportPath_iff path, fun valid root => ?_⟩
  · rw [Bool.eq_iff_iff, isvalidpath_iff, Bool.and_eq_true, validExportPath_iff, decide_eq_true_iff]
  · have clean := (validExportPath_iff path).1 valid
    exact prefix_lexical (up_notMem_ofText fun mem => clean (List.mem_filter.1 mem).1)

end SecurityAudits.OpenbsdBin.PathChecks
