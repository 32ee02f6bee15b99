import SecurityAudits.ZigStdlib.Tar

/-!
# The check of a symbolic link's target

`validateSymlinkTarget` (`lib/std/tar.zig`) counts the components of `file_name` and never lets
`link_name` climb above that count. In `link_name` it passes over `.`, in `file_name` it counts it:
from `./a` a target may climb one directory higher than the root.

`lexically` is the walk that the count stands for. `validateSymlinkTarget_right_iff` says for which
names the check is right.
-/

namespace SecurityAudits.ZigStdlib.SymlinkTarget
set_option autoImplicit false

open FileTree (Name tokens)
open Tar (Text walkTarget validateSymlinkTarget)

/-! ## The walk -/

/-- Where `cs` leads from `loc`, both below the root: `.` stays, `..` goes up, any other component
goes down. It has no result if it leaves the root, be it to come back. -/
def lexically : (loc cs : List Name) → Option (List Name)
  | loc, [] => some loc
  | loc, c :: cs =>
    if c = ['.'] then lexically loc cs
    else if c = ['.', '.'] then
      if loc = [] then none else lexically loc.dropLast cs
    else lexically (loc ++ [c]) cs

/-- The components of the directory of `fileName`. -/
def directory (fileName : Text) : List Name := (tokens fileName).dropLast

/-- The walk from the directory of `fileName` along `linkName` stays inside the root. -/
def StaysInside (fileName linkName : Text) : Prop :=
  ((lexically [] (directory fileName)).bind fun loc =>
    lexically loc (tokens linkName)).isSome = true

def Accepts (fileName linkName : Text) : Prop := validateSymlinkTarget fileName linkName = .ok ()

/-- What the check is for. -/
structure Right (fileName linkName : Text) : Prop where
  accepts_iff : ['.'] ∉ tokens fileName → ['.', '.'] ∉ tokens fileName →
    (Accepts fileName linkName ↔ linkName.head? ≠ some '/' ∧ StaysInside fileName linkName)
  inside : ['.'] ∈ tokens fileName → Accepts fileName linkName → StaysInside fileName linkName

/-! ## How high a target climbs -/

/-- How far above its start the walk along `cs` comes. -/
def climb : List Name → Nat
  | [] => 0
  | c :: cs =>
    if c = ['.'] then climb cs
    else if c = ['.', '.'] then climb cs + 1
    else climb cs - 1

variable {loc loc' cs : List Name} {depth : Nat} {fileName linkName : Text}

/-- The loop of the check lets climb as high as it counts. -/
theorem walkTarget_iff : walkTarget depth cs = .ok () ↔ climb cs ≤ depth := by
  induction cs generalizing depth with
  | nil => exact ⟨fun _ => Nat.zero_le depth, fun _ => rfl⟩
  | cons c cs ih =>
    rw [walkTarget, climb]
    by_cases here : c = ['.']
    · rw [if_pos here, if_pos here, ih]
    · rw [if_neg here, if_neg here]
      by_cases up : c = ['.', '.']
      · rw [if_pos up, if_pos up]
        by_cases zero : depth = 0
        · rw [if_pos zero, zero]
          exact ⟨fun failed => (by cases failed), fun high => absurd high (Nat.not_succ_le_zero _)⟩
        · rw [if_neg zero, ih]
          omega
      · rw [if_neg up, if_neg up, ih]
        omega

/-- The walk can climb as high as its start is deep. -/
theorem lexically_isSome_iff : (lexically loc cs).isSome = true ↔ climb cs ≤ loc.length := by
  induction cs generalizing loc with
  | nil => exact ⟨fun _ => Nat.zero_le _, fun _ => rfl⟩
  | cons c cs ih =>
    rw [lexically, climb]
    by_cases here : c = ['.']
    · rw [if_pos here, if_pos here, ih]
    · rw [if_neg here, if_neg here]
      by_cases up : c = ['.', '.']
      · rw [if_pos up, if_pos up]
        by_cases root : loc = []
        · rw [if_pos root, root]
          exact ⟨fun none' => (by cases none'), fun high => absurd high (Nat.not_succ_le_zero _)⟩
        · have deep := List.length_pos_iff.2 root
          rw [if_neg root, ih, List.length_dropLast]
          omega
      · rw [if_neg up, if_neg up, ih, List.length_append, List.length_singleton]
        omega

/-- A component that is counted and does not go down. -/
def Special (c : Name) : Bool := c = ['.'] ∨ c = ['.', '.']

/-- The walk ends as deep as names have been met, at most. -/
theorem length_lexically (walked : lexically loc cs = some loc') :
    loc'.length + (cs.filter Special).length ≤ loc.length + cs.length := by
  induction cs generalizing loc with
  | nil =>
    obtain rfl := Option.some.inj walked
    exact Nat.le_refl _
  | cons c cs ih =>
    rw [lexically] at walked
    by_cases here : c = ['.']
    · rw [if_pos here] at walked
      have later := ih walked
      rw [List.filter_cons_of_pos (by simp [Special, here]), List.length_cons, List.length_cons]
      omega
    · rw [if_neg here] at walked
      by_cases up : c = ['.', '.']
      · rw [if_pos up] at walked
        by_cases root : loc = []
        · rw [if_pos root] at walked
          cases walked
        · rw [if_neg root] at walked
          have later := ih walked
          rw [List.length_dropLast] at later
          rw [List.filter_cons_of_pos (by simp [Special, up]), List.length_cons, List.length_cons]
          omega
      · rw [if_neg up] at walked
        have later := ih walked
        rw [List.length_append, List.length_singleton] at later
        rw [List.filter_cons_of_neg (by simp [Special, here, up]), List.length_cons]
        omega

theorem lexically_names (names : ∀ c ∈ cs, Special c = false) :
    lexically loc cs = some (loc ++ cs) := by
  induction cs generalizing loc with
  | nil => rw [lexically, List.append_nil]
  | cons c cs ih =>
    have name := of_decide_eq_false (names c List.mem_cons_self)
    obtain ⟨here, up⟩ := not_or.1 name
    rw [lexically, if_neg here, if_neg up, ih fun c' mem => names c' (List.mem_cons_of_mem c mem),
      List.append_assoc, List.singleton_append]

/-! ## When the check is right -/

theorem accepts_iff : Accepts fileName linkName ↔
    linkName.head? ≠ some '/' ∧ climb (tokens linkName) ≤ (directory fileName).length := by
  rw [Accepts, validateSymlinkTarget, directory, List.length_dropLast]
  by_cases absolute : linkName.head? = some '/'
  · rw [if_pos absolute]
    exact ⟨fun failed => (by cases failed), fun both => absurd absolute both.1⟩
  · rw [if_neg absolute, walkTarget_iff]
    exact ⟨fun low => ⟨absolute, low⟩, fun both => both.2⟩

theorem staysInside_iff : StaysInside fileName linkName ↔
    ∃ loc, lexically [] (directory fileName) = some loc ∧
      climb (tokens linkName) ≤ loc.length := by
  rw [StaysInside]
  cases lexically [] (directory fileName) with
  | none => exact ⟨fun none' => (by cases none'), fun ⟨_, none', _⟩ => (by cases none')⟩
  | some loc =>
    rw [Option.bind_some, lexically_isSome_iff]
    exact ⟨fun low => ⟨loc, rfl, low⟩, fun ⟨_, same, low⟩ => Option.some.inj same ▸ low⟩

/-- In a file name without `.` and `..` every component is a directory. -/
theorem directory_names (clean : ['.'] ∉ tokens fileName) (noUps : ['.', '.'] ∉ tokens fileName) :
    ∀ c ∈ directory fileName, Special c = false := by
  intro c mem
  have among := List.dropLast_subset _ mem
  refine decide_eq_false ?_
  rintro (rfl | rfl)
  · exact clean among
  · exact noUps among

/-- The target does not climb to between the depth of the directory of `fileName` and what the
check counts for it, unless no `.` is counted, or the target is refused for its first slash. -/
def ClimbsApart (fileName linkName : Text) : Prop :=
  ['.'] ∈ tokens fileName → linkName.head? ≠ some '/' →
    climb (tokens linkName) ≤ (directory fileName).length →
    ∃ loc, lexically [] (directory fileName) = some loc ∧ climb (tokens linkName) ≤ loc.length

theorem right_iff : Right fileName linkName ↔ ClimbsApart fileName linkName := by
  constructor
  · intro right here relative low
    exact staysInside_iff.1 (right.inside here (accepts_iff.2 ⟨relative, low⟩))
  · intro low
    refine ⟨fun clean noUps => ?_, fun here accepted => ?_⟩
    · rw [accepts_iff, staysInside_iff, lexically_names (directory_names clean noUps)]
      refine and_congr_right fun _ => ⟨fun low => ⟨_, rfl, low⟩, ?_⟩
      rintro ⟨loc, same, low⟩
      obtain rfl := Option.some.inj same
      exact low
    · obtain ⟨relative, counted⟩ := accepts_iff.1 accepted
      exact staysInside_iff.2 (low here relative counted)

/-- `n` times `../` -/
def ups : Nat → Text
  | 0 => []
  | n + 1 => '.' :: '.' :: '/' :: ups n

theorem tokens_ups (n : Nat) : tokens (ups n) = List.replicate n ['.', '.'] := by
  induction n with
  | zero => rfl
  | succ n ih =>
    have noSlash : '/' ∉ ['.', '.'] := by decide
    have split : (ups (n + 1)).splitOn '/' = ['.', '.'] :: (ups n).splitOn '/' :=
      List.splitOn_append_cons_self_of_not_mem noSlash (ups n)
    rw [tokens, split, List.filter_cons_of_pos rfl, List.replicate_succ, ← ih]
    rfl

theorem climb_ups (n : Nat) : climb (List.replicate n ['.', '.']) = n := by
  induction n with
  | zero => rfl
  | succ n ih => rw [List.replicate_succ, climb, if_neg (by decide), if_pos rfl, ih]

theorem relative_ups (n : Nat) : (ups n).head? ≠ some '/' := by
  cases n with
  | zero => exact fun same => nomatch same
  | succ n => exact fun same => absurd (Option.some.inj same) (by decide)

/-- As many `..` as are counted get out of a directory that is not as deep. -/
theorem names_of_right (right : ∀ linkName, Right fileName linkName)
    (here : ['.'] ∈ tokens fileName) : ∀ c ∈ directory fileName, Special c = false := by
  have tokens' := tokens_ups (directory fileName).length
  have height : climb (tokens (ups (directory fileName).length)) = (directory fileName).length := by
    rw [tokens', climb_ups]
  obtain ⟨loc, walked, low⟩ := right_iff.1 (right (ups (directory fileName).length)) here
    (relative_ups _) height.le
  have deep := length_lexically walked
  rw [List.length_nil, Nat.zero_add] at deep
  rw [height] at low
  have none' : (directory fileName).filter Special = [] := List.length_eq_zero_iff.1 (by omega)
  intro c mem
  exact Bool.not_eq_true _ ▸ List.filter_eq_nil_iff.1 none' c mem

/-- **For which targets the check is right, and that it is right for all of them** exactly when
every component of the file's directory is a name, or no component of the file is `.`. -/
theorem validateSymlinkTarget_right_iff (fileName : Text) :
    (∀ linkName, Right fileName linkName ↔ ClimbsApart fileName linkName) ∧
      ((∀ linkName, Right fileName linkName) ↔
        (['.'] ∈ tokens fileName → ∀ c ∈ directory fileName, Special c = false)) := by
  refine ⟨fun linkName => right_iff, names_of_right, fun names linkName => right_iff.2 ?_⟩
  intro here _ low
  exact ⟨directory fileName, lexically_names (names here), low⟩

/-- `./a` is in the root, and a link from there to `../x` passes. -/
theorem dot_file_escapes : ¬ Right "./a".toList "../x".toList := by
  intro right
  have stays := right.inside (by decide) (accepts_iff.2 (by decide))
  rw [StaysInside] at stays
  exact absurd stays (by decide)

end SecurityAudits.ZigStdlib.SymlinkTarget
