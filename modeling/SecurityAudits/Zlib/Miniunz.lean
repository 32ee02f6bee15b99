import SecurityAudits.Lib.FileTree

/-!
# `miniunz`: where an archive entry is extracted to

The entry's name is a path of the archive's choosing. The patched `do_extract_currentfile` asks
`contains_relative_path_component` whether a component is `..`, and skips the entry if so; it no
longer removes what a name begins with, so an absolute name is used as it is.

`resolve` reads a path lexically, on a system that separates components by slashes only or on one
that takes backslashes for slashes and has drives. A name that has no `..` and begins with neither
a separator nor a drive stays below the directory it is resolved from; `confined_iff` says which
of the others the program extracts below the current directory.
-/

namespace SecurityAudits.Zlib.Miniunz
set_option autoImplicit false
open SecurityAudits.FileTree

def unzOk : Int := 0
def unzBadzipfile : Int := -103

/-- `(*p == '/') || (*p == '\\')`. -/
def isSeparator (c : Char) : Bool := c == '/' || c == '\\'

/-- A stored name as a C string, which ends before the first NUL. -/
def cString (stored : List Char) : List Char := stored.takeWhile fun c => c != '\x00'

/-- The loop of `contains_relative_path_component`; `segment` is what lies between the two
pointers. -/
def scanComponents (segment : List Char) : List Char → Bool
  | [] => segment == ['.', '.']
  | c :: path =>
    if isSeparator c then
      if segment == ['.', '.'] then true else scanComponents [] path
    else scanComponents (segment ++ [c]) path

def containsRelativePathComponent (path : List Char) : Bool := scanComponents [] path

/-- The loop that finds `filename_withoutpath`. -/
def afterLast (found : List Char) : List Char → List Char
  | [] => found
  | c :: p => afterLast (if isSeparator c then p else found) p

def filenameWithoutpath (filenameInzip : List Char) : List Char :=
  afterLast filenameInzip filenameInzip

/-- The name up to the separator before `filename_withoutpath`. -/
def directory (filenameInzip : List Char) : List Char :=
  filenameInzip.take (filenameInzip.length - (filenameWithoutpath filenameInzip).length - 1)

/-- What the function does that shows outside. -/
inductive Action where
  | printf (format : String) (path : List Char)
  | mymkdir (path : List Char)
  | makedir (path : List Char)
  | openForWriting (path : List Char)
  deriving DecidableEq

/-- The path at which an action makes a directory or a file. -/
def Action.creates : Action → Option (List Char)
  | .printf _ _ => none
  | .mymkdir path => some path
  | .makedir path => some path
  | .openForWriting path => some path

def skipping : String := "skipping insecure path %s\n"
def creating : String := "creating directory: %s\n"

/-- `do_extract_currentfile` for the name of the entry. `extract` is the rest of the function,
which decompresses the entry to `write_filename`. -/
def doExtractCurrentfile (extractWithoutPath : Bool) (extract : List Char → List Action × Int)
    (filenameInzip : List Char) : List Action × Int :=
  if filenameWithoutpath filenameInzip = [] then
    if extractWithoutPath then ([], unzOk)
    else if containsRelativePathComponent filenameInzip then
      ([.printf skipping filenameInzip], unzBadzipfile)
    else ([.printf creating filenameInzip, .mymkdir filenameInzip], unzOk)
  else
    let writeFilename :=
      if extractWithoutPath then filenameWithoutpath filenameInzip else filenameInzip
    if containsRelativePathComponent writeFilename then
      ([.printf skipping writeFilename], unzBadzipfile)
    else extract writeFilename

/-- The rest of the function opens `write_filename` for writing and, when it has a directory,
makes that first; it makes nothing else. -/
def Extracts (extract : List Char → List Action × Int) : Prop :=
  ∀ writeFilename, ∀ action ∈ (extract writeFilename).1, ∀ path, action.creates = some path →
    path = writeFilename ∨
      (filenameWithoutpath writeFilename ≠ writeFilename ∧ path = directory writeFilename)

/-- How the system reads paths: with slashes only, or with backslashes too and with drives, of
which `drive` is the current one. -/
inductive Platform where
  | unix
  | dos (drive : Char)

/-- The path with slashes only. -/
def Platform.text : Platform → List Char → List Char
  | .unix, path => path
  | .dos _, path => path.map fun c => if c = '\\' then '/' else c

/-- The drive that a path names. -/
def Platform.driveOf : Platform → List Char → Option Char
  | .dos _, letter :: ':' :: _ => if letter.isAlpha then some letter else none
  | _, _ => none

/-- What a path says on the drive it is read on. There is none for a path that leads to another
drive, or to a share or a device by two slashes. -/
def Platform.onDrive : Platform → List Char → Option (List Char)
  | .unix, text => some text
  | .dos drive, text =>
    match Platform.driveOf (.dos drive) text with
    | some letter => if letter.toUpper = drive.toUpper then some (text.drop 2) else none
    | none => if ['/', '/'] <+: text then none else some text

/-- Where a path leads from the directory `cwd` when no link is met, if to the same drive. -/
def resolve (platform : Platform) (cwd : Loc) (path : List Char) : Option Loc :=
  (platform.onDrive (platform.text path)).map fun text =>
    lexical ((Path.ofText text).base cwd) (Path.ofText text).comps

def Inside (platform : Platform) (cwd : Loc) (path : List Char) : Prop :=
  ∃ loc ∈ resolve platform cwd path, cwd <+: loc

/-- The path begins with a separator or a drive. -/
def Absolute (platform : Platform) (path : List Char) : Prop :=
  (platform.text path).head? = some '/' ∨ platform.driveOf (platform.text path) ≠ none

instance (platform : Platform) (path : List Char) : Decidable (Absolute platform path) :=
  inferInstanceAs (Decidable (_ ∨ _))

instance (platform : Platform) (cwd : Loc) (path : List Char) :
    Decidable (Inside platform cwd path) :=
  inferInstanceAs (Decidable (∃ loc ∈ resolve platform cwd path, cwd <+: loc))

/-- The pieces between separators, of which `segment` begins the first. -/
def pieces (separates : Char → Bool) (segment : List Char) : List Char → List (List Char)
  | [] => [segment]
  | c :: path =>
    if separates c then segment :: pieces separates [] path
    else pieces separates (segment ++ [c]) path

variable {separates : Char → Bool} {segment path dir base : List Char} {platform : Platform}

theorem scanComponents_iff :
    scanComponents segment path = true ↔ ['.', '.'] ∈ pieces isSeparator segment path := by
  induction path generalizing segment with
  | nil =>
    rw [scanComponents, pieces, List.mem_singleton, beq_iff_eq]
    exact eq_comm
  | cons c path ih =>
    rw [scanComponents, pieces]
    by_cases separator : isSeparator c = true
    · rw [if_pos separator, if_pos separator, List.mem_cons, ← ih]
      by_cases up : segment = ['.', '.']
      · simp [up]
      · simp [up, Ne.symm up]
    · rw [if_neg separator, if_neg separator, ih]

theorem pieces_append {c : Char} (separator : separates c = true) :
    pieces separates segment (dir ++ c :: base)
      = pieces separates segment dir ++ pieces separates [] base := by
  induction dir generalizing segment with
  | nil => simp only [List.nil_append, pieces, if_pos separator, List.cons_append]
  | cons d dir ih =>
    rw [List.cons_append, pieces, pieces]
    by_cases here : separates d = true
    · rw [if_pos here, if_pos here, ih, List.cons_append]
    · rw [if_neg here, if_neg here, ih]

theorem pieces_eq_splitOn :
    pieces (· == '/') segment path = (path.splitOn '/').modifyHead (segment ++ ·) := by
  induction path generalizing segment with
  | nil => simp [pieces]
  | cons c path ih =>
    rw [pieces, List.splitOn_cons_eq_if_modifyHead, ih, ih]
    by_cases slash : (c == '/') = true
    · rw [if_pos slash, if_pos slash, List.modifyHead_cons, List.append_nil]
      have same : (fun piece : List Char => [] ++ piece) = id := rfl
      rw [same, List.modifyHead_id, id]
    · rw [if_neg slash, if_neg slash, List.modifyHead_modifyHead]
      congr 1
      funext piece
      simp

/-- A piece `..` between slashes is one between separators. -/
theorem up_mem_of_unix {segment' : List Char} (same : '\\' ∉ segment → segment = segment')
    (up : ['.', '.'] ∈ pieces (· == '/') segment path) :
    ['.', '.'] ∈ pieces isSeparator segment' path := by
  induction path generalizing segment segment' with
  | nil =>
    have whole : ['.', '.'] = segment := List.mem_singleton.1 up
    rw [pieces, ← same (by rw [← whole]; decide)]
    exact up
  | cons c path ih =>
    rw [pieces] at up ⊢
    by_cases slash : c = '/'
    · rw [if_pos (by simp [slash])] at up
      rw [if_pos (by simp [slash, isSeparator])]
      rcases List.mem_cons.1 up with whole | later
      · rw [← same (by rw [← whole]; decide), whole]
        exact List.mem_cons_self
      · exact List.mem_cons_of_mem _ (ih (fun _ => rfl) later)
    · rw [if_neg (by simp [slash])] at up
      by_cases backslash : c = '\\'
      · rw [if_pos (by simp [backslash, isSeparator])]
        refine List.mem_cons_of_mem _ (ih (fun absent => absurd ?_ absent) up)
        simp [backslash]
      · rw [if_neg (by simp [slash, backslash, isSeparator])]
        refine ih (fun absent => ?_) up
        rw [same fun mem => absent (List.mem_append_left _ mem)]

theorem dos_slash (c : Char) : ((if c = '\\' then '/' else c) == '/') = isSeparator c := by
  by_cases backslash : c = '\\'
  · simp [backslash, isSeparator]
  · simp [backslash, isSeparator]

theorem pieces_dos {drive : Char} :
    pieces (· == '/') segment ((Platform.dos drive).text path)
      = pieces isSeparator segment path := by
  induction path generalizing segment with
  | nil => rfl
  | cons c path ih =>
    rw [Platform.text] at ih ⊢
    rw [List.map_cons, pieces, pieces, ih, ih, dos_slash]
    by_cases separator : isSeparator c = true
    · rw [if_pos separator, if_pos separator]
    · have other : c ≠ '\\' := by
        rintro rfl
        exact separator rfl
      rw [if_neg separator, if_neg separator, if_neg other]

/-- A path that the scan lets pass has no `..`, on either system. -/
theorem up_notMem_of_scan (clean : containsRelativePathComponent path = false) :
    Comp.up ∉ (Path.ofText (platform.text path)).comps := by
  refine up_notMem_ofText fun among => ?_
  have piece : ['.', '.'] ∈ pieces (· == '/') [] (platform.text path) := by
    rw [pieces_eq_splitOn]
    have same : (fun piece : List Char => [] ++ piece) = id := rfl
    rw [same, List.modifyHead_id]
    exact (List.mem_filter.1 among).1
  have up : ['.', '.'] ∈ pieces isSeparator [] path := by
    cases platform with
    | unix => exact up_mem_of_unix (fun _ => rfl) piece
    | dos drive => rwa [pieces_dos] at piece
  rw [containsRelativePathComponent, scanComponents_iff.2 up] at clean
  cases clean

/-- A path without a separator or a drive at its beginning is read on the current drive. -/
theorem onDrive_of_relative (relative : ¬ Absolute platform path) :
    platform.onDrive (platform.text path) = some (platform.text path) := by
  obtain ⟨noSlash, noDrive⟩ := not_or.1 relative
  cases platform with
  | unix => rfl
  | dos drive =>
    have single : ¬ ['/', '/'] <+: (Platform.dos drive).text path := by
      rintro ⟨rest, split⟩
      rw [← split] at noSlash
      exact noSlash rfl
    rw [Platform.onDrive, not_not.1 noDrive]
    exact if_neg single

/-- Such a path leads below the current directory, unless it is absolute. -/
theorem inside_of_scan (clean : containsRelativePathComponent path = false)
    (relative : ¬ Absolute platform path) (cwd : Loc) : Inside platform cwd path := by
  have base : (Path.ofText (platform.text path)).base cwd = cwd := by
    exact if_neg fun absolute => relative (.inl (of_decide_eq_true absolute))
  refine ⟨lexical cwd (Path.ofText (platform.text path)).comps, ?_,
    prefix_lexical (up_notMem_of_scan clean)⟩
  rw [resolve, onDrive_of_relative relative, Option.map_some, base]
  rfl

theorem afterLast_cases (found : List Char) (path : List Char) :
    afterLast found path = found ∨
      ∃ dir c, isSeparator c = true ∧ path = dir ++ c :: afterLast found path := by
  induction path generalizing found with
  | nil => exact .inl rfl
  | cons c path ih =>
    rw [afterLast]
    by_cases separator : isSeparator c = true
    · rw [if_pos separator]
      refine .inr ?_
      rcases ih path with same | ⟨dir, d, here, split⟩
      · exact ⟨[], c, separator, by rw [same]; rfl⟩
      · exact ⟨c :: dir, d, here, by rw [List.cons_append, ← split]⟩
    · rw [if_neg separator]
      rcases ih found with same | ⟨dir, d, here, split⟩
      · exact .inl same
      · exact .inr ⟨c :: dir, d, here, by rw [List.cons_append, ← split]⟩

/-- A name with a directory is the directory, a separator and the rest. -/
theorem directory_split (named : filenameWithoutpath path ≠ path) :
    ∃ c, isSeparator c = true ∧ path = directory path ++ c :: filenameWithoutpath path := by
  rcases afterLast_cases path path with same | ⟨dir, c, separator, split⟩
  · exact absurd same named
  · have dirEq : directory path = dir := by
      have length := congrArg List.length split
      rw [List.length_append, List.length_cons] at length
      rw [directory, filenameWithoutpath,
        show path.length - (afterLast path path).length - 1 = dir.length by omega]
      nth_rewrite 1 [split]
      exact List.take_left
    exact ⟨c, separator, by rw [dirEq]; exact split⟩

theorem scan_directory (named : filenameWithoutpath path ≠ path)
    (clean : containsRelativePathComponent path = false) :
    containsRelativePathComponent (directory path) = false := by
  obtain ⟨c, separator, split⟩ := directory_split named
  rw [Bool.eq_false_iff]
  intro up
  have among := List.mem_append_left (pieces isSeparator [] (filenameWithoutpath path))
    (scanComponents_iff.1 up)
  rw [← pieces_append separator, ← split] at among
  rw [containsRelativePathComponent, scanComponents_iff.2 among] at clean
  cases clean

theorem text_append : platform.text (dir ++ base) = platform.text dir ++ platform.text base := by
  cases platform with
  | unix => rfl
  | dos drive => exact List.map_append

/-- What follows a drive does not matter for which one it is. -/
theorem driveOf_append (named : platform.driveOf dir ≠ none) :
    platform.driveOf (dir ++ base) ≠ none := by
  unfold Platform.driveOf at named ⊢
  split at named
  · exact named
  · exact absurd rfl named

theorem absolute_of_directory (named : filenameWithoutpath path ≠ path)
    (absolute : Absolute platform (directory path)) : Absolute platform path := by
  obtain ⟨c, -, split⟩ := directory_split named
  rw [split, Absolute, text_append]
  rcases absolute with slash | drive
  · exact .inl (by rw [List.head?_append, slash]; rfl)
  · exact .inr (driveOf_append drive)

/-- What is extracted with paths is below the current directory, whatever the rest of the
function does. -/
def Confined (platform : Platform) (cwd : Loc) (stored : List Char) : Prop :=
  ∀ extract, Extracts extract → ∀ action ∈ (doExtractCurrentfile false extract (cString stored)).1,
    ∀ path, action.creates = some path → Inside platform cwd path

/-- The name is rejected, or relative, or absolute and leads below the current directory, as
does the directory of a file. -/
def Harmless (platform : Platform) (cwd : Loc) (filenameInzip : List Char) : Prop :=
  containsRelativePathComponent filenameInzip = true ∨ ¬ Absolute platform filenameInzip ∨
    (Inside platform cwd filenameInzip ∧
      (filenameWithoutpath filenameInzip ≠ [] →
        filenameWithoutpath filenameInzip ≠ filenameInzip →
          Inside platform cwd (directory filenameInzip)))

/-- A rest of the function for an entry whose directory is missing. -/
def extractAll (writeFilename : List Char) : List Action × Int :=
  (if filenameWithoutpath writeFilename = writeFilename then [.openForWriting writeFilename]
    else [.makedir (directory writeFilename), .openForWriting writeFilename], unzOk)

theorem extracts_extractAll : Extracts extractAll := by
  intro writeFilename action member path creates
  rw [extractAll] at member
  by_cases plain : filenameWithoutpath writeFilename = writeFilename
  · rw [if_pos plain] at member
    cases List.mem_singleton.1 member
    exact .inl (Option.some.inj creates).symm
  · rw [if_neg plain] at member
    rcases List.mem_cons.1 member with rfl | member
    · exact .inr ⟨plain, (Option.some.inj creates).symm⟩
    · cases List.mem_singleton.1 member
      exact .inl (Option.some.inj creates).symm

theorem Harmless.inside {cwd : Loc} (harmless : Harmless platform cwd path)
    (clean : containsRelativePathComponent path = false) : Inside platform cwd path := by
  rcases harmless with up | relative | ⟨inside, -⟩
  · rw [up] at clean
    cases clean
  · exact inside_of_scan clean relative cwd
  · exact inside

theorem Harmless.directory {cwd : Loc} (harmless : Harmless platform cwd path)
    (clean : containsRelativePathComponent path = false)
    (named : filenameWithoutpath path ≠ path) (file : filenameWithoutpath path ≠ []) :
    Inside platform cwd (directory path) := by
  rcases harmless with up | relative | ⟨-, inside⟩
  · rw [up] at clean
    cases clean
  · exact inside_of_scan (scan_directory named clean)
      (fun absolute => relative (absolute_of_directory named absolute)) cwd
  · exact inside file named

variable {extract : List Char → List Action × Int}

theorem doExtract_skips (up : containsRelativePathComponent path = true) :
    doExtractCurrentfile false extract path = ([.printf skipping path], unzBadzipfile) := by
  unfold doExtractCurrentfile
  by_cases dirEntry : filenameWithoutpath path = []
  · rw [if_pos dirEntry, if_neg Bool.false_ne_true, if_pos up]
  · rw [if_neg dirEntry]
    simp only [if_neg Bool.false_ne_true, if_pos up]

theorem doExtract_directory (clean : containsRelativePathComponent path = false)
    (dirEntry : filenameWithoutpath path = []) :
    doExtractCurrentfile false extract path
      = ([.printf creating path, .mymkdir path], unzOk) := by
  rw [doExtractCurrentfile, if_pos dirEntry, if_neg Bool.false_ne_true, clean,
    if_neg Bool.false_ne_true]

theorem doExtract_file (clean : containsRelativePathComponent path = false)
    (file : filenameWithoutpath path ≠ []) :
    doExtractCurrentfile false extract path = extract path := by
  rw [doExtractCurrentfile, if_neg file]
  simp only [if_neg Bool.false_ne_true, clean]

/-- **Extraction with paths**: an entry is extracted below the current directory, however the
rest of the function goes, if and only if its name has a component `..` (and is skipped), begins
with neither a separator nor a drive, or leads below the current directory all the same, as does
the directory of a file. -/
theorem confined_iff (platform : Platform) (cwd : Loc) (stored : List Char) :
    Confined platform cwd stored ↔ Harmless platform cwd (cString stored) := by
  unfold Confined
  generalize cString stored = name
  cases clean : containsRelativePathComponent name with
  | true =>
    refine ⟨fun _ => .inl clean, fun _ extract _ action member path creates => ?_⟩
    rw [doExtract_skips clean] at member
    cases List.mem_singleton.1 member
    cases creates
  | false =>
    constructor
    · intro confined
      refine .inr (.inr ?_)
      have makes := confined extractAll extracts_extractAll
      by_cases dirEntry : filenameWithoutpath name = []
      · rw [doExtract_directory clean dirEntry] at makes
        exact ⟨makes (.mymkdir name) (by simp) name rfl, fun file => absurd dirEntry file⟩
      · rw [doExtract_file clean dirEntry, extractAll] at makes
        refine ⟨makes (.openForWriting name) ?_ name rfl, fun _ named => ?_⟩
        · split <;> simp
        · rw [if_neg named] at makes
          exact makes (.makedir (directory name)) (by simp) _ rfl
    · intro harmless extract extracts action member path creates
      by_cases dirEntry : filenameWithoutpath name = []
      · rw [doExtract_directory clean dirEntry] at member
        rcases List.mem_cons.1 member with rfl | member
        · cases creates
        · cases List.mem_singleton.1 member
          rw [← Option.some.inj creates]
          exact harmless.inside clean
      · rw [doExtract_file clean dirEntry] at member
        rcases extracts name action member path creates with rfl | ⟨named, rfl⟩
        · exact harmless.inside clean
        · exact harmless.directory clean named dirEntry

/-- The name `/x` from the directory `/e`. -/
theorem absolute_name_escapes :
    (doExtractCurrentfile false extractAll (cString ['/', 'x'])).1
        = [.makedir [], .openForWriting ['/', 'x']] ∧
      ¬ Inside .unix [['e']] ['/', 'x'] ∧ ¬ Confined .unix [['e']] ['/', 'x'] := by
  have outside : ¬ Inside .unix [['e']] ['/', 'x'] := by decide
  refine ⟨by decide, outside, fun confined => outside ?_⟩
  exact confined extractAll extracts_extractAll (.openForWriting ['/', 'x']) (by decide) _ rfl

end SecurityAudits.Zlib.Miniunz
