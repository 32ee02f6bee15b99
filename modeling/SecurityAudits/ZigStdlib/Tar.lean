import SecurityAudits.Lib.FileTree
import SecurityAudits.Lib.Run

/-!
# Symbolic links of an archive in `std.tar`

The patched extraction creates a symbolic link only when `validateSymlinkTarget` accepts its
target: no `..` of it may climb above the extraction root, when every name, of the link and of
the target, counts as one directory.

A name need not be a directory. `two_links_escape` extracts a link to the parent of the root and
writes through it; `extraction_stays_inside` says that nothing escapes as long as the count is
right, that is, as long as a link really is as deep as its name and no `..` is taken below a
link that the archive has created.
-/

namespace SecurityAudits.ZigStdlib.Tar
set_option autoImplicit false
open SecurityAudits.FileTree SecurityAudits.Run

/-- Bytes of a path. -/
abbrev Text := List Char

/-- The errors of the loop; `system` are those of the calls that it makes. -/
inductive Error where
  | invalid
  | unableToCreateSymLink
  | system (code : Nat)
  deriving DecidableEq

/-- The loop of `validateSymlinkTarget` over the components of `link_name`. -/
def walkTarget : (depth : Nat) → List Name → Except Error Unit
  | _, [] => .ok ()
  | depth, component :: rest =>
    if component = ['.'] then walkTarget depth rest
    else if component = ['.', '.'] then
      if depth = 0 then .error .invalid else walkTarget (depth - 1) rest
    else walkTarget (depth + 1) rest

def validateSymlinkTarget (fileName linkName : Text) : Except Error Unit :=
  if linkName.head? = some '/' then .error .invalid
  else walkTarget ((tokens fileName).length - 1) (tokens linkName)

inductive Kind where
  | directory
  | file
  | symLink (linkName : Text)
  deriving DecidableEq

/-- An entry that the loop handles: `sanitizePath` has let its name pass. -/
structure Entry where
  fileName : Text
  kind : Kind
  relative : fileName.head? ≠ some '/'
  noUps : ['.', '.'] ∉ tokens fileName

def Entry.comps (e : Entry) : List Comp := (Path.ofText e.fileName).comps

structure Diagnostic where
  code : Error
  fileName : Text
  linkName : Text
  deriving DecidableEq

/-- The loop between two entries, or inside the helper that creates `current`. `resolved` are
the locations that the lookups of its system calls have come to. -/
structure State where
  tree : Filesystem Unit
  current : Option Entry
  errors : List Diagnostic
  returned : Option Error
  resolved : List Loc

def initial (tree : Filesystem Unit) : State := ⟨tree, none, [], none, []⟩

/-- A system call of `createDirPath`, `createDirAndFile` or `createDirAndSymlink`. -/
inductive Call where
  | lookup (path : List Comp)
  | mkdir (path : List Comp)
  | createFile (exclusive : Bool)
  | symLink

/-- The helpers look up and make the entry and the directories on the way to it. -/
def Call.isFor (c : Call) (e : Entry) : Bool :=
  match c, e.kind with
  | .lookup path, _ => path.isPrefixOf e.comps
  | .mkdir path, _ => path.isPrefixOf e.comps
  | .createFile _, .file => true
  | .symLink, .symLink _ => true
  | _, _ => false

/-- The next entry of the archive, a system call for the current one, or the return of its
helper. -/
inductive Event where
  | next (e : Entry)
  | call (c : Call)
  | done (error : Option Error)

/-- The `catch` branches of `.sym_link`: an error is noted if there is a place for it. -/
def State.caught (diagnostics : Bool) (s : State) (code : Error) (fileName linkName : Text) :
    State :=
  if diagnostics then
    { s with errors := s.errors ++ [⟨code, fileName, linkName⟩], current := none }
  else { s with returned := some .unableToCreateSymLink, current := none }

/-- A call that makes `node` where its lookup finds nothing. -/
def State.made (s : State) (l : Lookup) (node : Node Unit) : State where
  tree := match l.ends with
    | .absent loc => s.tree.put loc node
    | _ => s.tree
  current := s.current
  errors := s.errors
  returned := s.returned
  resolved := s.resolved ++ l.visited

def State.perform (links : Nat) (root : Loc) (s : State) (e : Entry) : Call → State
  | .lookup path =>
    { s with resolved := s.resolved ++ (walk s.tree true links root path).visited }
  | .mkdir path => s.made (walk s.tree false links root path) .dir
  | .createFile exclusive => s.made (walk s.tree (!exclusive) links root e.comps) (.file ())
  | .symLink =>
    match e.kind with
    | .symLink linkName =>
      s.made (walk s.tree false links root e.comps) (.link (Path.ofText linkName))
    | _ => s

/-- The loop takes an entry: it calls the helper, or refuses a link. -/
def State.take (diagnostics : Bool) (s : State) (e : Entry) : State :=
  match e.kind with
  | .symLink linkName =>
    match validateSymlinkTarget e.fileName linkName with
    | .error code => s.caught diagnostics code e.fileName linkName
    | .ok _ => { s with current := some e }
  | _ => { s with current := some e }

/-- The helper returns. After an error with another kind of entry the loop may go on, as here,
or return as well, and then the run is over. -/
def State.finish (diagnostics : Bool) (s : State) (e : Entry) (error : Option Error) : State :=
  match error, e.kind with
  | some code, .symLink linkName => s.caught diagnostics code e.fileName linkName
  | _, _ => { s with current := none }

/-- The extraction loop. -/
def step (links : Nat) (diagnostics : Bool) (root : Loc) (s : State) (ev : Event) :
    Option State :=
  if s.returned.isSome then none else
  match s.current, ev with
  | none, .next e => some (s.take diagnostics e)
  | some e, .call c => if c.isFor e then some (s.perform links root e c) else none
  | some e, .done error => some (s.finish diagnostics e error)
  | _, _ => none

/-- What the check is for: every lookup stays below the root, and so does every link that has
been created, however far it is followed. -/
structure InsideRoot (root : Loc) (s : State) : Prop where
  resolved : ∀ p ∈ s.resolved, root <+: p
  links : ∀ d n target links, root <+: d → s.tree (d ++ [n]) = some (.link target) →
    ∀ p ∈ (walk s.tree true links d [.name n]).visited, root <+: p

/-- The count of `validateSymlinkTarget` is right for the link `n` that is created in `d`: `d`
is as deep as it counts, or so deep that no `..` of the target is taken at the root; and no
`..`, of its target or of another link's, is taken at a link, or below one, with it in place. -/
structure RightlyCounted (root : Loc) (t : Filesystem Unit) (fileName : Text) (d : Loc) (n : Name)
    (target : Path) : Prop where
  depth : root.length + ((tokens fileName).length - 1) ≤ d.length ∨ Deep root d target.comps
  plain : Plain root t d target.comps
  own : ∀ p ∈ upsFrom d target.comps, ¬ d ++ [n] <+: p
  others : ∀ d' n' target', root <+: d' → t (d' ++ [n']) = some (.link target') →
    ∀ p ∈ upsFrom d' target'.comps, ¬ d ++ [n] <+: p

/-- The condition on a step. -/
def CountRight (links : Nat) (root : Loc) (s : State) : Event → Prop
  | .call .symLink => ∀ e linkName d n, s.current = some e → e.kind = .symLink linkName →
      (walk s.tree false links root e.comps).ends = .absent (d ++ [n]) →
      RightlyCounted root s.tree e.fileName d n (Path.ofText linkName)
  | _ => True

/-! ## The archive that escapes -/

/-- The extraction root of the runs below. -/
def out : Loc := ["out".toList]

def emptyRoot : Filesystem Unit := directories [[], out]

/-- `d/e` links to `..`, which is the root, and `x` to `d/e/..`, which counts as `d`. -/
def twoLinks : List Event := [
  .next ⟨"d/e".toList, .symLink "..".toList, by decide, by decide⟩,
  .call (.mkdir [.name "d".toList]), .call .symLink, .done none,
  .next ⟨"x".toList, .symLink "d/e/..".toList, by decide, by decide⟩,
  .call .symLink, .done none,
  .next ⟨"x/p".toList, .file, by decide, by decide⟩,
  .call (.createFile true), .done none]

/-- **Two links that the check accepts lead a later file out of the root.** -/
theorem two_links_escape :
    NoLinks out emptyRoot ∧
    (∃ s, exec (step 8 false out) (initial emptyRoot) twoLinks = some s ∧
      s.tree ["p".toList] = some (.file ()) ∧ s.errors = []) ∧
    ¬ Always (step 8 false out) (InsideRoot out) (initial emptyRoot) twoLinks := by
  have run : ∃ s, exec (step 8 false out) (initial emptyRoot) twoLinks = some s ∧
      s.tree ["p".toList] = some (.file ()) ∧ s.errors = [] ∧ ["p".toList] ∈ s.resolved :=
    ⟨_, rfl, rfl, rfl, by decide⟩
  obtain ⟨s, ends, file, errors, visited⟩ := run
  refine ⟨noLinks_directories, ⟨s, ends, file, errors⟩, fun always => ?_⟩
  have inside := (always twoLinks List.prefix_rfl s ends).resolved _ visited
  exact absurd inside (by decide)

/-! ## What the check establishes -/

variable {links : Nat} {diagnostics : Bool} {root d : Loc} {n : Name} {s t : State} {ev : Event}
  {e : Entry} {c : Call}

theorem Entry.comps_noUps (e : Entry) : Comp.up ∉ e.comps := up_notMem_ofText e.noUps

/-- The loop keeps `depth` at most the number of directories below the root. -/
theorem deep_of_walkTarget {depth : Nat} {rest : List Name} {tail : List Comp}
    (accepted : walkTarget depth rest = .ok ()) (inside : root <+: d)
    (counted : root.length + depth ≤ d.length) (noUps : Comp.up ∉ tail) :
    Deep root d (rest.map Comp.ofToken ++ tail) := by
  induction rest generalizing depth d with
  | nil =>
    intro p mem
    rw [List.map_nil, List.nil_append, upsFrom_eq_nil _ noUps] at mem
    exact absurd mem List.not_mem_nil
  | cons component rest ih =>
    rw [walkTarget] at accepted
    by_cases here : component = ['.']
    · rw [if_pos here] at accepted
      rw [List.map_cons, Comp.ofToken, if_pos here]
      exact ih accepted inside counted
    · rw [if_neg here] at accepted
      by_cases up : component = ['.', '.']
      · rw [if_pos up] at accepted
        rw [List.map_cons, Comp.ofToken, if_neg here, if_pos up]
        by_cases zero : depth = 0
        · rw [if_pos zero] at accepted
          cases accepted
        · rw [if_neg zero] at accepted
          have below : d ≠ root := by
            intro eq
            rw [eq] at counted
            omega
          have deep := ih accepted (prefix_dropLast inside below)
            (by rw [List.length_dropLast]; omega)
          intro p mem
          rcases List.mem_cons.1 mem with rfl | later
          · exact ⟨inside, below⟩
          · exact deep p later
      · rw [if_neg up] at accepted
        rw [List.map_cons, Comp.ofToken, if_neg here, if_neg up]
        exact ih accepted (inside.trans (List.prefix_append _ _))
          (by rw [List.length_append, List.length_singleton]; omega)

/-- A link as deep as the check counts takes no `..` at the root. -/
theorem deep_of_validate {fileName linkName : Text}
    (accepted : validateSymlinkTarget fileName linkName = .ok ()) (inside : root <+: d)
    (counted : root.length + ((tokens fileName).length - 1) ≤ d.length) :
    Deep root d (Path.ofText linkName).comps := by
  rw [validateSymlinkTarget] at accepted
  split at accepted
  · cases accepted
  · exact deep_of_walkTarget accepted inside counted (up_notMem_slash linkName)

theorem relative_of_validate {fileName linkName : Text}
    (accepted : validateSymlinkTarget fileName linkName = .ok ()) :
    (Path.ofText linkName).absolute = false := by
  rw [validateSymlinkTarget] at accepted
  split at accepted
  · cases accepted
  · rename_i relative
    exact decide_eq_false relative

/-! ## One step -/

/-- The target of the link that the helper creates has been checked. -/
def Checked (s : State) : Prop :=
  ∀ e linkName, s.current = some e → e.kind = .symLink linkName →
    validateSymlinkTarget e.fileName linkName = .ok ()

theorem checked_none (idle : s.current = none) : Checked s := by
  intro e linkName current
  rw [idle] at current
  cases current

theorem checked_some (accepted : ∀ linkName, e.kind = .symLink linkName →
    validateSymlinkTarget e.fileName linkName = .ok ()) :
    Checked { s with current := some e } := by
  intro e' linkName same kind
  obtain rfl := Option.some.inj same
  exact accepted linkName kind

/-- `t` differs from `s` only outside the file tree, and its link is checked. -/
structure Apart (s t : State) : Prop where
  checked : Checked t
  tree : t.tree = s.tree
  resolved : t.resolved = s.resolved

theorem apart_caught {code : Error} {fileName linkName : Text} :
    Apart s (s.caught diagnostics code fileName linkName) := by
  cases diagnostics
  · exact ⟨checked_none rfl, rfl, rfl⟩
  · exact ⟨checked_none rfl, rfl, rfl⟩

theorem apart_take : Apart s (s.take diagnostics e) := by
  rw [State.take]
  cases kind : e.kind with
  | directory => exact ⟨checked_some fun _ link => (by rw [kind] at link; cases link), rfl, rfl⟩
  | file => exact ⟨checked_some fun _ link => (by rw [kind] at link; cases link), rfl, rfl⟩
  | symLink linkName =>
    cases accepted : validateSymlinkTarget e.fileName linkName with
    | error code => simp only [accepted]; exact apart_caught
    | ok _ =>
      simp only [accepted]
      refine ⟨checked_some fun linkName' link => ?_, rfl, rfl⟩
      rw [kind] at link
      obtain rfl := Kind.symLink.inj link
      exact accepted

theorem apart_finish {error : Option Error} : Apart s (s.finish diagnostics e error) := by
  rw [State.finish.eq_def]
  split
  · exact apart_caught
  · exact ⟨checked_none rfl, rfl, rfl⟩

/-- A step is a system call for the current entry, or leaves the file tree alone. -/
theorem step_cases (taken : step links diagnostics root s ev = some t) :
    (∃ e c, s.current = some e ∧ ev = .call c ∧ c.isFor e ∧ t = s.perform links root e c) ∨
    Apart s t := by
  unfold step at taken
  by_cases stopped : s.returned.isSome = true
  · rw [if_pos stopped] at taken
    cases taken
  rw [if_neg stopped] at taken
  cases current : s.current with
  | none =>
    rw [current] at taken
    cases ev with
    | next e => cases taken; exact .inr apart_take
    | call c => cases taken
    | done error => cases taken
  | some e =>
    rw [current] at taken
    cases ev with
    | next e' => cases taken
    | call c =>
      by_cases isFor : c.isFor e
      · simp only [if_pos isFor] at taken
        exact .inl ⟨e, c, rfl, rfl, isFor, (Option.some.inj taken).symm⟩
      · simp only [if_neg isFor] at taken
        cases taken
    | done error => cases taken; exact .inr apart_finish

/-! ## The invariant -/

structure Inv (root : Loc) (s : State) : Prop where
  resolved : ∀ p ∈ s.resolved, root <+: p
  confined : Confined root s.tree
  checked : Checked s

/-- In a confined tree every created link stays below the root, through any others. -/
theorem Inv.insideRoot (inv : Inv root s) : InsideRoot root s where
  resolved := inv.resolved
  links d n target links inside _ := by
    apply inv.confined.walk_inside inside
    simp

/-- The lookup of a path of the current entry. -/
theorem Inv.visited (inv : Inv root s) {follow : Bool} {path : List Comp} (sub : path <+: e.comps) :
    ∀ p ∈ s.resolved ++ (walk s.tree follow links root path).visited, root <+: p := by
  have noUps : Comp.up ∉ path := fun mem => e.comps_noUps (sub.subset mem)
  intro p mem
  rcases List.mem_append.1 mem with before | now
  · exact inv.resolved p before
  · exact inv.confined.walk_inside List.prefix_rfl noUps p now

theorem Inv.made (inv : Inv root s) {follow : Bool} {path : List Comp} {node : Node Unit}
    (sub : path <+: e.comps)
    (fits : ∀ d n, root <+: d → (walk s.tree follow links root path).ends = .absent (d ++ [n]) →
      Confined root (s.tree.put (d ++ [n]) node)) :
    Inv root (s.made (walk s.tree follow links root path) node) := by
  refine ⟨inv.visited sub, ?_, inv.checked⟩
  obtain ⟨ends, eq⟩ : ∃ ends, (walk s.tree follow links root path).ends = ends := ⟨_, rfl⟩
  simp only [State.made, eq]
  cases ends with
  | found loc => exact inv.confined
  | fails => exact inv.confined
  | absent loc =>
    obtain ⟨_, _, d, mem, n, rfl⟩ := (endsIn_walk links).absent loc eq
    exact fits d n (inv.visited sub d (List.mem_append_right _ mem)) eq

/-- A system call keeps the invariant; a new link does when the check has counted right. -/
theorem Inv.perform (inv : Inv root s) (current : s.current = some e)
    (counted : CountRight links root s (.call c)) (isFor : c.isFor e) :
    Inv root (s.perform links root e c) := by
  cases c with
  | lookup path =>
    have sub : path <+: e.comps := List.isPrefixOf_iff_prefix.1 isFor
    exact ⟨inv.visited sub, inv.confined, inv.checked⟩
  | mkdir path =>
    have sub : path <+: e.comps := List.isPrefixOf_iff_prefix.1 isFor
    exact inv.made sub fun d n _ _ => inv.confined.put fun _ => by simp
  | createFile exclusive =>
    exact inv.made List.prefix_rfl fun d n _ _ => inv.confined.put fun _ => by simp
  | symLink =>
    rw [State.perform]
    cases kind : e.kind with
    | directory => exact inv
    | file => exact inv
    | symLink linkName =>
      refine inv.made List.prefix_rfl fun d n inside ends => ?_
      have right := counted e linkName d n current kind ends
      have accepted := inv.checked e linkName current kind
      have deep : Deep root d (Path.ofText linkName).comps := by
        rcases right.depth with enough | deep
        · exact deep_of_validate accepted inside enough
        · exact deep
      exact inv.confined.put_link (relative_of_validate accepted) deep right.plain right.own
        right.others

theorem Inv.step (inv : Inv root s) (counted : CountRight links root s ev)
    (taken : step links diagnostics root s ev = some t) : Inv root t := by
  rcases step_cases taken with ⟨e, c, current, rfl, isFor, rfl⟩ | apart
  · exact inv.perform current counted isFor
  · exact ⟨apart.resolved ▸ inv.resolved, apart.tree ▸ inv.confined, apart.checked⟩

/-- **Where the check counts right, no lookup of the extraction leaves the root, and no link
that it creates leads out of it.** -/
theorem extraction_stays_inside {tree : Filesystem Unit} {events : List Event}
    (noLinks : NoLinks root tree)
    (counted : Along (step links diagnostics root) (CountRight links root) (initial tree) events) :
    Always (step links diagnostics root) (InsideRoot root) (initial tree) events := by
  have start : Inv root (initial tree) :=
    ⟨fun p mem => absurd mem List.not_mem_nil, noLinks.confined, checked_none rfl⟩
  intro pre sub t run
  exact (exec_invariant_along (fun s ev t inv here taken => inv.step here taken) start
    (counted.of_prefix sub) run).insideRoot

/-- `d/s` links to `..`, and a file goes through it. -/
def linkUp : List Event := [
  .next ⟨"d/s".toList, .symLink "..".toList, by decide, by decide⟩,
  .call .symLink, .done none,
  .next ⟨"d/s/f".toList, .file, by decide, by decide⟩,
  .call (.createFile true), .done none]

theorem extraction_stays_inside_link_up :
    Along (step 8 true out) (CountRight 8 out)
      (initial (directories [[], out, out ++ ["d".toList]])) linkUp ∧
    Always (step 8 true out) (InsideRoot out)
      (initial (directories [[], out, out ++ ["d".toList]])) linkUp := by
  have counted : Along (step 8 true out) (CountRight 8 out)
      (initial (directories [[], out, out ++ ["d".toList]])) linkUp := by
    refine (along_cons rfl).2 ⟨trivial, (along_cons rfl).2 ⟨?_, (along_cons rfl).2 ⟨trivial,
      (along_cons rfl).2 ⟨trivial, (along_cons rfl).2 ⟨trivial, (along_cons rfl).2
        ⟨trivial, trivial⟩⟩⟩⟩⟩⟩
    intro e linkName d n current kind ends
    cases current
    cases kind
    have place : out ++ ["d".toList] ++ ["s".toList] = d ++ [n] := End.absent.inj ends
    obtain ⟨rfl, same⟩ := List.append_inj' place rfl
    cases same
    refine ⟨.inl (by decide), fun p _ q _ _ _ => ?_, by decide, fun _ _ _ _ link => ?_⟩
    · cases isLink : Filesystem.isLink _ q with
      | false => rfl
      | true =>
        obtain ⟨target, link⟩ := isLink_iff.1 isLink
        cases directories_eq_dir link
    · cases directories_eq_dir link
  exact ⟨counted, extraction_stays_inside noLinks_directories counted⟩

end SecurityAudits.ZigStdlib.Tar
