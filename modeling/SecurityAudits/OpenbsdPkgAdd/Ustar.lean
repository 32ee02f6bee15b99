import SecurityAudits.Lib.FileTree
import SecurityAudits.Lib.Grants
import SecurityAudits.Lib.Run

/-!
# Files of an archive in `OpenBSD::Ustar`

`next` accepts an entry only if its name, and the target of a hard link, is relative and has no
`..`; `File::create` opens the name with `O_NOFOLLOW`. The targets of symbolic links are not
looked at, by design, and `O_NOFOLLOW` speaks of the last component only.

So a file whose name goes through a link of the archive is opened wherever that leads
(`file_opened_outside`). Any other is opened under `destdir` at its own name, and what is
truncated there has no name outside, unless a hard link has brought it in through a symbolic
link (`file_opened_inside`).
-/

namespace SecurityAudits.OpenbsdPkgAdd.Ustar
set_option autoImplicit false
open SecurityAudits.FileTree SecurityAudits.Grants SecurityAudits.Run

abbrev Text := List Char

inductive Kind where
  | dir
  | file
  | softLink
  | hardLink
  | fifo
  | device
  deriving DecidableEq

structure Object where
  kind : Kind
  name : Text
  linkname : Text
  size : Nat

/-- The messages of `_fatal`. -/
inductive Fatal where
  | unsafeArchivePath (name : Text)
  | nonNullSize (kind : Kind) (name : Text)

/-- The pattern `(?:^|/)\.\.(?:/|$)`: a piece between slashes is `..`; before the end of the string
`$` lets a newline pass. The patch writes it between bars, `m|..|`, where perl takes the first bar
inside for the end and refuses the module; this is the pattern that is meant. -/
def hasDotDot (name : Text) : Bool :=
  let pieces := name.splitOn '/'
  ['.', '.'] ∈ pieces || pieces.getLast? = some ['.', '.', '\n']

def checkPath (name : Text) : Except Fatal Unit :=
  if name.head? = some '/' ∨ hasDotDot name then .error (.unsafeArchivePath name) else .ok ()

def checkEntryPaths (result : Object) : Except Fatal Unit := do
  checkPath result.name
  if result.kind = .hardLink then checkPath result.linkname

/-- What stands in the archive: a header, or extended records in front of another entry. -/
inductive Member where
  | header (o : Object)
  | xhdr (path linkpath : Option Text) (m : Member)

def parseRecords (result : Object) (path linkpath : Option Text) : Object :=
  { result with name := path.getD result.name, linkname := linkpath.getD result.linkname }

def next : Member → Except Fatal Object
  | .header result => do
    checkEntryPaths result
    if result.kind ≠ .file ∧ result.size ≠ 0 then
      throw (.nonNullSize result.kind result.name)
    return result
  | .xhdr path linkpath m => do
    let result ← next m
    let result := parseRecords result path linkpath
    checkEntryPaths result
    return result

structure Inode where
  number : Nat
  regular : Bool
  deriving DecidableEq

/-- The file system; the numbers from `fresh` on are not in use. -/
structure Disk where
  tree : Filesystem Inode
  fresh : Nat
  inUse : ∀ p ino, tree p = some (.file ino) → ino.number < fresh

/-- `mkdir`, `symlink` and `link` give a name to a node; they make no inode of a file. -/
def Disk.put (disk : Disk) (loc : Loc) (node : Node Inode)
    (known : ∀ ino, node = .file ino → ino.number < disk.fresh) : Disk where
  tree := disk.tree.put loc node
  fresh := disk.fresh
  inUse p ino file := by
    by_cases eq : p = loc
    · rw [eq, put_self] at file
      exact known ino (Option.some.inj file)
    · rw [put_of_ne eq] at file
      exact disk.inUse p ino file

def Disk.create (disk : Disk) (loc : Loc) (regular : Bool) : Disk where
  tree := disk.tree.put loc (.file ⟨disk.fresh, regular⟩)
  fresh := disk.fresh + 1
  inUse p ino file := by
    by_cases eq : p = loc
    · rw [eq, put_self] at file
      cases file
      exact Nat.lt_succ_self _
    · rw [put_of_ne eq] at file
      exact Nat.lt_succ_of_lt (disk.inUse p ino file)

/-- The second name `loc` for what `source` names, which is no directory. -/
def Disk.link (disk : Disk) (source loc : Loc) : Disk :=
  match node : disk.tree source with
  | some (.file ino) =>
    disk.put loc (.file ino) fun ino' same =>
      Node.file.inj same ▸ disk.inUse source ino node
  | some (.link target) => disk.put loc (.link target) fun _ same => (by cases same)
  | _ => disk

/-- The consumer of an archive between two entries, or in `create` of the current one. -/
structure State where
  disk : Disk
  current : Option Object
  died : Bool

def initial (disk : Disk) : State := ⟨disk, none, false⟩

/-- What follows `destdir` in the name of an object. -/
def comps (name : Text) : List Comp := (Path.ofText name).comps

/-- `next`, the system calls of `create`, and the ends of `create`. `mkdir` stands for those of
`_make_basedir` and `_ensure_dir`. -/
inductive Event where
  | next (m : Member)
  | mkdir (path : List Comp)
  | create
  | done
  | fatal

section System

-- At most `links` links are followed in a lookup; `link(2)` follows a link in the last place of
-- its first argument if `follows`, which systems differ in.
variable (links : Nat) (follows : Bool) (destdir : Loc)

/-- `sysopen` with `O_WRONLY|O_CREAT|O_TRUNC|O_NOFOLLOW`: the location that is opened, and the
file that was there and is truncated. -/
def sysopen (tree : Filesystem Inode) (name : Text) : Option (Loc × Option Inode) :=
  match (walk tree false links destdir (comps name)).ends with
  | .absent loc => some (loc, none)
  | .found loc =>
    match tree loc with
    | some (.file ino) => some (loc, some ino)
    | _ => none
  | .fails => none

/-- Where a name can be made for the object: it is missing in its directory. -/
def vacant (tree : Filesystem Inode) (path : List Comp) : Option Loc :=
  match (walk tree false links destdir path).ends with
  | .absent loc => some loc
  | _ => none

/-- The first argument of `link`. -/
def linkSource (tree : Filesystem Inode) (linkname : Text) : Option Loc :=
  match (walk tree follows links destdir (comps linkname)).ends with
  | .found loc => some loc
  | _ => none

def makeDir (disk : Disk) (path : List Comp) : Disk :=
  match vacant links destdir disk.tree path with
  | some loc => disk.put loc .dir fun _ same => (by cases same)
  | none => disk

/-- The last system call of `create`; `none` when `File::create` dies of it. The objects of the
other kinds go on or die in the next step. -/
def make (disk : Disk) (o : Object) : Option Disk :=
  match o.kind with
  | .dir => some disk
  | .file =>
    (sysopen links destdir disk.tree o.name).map fun opened =>
      if opened.2.isNone then disk.create opened.1 true else disk
  | .softLink =>
    match vacant links destdir disk.tree (comps o.name) with
    | some loc => some (disk.put loc (.link (Path.ofText o.linkname)) fun _ same => (by cases same))
    | none => some disk
  | .hardLink =>
    match linkSource links follows destdir disk.tree o.linkname,
      vacant links destdir disk.tree (comps o.name) with
    | some source, some loc => some (disk.link source loc)
    | _, _ => some disk
  | .fifo | .device =>
    match vacant links destdir disk.tree (comps o.name) with
    | some loc => some (disk.create loc false)
    | none => some disk

def step (s : State) (ev : Event) : Option State :=
  if s.died then none else
  match s.current, ev with
  | none, .next m =>
    match Ustar.next m with
    | .error _ => some { s with died := true }
    | .ok o => some { s with current := some o }
  | some o, .mkdir path =>
    if path.isPrefixOf (comps o.name) then
      some { s with disk := makeDir links destdir s.disk path }
    else none
  | some o, .create =>
    match make links follows destdir s.disk o with
    | some disk => some { s with disk := disk }
    | none => some { s with died := true }
  | some _, .done => some { s with current := none }
  | some _, .fatal => some { s with died := true }
  | _, _ => none

/-- What `File::create` opens in this state. -/
def opens (s : State) : Option (Object × Loc × Option Inode) :=
  match s.current with
  | some o =>
    if o.kind = .file then (sysopen links destdir s.disk.tree o.name).map (o, ·) else none
  | none => none

/-- A hard link is made of what its two names say, not of what links lead to. -/
def LinksDirectly (s : State) : Event → Prop
  | .create => ∀ o, s.current = some o → o.kind = .hardLink →
      direct s.disk.tree false destdir (comps o.name) ∧
      direct s.disk.tree follows destdir (comps o.linkname)
  | _ => True

end System

/-- No file has a name under `destdir` and one outside. -/
def Separate (destdir : Loc) (tree : Filesystem Inode) : Prop :=
  ∀ p q ino, tree p = some (.file ino) → tree q = some (.file ino) → destdir <+: p → destdir <+: q

/-! ## The archive of the write-up -/

def extract : Loc := ["tmp".toList, "extract".toList]

def newDisk : Disk where
  tree := directories [[], ["tmp".toList], extract, ["etc".toList]]
  fresh := 0
  inUse _ _ file := by cases directories_eq_dir file

/-- A link `subdir` to `../../etc`, and then a file `subdir/foo`. -/
def redirected : List Event := [
  .next (.header ⟨.softLink, "subdir".toList, "../../etc".toList, 0⟩), .create, .done,
  .next (.header ⟨.file, "subdir/foo".toList, [], 3⟩)]

/-- **A file whose name goes through a link is opened outside `destdir`.** -/
theorem file_opened_outside :
    ¬ Always (step 8 true extract)
      (fun s => ∀ o loc old, opens 8 extract s = some (o, loc, old) → extract <+: loc)
      (initial newDisk) redirected := by
  intro always
  have outside : ((exec (step 8 true extract) (initial newDisk) redirected).bind
      (opens 8 extract)).map (fun opened => opened.2.1) =
        some ["etc".toList, "foo".toList] := by decide +kernel
  obtain ⟨⟨o, loc, old⟩, opened, place⟩ := Option.map_eq_some_iff.1 outside
  obtain ⟨s, run, opened⟩ := Option.bind_eq_some_iff.1 opened
  have inside := always redirected List.prefix_rfl s run o loc old opened
  rw [show loc = ["etc".toList, "foo".toList] from place] at inside
  exact absurd inside (by decide)

/-! ## What the checks establish -/

theorem noUps_of_checkPath {name : Text} (checked : checkPath name = .ok ()) :
    Comp.up ∉ comps name := by
  rw [checkPath] at checked
  split at checked
  · cases checked
  · next accepted =>
    refine up_notMem_ofText fun mem => accepted (.inr ?_)
    have piece : ['.', '.'] ∈ name.splitOn '/' := (List.mem_filter.1 mem).1
    simp [hasDotDot, piece]

/-- The paths of an object that `next` has let pass climb nowhere. -/
structure Checked (o : Object) : Prop where
  name : Comp.up ∉ comps o.name
  linkname : o.kind = .hardLink → Comp.up ∉ comps o.linkname

theorem checked_of_checkEntryPaths {o : Object} {u : Unit} (accepted : checkEntryPaths o = .ok u) :
    Checked o := by
  rw [checkEntryPaths, bind_eq_ok] at accepted
  obtain ⟨_, name, linkname⟩ := accepted
  refine ⟨noUps_of_checkPath name, fun hardLink => noUps_of_checkPath ?_⟩
  rw [if_pos hardLink] at linkname
  exact linkname

/-- Extended records are checked like the header that they override. -/
theorem checked_next {m : Member} {o : Object} (accepted : next m = .ok o) : Checked o := by
  cases m with
  | header result =>
    rw [next, bind_eq_ok] at accepted
    obtain ⟨_, checked, returns⟩ := accepted
    by_cases nonNull : result.kind ≠ .file ∧ result.size ≠ 0
    · simp only [if_pos nonNull] at returns
      cases returns
    · simp only [if_neg nonNull] at returns
      cases returns
      exact checked_of_checkEntryPaths checked
  | xhdr path linkpath m =>
    rw [next, bind_eq_ok] at accepted
    obtain ⟨result, _, rest⟩ := accepted
    obtain ⟨_, checked, returns⟩ := bind_eq_ok.1 rest
    cases returns
    exact checked_of_checkEntryPaths checked

/-! ## Names and files -/

variable {links : Nat} {follows : Bool} {destdir : Loc} {disk disk' : Disk} {s t : State}
  {ev : Event} {o : Object} {loc : Loc}

/-- A new name keeps files apart if the other names of its file lie on its side. -/
theorem Separate.put {tree : Filesystem Inode} {node : Node Inode}
    (separate : Separate destdir tree)
    (alike : ∀ q ino, node = .file ino → tree q = some (.file ino) →
      (destdir <+: loc ↔ destdir <+: q)) : Separate destdir (tree.put loc node) := by
  intro p q ino atP atQ inside
  by_cases newP : p = loc
  · by_cases newQ : q = loc
    · rwa [newQ, ← newP]
    · rw [newP, put_self] at atP
      rw [put_of_ne newQ] at atQ
      exact (alike q ino (Option.some.inj atP) atQ).1 (newP ▸ inside)
  · rw [put_of_ne newP] at atP
    by_cases newQ : q = loc
    · rw [newQ, put_self] at atQ
      rw [newQ]
      exact (alike p ino (Option.some.inj atQ) atP).2 inside
    · rw [put_of_ne newQ] at atQ
      exact separate p q ino atP atQ inside

theorem Separate.create (separate : Separate destdir disk.tree) {regular : Bool} :
    Separate destdir (disk.create loc regular).tree := by
  apply separate.put
  intro q ino same file
  have old := disk.inUse q ino file
  rw [← Node.file.inj same] at old
  exact absurd old (Nat.lt_irrefl _)

theorem Separate.link (separate : Separate destdir disk.tree) {source : Loc}
    (inside : destdir <+: source) (target : destdir <+: loc) :
    Separate destdir (disk.link source loc).tree := by
  rw [Disk.link]
  split
  · next ino node =>
    apply separate.put
    intro q ino' same file
    constructor
    · intro _
      rw [← Node.file.inj same] at file
      exact separate source q ino node file inside
    · intro _
      exact target
  · exact separate.put fun _ _ same => (by cases same)
  · exact separate

theorem Separate.makeDir (separate : Separate destdir disk.tree) {path : List Comp} :
    Separate destdir (makeDir links destdir disk path).tree := by
  rw [Ustar.makeDir]
  split
  · exact separate.put fun _ _ same => (by cases same)
  · exact separate

/-- A checked path that meets no link leads to the location that it spells, under `destdir`. -/
theorem inside_of_direct {tree : Filesystem Inode} {follow : Bool} {path : List Comp}
    (noUps : Comp.up ∉ path) (noLink : direct tree follow destdir path)
    (ends : (walk tree follow links destdir path).ends = .found loc ∨
      (walk tree follow links destdir path).ends = .absent loc) :
    loc = lexical destdir path ∧ destdir <+: loc := by
  have place := walk_direct noLink ends
  exact ⟨place, place ▸ prefix_lexical noUps⟩

theorem vacant_eq {tree : Filesystem Inode} {path : List Comp}
    (found : vacant links destdir tree path = some loc) :
    (walk tree false links destdir path).ends = .absent loc := by
  rw [vacant] at found
  split at found
  · next loc' ends => rw [ends, Option.some.inj found]
  · cases found

theorem linkSource_eq {tree : Filesystem Inode} {linkname : Text}
    (found : linkSource links follows destdir tree linkname = some loc) :
    (walk tree follows links destdir (comps linkname)).ends = .found loc := by
  rw [linkSource] at found
  split at found
  · next loc' ends => rw [ends, Option.some.inj found]
  · cases found

theorem sysopen_ends {tree : Filesystem Inode} {name : Text} {old : Option Inode}
    (opened : sysopen links destdir tree name = some (loc, old)) :
    ((walk tree false links destdir (comps name)).ends = .found loc ∨
      (walk tree false links destdir (comps name)).ends = .absent loc) ∧
    ∀ ino, old = some ino → tree loc = some (.file ino) := by
  rw [sysopen] at opened
  split at opened
  · next loc' ends =>
    cases opened
    exact ⟨.inr ends, fun _ none => (by cases none)⟩
  · next loc' ends =>
    split at opened
    · next ino file =>
      cases opened
      refine ⟨.inl ends, fun ino' same => ?_⟩
      cases same
      exact file
    · cases opened
  · cases opened

theorem Separate.make (separate : Separate destdir disk.tree) (checked : Checked o)
    (noLink : o.kind = .hardLink → direct disk.tree false destdir (comps o.name) ∧
      direct disk.tree follows destdir (comps o.linkname))
    (made : make links follows destdir disk o = some disk') : Separate destdir disk'.tree := by
  rw [Ustar.make] at made
  cases kind : o.kind with
  | dir => simp only [kind] at made; cases made; exact separate
  | file =>
    simp only [kind] at made
    obtain ⟨⟨loc, old⟩, _, rfl⟩ := Option.map_eq_some_iff.1 made
    split
    · exact separate.create
    · exact separate
  | softLink =>
    simp only [kind] at made
    split at made
    · cases made
      exact separate.put fun _ _ same => (by cases same)
    · cases made
      exact separate
  | hardLink =>
    simp only [kind] at made
    split at made
    · next source loc found free =>
      cases made
      obtain ⟨name, linkname⟩ := noLink kind
      have old := inside_of_direct (checked.linkname kind) linkname (.inl (linkSource_eq found))
      have new := inside_of_direct checked.name name (.inr (vacant_eq free))
      exact separate.link old.2 new.2
    · cases made
      exact separate
  | fifo | device =>
    simp only [kind] at made
    split at made
    · cases made; exact separate.create
    · cases made; exact separate

/-! ## Runs -/

/-- What a step does: a directory or the object of the current entry is made, or the disk stays
as it is and a new object has passed `next`. -/
theorem step_cases (taken : step links follows destdir s ev = some t) :
    (∃ path, t = { s with disk := makeDir links destdir s.disk path }) ∨
    (∃ o disk, s.current = some o ∧ ev = .create ∧
      make links follows destdir s.disk o = some disk ∧ t = { s with disk := disk }) ∨
    (t.disk = s.disk ∧
      ∀ o, t.current = some o → s.current = some o ∨ ∃ m, Ustar.next m = .ok o) := by
  unfold step at taken
  by_cases died : s.died = true
  · rw [if_pos died] at taken
    cases taken
  rw [if_neg died] at taken
  cases current : s.current with
  | none =>
    rw [current] at taken
    cases ev with
    | next m =>
      refine .inr (.inr ?_)
      cases result : Ustar.next m with
      | error fatal =>
        simp only [result] at taken
        cases taken
        exact ⟨rfl, fun o now => .inl (current ▸ now)⟩
      | ok o =>
        simp only [result] at taken
        cases taken
        exact ⟨rfl, fun o' now => .inr ⟨m, Option.some.inj now ▸ result⟩⟩
    | mkdir path => cases taken
    | create => cases taken
    | done => cases taken
    | fatal => cases taken
  | some o =>
    rw [current] at taken
    cases ev with
    | next m => cases taken
    | mkdir path =>
      by_cases sub : path.isPrefixOf (comps o.name)
      · simp only [if_pos sub] at taken
        exact .inl ⟨path, (Option.some.inj taken).symm⟩
      · simp only [if_neg sub] at taken
        cases taken
    | create =>
      cases made : make links follows destdir s.disk o with
      | none =>
        simp only [made] at taken
        cases taken
        exact .inr (.inr ⟨rfl, fun o' now => .inl (current ▸ now)⟩)
      | some disk =>
        simp only [made] at taken
        exact .inr (.inl ⟨o, disk, rfl, rfl, made, (Option.some.inj taken).symm⟩)
    | done =>
      cases taken
      exact .inr (.inr ⟨rfl, fun _ none => (by cases none)⟩)
    | fatal =>
      cases taken
      exact .inr (.inr ⟨rfl, fun o' now => .inl (current ▸ now)⟩)

theorem opens_eq {old : Option Inode} (opened : opens links destdir s = some (o, loc, old)) :
    s.current = some o ∧ sysopen links destdir s.disk.tree o.name = some (loc, old) := by
  rw [opens] at opened
  split at opened
  · next o' current =>
    split at opened
    · obtain ⟨_, found, same⟩ := Option.map_eq_some_iff.1 opened
      cases same
      exact ⟨current, found⟩
    · cases opened
  · cases opened

/-- The object that is being made has been checked. -/
def CurrentChecked (s : State) : Prop := ∀ o, s.current = some o → Checked o

theorem CurrentChecked.step (checked : CurrentChecked s)
    (taken : step links follows destdir s ev = some t) : CurrentChecked t := by
  intro o current
  rcases step_cases taken with ⟨path, rfl⟩ | ⟨_, disk, _, _, _, rfl⟩ | ⟨_, passed⟩
  · exact checked o current
  · exact checked o current
  · rcases passed o current with before | ⟨m, accepted⟩
    · exact checked o before
    · exact checked_next accepted

structure Inv (destdir : Loc) (s : State) : Prop where
  checked : CurrentChecked s
  separate : Separate destdir s.disk.tree

theorem Inv.step (inv : Inv destdir s) (linksDirectly : LinksDirectly follows destdir s ev)
    (taken : step links follows destdir s ev = some t) : Inv destdir t := by
  refine ⟨inv.checked.step taken, ?_⟩
  rcases step_cases taken with ⟨path, rfl⟩ | ⟨o, disk, current, rfl, made, rfl⟩ | ⟨same, _⟩
  · exact inv.separate.makeDir
  · exact inv.separate.make (inv.checked o current) (linksDirectly o current) made
  · exact same ▸ inv.separate

/-- **A file whose name goes through no link is opened at that name under `destdir`; and if the
hard links before it went through none either, what it truncates has no name outside.** -/
theorem file_opened_inside {events : List Event} {old : Option Inode}
    (run : exec (step links follows destdir) (initial disk) events = some s)
    (opened : opens links destdir s = some (o, loc, old))
    (noLink : direct s.disk.tree false destdir (comps o.name)) :
    loc = lexical destdir (comps o.name) ∧ destdir <+: loc ∧
    (Separate destdir disk.tree →
      Along (step links follows destdir) (LinksDirectly follows destdir) (initial disk) events →
      ∀ ino, old = some ino → ∀ p, s.disk.tree p = some (.file ino) → destdir <+: p) := by
  have nothing : CurrentChecked (initial disk) := fun _ none => (by cases none)
  have checked : CurrentChecked s :=
    exec_invariant (fun _ _ _ checked taken => checked.step taken) nothing run
  obtain ⟨current, ends⟩ := opens_eq opened
  obtain ⟨place, inside⟩ :=
    inside_of_direct (checked o current).name noLink (sysopen_ends ends).1
  refine ⟨place, inside, fun separate linksDirectly ino same p named => ?_⟩
  have inv : Inv destdir s :=
    exec_invariant_along (fun _ _ _ inv here taken => inv.step here taken) ⟨nothing, separate⟩
      linksDirectly run
  exact inv.separate loc p ino ((sysopen_ends ends).2 ino same) named inside

/-- A file `f`, a hard link `h` to it, and then a file `h`. -/
def linkedTwice : List Event := [
  .next (.header ⟨.file, "f".toList, [], 1⟩), .create, .done,
  .next (.header ⟨.hardLink, "h".toList, "f".toList, 0⟩), .create, .done,
  .next (.header ⟨.file, "h".toList, [], 2⟩)]

theorem file_opened_inside_linked_twice :
    ∃ s, exec (step 8 true extract) (initial newDisk) linkedTwice = some s ∧
      ∀ p, s.disk.tree p = some (.file ⟨0, true⟩) → extract <+: p := by
  have ends : (exec (step 8 true extract) (initial newDisk) linkedTwice).map (fun s =>
      ((opens 8 extract s).map fun opened => (opened.1.name, opened.2.2),
        direct s.disk.tree false extract (comps "h".toList))) =
      some (some ("h".toList, some ⟨0, true⟩), true) := by decide +kernel
  obtain ⟨s, run, facts⟩ := Option.map_eq_some_iff.1 ends
  obtain ⟨opened, noLink⟩ := Prod.mk.inj facts
  obtain ⟨⟨o, loc, old⟩, opened, same⟩ := Option.map_eq_some_iff.1 opened
  obtain ⟨name, old⟩ := Prod.mk.inj same
  have linksDirectly : Along (step 8 true extract) (LinksDirectly true extract) (initial newDisk)
      linkedTwice := by
    refine (along_cons rfl).2 ⟨trivial, (along_cons rfl).2 ⟨?_, (along_cons rfl).2 ⟨trivial,
      (along_cons rfl).2 ⟨trivial, (along_cons rfl).2 ⟨?_, (along_cons rfl).2 ⟨trivial,
        (along_cons rfl).2 ⟨trivial, trivial⟩⟩⟩⟩⟩⟩⟩
    · intro o current hardLink
      cases current
      cases hardLink
    · intro o current hardLink
      cases current
      exact ⟨by decide +kernel, by decide +kernel⟩
  have separate : Separate extract newDisk.tree := by
    intro p q ino file
    cases directories_eq_dir file
  have inside := file_opened_inside run opened (by rw [name]; exact noLink)
  exact ⟨s, run, inside.2.2 separate linksDirectly ⟨0, true⟩ old⟩

end SecurityAudits.OpenbsdPkgAdd.Ustar
