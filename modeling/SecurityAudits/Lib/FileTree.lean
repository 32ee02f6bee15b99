import Mathlib.Data.List.Infix
import Mathlib.Logic.Function.Basic

/-!
# Path lookups in a file tree with symbolic links

A tree maps real locations (the names from `/` down) to nodes. `walk` is the system's lookup of
a path: it goes through the links that it meets, at most `links` of them, and remembers every
location it comes to.

Two readings of a path are compared with it. `lexical` reads names as directories, which is
right where the lookup meets no link (`direct`, `walk_direct`). `upsFrom` is the same reading
kept at every `..`; `Confined` asks of every link under a root that its `..`s, so read, are
taken strictly below the root and not below a link, and then no lookup leaves the root
(`Confined.walk_inside`).
-/

namespace SecurityAudits.FileTree
set_option autoImplicit false

abbrev Name := List Char

/-- A real location: the names on the way to it from `/`. -/
abbrev Loc := List Name

inductive Comp where
  | here
  | up
  | name (n : Name)
  deriving DecidableEq

structure Path where
  absolute : Bool
  comps : List Comp
  deriving DecidableEq

/-- The pieces between slashes that are not empty. -/
def tokens (text : List Char) : List Name := (text.splitOn '/').filter fun t => !t.isEmpty

def Comp.ofToken (t : Name) : Comp :=
  if t = ['.'] then .here else if t = ['.', '.'] then .up else .name t

/-- The path that `text` spells. A slash at its end asks for a directory, as `.` does. -/
def Path.ofText (text : List Char) : Path where
  absolute := text.head? = some '/'
  comps := (tokens text).map Comp.ofToken ++ if text.getLast? = some '/' then [.here] else []

/-- The slash at the end of a path adds no `..`. -/
theorem up_notMem_slash (text : List Char) :
    Comp.up ∉ (if text.getLast? = some '/' then [Comp.here] else []) := by
  split <;> simp

theorem up_notMem_ofText {text : List Char} (noUps : ['.', '.'] ∉ tokens text) :
    Comp.up ∉ (Path.ofText text).comps := by
  intro mem
  rcases List.mem_append.1 mem with name | slash
  · obtain ⟨token, among, eq⟩ := List.mem_map.1 name
    rw [Comp.ofToken] at eq
    split at eq
    · cases eq
    · split at eq
      · next up => exact noUps (up ▸ among)
      · cases eq
  · exact up_notMem_slash text slash

/-- Where the first component of the path is looked up, for a link in the directory `loc`. -/
def Path.base (p : Path) (loc : Loc) : Loc := if p.absolute then [] else loc

inductive Node (F : Type) where
  | dir
  | file (f : F)
  | link (target : Path)
  deriving DecidableEq

abbrev Filesystem (F : Type) := Loc → Option (Node F)

variable {F : Type}

/-- A tree of nothing but directories. -/
def directories (locs : List Loc) : Filesystem F := fun p => if p ∈ locs then some .dir else none

theorem directories_eq_dir {locs : List Loc} {p : Loc} {node : Node F}
    (found : directories locs p = some node) : node = .dir := by
  rw [directories] at found
  split at found
  · exact (Option.some.inj found).symm
  · cases found

def Filesystem.put (t : Filesystem F) (loc : Loc) (node : Node F) : Filesystem F :=
  Function.update t loc (some node)

/-- `q` is a symbolic link. -/
def Filesystem.isLink (t : Filesystem F) (q : Loc) : Bool :=
  match t q with
  | some (.link _) => true
  | _ => false

theorem isLink_iff {t : Filesystem F} {q : Loc} :
    t.isLink q = true ↔ ∃ target, t q = some (.link target) := by
  rw [Filesystem.isLink]
  cases node : t q with
  | none => simp
  | some found => cases found <;> simp

/-- How a lookup ends; `absent` is a name that its directory does not have. -/
inductive End where
  | found (loc : Loc)
  | absent (loc : Loc)
  | fails
  deriving DecidableEq

structure Lookup where
  visited : List Loc
  ends : End

def Lookup.after (loc : Loc) (l : Lookup) : Lookup := ⟨loc :: l.visited, l.ends⟩

/-- A lookup up to the first link that it goes through; `jump` is the lookup from there. A link
in the last place is an end itself unless `follow`. -/
def scan (t : Filesystem F) (follow : Bool) (jump : Loc → List Comp → Lookup) :
    Loc → List Comp → Lookup
  | loc, [] => ⟨[loc], .found loc⟩
  | loc, .here :: cs => (scan t follow jump loc cs).after loc
  | loc, .up :: cs => (scan t follow jump loc.dropLast cs).after loc
  | loc, .name n :: cs =>
    match t (loc ++ [n]) with
    | some .dir => (scan t follow jump (loc ++ [n]) cs).after loc
    | some (.file _) =>
      if cs = [] then ⟨[loc, loc ++ [n]], .found (loc ++ [n])⟩ else ⟨[loc], .fails⟩
    | some (.link target) =>
      if cs = [] ∧ follow = false then ⟨[loc, loc ++ [n]], .found (loc ++ [n])⟩
      else (jump (target.base loc) (target.comps ++ cs)).after loc
    | none => if cs = [] then ⟨[loc, loc ++ [n]], .absent (loc ++ [n])⟩ else ⟨[loc], .fails⟩

/-- The lookup of a path from the directory `loc`, through at most `links` links. -/
def walk (t : Filesystem F) (follow : Bool) : (links : Nat) → Loc → List Comp → Lookup
  | 0 => scan t follow fun _ _ => ⟨[], .fails⟩
  | links + 1 => scan t follow (walk t follow links)

variable {t : Filesystem F} {follow : Bool} {loc root : Loc} {cs : List Comp} {n : Name}

/-! ## Rules for lookups -/

/-- What a lookup does at a name: it enters a directory, goes through a link, ends there when
the name is the last one, or fails. -/
theorem scan_name_cases (t : Filesystem F) (follow : Bool) (jump : Loc → List Comp → Lookup) :
    (t (loc ++ [n]) = some .dir ∧ scan t follow jump loc (.name n :: cs) =
      (scan t follow jump (loc ++ [n]) cs).after loc) ∨
    (∃ target, t (loc ++ [n]) = some (.link target) ∧ ¬ (cs = [] ∧ follow = false) ∧
      scan t follow jump loc (.name n :: cs) =
        (jump (target.base loc) (target.comps ++ cs)).after loc) ∨
    (cs = [] ∧ scan t follow jump loc (.name n :: cs) =
      ⟨[loc, loc ++ [n]], .found (loc ++ [n])⟩) ∨
    (t (loc ++ [n]) = none ∧ cs = [] ∧ scan t follow jump loc (.name n :: cs) =
      ⟨[loc, loc ++ [n]], .absent (loc ++ [n])⟩) ∨
    scan t follow jump loc (.name n :: cs) = ⟨[loc], .fails⟩ := by
  rw [scan]
  cases node : t (loc ++ [n]) with
  | none =>
    by_cases last : cs = []
    · exact .inr (.inr (.inr (.inl ⟨rfl, last, if_pos last⟩)))
    · exact .inr (.inr (.inr (.inr (if_neg last))))
  | some node' =>
    cases node' with
    | dir => exact .inl ⟨rfl, rfl⟩
    | file f =>
      by_cases last : cs = []
      · exact .inr (.inr (.inl ⟨last, if_pos last⟩))
      · exact .inr (.inr (.inr (.inr (if_neg last))))
    | link target =>
      by_cases last : cs = [] ∧ follow = false
      · exact .inr (.inr (.inl ⟨last.1, if_pos last⟩))
      · exact .inr (.inl ⟨target, rfl, last, if_neg last⟩)

theorem forall_visited_after {P : Loc → Prop} {l : Lookup} :
    (∀ p ∈ (l.after loc).visited, P p) ↔ P loc ∧ ∀ p ∈ l.visited, P p :=
  List.forall_mem_cons

/-- What is said of a location and the components still to look up is kept by a lookup. -/
structure Kept (t : Filesystem F) (Inv : Loc → List Comp → Prop) : Prop where
  here : ∀ {loc cs}, Inv loc (.here :: cs) → Inv loc cs
  up : ∀ {loc cs}, Inv loc (.up :: cs) → Inv loc.dropLast cs
  name : ∀ {loc n cs}, Inv loc (.name n :: cs) → Inv (loc ++ [n]) cs
  jump : ∀ {loc n cs target}, t (loc ++ [n]) = some (.link target) →
    Inv loc (.name n :: cs) → Inv (target.base loc) (target.comps ++ cs)

/-- The part of `Kept.walk` between two links. -/
theorem Kept.scan {Inv : Loc → List Comp → Prop} {jump : Loc → List Comp → Lookup}
    (kept : Kept t Inv)
    (jumps : ∀ loc cs, Inv loc cs → ∀ p ∈ (jump loc cs).visited, ∃ rest, Inv p rest)
    (start : Inv loc cs) :
    ∀ p ∈ (scan t follow jump loc cs).visited, ∃ rest, Inv p rest := by
  induction cs generalizing loc with
  | nil => exact List.forall_mem_singleton.2 ⟨_, start⟩
  | cons c cs ih =>
    cases c with
    | here => exact forall_visited_after.2 ⟨⟨_, start⟩, ih (kept.here start)⟩
    | up => exact forall_visited_after.2 ⟨⟨_, start⟩, ih (kept.up start)⟩
    | name n =>
      have last : ∀ p ∈ [loc, loc ++ [n]], ∃ rest, Inv p rest :=
        List.forall_mem_cons.2 ⟨⟨_, start⟩, List.forall_mem_singleton.2 ⟨_, kept.name start⟩⟩
      rcases scan_name_cases t follow jump
        with ⟨_, eq⟩ | ⟨target, node, _, eq⟩ | ⟨_, eq⟩ | ⟨_, _, eq⟩ | eq
      · rw [eq]
        exact forall_visited_after.2 ⟨⟨_, start⟩, ih (kept.name start)⟩
      · rw [eq]
        exact forall_visited_after.2 ⟨⟨_, start⟩, jumps _ _ (kept.jump node start)⟩
      · rw [eq]; exact last
      · rw [eq]; exact last
      · rw [eq]; exact List.forall_mem_singleton.2 ⟨_, start⟩

/-- The lookup rule: an invariant of the lookup holds wherever it comes. -/
theorem Kept.walk {Inv : Loc → List Comp → Prop} (kept : Kept t Inv) (links : Nat)
    (start : Inv loc cs) : ∀ p ∈ (walk t follow links loc cs).visited, ∃ rest, Inv p rest := by
  induction links generalizing loc cs with
  | zero => exact kept.scan (fun _ _ _ p none => absurd none List.not_mem_nil) start
  | succ links ih => exact kept.scan (fun _ _ start => ih start) start

/-- How a lookup ends: at a location that it has come to, or at a name that is missing in a
directory that it has come to. -/
structure Lookup.EndsIn (t : Filesystem F) (l : Lookup) : Prop where
  found : ∀ p, l.ends = .found p → p ∈ l.visited
  absent : ∀ p, l.ends = .absent p →
    t p = none ∧ p ∈ l.visited ∧ ∃ d ∈ l.visited, ∃ n, p = d ++ [n]

theorem Lookup.EndsIn.after {l : Lookup} (ends : l.EndsIn t) : (l.after loc).EndsIn t := by
  refine ⟨fun p found => List.mem_cons_of_mem _ (ends.found p found), fun p absent => ?_⟩
  obtain ⟨none, visited, d, mem, n, eq⟩ := ends.absent p absent
  exact ⟨none, List.mem_cons_of_mem _ visited, d, List.mem_cons_of_mem _ mem, n, eq⟩

theorem endsIn_found {visited : List Loc} {p : Loc} (mem : p ∈ visited) :
    (Lookup.mk visited (.found p)).EndsIn t :=
  ⟨fun _ found => End.found.inj found ▸ mem, fun _ absent => (by cases absent)⟩

theorem endsIn_fails {visited : List Loc} : (Lookup.mk visited .fails).EndsIn t :=
  ⟨fun _ found => (by cases found), fun _ absent => (by cases absent)⟩

theorem endsIn_absent (missing : t (loc ++ [n]) = none) :
    (Lookup.mk [loc, loc ++ [n]] (.absent (loc ++ [n]))).EndsIn t := by
  refine ⟨fun _ found => (by cases found), fun p absent => ?_⟩
  obtain rfl := End.absent.inj absent
  exact ⟨missing, by simp, loc, by simp, n, rfl⟩

theorem endsIn_scan {jump : Loc → List Comp → Lookup}
    (jumps : ∀ loc cs, (jump loc cs).EndsIn t) : (scan t follow jump loc cs).EndsIn t := by
  induction cs generalizing loc with
  | nil => exact endsIn_found (List.mem_singleton_self loc)
  | cons c cs ih =>
    cases c with
    | here => exact ih.after
    | up => exact ih.after
    | name n =>
      rcases scan_name_cases t follow jump
        with ⟨_, eq⟩ | ⟨target, _, _, eq⟩ | ⟨_, eq⟩ | ⟨missing, _, eq⟩ | eq
      · rw [eq]; exact ih.after
      · rw [eq]; exact (jumps _ _).after
      · rw [eq]; exact endsIn_found (by simp)
      · rw [eq]; exact endsIn_absent missing
      · rw [eq]; exact endsIn_fails

theorem endsIn_walk (links : Nat) : (walk t follow links loc cs).EndsIn t := by
  induction links generalizing loc cs with
  | zero => exact endsIn_scan fun _ _ => endsIn_fails
  | succ links ih => exact endsIn_scan fun _ _ => ih

/-! ## Lookups that meet no link -/

/-- Where `cs` leads from `loc` when its names are directories. -/
def lexical : Loc → List Comp → Loc
  | loc, [] => loc
  | loc, .here :: cs => lexical loc cs
  | loc, .up :: cs => lexical loc.dropLast cs
  | loc, .name n :: cs => lexical (loc ++ [n]) cs

/-- The lookup of `cs` from `loc` goes through no link. -/
def direct (t : Filesystem F) (follow : Bool) : Loc → List Comp → Bool
  | _, [] => true
  | loc, .here :: cs => direct t follow loc cs
  | loc, .up :: cs => direct t follow loc.dropLast cs
  | loc, .name n :: cs =>
    (!t.isLink (loc ++ [n]) || (cs.isEmpty && !follow)) && direct t follow (loc ++ [n]) cs

/-- A lookup that goes through no link ends where the path reads, if it ends anywhere. -/
theorem scan_direct {jump : Loc → List Comp → Lookup} (noLink : direct t follow loc cs) {p : Loc}
    (ends : (scan t follow jump loc cs).ends = .found p ∨
      (scan t follow jump loc cs).ends = .absent p) :
    p = lexical loc cs := by
  induction cs generalizing loc with
  | nil => rcases ends with found | absent <;> [exact (End.found.inj found).symm; cases absent]
  | cons c cs ih =>
    cases c with
    | here => exact ih noLink ends
    | up => exact ih noLink ends
    | name n =>
      obtain ⟨here, later⟩ := Bool.and_eq_true_iff.1 noLink
      rcases scan_name_cases t follow jump
        with ⟨_, eq⟩ | ⟨target, node, through, eq⟩ | ⟨noneLeft, eq⟩ | ⟨_, noneLeft, eq⟩ | eq
      · rw [eq] at ends; exact ih later ends
      · rw [isLink_iff.2 ⟨target, node⟩] at here
        exact absurd (by simpa using here) through
      · rw [eq] at ends
        subst noneLeft
        rcases ends with found | absent
        · exact (End.found.inj found).symm
        · cases absent
      · rw [eq] at ends
        subst noneLeft
        rcases ends with found | absent
        · cases found
        · exact (End.absent.inj absent).symm
      · rw [eq] at ends
        rcases ends with found | absent
        · cases found
        · cases absent

theorem walk_direct {links : Nat} (noLink : direct t follow loc cs) {p : Loc}
    (ends : (walk t follow links loc cs).ends = .found p ∨
      (walk t follow links loc cs).ends = .absent p) : p = lexical loc cs := by
  cases links with
  | zero => exact scan_direct noLink ends
  | succ links => exact scan_direct noLink ends

theorem prefix_lexical (noUps : Comp.up ∉ cs) : loc <+: lexical loc cs := by
  induction cs generalizing loc with
  | nil => exact List.prefix_rfl
  | cons c cs ih =>
    have later : Comp.up ∉ cs := fun mem => noUps (List.mem_cons_of_mem _ mem)
    cases c with
    | here => exact ih later
    | up => exact absurd List.mem_cons_self noUps
    | name n => exact (List.prefix_append loc [n]).trans (ih later)

/-! ## Lookups that stay below a root -/

/-- The locations at which the `..`s of `cs` are taken when its names are directories. -/
def upsFrom : Loc → List Comp → List Loc
  | _, [] => []
  | loc, .here :: cs => upsFrom loc cs
  | loc, .up :: cs => loc :: upsFrom loc.dropLast cs
  | loc, .name n :: cs => upsFrom (loc ++ [n]) cs

/-- No link lies on the way from `root` down to `p`. -/
def LinkFree (root : Loc) (t : Filesystem F) (p : Loc) : Prop :=
  ∀ q, root <+: q → q ≠ root → q <+: p → t.isLink q = false

/-- `cs`, read from `loc`, takes no `..` at the root or above it. -/
def Deep (root loc : Loc) (cs : List Comp) : Prop :=
  ∀ p ∈ upsFrom loc cs, root <+: p ∧ p ≠ root

/-- `cs`, read from `loc`, takes no `..` at a link or below one. -/
def Plain (root : Loc) (t : Filesystem F) (loc : Loc) (cs : List Comp) : Prop :=
  ∀ p ∈ upsFrom loc cs, LinkFree root t p

/-- The links below `root` are relative, and their `..`s are taken below the root and not below
a link. -/
def Confined (root : Loc) (t : Filesystem F) : Prop :=
  ∀ d n target, root <+: d → t (d ++ [n]) = some (.link target) →
    target.absolute = false ∧ Deep root d target.comps ∧ Plain root t d target.comps

/-- There is no link below `root`. -/
def NoLinks (root : Loc) (t : Filesystem F) : Prop :=
  ∀ d n target, root <+: d → t (d ++ [n]) ≠ some (.link target)

theorem NoLinks.confined (noLinks : NoLinks root t) : Confined root t :=
  fun d n target inside link => absurd link (noLinks d n target inside)

theorem noLinks_directories {locs : List Loc} : NoLinks root (directories locs : Filesystem F) := by
  intro d n target _ link
  cases directories_eq_dir link

theorem upsFrom_append {cs' : List Comp} :
    upsFrom loc (cs ++ cs') = upsFrom loc cs ++ upsFrom (lexical loc cs) cs' := by
  induction cs generalizing loc with
  | nil => rfl
  | cons c cs ih =>
    cases c with
    | here => exact ih
    | up => exact congrArg (loc :: ·) ih
    | name n => exact ih

theorem upsFrom_eq_nil (loc : Loc) (noUps : Comp.up ∉ cs) : upsFrom loc cs = [] := by
  induction cs generalizing loc with
  | nil => rfl
  | cons c cs ih =>
    have later : Comp.up ∉ cs := fun mem => noUps (List.mem_cons_of_mem _ mem)
    cases c with
    | here => exact ih loc later
    | up => exact absurd List.mem_cons_self noUps
    | name n => exact ih (loc ++ [n]) later

/-- The first `..` is taken at a location below the one the reading starts from. -/
theorem exists_upsFrom (loc : Loc) (up : Comp.up ∈ cs) : ∃ p ∈ upsFrom loc cs, loc <+: p := by
  induction cs generalizing loc with
  | nil => exact absurd up List.not_mem_nil
  | cons c cs ih =>
    cases c with
    | here => exact ih loc ((List.mem_cons.1 up).resolve_left (by simp))
    | up => exact ⟨loc, List.mem_cons_self, List.prefix_rfl⟩
    | name n =>
      obtain ⟨p, mem, below⟩ := ih (loc ++ [n]) ((List.mem_cons.1 up).resolve_left (by simp))
      exact ⟨p, mem, (List.prefix_append loc [n]).trans below⟩

theorem append_ne_root (inside : root <+: loc) : loc ++ [n] ≠ root := by
  intro eq
  have length := inside.length_le
  rw [← eq, List.length_append, List.length_singleton] at length
  omega

theorem prefix_dropLast (inside : root <+: loc) (below : loc ≠ root) : root <+: loc.dropLast := by
  obtain ⟨rest, rfl⟩ := inside
  have some : rest ≠ [] := fun none => below (by rw [none, List.append_nil])
  rw [List.dropLast_append_of_ne_nil some]
  exact List.prefix_append root _

/-- After a link no `..` is left, since it would be taken below that link. -/
theorem noUps_of_link (plain : Plain root t loc (.name n :: cs)) (inside : root <+: loc)
    (node : t.isLink (loc ++ [n])) : Comp.up ∉ cs := by
  intro up
  obtain ⟨p, mem, below⟩ := exists_upsFrom (loc ++ [n]) up
  have free := plain p mem (loc ++ [n]) (inside.trans (List.prefix_append loc [n]))
    (append_ne_root inside) below
  rw [node] at free
  cases free

/-- What a lookup below the root keeps, while `Confined` holds of the tree. -/
structure Staying (root : Loc) (t : Filesystem F) (loc : Loc) (cs : List Comp) : Prop where
  inside : root <+: loc
  deep : Deep root loc cs
  plain : Plain root t loc cs

theorem Confined.kept (confined : Confined root t) : Kept t (Staying root t) where
  here staying := ⟨staying.inside, staying.deep, staying.plain⟩
  up {loc cs} staying := by
    obtain ⟨inside, below⟩ := staying.deep loc List.mem_cons_self
    exact ⟨prefix_dropLast inside below,
      fun p mem => staying.deep p (List.mem_cons_of_mem _ mem),
      fun p mem => staying.plain p (List.mem_cons_of_mem _ mem)⟩
  name staying :=
    ⟨staying.inside.trans (List.prefix_append _ _), staying.deep, staying.plain⟩
  jump {loc n cs target} node staying := by
    obtain ⟨relative, deep, plain⟩ := confined loc n target staying.inside node
    have noUps := noUps_of_link staying.plain staying.inside (isLink_iff.2 ⟨target, node⟩)
    have ups : upsFrom loc (target.comps ++ cs) = upsFrom loc target.comps := by
      rw [upsFrom_append, upsFrom_eq_nil _ noUps, List.append_nil]
    have base : target.base loc = loc := by rw [Path.base, relative]; rfl
    rw [base]
    exact ⟨staying.inside, fun p mem => deep p (ups ▸ mem), fun p mem => plain p (ups ▸ mem)⟩

/-- No lookup in a confined tree leaves the root, if the path itself takes no `..`. -/
theorem Confined.walk_inside (confined : Confined root t) {links : Nat} (inside : root <+: loc)
    (noUps : Comp.up ∉ cs) : ∀ p ∈ (walk t follow links loc cs).visited, root <+: p := by
  intro p mem
  have start : Staying root t loc cs := by
    have ups := upsFrom_eq_nil loc noUps
    exact ⟨inside, fun p mem => absurd (ups ▸ mem) List.not_mem_nil,
      fun p mem => absurd (ups ▸ mem) List.not_mem_nil⟩
  obtain ⟨_, staying⟩ := confined.kept.walk links start p mem
  exact staying.inside

/-! ## New nodes -/

theorem put_self {node : Node F} : t.put loc node loc = some node := Function.update_self ..

theorem put_of_ne {node : Node F} {q : Loc} (ne : q ≠ loc) : t.put loc node q = t q :=
  Function.update_of_ne ne ..

theorem LinkFree.mono {t' : Filesystem F} {p : Loc} (free : LinkFree root t p)
    (fewer : ∀ q, q <+: p → t'.isLink q → t.isLink q) : LinkFree root t' p := by
  intro q inside below sub
  cases link : t'.isLink q with
  | false => rfl
  | true => exact (fewer q sub link).symm.trans (free q inside below sub)

/-- A node that is no link changes nothing. -/
theorem Confined.put (confined : Confined root t) {node : Node F}
    (noLink : ∀ target, node ≠ .link target) : Confined root (t.put loc node) := by
  have fewer : ∀ q target, t.put loc node q = some (.link target) → t q = some (.link target) := by
    intro q target link
    by_cases eq : q = loc
    · rw [eq, put_self] at link
      exact absurd (Option.some.inj link) (noLink target)
    · rwa [put_of_ne eq] at link
  intro d n target inside link
  obtain ⟨relative, deep, plain⟩ := confined d n target inside (fewer _ _ link)
  refine ⟨relative, deep, fun p mem => ?_⟩
  apply (plain p mem).mono
  intro q _ link
  obtain ⟨target, node⟩ := isLink_iff.1 link
  exact isLink_iff.2 ⟨target, fewer q target node⟩

/-- A new link fits into a confined tree when its own `..`s are taken below the root, at no
link or below one, itself included, and when no `..` of the other links is taken below it. -/
theorem Confined.put_link (confined : Confined root t) {d : Loc} {target : Path}
    (relative : target.absolute = false) (deep : Deep root d target.comps)
    (plain : Plain root t d target.comps)
    (own : ∀ p ∈ upsFrom d target.comps, ¬ d ++ [n] <+: p)
    (others : ∀ d' n' target', root <+: d' → t (d' ++ [n']) = some (.link target') →
      ∀ p ∈ upsFrom d' target'.comps, ¬ d ++ [n] <+: p) :
    Confined root (t.put (d ++ [n]) (.link target)) := by
  have kept : ∀ p, LinkFree root t p → ¬ d ++ [n] <+: p →
      LinkFree root (t.put (d ++ [n]) (.link target)) p := by
    intro p free off
    apply free.mono
    intro q sub link
    have ne : q ≠ d ++ [n] := fun eq => off (eq ▸ sub)
    rwa [Filesystem.isLink, put_of_ne ne] at link
  intro d' n' target' inside link
  by_cases new : d' ++ [n'] = d ++ [n]
  · rw [new, put_self] at link
    obtain rfl := Node.link.inj (Option.some.inj link)
    obtain rfl := (List.append_inj' new rfl).1
    exact ⟨relative, deep, fun p mem => kept p (plain p mem) (own p mem)⟩
  · rw [put_of_ne new] at link
    obtain ⟨relative', deep', plain'⟩ := confined d' n' target' inside link
    exact ⟨relative', deep',
      fun p mem => kept p (plain' p mem) (others d' n' target' inside link p mem)⟩

end SecurityAudits.FileTree
