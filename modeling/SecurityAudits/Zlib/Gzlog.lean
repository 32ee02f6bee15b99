import SecurityAudits.Lib.Run
import Mathlib.Logic.Function.Basic

/-!
# The lock file of gzlog

`log_lock` creates `foo.lock` exclusively, after it has deleted one that was not touched for
`PATIENCE` seconds, and records the device and inode of the file it created. `log_check`
compares them with those of the file that is there now, and `log_unlock` deletes the file by
its name when they agree. Every system call is a step of its own, and any process may be
stopped for any time between two of them.
-/

namespace SecurityAudits.Zlib.Gzlog
set_option autoImplicit false
open SecurityAudits.Run

/-- `st_dev` and `st_ino`. -/
structure FileId where
  dev : Nat
  ino : Nat
  deriving DecidableEq

/-- The file at `foo.lock`. No system call tells who created it. -/
structure LockFile (Process : Type) where
  id : FileId
  mtime : Int
  creator : Process

/-- The system call a process makes next. In `log_lock`: `open`, `stat`, `unlink`, `fstat` and
`close`; in `log_touch`: `utimes`; in `log_check`: `stat` and `utimes`, also when `log_unlock`
calls it; and the `unlink` of `log_unlock`. -/
inductive Pc
  | idle
  | create
  | statOld
  | unlinkOld
  | opened (id : FileId)
  | closing
  | touching
  | check (unlocking : Bool)
  | touch (unlocking : Bool)
  | unlinkOwn

/-- The process has found the lock file to be its own, and goes on from there. -/
def Pc.Confirmed : Pc → Prop
  | .touch _ | .unlinkOwn => True
  | _ => False

/-- The clock, the file, and of each process `lock_dev` and `lock_ino` and where it stands. -/
structure Config (Process : Type) where
  now : Int
  file : Option (LockFile Process)
  identity : Process → FileId
  pc : Process → Pc

/-- A call by a process, its next system call, which finds what is there or (`fail`) is refused
for another reason, a file created with a new or reused inode, or time that passes. -/
inductive Action (Process : Type)
  | lock (t : Process)
  | touch (t : Process)
  | check (t : Process)
  | unlock (t : Process)
  | created (t : Process) (id : FileId)
  | move (t : Process)
  | fail (t : Process)
  | tick (seconds : Int)

variable {Process : Type} [DecidableEq Process]

def Config.goto (c : Config Process) (t : Process) (pc : Pc) : Config Process :=
  { c with pc := Function.update c.pc t pc }

/-- `utimes` of the lock file, if there is one. -/
def Config.touched (c : Config Process) : Config Process :=
  { c with file := c.file.map fun f => { f with mtime := c.now } }

def Config.unlinked (c : Config Process) : Config Process := { c with file := none }

/-- `log_lock`, `log_touch`, `log_check` and `log_unlock` are called between calls. -/
def start (c : Config Process) (t : Process) (pc : Pc) : Option (Config Process) :=
  match c.pc t with
  | .idle => some (c.goto t pc)
  | _ => none

/-- A system call that is not refused. An `open` that creates the file is `created`. -/
def move (patience : Int) (c : Config Process) (t : Process) : Option (Config Process) :=
  match c.pc t with
  | .idle => none
  | .create =>
    match c.file with
    | some _ => some (c.goto t .statOld)
    | none => none
  | .statOld =>
    match c.file with
    | some f => some (c.goto t (if c.now - f.mtime > patience then .unlinkOld else .create))
    | none => some (c.goto t .create)
  | .unlinkOld => some (c.goto t .create).unlinked
  | .opened id =>
    some { c.goto t .closing with identity := Function.update c.identity t id }
  | .closing => some (c.goto t .idle)
  | .touching => some (c.goto t .idle).touched
  | .check unlocking =>
    match c.file with
    | some f => some (c.goto t (if f.id ≠ c.identity t then .idle else .touch unlocking))
    | none => some (c.goto t .idle)
  | .touch unlocking => some (c.goto t (if unlocking then .unlinkOwn else .idle)).touched
  | .unlinkOwn =>
    some { (c.goto t .idle).unlinked with identity := Function.update c.identity t ⟨0, 0⟩ }

/-- A system call that is refused, and how the caller takes it. -/
def fail (c : Config Process) (t : Process) : Option (Config Process) :=
  match c.pc t with
  | .idle => none
  | .create => some (c.goto t .idle)
  | .statOld => some (c.goto t .create)
  | .unlinkOld => some (c.goto t .create)
  | .opened _ => some (c.goto t .closing)
  | .closing => some (c.goto t .idle)
  | .touching => some (c.goto t .idle)
  | .check _ => some (c.goto t .idle)
  | .touch unlocking => some (c.goto t (if unlocking then .unlinkOwn else .idle))
  | .unlinkOwn =>
    some { c.goto t .idle with identity := Function.update c.identity t ⟨0, 0⟩ }

def step (patience : Int) (c : Config Process) : Action Process → Option (Config Process)
  | .lock t => start c t .create
  | .touch t => start c t .touching
  | .check t => start c t (.check false)
  | .unlock t => start c t (.check true)
  | .created t id =>
    match c.pc t, c.file with
    | .create, none => some { c.goto t (.opened id) with file := some ⟨id, c.now, t⟩ }
    | _, _ => none
  | .move t => move patience c t
  | .fail t => fail c t
  | .tick seconds => some { c with now := c.now + seconds }

/-- No process has a lock; `identity` is what happens to be in `lock_dev` and `lock_ino`. -/
def initial (identity : Process → FileId) : Config Process :=
  ⟨0, none, identity, fun _ => .idle⟩

/-- `log_unlock` does not remove the lock file of another process, and `log_check` does not
report it as the caller's, neither when it looks nor when it returns. -/
def Respects (c : Config Process) : Action Process → Prop
  | .move t =>
    ∀ f, c.file = some f → match c.pc t with
      | .check _ => f.id = c.identity t → f.creator = t
      | .touch _ | .unlinkOwn => f.creator = t
      | _ => True
  | .fail t =>
    ∀ f, c.file = some f → match c.pc t with
      | .touch _ => f.creator = t
      | _ => True
  | _ => True

/-- A process has taken the lock file for its own, or will take one with the inode `id` for its
own, when it looks. -/
def Claims (c : Config Process) (u : Process) (id : FileId) : Prop :=
  (c.pc u).Confirmed ∨ c.identity u = id ∨ c.pc u = .opened id

/-- No lock file is created that another process takes for its own. -/
def Undisturbed (c : Config Process) : Action Process → Prop
  | .created t id => ∀ u, u ≠ t → ¬ Claims c u id
  | _ => True

namespace Config

variable {c : Config Process} {t u : Process} {pc : Pc}

@[simp] theorem goto_self : (c.goto t pc).pc t = pc := Function.update_self ..

theorem goto_other (other : u ≠ t) : (c.goto t pc).pc u = c.pc u :=
  Function.update_of_ne other ..

end Config

/-! ## What keeps the processes apart -/

/-- No process but its creator takes the lock file for its own. -/
def Inv (c : Config Process) : Prop :=
  ∀ f, c.file = some f → ∀ u, u ≠ f.creator → ¬ Claims c u f.id

section Invariant

variable {patience : Int} {c d : Config Process} {t u : Process} {pc : Pc} {id : FileId}
  {a : Action Process}

omit [DecidableEq Process] in
theorem Inv.creator (inv : Inv c) {f : LockFile Process} (there : c.file = some f)
    (claims : Claims c t f.id) : f.creator = t := by
  by_contra other
  exact inv f there t (Ne.symm other) claims

omit [DecidableEq Process] in
/-- A step that creates no file, and lets no process claim the file that did not before. -/
theorem Inv.mono (inv : Inv c)
    (same : ∀ g, d.file = some g → ∃ f, c.file = some f ∧ g.id = f.id ∧ g.creator = f.creator)
    (fewer : ∀ f u, c.file = some f → Claims d u f.id → Claims c u f.id) : Inv d := by
  intro g there u other claims
  obtain ⟨f, there, sameId, sameCreator⟩ := same g there
  rw [sameId] at claims
  rw [sameCreator] at other
  exact inv f there u other (fewer f u there claims)

theorem claims_goto (confirmed : pc.Confirmed → Claims c t id) (closed : ∀ id, pc ≠ .opened id)
    (claims : Claims (c.goto t pc) u id) : Claims c u id := by
  by_cases same : u = t
  · subst same
    rcases claims with now | recorded | opened
    · rw [Config.goto_self] at now
      exact confirmed now
    · exact Or.inr (Or.inl recorded)
    · rw [Config.goto_self] at opened
      exact absurd opened (closed id)
  · rwa [Claims, Config.goto_other same] at claims

theorem Inv.goto (inv : Inv c) (confirmed : ∀ f, c.file = some f → pc.Confirmed → Claims c t f.id)
    (closed : ∀ id, pc ≠ .opened id) : Inv (c.goto t pc) :=
  inv.mono (fun g there => ⟨g, there, rfl, rfl⟩)
    fun f _ there claims => claims_goto (confirmed f there) closed claims

omit [DecidableEq Process] in
theorem Inv.touched (inv : Inv c) : Inv c.touched := by
  refine inv.mono (fun g there => ?_) fun _ _ _ claims => claims
  obtain ⟨f, before, rfl⟩ := Option.map_eq_some_iff.1 there
  exact ⟨f, before, rfl, rfl⟩

omit [DecidableEq Process] in
theorem inv_of_no_file (none : c.file = none) : Inv c := by
  intro f there
  rw [none] at there
  cases there

theorem Inv.start (inv : Inv c) (pc : Pc) (quiet : ¬ pc.Confirmed) (closed : ∀ id, pc ≠ .opened id)
    (taken : Gzlog.start c t pc = some d) : Inv d := by
  simp only [Gzlog.start] at taken
  split at taken <;> cases taken
  exact inv.goto (fun _ _ confirmed => absurd confirmed quiet) closed

/-- A process that records an identity already claims the file that has it. -/
theorem Inv.record (inv : Inv c) (claims : ∀ f, c.file = some f → f.id = id → Claims c t id)
    (confirmed : ¬ pc.Confirmed) (closed : ∀ id, pc ≠ .opened id) :
    Inv { c.goto t pc with identity := Function.update c.identity t id } := by
  refine inv.mono (fun g there => ⟨g, there, rfl, rfl⟩) fun f u there now => ?_
  replace now : ((c.goto t pc).pc u).Confirmed ∨ Function.update c.identity t id u = f.id ∨
    (c.goto t pc).pc u = .opened f.id := now
  by_cases same : u = t
  · subst same
    rw [Config.goto_self, Function.update_self] at now
    rcases now with now | rfl | opened
    · exact absurd now confirmed
    · exact claims f there rfl
    · exact absurd opened (closed _)
  · rwa [Config.goto_other same, Function.update_of_ne same] at now

theorem Inv.move (inv : Inv c) (taken : Gzlog.move patience c t = some d) : Inv d := by
  cases here : c.pc t with
  | idle => simp only [Gzlog.move, here] at taken; cases taken
  | create =>
    simp only [Gzlog.move, here] at taken
    split at taken <;> cases taken
    exact inv.goto (fun _ _ => False.elim) nofun
  | statOld =>
    simp only [Gzlog.move, here] at taken
    split at taken <;> cases taken
    · split
      · exact inv.goto (fun _ _ => False.elim) nofun
      · exact inv.goto (fun _ _ => False.elim) nofun
    · exact inv.goto (fun _ _ => False.elim) nofun
  | unlinkOld =>
    simp only [Gzlog.move, here] at taken
    cases taken
    exact inv_of_no_file rfl
  | opened id =>
    simp only [Gzlog.move, here] at taken
    cases taken
    exact inv.record (fun _ _ _ => Or.inr (Or.inr here)) False.elim nofun
  | closing =>
    simp only [Gzlog.move, here] at taken
    cases taken
    exact inv.goto (fun _ _ => False.elim) nofun
  | touching =>
    simp only [Gzlog.move, here] at taken
    cases taken
    exact Inv.touched (inv.goto (fun _ _ => False.elim) nofun)
  | check unlocking =>
    simp only [Gzlog.move, here] at taken
    split at taken
    · rename_i f there
      cases taken
      split
      · exact inv.goto (fun _ _ => False.elim) nofun
      · rename_i same
        refine inv.goto (fun g there' _ => Or.inr (Or.inl ?_)) nofun
        rw [there] at there'
        cases there'
        exact (not_not.1 same).symm
    · cases taken
      exact inv.goto (fun _ _ => False.elim) nofun
  | touch unlocking =>
    simp only [Gzlog.move, here] at taken
    cases taken
    refine Inv.touched ?_
    split
    · exact inv.goto (fun _ _ _ => Or.inl (by rw [here]; trivial)) nofun
    · exact inv.goto (fun _ _ => False.elim) nofun
  | unlinkOwn =>
    simp only [Gzlog.move, here] at taken
    cases taken
    exact inv_of_no_file rfl

theorem Inv.fail (inv : Inv c) (taken : Gzlog.fail c t = some d) : Inv d := by
  cases here : c.pc t with
  | idle => simp only [Gzlog.fail, here] at taken; cases taken
  | unlinkOwn =>
    simp only [Gzlog.fail, here] at taken
    cases taken
    exact inv.record (fun _ _ _ => Or.inl (by rw [here]; trivial)) False.elim nofun
  | touch unlocking =>
    simp only [Gzlog.fail, here] at taken
    cases taken
    split
    · exact inv.goto (fun _ _ _ => Or.inl (by rw [here]; trivial)) nofun
    · exact inv.goto (fun _ _ => False.elim) nofun
  | create | statOld | unlinkOld | opened _ | closing | touching | check _ =>
    simp only [Gzlog.fail, here] at taken
    cases taken
    exact inv.goto (fun _ _ => False.elim) nofun

theorem inv_of_created (undisturbed : Undisturbed c (.created t id))
    (taken : step patience c (.created t id) = some d) : Inv d := by
  simp only [step] at taken
  split at taken <;> cases taken
  intro f there u other claims
  cases there
  replace claims : ((c.goto t (.opened id)).pc u).Confirmed ∨ c.identity u = id ∨
    (c.goto t (.opened id)).pc u = .opened id := claims
  rw [Config.goto_other other] at claims
  exact undisturbed u other claims

theorem Inv.step (inv : Inv c) (undisturbed : Undisturbed c a)
    (taken : Gzlog.step patience c a = some d) : Inv d := by
  cases a with
  | lock t => exact inv.start .create False.elim nofun taken
  | touch t => exact inv.start .touching False.elim nofun taken
  | check t => exact inv.start (.check false) False.elim nofun taken
  | unlock t => exact inv.start (.check true) False.elim nofun taken
  | created t id => exact inv_of_created undisturbed taken
  | move t => exact inv.move taken
  | fail t => exact inv.fail taken
  | tick seconds => cases taken; exact inv

omit [DecidableEq Process] in
theorem Inv.respects (inv : Inv c) (a : Action Process) : Respects c a := by
  cases a with
  | move t =>
    intro f there
    cases here : c.pc t with
    | check _ => exact fun same => inv.creator there (Or.inr (Or.inl same.symm))
    | touch _ => exact inv.creator there (Or.inl (by rw [here]; trivial))
    | unlinkOwn => exact inv.creator there (Or.inl (by rw [here]; trivial))
    | _ => trivial
  | fail t =>
    intro f there
    cases here : c.pc t with
    | touch _ => exact inv.creator there (Or.inl (by rw [here]; trivial))
    | _ => trivial
  | _ => trivial

end Invariant

/-! ## What a disturbed creation leads to -/

/-- A run from `c` on breaks what the lock is for. -/
def Breaks (patience : Int) (c : Config Process) : Prop :=
  ∃ actions, ¬ Along (step patience) Respects c actions

/-- The lock file is of another process, but has the identity that `u` has recorded. -/
def Mistaken (c : Config Process) (u : Process) : Prop :=
  ∃ f, c.file = some f ∧ f.creator ≠ u ∧ c.identity u = f.id

section Breaks

variable {patience : Int} {c d : Config Process} {t u : Process} {a : Action Process}

theorem breaks_now (taken : step patience c a = some d) (wrong : ¬ Respects c a) :
    Breaks patience c :=
  ⟨[a], fun respects => wrong (respects d taken).1⟩

theorem breaks_later (taken : step patience c a = some d) (breaks : Breaks patience d) :
    Breaks patience c := by
  obtain ⟨actions, wrong⟩ := breaks
  exact ⟨a :: actions, fun respects => wrong (respects d taken).2⟩

theorem breaks_of_confirmed (confirmed : (c.pc u).Confirmed) {f : LockFile Process}
    (there : c.file = some f) (other : f.creator ≠ u) : Breaks patience c := by
  cases here : c.pc u with
  | touch unlocking =>
    refine breaks_now (a := .move u) (by simp only [step, move, here]; rfl) fun respects => ?_
    have mine := respects f there
    rw [here] at mine
    exact other mine
  | unlinkOwn =>
    refine breaks_now (a := .move u) (by simp only [step, move, here]; rfl) fun respects => ?_
    have mine := respects f there
    rw [here] at mine
    exact other mine
  | _ =>
    rw [here] at confirmed
    exact confirmed.elim

theorem breaks_of_check {unlocking : Bool} (here : c.pc u = .check unlocking)
    (mistaken : Mistaken c u) : Breaks patience c := by
  obtain ⟨f, there, other, same⟩ := mistaken
  refine breaks_now (a := .move u) (by simp only [step, move, here, there]; rfl) fun respects => ?_
  have mine := respects f there
  rw [here] at mine
  exact other (mine same.symm)

theorem breaks_of_idle (here : c.pc u = .idle) (mistaken : Mistaken c u) : Breaks patience c :=
  breaks_later (a := .check u) (by simp only [step, start, here]; rfl)
    (breaks_of_check Config.goto_self mistaken)

theorem breaks_of_closing (here : c.pc u = .closing) (mistaken : Mistaken c u) :
    Breaks patience c :=
  breaks_later (a := .move u) (by simp only [step, move, here])
    (breaks_of_idle Config.goto_self mistaken)

theorem breaks_of_create (here : c.pc u = .create) (mistaken : Mistaken c u) :
    Breaks patience c :=
  breaks_later (a := .fail u) (by simp only [step, fail, here])
    (breaks_of_idle Config.goto_self mistaken)

/-- A mistaken process gets to look at the file from wherever it is. -/
theorem breaks_of_mistaken (mistaken : Mistaken c u) : Breaks patience c := by
  cases here : c.pc u with
  | idle => exact breaks_of_idle here mistaken
  | create => exact breaks_of_create here mistaken
  | statOld =>
    exact breaks_later (a := .fail u) (by simp only [step, fail, here])
      (breaks_of_create Config.goto_self mistaken)
  | unlinkOld =>
    exact breaks_later (a := .fail u) (by simp only [step, fail, here])
      (breaks_of_create Config.goto_self mistaken)
  | opened id =>
    exact breaks_later (a := .fail u) (by simp only [step, fail, here])
      (breaks_of_closing Config.goto_self mistaken)
  | closing => exact breaks_of_closing here mistaken
  | touching =>
    exact breaks_later (a := .fail u) (by simp only [step, fail, here])
      (breaks_of_idle Config.goto_self mistaken)
  | check unlocking => exact breaks_of_check here mistaken
  | touch unlocking =>
    obtain ⟨f, there, other, _⟩ := mistaken
    exact breaks_of_confirmed (by rw [here]; trivial) there other
  | unlinkOwn =>
    obtain ⟨f, there, other, _⟩ := mistaken
    exact breaks_of_confirmed (by rw [here]; trivial) there other

theorem breaks_of_claims {f : LockFile Process} (there : c.file = some f) (other : f.creator ≠ u)
    (claims : Claims c u f.id) : Breaks patience c := by
  rcases claims with confirmed | recorded | opened
  · exact breaks_of_confirmed confirmed there other
  · exact breaks_of_mistaken ⟨f, there, other, recorded⟩
  · refine breaks_later (a := .move u) (by simp only [step, move, opened]; rfl) ?_
    exact breaks_of_closing Config.goto_self ⟨f, there, other, Function.update_self ..⟩

/-- A disturbed creation is enough for a process to take the new lock for its own. -/
theorem breaks_of_disturbed {id : FileId} (taken : step patience c (.created t id) = some d)
    (disturbed : ¬ Undisturbed c (.created t id)) : Breaks patience d := by
  obtain ⟨u, claimed⟩ := not_forall.1 disturbed
  obtain ⟨other, claims⟩ := Classical.not_imp.1 claimed
  replace claims := not_not.1 claims
  simp only [step] at taken
  split at taken <;> cases taken
  refine breaks_of_claims (u := u) rfl (Ne.symm other) ?_
  replace claims : ((c.goto t (.opened id)).pc u).Confirmed ∨ c.identity u = id ∨
    (c.goto t (.opened id)).pc u = .opened id := by rwa [Config.goto_other other]
  exact claims

end Breaks

/-- **Whose lock is removed.** In every run of any processes in which no lock file is created
while another process goes on from a check that found the file to be its own, and none gets the
device and inode that another process has recorded, `log_unlock` removes no lock file of
another process and `log_check` reports none as the caller's. Any other creation has a
continuation in which one of the two happens. -/
theorem lock_respected (patience : Int) (identity : Process → FileId)
    (actions : List (Action Process)) :
    (Along (step patience) Undisturbed (initial identity) actions →
      Along (step patience) Respects (initial identity) actions) ∧
    ∀ c t id d, exec (step patience) (initial identity) actions = some c →
      step patience c (.created t id) = some d → ¬ Undisturbed c (.created t id) →
      ∃ more, ¬ Along (step patience) Respects d more :=
  ⟨Along.imp (fun _ _ _ inv undisturbed taken => Inv.step inv undisturbed taken)
    (fun _ a inv _ => Inv.respects inv a) (inv_of_no_file rfl),
    fun _ _ _ _ _ taken disturbed => breaks_of_disturbed taken disturbed⟩

/-- `true` has not touched its lock for too long, and `false` is about to delete it. Then `true`
finds that the lock is still its own, `false` replaces it, and `true` deletes the new one. -/
def replacedLock : List (Action Bool) :=
  [.lock true, .created true ⟨1, 10⟩, .move true, .move true, .tick 301, .lock false,
    .move false, .move false, .unlock true, .move true, .move true, .move false,
    .created false ⟨1, 11⟩]

/-- The lock file of `false` gets the inode of the one of `true` that `false` has deleted. -/
def reusedInode : List (Action Bool) :=
  [.lock true, .created true ⟨1, 10⟩, .move true, .move true, .tick 301, .lock false,
    .move false, .move false, .move false, .created false ⟨1, 10⟩, .check true]

theorem lock_not_respected :
    ¬ Along (step 300) Respects (initial fun _ => ⟨0, 0⟩) (replacedLock ++ [.move true]) ∧
    ¬ Along (step 300) Respects (initial fun _ => ⟨0, 0⟩) (reusedInode ++ [.move true]) := by
  constructor
  · intro respects
    have removes := (respects.append_right rfl _ rfl).1
    cases removes ⟨⟨1, 11⟩, 301, false⟩ rfl
  · intro respects
    have reports := (respects.append_right rfl _ rfl).1
    cases reports ⟨⟨1, 10⟩, 301, false⟩ rfl rfl

end SecurityAudits.Zlib.Gzlog
