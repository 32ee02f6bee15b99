import Mathlib.Logic.Function.Basic
import SecurityAudits.Lib.Run

/-!
# Calls that work under one lock

A `Call` describes what each task does: one step before the lock is taken, which does not
see the shared state, and then the steps inside the critical section. Each step is handed an
input from outside (a clock reading, the answer of a system call). Tasks interleave freely;
only taking the lock has to wait.

`serial_of_run`: whatever the interleaving, the shared state and the result of every call are
those of the calls run one after another, each with the inputs it was handed, in the order in
which they took the lock.
-/

namespace SecurityAudits.Lock
set_option autoImplicit false
open SecurityAudits.Run

/-- A call, by its steps: `prepare` before the lock, `inside` for each step under it, which
goes on with a new local state or releases the lock with a result. -/
structure Call (Task Shared Local Input Result : Type) where
  prepare : Task → Input → Local
  inside : Task → Local → Shared → Input → Shared × (Local ⊕ Result)

/-- A call that has released the lock, with all the inputs it was handed. -/
structure Entry (Task Input Result : Type) where
  task : Task
  inputs : List Input
  result : Result

/-- Where a task stands, with the inputs it has been handed so far. -/
inductive Phase (Local Input Result : Type) where
  | idle
  | ready (first : Input) (here : Local)
  | holding (first : Input) (inputs : List Input) (here : Local)
  | done (result : Result)

structure Config (Task Shared Local Input Result : Type) where
  shared : Shared
  holder : Option Task
  phase : Task → Phase Local Input Result
  /-- The tasks in the order in which they took the lock. -/
  order : List Task
  /-- The finished calls in the order in which they released it. -/
  log : List (Entry Task Input Result)

inductive Action (Task Input : Type) where
  | prepare (t : Task) (a : Input)
  | lock (t : Task)
  | inside (t : Task) (a : Input)

variable {Task Shared Local Input Result : Type} [DecidableEq Task]

namespace Config

def goto (c : Config Task Shared Local Input Result) (t : Task)
    (phase : Phase Local Input Result) : Config Task Shared Local Input Result :=
  { c with phase := Function.update c.phase t phase }

/-- `t` takes the free lock. -/
def take (c : Config Task Shared Local Input Result) (t : Task) (first : Input) (here : Local) :
    Config Task Shared Local Input Result :=
  { c.goto t (.holding first [] here) with holder := some t, order := c.order ++ [t] }

/-- `t` gives the lock back and returns. -/
def release (c : Config Task Shared Local Input Result) (t : Task) (inputs : List Input)
    (shared : Shared) (result : Result) : Config Task Shared Local Input Result :=
  { c.goto t (.done result) with
    shared := shared, holder := none, log := c.log ++ [⟨t, inputs, result⟩] }

variable {c : Config Task Shared Local Input Result} {t u : Task}

@[simp] theorem goto_self {phase : Phase Local Input Result} : (c.goto t phase).phase t = phase :=
  Function.update_self ..

theorem goto_other {phase : Phase Local Input Result} (other : u ≠ t) :
    (c.goto t phase).phase u = c.phase u :=
  Function.update_of_ne other ..

@[simp] theorem take_self {first : Input} {here : Local} :
    (c.take t first here).phase t = .holding first [] here :=
  goto_self

theorem take_other {first : Input} {here : Local} (other : u ≠ t) :
    (c.take t first here).phase u = c.phase u :=
  goto_other other

@[simp] theorem release_self {inputs : List Input} {shared : Shared} {result : Result} :
    (c.release t inputs shared result).phase t = .done result :=
  goto_self

theorem release_other {inputs : List Input} {shared : Shared} {result : Result} (other : u ≠ t) :
    (c.release t inputs shared result).phase u = c.phase u :=
  goto_other other

end Config

def step (call : Call Task Shared Local Input Result) (c : Config Task Shared Local Input Result) :
    Action Task Input → Option (Config Task Shared Local Input Result)
  | .prepare t a =>
    match c.phase t with
    | .idle => some (c.goto t (.ready a (call.prepare t a)))
    | _ => none
  | .lock t =>
    match c.phase t, c.holder with
    | .ready a here, none => some (c.take t a here)
    | _, _ => none
  | .inside t a =>
    match c.phase t with
    | .holding first inputs here =>
      match call.inside t here c.shared a with
      | (shared, .inl next) =>
        some { c.goto t (.holding first (inputs ++ [a]) next) with shared := shared }
      | (shared, .inr result) => some (c.release t (first :: (inputs ++ [a])) shared result)
    | _ => none

/-- No call has started and the lock is free. -/
def initial (shared : Shared) : Config Task Shared Local Input Result where
  shared := shared
  holder := none
  phase := fun _ => .idle
  order := []
  log := []

/-! ## One call at a time -/

/-- The steps under the lock, as long as the call does not release it. -/
def progress (call : Call Task Shared Local Input Result) (t : Task) :
    Local → Shared → List Input → Option (Shared × Local)
  | here, s, [] => some (s, here)
  | here, s, a :: as =>
    match call.inside t here s a with
    | (s, .inl next) => progress call t next s as
    | (_, .inr _) => none

/-- The steps under the lock up to the one that releases it, which is the last. -/
def finish (call : Call Task Shared Local Input Result) (t : Task) :
    Local → Shared → List Input → Option (Shared × Result)
  | _, _, [] => none
  | here, s, a :: as =>
    match call.inside t here s a with
    | (s, .inl next) => finish call t next s as
    | (s, .inr result) => if as.isEmpty then some (s, result) else none

/-- A whole call, run alone on the shared state. -/
def replay (call : Call Task Shared Local Input Result) (t : Task) (s : Shared) :
    List Input → Option (Shared × Result)
  | [] => none
  | a :: as => finish call t (call.prepare t a) s as

/-- The calls of `log` run one after another lead from the first state to the last one, each
with the result that `log` has for it. -/
inductive Serial (call : Call Task Shared Local Input Result) :
    Shared → List (Entry Task Input Result) → Shared → Prop where
  | nil (s : Shared) : Serial call s [] s
  | cons {s m u : Shared} {e : Entry Task Input Result} {log : List (Entry Task Input Result)} :
      replay call e.task s e.inputs = some (m, e.result) → Serial call m log u →
      Serial call s (e :: log) u

variable {call : Call Task Shared Local Input Result} {s m u : Shared} {t : Task}
  {here next : Local} {a : Input} {as : List Input}

omit [DecidableEq Task] in
theorem progress_snoc (before : progress call t here s as = some (m, next)) :
    progress call t here s (as ++ [a]) = match call.inside t next m a with
      | (u, .inl last) => some (u, last)
      | (_, .inr _) => none := by
  induction as generalizing here s with
  | nil => cases before; rfl
  | cons b as ih =>
    rw [List.cons_append, progress]
    rw [progress] at before
    split at before
    · exact ih before
    · cases before

omit [DecidableEq Task] in
theorem finish_of_stays (stays : call.inside t here s a = (m, .inl next)) :
    finish call t here s (a :: as) = finish call t next m as := by
  rw [finish, stays]

omit [DecidableEq Task] in
/-- A step that releases the lock ends the call. -/
theorem finish_of_released {result : Result} {out : Shared × Result}
    (released : call.inside t here s a = (m, .inr result))
    (ran : finish call t here s (a :: as) = some out) : out = (m, result) := by
  rw [finish, released] at ran
  simp only at ran
  split at ran <;> cases ran
  rfl

omit [DecidableEq Task] in
/-- The first step of a call that is run to its end. -/
theorem finish_cases {out : Shared × Result} (ran : finish call t here s as = some out) :
    ∃ a, call.inside t here s a = (out.1, .inr out.2) ∨
      ∃ m next rest, call.inside t here s a = (m, .inl next) ∧
        finish call t next m rest = some out := by
  cases as with
  | nil => cases ran
  | cons a as =>
    refine ⟨a, ?_⟩
    rcases first : call.inside t here s a with ⟨m, next | result⟩
    · rw [finish_of_stays first] at ran
      exact .inr ⟨m, next, as, rfl, ran⟩
    · rw [finish_of_released first ran]
      exact .inl rfl

omit [DecidableEq Task] in
theorem finish_snoc {result : Result} (before : progress call t here s as = some (m, next))
    (released : call.inside t next m a = (u, .inr result)) :
    finish call t here s (as ++ [a]) = some (u, result) := by
  induction as generalizing here s with
  | nil => cases before; simp [finish, released]
  | cons b as ih =>
    rw [List.cons_append, finish]
    rw [progress] at before
    split at before
    · exact ih before
    · cases before

omit [DecidableEq Task] in
theorem Serial.snoc {log : List (Entry Task Input Result)} {e : Entry Task Input Result}
    (before : Serial call s log m) (last : replay call e.task m e.inputs = some (u, e.result)) :
    Serial call s (log ++ [e]) u := by
  induction before with
  | nil s => exact .cons last (.nil u)
  | cons first _ ih => exact .cons first (ih last)

/-! ## The invariant of the interleaved runs -/

/-- While a task holds the lock, the shared state is what its steps so far have made of the
state the finished calls left. -/
inductive Shape (call : Call Task Shared Local Input Result) (start : Shared)
    (c : Config Task Shared Local Input Result) : Prop where
  | free (holder : c.holder = none) (ran : Serial call start c.log c.shared)
      (order : c.order = c.log.map Entry.task)
  | held (t : Task) (first : Input) (inputs : List Input) (here : Local) (base : Shared)
      (holder : c.holder = some t) (phase : c.phase t = .holding first inputs here)
      (ran : Serial call start c.log base)
      (inside : progress call t (call.prepare t first) base inputs = some (c.shared, here))
      (order : c.order = c.log.map Entry.task ++ [t])

structure Inv (call : Call Task Shared Local Input Result) (start : Shared)
    (c : Config Task Shared Local Input Result) : Prop where
  shape : Shape call start c
  ready : ∀ t a here, c.phase t = .ready a here → here = call.prepare t a
  holding : ∀ t a as here, c.phase t = .holding a as here → c.holder = some t
  finished : ∀ t r, c.phase t = .done r ↔ ∃ e ∈ c.log, e.task = t ∧ e.result = r

variable {start : Shared} {c d : Config Task Shared Local Input Result}

omit [DecidableEq Task] in
theorem inv_initial : Inv call start (initial start) where
  shape := .free rfl (.nil start) rfl
  ready _ _ _ at_ready := by cases at_ready
  holding _ _ _ _ at_holding := by cases at_holding
  finished t r := by simp [initial]

/-- What a step can do, one case for each action that is enabled. -/
theorem step_cases {act : Action Task Input} (taken : step call c act = some d) :
    (∃ t a, c.phase t = .idle ∧ d = c.goto t (.ready a (call.prepare t a))) ∨
    (∃ t a here, c.phase t = .ready a here ∧ c.holder = none ∧ d = c.take t a here) ∨
    (∃ t a first inputs here shared next, c.phase t = .holding first inputs here ∧
      call.inside t here c.shared a = (shared, .inl next) ∧
      d = { c.goto t (.holding first (inputs ++ [a]) next) with shared := shared }) ∨
    (∃ t a first inputs here shared result, c.phase t = .holding first inputs here ∧
      call.inside t here c.shared a = (shared, .inr result) ∧
      d = c.release t (first :: (inputs ++ [a])) shared result) := by
  cases act with
  | prepare t a =>
    simp only [step] at taken
    split at taken <;> cases taken
    exact Or.inl ⟨t, a, by assumption, rfl⟩
  | lock t =>
    simp only [step] at taken
    split at taken <;> cases taken
    exact Or.inr (Or.inl ⟨t, _, _, by assumption, by assumption, rfl⟩)
  | inside t a =>
    simp only [step] at taken
    split at taken
    · rename_i first inputs here at_holding
      split at taken <;> cases taken
      · exact Or.inr (Or.inr (Or.inl ⟨t, a, _, _, _, _, _, at_holding, by assumption, rfl⟩))
      · exact Or.inr (Or.inr (Or.inr ⟨t, a, _, _, _, _, _, at_holding, by assumption, rfl⟩))
    · cases taken

omit [DecidableEq Task] in
/-- The holder of the lock, read off its phase. -/
theorem Inv.at_holding (h : Inv call start c) {first : Input} {inputs : List Input}
    (at_holding : c.phase t = .holding first inputs here) :
    ∃ base, Serial call start c.log base ∧
      progress call t (call.prepare t first) base inputs = some (c.shared, here) ∧
      c.order = c.log.map Entry.task ++ [t] := by
  have mine := h.holding t _ _ _ at_holding
  cases h.shape with
  | free holder => rw [mine] at holder; cases holder
  | held u first' inputs' here' base holder phase ran inside order =>
    rw [mine] at holder
    cases holder
    rw [at_holding] at phase
    cases phase
    exact ⟨base, ran, inside, order⟩

/-- What holds of each task after `t` has gone to `phase`, from what holds of `phase` and of the
others. -/
theorem forall_goto (P : Task → Phase Local Input Result → Prop)
    {phase : Phase Local Input Result} (mine : P t phase)
    (others : ∀ u, u ≠ t → P u (c.phase u)) : ∀ u, P u ((c.goto t phase).phase u) :=
  (Function.forall_update_iff c.phase P).2 ⟨mine, others⟩

theorem Inv.prepare (h : Inv call start c) (at_idle : c.phase t = .idle) :
    Inv call start (c.goto t (.ready a (call.prepare t a))) where
  shape := by
    cases h.shape with
    | free holder ran order => exact .free holder ran order
    | held u first inputs here base holder phase ran inside order =>
      have other : u ≠ t := by rintro rfl; rw [at_idle] at phase; cases phase
      exact .held u first inputs here base holder ((Config.goto_other other).trans phase) ran
        inside order
  ready := forall_goto (fun u p => ∀ b l, p = .ready b l → l = call.prepare u b)
    (by rintro _ _ ⟨⟩; rfl) fun u _ => h.ready u
  holding := forall_goto (fun u p => ∀ b as l, p = .holding b as l → c.holder = some u)
    nofun fun u _ => h.holding u
  finished u r := by
    rw [← show c.log = (c.goto t (.ready a (call.prepare t a))).log from rfl, ← h.finished u r]
    by_cases same : u = t
    · subst same; simp [at_idle]
    · rw [Config.goto_other same]

theorem Inv.lock (h : Inv call start c) (at_ready : c.phase t = .ready a here)
    (free : c.holder = none) : Inv call start (c.take t a here) where
  shape := by
    cases h.shape with
    | held u first inputs here base holder => rw [free] at holder; cases holder
    | free holder ran order =>
      refine .held t a [] here c.shared rfl Config.take_self ran ?_ ?_
      · rw [h.ready t a here at_ready]; rfl
      · simp only [Config.take, Config.goto, order]
  ready := forall_goto (fun u p => ∀ b l, p = .ready b l → l = call.prepare u b)
    nofun fun u _ => h.ready u
  holding := by
    refine forall_goto (fun u p => ∀ b as l, p = .holding b as l → some t = some u)
      (fun _ _ _ _ => rfl) fun u _ b as l at_holding => ?_
    have before := h.holding u b as l at_holding
    rw [free] at before
    cases before
  finished u r := by
    rw [show (c.take t a here).log = c.log from rfl, ← h.finished u r]
    by_cases same : u = t
    · subst same; simp [at_ready]
    · rw [Config.take_other same]

theorem Inv.inside (h : Inv call start c) {first : Input} {inputs : List Input} {shared : Shared}
    (at_holding : c.phase t = .holding first inputs here)
    (stays : call.inside t here c.shared a = (shared, .inl next)) :
    Inv call start
      { c.goto t (.holding first (inputs ++ [a]) next) with shared := shared } where
  shape := by
    obtain ⟨base, ran, inside, order⟩ := h.at_holding at_holding
    refine .held t first (inputs ++ [a]) next base (h.holding t _ _ _ at_holding)
      Config.goto_self ran ?_ order
    rw [progress_snoc inside, stays]
  ready := forall_goto (fun u p => ∀ b l, p = .ready b l → l = call.prepare u b)
    nofun fun u _ => h.ready u
  holding := forall_goto (fun u p => ∀ b as l, p = .holding b as l → c.holder = some u)
    (fun _ _ _ _ => h.holding t _ _ _ at_holding) fun u _ => h.holding u
  finished u r := by
    rw [show ({ c.goto t (.holding first (inputs ++ [a]) next) with shared := shared } :
      Config Task Shared Local Input Result).log = c.log from rfl, ← h.finished u r]
    by_cases same : u = t
    · subst same; simp [at_holding]
    · simp only [Config.goto_other same]

theorem Inv.release (h : Inv call start c) {first : Input} {inputs : List Input}
    {shared : Shared} {result : Result} (at_holding : c.phase t = .holding first inputs here)
    (released : call.inside t here c.shared a = (shared, .inr result)) :
    Inv call start (c.release t (first :: (inputs ++ [a])) shared result) where
  shape := by
    obtain ⟨base, ran, inside, order⟩ := h.at_holding at_holding
    refine .free rfl (ran.snoc (finish_snoc inside released)) ?_
    simp only [Config.release, Config.goto, order, List.map_append, List.map_cons, List.map_nil]
  ready := forall_goto (fun u p => ∀ b l, p = .ready b l → l = call.prepare u b)
    nofun fun u _ => h.ready u
  holding := by
    refine forall_goto (fun u p => ∀ b as l, p = .holding b as l → none = some u)
      nofun fun u other b as l at_holding' => ?_
    have mine := h.holding t _ _ _ at_holding
    have theirs := h.holding u b as l at_holding'
    exact absurd (Option.some.inj (theirs.symm.trans mine)) other
  finished u r := by
    by_cases same : u = t
    · subst same
      have unfinished : ¬ ∃ e ∈ c.log, e.task = u ∧ e.result = r := by
        rw [← h.finished u r, at_holding]; nofun
      rw [Config.release_self]
      simp only [Config.release, Config.goto, Phase.done.injEq, List.mem_append,
        List.mem_singleton]
      constructor
      · rintro rfl
        exact ⟨_, Or.inr rfl, rfl, rfl⟩
      · rintro ⟨e, old | rfl, at_u, gives⟩
        · exact absurd ⟨e, old, at_u, gives⟩ unfinished
        · exact gives
    · rw [Config.release_other same, h.finished u r]
      simp [Config.release, Config.goto, Ne.symm same]

theorem Inv.step (h : Inv call start c) {act : Action Task Input}
    (taken : Lock.step call c act = some d) : Inv call start d := by
  rcases step_cases taken with ⟨t, a, at_idle, rfl⟩ | ⟨t, a, here, at_ready, free, rfl⟩ |
    ⟨t, a, first, inputs, here, shared, next, at_holding, stays, rfl⟩ |
    ⟨t, a, first, inputs, here, shared, result, at_holding, released, rfl⟩
  · exact h.prepare at_idle
  · exact h.lock at_ready free
  · exact h.inside at_holding stays
  · exact h.release at_holding released

/-- **Serialisation.** When the lock is free, the shared state is the one left by the finished
calls run alone, in the order in which they took the lock, and these runs give the results
that the tasks have returned. -/
theorem serial_of_run {acts : List (Action Task Input)}
    (run : exec (Lock.step call) (initial start) acts = some c) (free : c.holder = none) :
    Serial call start c.log c.shared ∧ c.order = c.log.map Entry.task ∧
      ∀ t r, c.phase t = .done r ↔ ∃ e ∈ c.log, e.task = t ∧ e.result = r := by
  have h : Inv call start c :=
    exec_invariant (fun _ _ _ before taken => before.step taken) inv_initial run
  cases h.shape with
  | free _ ran order => exact ⟨ran, order, h.finished⟩
  | held u first inputs here base holder => rw [free] at holder; cases holder

/-- The task that has the lock is under it. -/
theorem holding_of_run {acts : List (Action Task Input)}
    (run : exec (Lock.step call) (initial start) acts = some c) (holder : c.holder = some t) :
    ∃ first inputs here, c.phase t = .holding first inputs here := by
  have h : Inv call start c :=
    exec_invariant (fun _ _ _ before taken => before.step taken) inv_initial run
  cases h.shape with
  | free free => rw [free] at holder; cases holder
  | held u first inputs here base holder' at_holding =>
    obtain rfl := Option.some.inj (holder'.symm.trans holder)
    exact ⟨first, inputs, here, at_holding⟩

/-- Where calls write only in the step that releases the lock, the shared state is at any time
the one that the finished calls have left. -/
theorem serial_always {acts : List (Action Task Input)}
    (quiet : ∀ t a as s u here, progress call t (call.prepare t a) s as = some (u, here) → u = s)
    (run : exec (Lock.step call) (initial start) acts = some c) :
    Serial call start c.log c.shared := by
  have h : Inv call start c :=
    exec_invariant (fun _ _ _ before taken => before.step taken) inv_initial run
  cases h.shape with
  | free _ ran _ => exact ran
  | held u first inputs here base _ _ ran inside _ =>
    rw [quiet u first inputs base c.shared here inside]
    exact ran

omit [DecidableEq Task] in
/-- The call in the middle of a serial run, with the run before it. -/
theorem Serial.middle {before after : List (Entry Task Input Result)} {e : Entry Task Input Result}
    (ran : Serial call s (before ++ e :: after) u) :
    ∃ m v, Serial call s before m ∧ replay call e.task m e.inputs = some (v, e.result) := by
  induction before generalizing s with
  | nil =>
    cases ran with
    | cons first _ => exact ⟨s, _, .nil s, first⟩
  | cons d before ih =>
    cases ran with
    | cons first rest =>
      obtain ⟨m, v, ranBefore, here⟩ := ih rest
      exact ⟨m, v, .cons first ranBefore, here⟩

/-! ## Calls run one after another, as a function -/

section Serially

variable {σ τ α ρ : Type} {f : α → σ → σ × ρ} {g : α → τ → τ × ρ}

/-- The calls `xs` run one after another from `s`, with the result of each. -/
def serially (f : α → σ → σ × ρ) : σ → List α → σ × List ρ
  | s, [] => (s, [])
  | s, x :: xs => ((serially f (f x s).1 xs).1, (f x s).2 :: (serially f (f x s).1 xs).2)

theorem serially_append (s : σ) (xs ys : List α) :
    serially f s (xs ++ ys) =
      ((serially f (serially f s xs).1 ys).1,
        (serially f s xs).2 ++ (serially f (serially f s xs).1 ys).2) := by
  induction xs generalizing s with
  | nil => rfl
  | cons x xs ih => simp only [List.cons_append, serially, ih]

/-- The state after one more call. -/
theorem serially_snoc (s : σ) (xs : List α) (x : α) :
    (serially f s (xs ++ [x])).1 = (f x (serially f s xs).1).1 := by
  rw [serially_append]; rfl

/-- A call-by-call simulation from the states with an invariant is one of whole serial runs. -/
theorem serially_refines (abs : σ → τ) (Good : σ → Prop)
    (keeps : ∀ x s, Good s → Good (f x s).1)
    (simulates : ∀ x s, Good s → g x (abs s) = (abs (f x s).1, (f x s).2))
    {s : σ} (good : Good s) (xs : List α) :
    serially g (abs s) xs = (abs (serially f s xs).1, (serially f s xs).2) := by
  induction xs generalizing s with
  | nil => rfl
  | cons x xs ih => simp only [serially, simulates x s good, ih (keeps x s good)]

/-- The result of the call in the middle is the one it gives in the state before it. -/
theorem serially_result {s u : σ} {xs ys : List α} {x : α} {rs : List ρ}
    (ran : serially f s (xs ++ x :: ys) = (u, rs)) :
    rs[xs.length]? = some (f x (serially f s xs).1).2 := by
  have results : rs = (serially f s (xs ++ x :: ys)).2 := by rw [ran]
  have length : ∀ (s : σ) (xs : List α), (serially f s xs).2.length = xs.length := by
    intro s xs
    induction xs generalizing s with
    | nil => rfl
    | cons x xs ih => simp [serially, ih]
  rw [results, serially_append, serially, List.getElem?_append_right (by rw [length]), length]
  simp

end Serially

omit [DecidableEq Task] in
/-- When a call run alone computes `f` of what it was asked and handed, so does every serial
run of calls. -/
theorem Serial.serially {α : Type} (f : α → Shared → Shared × Result)
    (ask : Entry Task Input Result → α) {log : List (Entry Task Input Result)}
    (computes : ∀ (e : Entry Task Input Result) s u,
      replay call e.task s e.inputs = some (u, e.result) → f (ask e) s = (u, e.result))
    (ran : Serial call s log u) :
    serially f s (log.map ask) = (u, log.map Entry.result) := by
  induction ran with
  | nil s => rfl
  | cons first _ ih =>
    simp only [List.map_cons, Lock.serially, computes _ _ _ first, ih]

end SecurityAudits.Lock
