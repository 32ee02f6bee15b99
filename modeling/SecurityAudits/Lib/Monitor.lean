import SecurityAudits.Lib.Lock

/-!
# What a lock protects

`Free` holds of the shared state whenever the lock is free. Whoever has the lock may break it, and
`Held` says what is then known, for each place in the call of a task; what a call has returned with
stays true (`Post`), also while others are in the middle of theirs. `Protects` says what each step
keeps for that, and `holds_of_run` the rule: it is so in every state of every interleaving.
-/

namespace SecurityAudits.Monitor
set_option autoImplicit false
open SecurityAudits.Run SecurityAudits.Lock

variable {Task Shared Local Input Result : Type} {call : Call Task Shared Local Input Result}
  {Free : Shared → Prop} {Held : Task → Local → Shared → Prop} {Post : Task → Result → Shared → Prop}

structure Protects (call : Call Task Shared Local Input Result) (Free : Shared → Prop)
    (Held : Task → Local → Shared → Prop) (Post : Task → Result → Shared → Prop) : Prop where
  enters : ∀ t a s, Free s → Held t (call.prepare t a) s
  stays : ∀ t here s a s' next, Held t here s → call.inside t here s a = (s', .inl next) →
    Held t next s'
  leaves : ∀ t here s a s' r, Held t here s → call.inside t here s a = (s', .inr r) →
    Free s' ∧ Post t r s'
  /-- A step leaves the others what they have returned with. -/
  lasts : ∀ t here s a s' out, Held t here s → call.inside t here s a = (s', out) →
    ∀ u r, Post u r s → Post u r s'

/-- The invariant of the interleavings. -/
structure Holds (call : Call Task Shared Local Input Result) (Free : Shared → Prop)
    (Held : Task → Local → Shared → Prop) (Post : Task → Result → Shared → Prop)
    (c : Config Task Shared Local Input Result) : Prop where
  free : c.holder = none → Free c.shared
  ready : ∀ t a here, c.phase t = .ready a here → here = call.prepare t a
  holding : ∀ t a as here, c.phase t = .holding a as here →
    c.holder = some t ∧ Held t here c.shared
  done : ∀ t r, c.phase t = .done r → Post t r c.shared

variable {start : Shared} {c d : Config Task Shared Local Input Result}

theorem holds_initial (free : Free start) : Holds call Free Held Post (initial start) where
  free _ := free
  ready _ _ _ at_ready := by cases at_ready
  holding _ _ _ _ at_holding := by cases at_holding
  done _ _ at_done := by cases at_done

variable {t : Task} {a : Input} {here next : Local}

/-- Two tasks are not in their critical sections at once. -/
theorem Holds.other (holds : Holds call Free Held Post c) {u : Task} {first b : Input}
    {inputs as : List Input} {l : Local} (at_holding : c.phase t = .holding first inputs here)
    (other : u ≠ t) : c.phase u ≠ .holding b as l := by
  intro theirs
  have mine := (holds.holding t _ _ _ at_holding).1
  exact other (Option.some.inj ((holds.holding u _ _ _ theirs).1.symm.trans mine))

variable [DecidableEq Task]

theorem Holds.prepare (holds : Holds call Free Held Post c) :
    Holds call Free Held Post (c.goto t (.ready a (call.prepare t a))) where
  free := holds.free
  ready := forall_goto (fun u p => ∀ b l, p = .ready b l → l = call.prepare u b)
    (by rintro _ _ ⟨⟩; rfl) fun u _ => holds.ready u
  holding := forall_goto (fun u p => ∀ b as l, p = .holding b as l →
    c.holder = some u ∧ Held u l c.shared) nofun fun u _ => holds.holding u
  done := forall_goto (fun u p => ∀ r, p = .done r → Post u r c.shared) nofun fun u _ => holds.done u

theorem Holds.take (protects : Protects call Free Held Post) (holds : Holds call Free Held Post c)
    (at_ready : c.phase t = .ready a here) (free : c.holder = none) :
    Holds call Free Held Post (c.take t a here) where
  free taken := by cases taken
  ready := forall_goto (fun u p => ∀ b l, p = .ready b l → l = call.prepare u b)
    nofun fun u _ => holds.ready u
  holding := by
    refine forall_goto (fun u p => ∀ b as l, p = .holding b as l →
      some t = some u ∧ Held u l c.shared) ?_ fun u _ b as l at_holding => ?_
    · rintro _ _ _ ⟨⟩
      rw [holds.ready t a here at_ready]
      exact ⟨rfl, protects.enters t a c.shared (holds.free free)⟩
    · have mine := (holds.holding u b as l at_holding).1
      rw [free] at mine
      cases mine
  done := forall_goto (fun u p => ∀ r, p = .done r → Post u r c.shared) nofun fun u _ => holds.done u

theorem Holds.inside (protects : Protects call Free Held Post) (holds : Holds call Free Held Post c)
    {first : Input} {inputs : List Input} {shared : Shared}
    (at_holding : c.phase t = .holding first inputs here)
    (stays : call.inside t here c.shared a = (shared, .inl next)) :
    Holds call Free Held Post
      { c.goto t (.holding first (inputs ++ [a]) next) with shared := shared } where
  free free := by
    have mine := (holds.holding t _ _ _ at_holding).1
    exact absurd (mine.symm.trans free) (by simp)
  ready := forall_goto (fun u p => ∀ b l, p = .ready b l → l = call.prepare u b)
    nofun fun u _ => holds.ready u
  holding := by
    obtain ⟨mine, held⟩ := holds.holding t _ _ _ at_holding
    refine forall_goto (fun u p => ∀ b as l, p = .holding b as l →
      c.holder = some u ∧ Held u l shared) ?_ fun u other b as l theirs => ?_
    · rintro _ _ _ ⟨⟩
      exact ⟨mine, protects.stays t here _ a _ _ held stays⟩
    · exact absurd theirs (holds.other at_holding other)
  done := by
    have held := (holds.holding t _ _ _ at_holding).2
    refine forall_goto (fun u p => ∀ r, p = .done r → Post u r shared) nofun fun u _ r at_done => ?_
    exact protects.lasts t here _ a _ _ held stays u r (holds.done u r at_done)

theorem Holds.release (protects : Protects call Free Held Post) (holds : Holds call Free Held Post c)
    {first : Input} {inputs : List Input} {shared : Shared} {result : Result}
    (at_holding : c.phase t = .holding first inputs here)
    (released : call.inside t here c.shared a = (shared, .inr result)) :
    Holds call Free Held Post (c.release t (first :: (inputs ++ [a])) shared result) where
  free _ := by
    have held := (holds.holding t _ _ _ at_holding).2
    exact (protects.leaves t here _ a _ _ held released).1
  ready := forall_goto (fun u p => ∀ b l, p = .ready b l → l = call.prepare u b)
    nofun fun u _ => holds.ready u
  holding := by
    refine forall_goto (fun u p => ∀ b as l, p = .holding b as l →
      none = some u ∧ Held u l shared) nofun fun u other b as l theirs => ?_
    exact absurd theirs (holds.other at_holding other)
  done := by
    have held := (holds.holding t _ _ _ at_holding).2
    refine forall_goto (fun u p => ∀ r, p = .done r → Post u r shared) ?_ fun u _ r at_done => ?_
    · rintro r ⟨⟩
      exact (protects.leaves t here _ a _ _ held released).2
    · exact protects.lasts t here _ a _ _ held released u r (holds.done u r at_done)

theorem Holds.step (protects : Protects call Free Held Post) (holds : Holds call Free Held Post c)
    {act : Action Task Input} (taken : Lock.step call c act = some d) :
    Holds call Free Held Post d := by
  rcases step_cases taken with ⟨t, a, -, rfl⟩ | ⟨t, a, here, at_ready, free, rfl⟩ |
    ⟨t, a, first, inputs, here, shared, next, at_holding, stays, rfl⟩ |
    ⟨t, a, first, inputs, here, shared, result, at_holding, released, rfl⟩
  · exact holds.prepare
  · exact holds.take protects at_ready free
  · exact holds.inside protects at_holding stays
  · exact holds.release protects at_holding released

/-- **The rule of the monitor**, in every state of every interleaving. -/
theorem holds_of_run (protects : Protects call Free Held Post) (free : Free start)
    {acts : List (Action Task Input)} (run : exec (Lock.step call) (initial start) acts = some c) :
    Holds call Free Held Post c :=
  exec_invariant (fun _ _ _ before taken => before.step protects taken) (holds_initial free) run

/-- What no call in the middle of its work undoes stays so from then on. -/
theorem lasts_of_run {Stable : Shared → Prop} (protects : Protects call Free Held Post)
    (keeps : ∀ t here s a, Held t here s → Stable s → Stable (call.inside t here s a).1)
    (holds : Holds call Free Held Post c) (stable : Stable c.shared)
    {acts : List (Action Task Input)} (run : exec (Lock.step call) c acts = some d) :
    Stable d.shared := by
  have step : ∀ c act d, Holds call Free Held Post c ∧ Stable c.shared →
      Lock.step call c act = some d → Holds call Free Held Post d ∧ Stable d.shared := by
    intro c act d ⟨holds, stable⟩ taken
    refine ⟨holds.step protects taken, ?_⟩
    rcases step_cases taken with ⟨t, a, -, rfl⟩ | ⟨t, a, here, -, -, rfl⟩ |
      ⟨t, a, first, inputs, here, shared, next, at_holding, stays, rfl⟩ |
      ⟨t, a, first, inputs, here, shared, result, at_holding, released, rfl⟩
    · exact stable
    · exact stable
    · have kept := keeps t here _ a (holds.holding t _ _ _ at_holding).2 stable
      rwa [stays] at kept
    · have kept := keeps t here _ a (holds.holding t _ _ _ at_holding).2 stable
      rwa [released] at kept
  exact (exec_invariant step ⟨holds, stable⟩ run).2

end SecurityAudits.Monitor
