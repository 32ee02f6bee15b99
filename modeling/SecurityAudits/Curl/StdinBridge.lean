import SecurityAudits.Lib.Run
import Mathlib.Data.List.Infix
import Mathlib.Logic.Function.Basic

/-!
# The bridge from standard input

On Windows `curl` cannot wait for its standard input, so `win32_stdin_read_thread`
(`src/tool_doswin.c`) has a thread copy it to a TCP connection over the loopback interface, from a
listening socket of its own to a socket that the program then connects. Any process of the host can
connect to that port, and the thread takes the first that does. Since the patch it forwards nothing
before the client has sent sixteen bytes that the program has drawn at random.

The system is the program, its thread and the processes around, in any order: a step is a call of the
socket interface. `bridge_safe` says where the input can go, and that the token lets the program's own
connection through.
-/

namespace SecurityAudits.Curl.StdinBridge
set_option autoImplicit false
open SecurityAudits.Run

variable {Conn : Type}

/-! ## The two functions -/

/-- `unsigned char auth[16]` -/
structure Auth where
  bytes : List UInt8
  size : bytes.length = 16

/-- Who has made a connection. -/
inductive Peer where
  | curl
  | stranger
  deriving DecidableEq

/-- Where `win_stdin_thread_func` is. -/
inductive Thread (Conn : Type) where
  /-- Before `accept(socket_l)`. -/
  | accepting
  /-- In the loop around `sread`, with what it has put into its own `auth`. -/
  | reading (socketW : Conn) (auth : List UInt8)
  /-- In the loop of `ReadFile` and `swrite`. -/
  | forwarding (socketW : Conn)
  /-- After `ThreadCleanup`. -/
  | ended

/-- Where `win32_stdin_read_thread` is, after `CreateThread`. -/
inductive Parent (Conn : Type) where
  | connecting
  /-- In the loop around `swrite`; `left` are the last `nleft` bytes. -/
  | sending (socketR : Conn) (left : List UInt8)
  | connected (socketR : Conn)
  | failed

structure State (Conn : Type) where
  thread : Thread Conn
  parent : Parent Conn
  /-- The connections that wait for `accept`. -/
  backlog : List Conn
  peer : Conn → Option Peer
  /-- What the client of a connection has written. -/
  sent : Conn → List UInt8
  /-- What the client of a connection has been sent. -/
  received : Conn → List UInt8
  /-- What the thread has not forwarded of the input. -/
  stdin : List UInt8

inductive Action (Conn : Type) where
  /-- A process connects to the port. -/
  | connect (c : Conn)
  | write (c : Conn) (bytes : List UInt8)
  | parentConnect (c : Conn)
  /-- `swrite(socket_r, p, nleft)`, and what it returns -/
  | parentWrite (n : Nat)
  /-- `shutdown(socket_r, SHUT_WR)` -/
  | parentShutdown
  | parentFails
  | accept
  /-- `sread(socket_w, p, sizeof(auth) - nread)`, and what it returns -/
  | read (n : Nat)
  /-- `memcmp(auth, tdata->auth, sizeof(auth))` -/
  | compare
  /-- Bytes of the input that `swrite` has taken. -/
  | forward (n : Nat)
  /-- A timeout, an end of file or an error, which end in `ThreadCleanup`. -/
  | threadFails

/-- A step of `curl` that does not fail. -/
def Action.ours : Action Conn → Bool
  | .connect _ | .write .. | .parentFails | .threadFails => false
  | _ => true

variable [DecidableEq Conn]

/-- The listening socket is open until the thread has accepted a connection. -/
def State.opens (s : State Conn) (c : Conn) (peer : Peer) : Option (State Conn) :=
  match s.thread, s.peer c with
  | .accepting, none =>
    some { s with backlog := s.backlog ++ [c], peer := Function.update s.peer c (some peer) }
  | _, _ => none

def State.writes (s : State Conn) (c : Conn) (bytes : List UInt8) : State Conn :=
  { s with sent := Function.update s.sent c (s.sent c ++ bytes) }

def step (auth : Auth) (s : State Conn) : Action Conn → Option (State Conn)
  | .connect c => s.opens c .stranger
  | .write c bytes => if s.peer c = some .stranger then some (s.writes c bytes) else none
  | .parentConnect c =>
    match s.parent with
    | .connecting => (s.opens c .curl).map fun s => { s with parent := .sending c auth.bytes }
    | _ => none
  | .parentWrite n =>
    match s.parent with
    | .sending c left =>
      if 0 < n ∧ n ≤ left.length then
        some { s.writes c (left.take n) with parent := .sending c (left.drop n) }
      else none
    | _ => none
  | .parentShutdown =>
    match s.parent with
    | .sending c [] => some { s with parent := .connected c }
    | _ => none
  | .parentFails => some { s with parent := .failed }
  | .accept =>
    match s.thread, s.backlog with
    | .accepting, c :: _ => some { s with thread := .reading c [], backlog := [] }
    | _, _ => none
  | .read n =>
    match s.thread with
    | .reading c read =>
      if 0 < n ∧ n ≤ 16 - read.length ∧ n ≤ (s.sent c).length - read.length then
        some { s with thread := .reading c (read ++ ((s.sent c).drop read.length).take n) }
      else none
    | _ => none
  | .compare =>
    match s.thread with
    | .reading c read =>
      if read.length = 16 then
        some { s with thread := if read = auth.bytes then .forwarding c else .ended }
      else none
    | _ => none
  | .forward n =>
    match s.thread with
    | .forwarding c =>
      if 0 < n ∧ n ≤ s.stdin.length then
        some { s with
          received := Function.update s.received c (s.received c ++ s.stdin.take n)
          stdin := s.stdin.drop n }
      else none
    | _ => none
  | .threadFails => some { s with thread := .ended }

omit [DecidableEq Conn] in
/-- Just after `CreateThread`. -/
def started (input : List UInt8) : State Conn :=
  ⟨.accepting, .connecting, [], fun _ => none, fun _ => [], fun _ => [], input⟩

/-! ## Where the input goes -/

section Statements

omit [DecidableEq Conn]

/-- What has been forwarded of the input went to one client, which has sent the token. -/
structure Sink (auth : Auth) (input : List UInt8) (sent received : Conn → List UInt8)
    (stdin : List UInt8) (sink : Option Conn) : Prop where
  others : ∀ c, sink ≠ some c → received c = []
  unread : sink = none → stdin = input
  token : ∀ c, sink = some c → auth.bytes <+: sent c
  whole : ∀ c, sink = some c → received c ++ stdin = input

def Thread.Allows : Thread Conn → Option Conn → Prop
  | .accepting, sink | .reading .., sink => sink = none
  | .forwarding c, sink => sink = some c
  | .ended, _ => True

/-- What the parent has sent on the connection `c`, if that is one that it has made. -/
def Parent.Sent (auth : Auth) : Parent Conn → Conn → List UInt8 → Prop
  | .connecting, _, _ => False
  | .sending d left, c, sent => c = d ∧ sent ++ left = auth.bytes
  | .connected d, c, sent => c = d ∧ sent = auth.bytes
  | .failed, _, sent => sent <+: auth.bytes

structure Inv (auth : Auth) (input : List UInt8) (s : State Conn) : Prop where
  sink : ∃ sink, Sink auth input s.sent s.received s.stdin sink ∧ s.thread.Allows sink
  reading : ∀ c read, s.thread = .reading c read → read <+: s.sent c ∧ read.length ≤ 16
  silent : ∀ c, s.peer c = none → s.sent c = []
  curl : ∀ c, s.peer c = some .curl → s.parent.Sent auth c (s.sent c)
  sending : ∀ c left, s.parent = .sending c left → s.peer c = some .curl

end Statements

variable {auth : Auth} {input bytes got left : List UInt8} {s t : State Conn} {c : Conn} {n : Nat}
  {sink : Option Conn}

section Steps

omit [DecidableEq Conn] in
theorem Sink.grows {sent sent' received : Conn → List UInt8} {stdin : List UInt8}
    (before : Sink auth input sent received stdin sink) (longer : ∀ c, sent c <+: sent' c) :
    Sink auth input sent' received stdin sink :=
  { before with token := fun c is => (before.token c is).trans (longer c) }

theorem prefix_writes (s : State Conn) (c : Conn) (bytes : List UInt8) (d : Conn) :
    s.sent d <+: (s.writes c bytes).sent d := by
  by_cases same : d = c
  · rw [same, State.writes]
    exact ⟨bytes, (Function.update_self c (s.sent c ++ bytes) s.sent).symm⟩
  · exact ⟨[], (List.append_nil _).trans (Function.update_of_ne same ..).symm⟩

theorem sent_writes_self : (s.writes c bytes).sent c = s.sent c ++ bytes :=
  Function.update_self ..

theorem sent_writes_of_ne {d : Conn} (other : d ≠ c) : (s.writes c bytes).sent d = s.sent d :=
  Function.update_of_ne other ..

theorem opens_eq_some {peer : Peer} :
    s.opens c peer = some t ↔ s.thread = .accepting ∧ s.peer c = none ∧
      { s with backlog := s.backlog ++ [c], peer := Function.update s.peer c (some peer) } = t := by
  rw [State.opens]
  cases s.thread <;> cases s.peer c <;> simp

theorem Inv.connect (before : Inv auth input s) (opened : s.opens c .stranger = some t) :
    Inv auth input t := by
  obtain ⟨-, fresh, rfl⟩ := opens_eq_some.1 opened
  refine ⟨before.sink, before.reading, fun d none => ?_, fun d curl => ?_, fun d left at_ => ?_⟩
  · by_cases same : d = c
    · exact before.silent d (same ▸ fresh)
    · exact before.silent d ((Function.update_of_ne same ..).symm.trans none)
  · by_cases same : d = c
    · subst same
      cases (Function.update_self ..).symm.trans curl
    · exact before.curl d ((Function.update_of_ne same ..).symm.trans curl)
  · have curl := before.sending d left at_
    have other : d ≠ c := fun same => by
      rw [same, fresh] at curl
      cases curl
    exact (Function.update_of_ne other ..).trans curl

theorem Inv.write (before : Inv auth input s) (stranger : s.peer c = some .stranger) :
    Inv auth input (s.writes c bytes) := by
  obtain ⟨sink, sinks, allowed⟩ := before.sink
  have other : ∀ d, s.peer d ≠ some .stranger → d ≠ c := fun d differs same =>
    differs (same ▸ stranger)
  refine ⟨⟨sink, sinks.grows (prefix_writes s c bytes), allowed⟩, fun d read at_ => ?_,
    fun d none => ?_, fun d curl => ?_, before.sending⟩
  · exact (before.reading d read at_).imp_left fun sent => sent.trans (prefix_writes s c bytes d)
  · rw [sent_writes_of_ne (other d (none ▸ nofun))]
    exact before.silent d none
  · rw [sent_writes_of_ne (other d (curl ▸ by decide))]
    exact before.curl d curl

theorem Inv.parentConnect (before : Inv auth input s) (first : s.parent = .connecting)
    (opened : s.opens c .curl = some t) :
    Inv auth input { t with parent := .sending c auth.bytes } := by
  obtain ⟨-, fresh, rfl⟩ := opens_eq_some.1 opened
  refine ⟨before.sink, before.reading, fun d none => ?_, fun d curl => ?_, fun d left at_ => ?_⟩
  · by_cases same : d = c
    · exact before.silent d (same ▸ fresh)
    · exact before.silent d ((Function.update_of_ne same ..).symm.trans none)
  · by_cases same : d = c
    · exact ⟨same, congrArg (· ++ auth.bytes) (before.silent d (same ▸ fresh))⟩
    · have mine := before.curl d ((Function.update_of_ne same ..).symm.trans curl)
      rw [first] at mine
      exact mine.elim
  · cases at_
    exact Function.update_self ..

theorem Inv.parentWrite (before : Inv auth input s) (at_ : s.parent = .sending c left) :
    Inv auth input { s.writes c (left.take n) with parent := .sending c (left.drop n) } := by
  obtain ⟨sink, sinks, allowed⟩ := before.sink
  have mine := before.sending c left at_
  refine ⟨⟨sink, sinks.grows (prefix_writes s c _), allowed⟩, fun d read at_ => ?_,
    fun d none => ?_, fun d curl => ?_, fun d left at_ => ?_⟩
  · exact (before.reading d read at_).imp_left fun sent => sent.trans (prefix_writes s c _ d)
  · have other : d ≠ c := fun same => by
      rw [← same] at mine
      cases none.symm.trans mine
    exact (sent_writes_of_ne other).trans (before.silent d none)
  · have sent := before.curl d curl
    rw [at_] at sent
    obtain ⟨rfl, whole⟩ := sent
    refine ⟨rfl, ?_⟩
    show (s.writes d (left.take n)).sent d ++ left.drop n = auth.bytes
    rw [sent_writes_self, List.append_assoc, List.take_append_drop, whole]
  · cases at_
    exact mine

omit [DecidableEq Conn] in
/-- Only the parent moves. -/
theorem Inv.parent (before : Inv auth input s) {parent : Parent Conn}
    (sent : ∀ c sent, s.parent.Sent auth c sent → parent.Sent auth c sent)
    (done : ∀ c left, parent ≠ .sending c left) : Inv auth input { s with parent := parent } :=
  ⟨before.sink, before.reading, before.silent, fun c curl => sent c _ (before.curl c curl),
    fun c left at_ => absurd at_ (done c left)⟩

omit [DecidableEq Conn] in
theorem Parent.Sent.isPrefix {parent : Parent Conn} {sent : List UInt8}
    (h : parent.Sent auth c sent) : sent <+: auth.bytes := by
  cases parent with
  | connecting => exact h.elim
  | sending d left => exact ⟨left, h.2⟩
  | connected d => exact h.2 ▸ List.prefix_rfl
  | failed => exact h

omit [DecidableEq Conn] in
/-- Only the thread moves, and forwards nothing. -/
theorem Inv.thread (before : Inv auth input s) {thread : Thread Conn} (backlog : List Conn)
    (sink : ∃ sink, Sink auth input s.sent s.received s.stdin sink ∧ thread.Allows sink)
    (reading : ∀ c read, thread = .reading c read → read <+: s.sent c ∧ read.length ≤ 16) :
    Inv auth input { s with thread := thread, backlog := backlog } :=
  ⟨sink, reading, before.silent, before.curl, before.sending⟩

omit [DecidableEq Conn] in
theorem Inv.read (before : Inv auth input s) (at_ : s.thread = .reading c got)
    (room : n ≤ 16 - got.length) :
    Inv auth input
      { s with thread := .reading c (got ++ ((s.sent c).drop got.length).take n) } := by
  obtain ⟨sink, sinks, allowed⟩ := before.sink
  rw [at_] at allowed
  obtain ⟨sent, short⟩ := before.reading c got at_
  refine before.thread s.backlog ⟨sink, sinks, allowed⟩ fun d more now => ?_
  cases now
  refine ⟨?_, ?_⟩
  · calc got ++ ((s.sent c).drop got.length).take n
        <+: got ++ (s.sent c).drop got.length :=
          (List.prefix_append_right_inj got).2 (List.take_prefix ..)
      _ = s.sent c := (List.prefix_iff_eq_append.1 sent)
  · rw [List.length_append, List.length_take]
    omega

omit [DecidableEq Conn] in
theorem Inv.compare (before : Inv auth input s) (at_ : s.thread = .reading c got) :
    Inv auth input { s with thread := if got = auth.bytes then .forwarding c else .ended } := by
  obtain ⟨sink, sinks, allowed⟩ := before.sink
  rw [at_] at allowed
  by_cases same : got = auth.bytes
  · rw [if_pos same]
    have token := (before.reading c got at_).1
    rw [same] at token
    refine before.thread s.backlog ⟨some c, ⟨fun d _ => ?_, nofun, ?_, ?_⟩, rfl⟩ nofun
    · exact sinks.others d (by rw [allowed]; exact nofun)
    · rintro d ⟨⟩
      exact token
    · rintro d ⟨⟩
      rw [sinks.others c (by rw [allowed]; exact nofun), sinks.unread allowed]
      rfl
  · rw [if_neg same]
    exact before.thread s.backlog ⟨sink, sinks, trivial⟩ nofun

theorem Inv.forward (before : Inv auth input s) (at_ : s.thread = .forwarding c) :
    Inv auth input { s with
      received := Function.update s.received c (s.received c ++ s.stdin.take n)
      stdin := s.stdin.drop n } := by
  obtain ⟨sink, sinks, allowed⟩ := before.sink
  have is : sink = some c := by rw [at_] at allowed; exact allowed
  subst is
  refine ⟨⟨some c, ⟨fun d other => ?_, nofun, sinks.token, ?_⟩, allowed⟩, before.reading,
    before.silent, before.curl, before.sending⟩
  · have differs : d ≠ c := fun same => other (congrArg some same.symm)
    exact (Function.update_of_ne differs ..).trans (sinks.others d other)
  · rintro d ⟨⟩
    dsimp only
    rw [Function.update_self, List.append_assoc, List.take_append_drop]
    exact sinks.whole c rfl

theorem Inv.step (before : Inv auth input s) {a : Action Conn} (taken : step auth s a = some t) :
    Inv auth input t := by
  cases a with
  | connect c => exact before.connect taken
  | write c bytes =>
    obtain ⟨stranger, ⟨⟩⟩ := Option.ite_none_right_eq_some.1 taken
    exact before.write stranger
  | parentConnect c =>
    cases at_ : s.parent with
    | connecting =>
      simp only [StdinBridge.step, at_] at taken
      obtain ⟨m, opened, rfl⟩ := Option.map_eq_some_iff.1 taken
      exact before.parentConnect at_ opened
    | sending | connected | failed => simp [StdinBridge.step, at_] at taken
  | parentWrite n =>
    cases at_ : s.parent with
    | sending c left =>
      simp only [StdinBridge.step, at_] at taken
      obtain ⟨-, ⟨⟩⟩ := Option.ite_none_right_eq_some.1 taken
      exact before.parentWrite at_
    | connecting | connected | failed => simp [StdinBridge.step, at_] at taken
  | parentShutdown =>
    cases at_ : s.parent with
    | sending c left =>
      cases left with
      | nil =>
        simp only [StdinBridge.step, at_] at taken
        cases taken
        refine before.parent (fun d sent mine => ?_) nofun
        rw [at_] at mine
        exact ⟨mine.1, (List.append_nil sent).symm.trans mine.2⟩
      | cons => simp [StdinBridge.step, at_] at taken
    | connecting | connected | failed => simp [StdinBridge.step, at_] at taken
  | parentFails =>
    cases taken
    exact before.parent (fun _ _ mine => mine.isPrefix) nofun
  | accept =>
    cases at_ : s.thread with
    | accepting =>
      cases waits : s.backlog with
      | nil => simp [StdinBridge.step, at_, waits] at taken
      | cons c rest =>
        simp only [StdinBridge.step, at_, waits] at taken
        cases taken
        obtain ⟨sink, sinks, allowed⟩ := before.sink
        rw [at_] at allowed
        refine before.thread [] ⟨sink, sinks, allowed⟩ fun d read now => ?_
        cases now
        exact ⟨List.nil_prefix, Nat.zero_le _⟩
    | reading | forwarding | ended => simp [StdinBridge.step, at_] at taken
  | read n =>
    cases at_ : s.thread with
    | reading c read =>
      simp only [StdinBridge.step, at_] at taken
      obtain ⟨⟨-, room, -⟩, ⟨⟩⟩ := Option.ite_none_right_eq_some.1 taken
      exact before.read at_ room
    | accepting | forwarding | ended => simp [StdinBridge.step, at_] at taken
  | compare =>
    cases at_ : s.thread with
    | reading c read =>
      simp only [StdinBridge.step, at_] at taken
      obtain ⟨-, ⟨⟩⟩ := Option.ite_none_right_eq_some.1 taken
      exact before.compare at_
    | accepting | forwarding | ended => simp [StdinBridge.step, at_] at taken
  | forward n =>
    cases at_ : s.thread with
    | forwarding c =>
      simp only [StdinBridge.step, at_] at taken
      obtain ⟨-, ⟨⟩⟩ := Option.ite_none_right_eq_some.1 taken
      rw [← at_]
      exact before.forward at_
    | accepting | reading | ended => simp [StdinBridge.step, at_] at taken
  | threadFails =>
    cases taken
    obtain ⟨sink, sinks, -⟩ := before.sink
    exact before.thread s.backlog ⟨sink, sinks, trivial⟩ nofun

end Steps

omit [DecidableEq Conn] in
theorem inv_started : Inv auth input (started input : State Conn) where
  sink := ⟨none, ⟨fun _ _ => rfl, fun _ => rfl, nofun, nofun⟩, rfl⟩
  reading := nofun
  silent _ _ := rfl
  curl := nofun
  sending := nofun

/-! ## The connection of the program itself -/

omit [DecidableEq Conn] in
/-- The thread has taken `c`, or will. -/
def State.Turn (s : State Conn) (c : Conn) : Prop :=
  (s.thread = .accepting ∧ s.backlog.head? = some c) ∨ ∃ read, s.thread = .reading c read

/-- Steps of `curl` alone lead to where the input is forwarded to `c`. -/
def Serves (auth : Auth) (s : State Conn) (c : Conn) : Prop :=
  ∃ as t, (∀ a ∈ as, Action.ours a = true) ∧ exec (step auth) s as = some t ∧
    t.thread = .forwarding c

theorem Serves.after {a : Action Conn} (then_ : Serves auth t c) (ours : a.ours = true)
    (taken : step auth s a = some t) : Serves auth s c := by
  obtain ⟨as, u, all, run, forwards⟩ := then_
  exact ⟨a :: as, u, List.forall_mem_cons.2 ⟨ours, all⟩, exec_cons_eq_some.2 ⟨t, taken, run⟩, forwards⟩

theorem serves_of_read (at_ : s.thread = .reading c auth.bytes) : Serves auth s c := by
  refine ⟨[.compare], { s with thread := .forwarding c }, by simp [Action.ours], ?_, rfl⟩
  refine exec_cons_eq_some.2 ⟨_, ?_, rfl⟩
  simp only [step, at_, if_pos auth.size, if_true]

theorem serves_of_sent (at_ : s.thread = .reading c got) (begun : got <+: auth.bytes)
    (sent : s.sent c = auth.bytes) : Serves auth s c := by
  have short := begun.length_le
  rw [auth.size] at short
  by_cases all : got.length = 16
  · exact serves_of_read (at_.trans (congrArg _ (begun.eq_of_length (all.trans auth.size.symm))))
  have rest : ((s.sent c).drop got.length).take (16 - got.length) =
      auth.bytes.drop got.length := by
    rw [sent]
    exact List.take_of_length_le (by rw [List.length_drop, auth.size])
  refine Serves.after (a := .read (16 - got.length))
    (t := { s with thread := .reading c (got ++ auth.bytes.drop got.length) }) ?_ rfl ?_
  · exact serves_of_read (congrArg (Thread.reading c) (List.prefix_iff_eq_append.1 begun))
  · simp only [step, at_, rest]
    rw [sent, auth.size, if_pos ⟨by omega, Nat.le_refl _, Nat.le_refl _⟩]

theorem Inv.serves_reading (inv : Inv auth input s) (curl : s.peer c = some .curl)
    (works : s.parent ≠ .failed) (at_ : s.thread = .reading c got) : Serves auth s c := by
  have mine := inv.curl c curl
  have begun := (inv.reading c got at_).1
  cases parent : s.parent with
  | connecting =>
    rw [parent] at mine
    exact mine.elim
  | failed => exact absurd parent works
  | connected d =>
    rw [parent] at mine
    exact serves_of_sent at_ (mine.2 ▸ begun) mine.2
  | sending d left =>
    have whole := mine
    rw [parent] at whole
    obtain ⟨rfl, whole⟩ := whole
    have within : got <+: auth.bytes := begun.trans ⟨left, whole⟩
    by_cases done : left = []
    · rw [done, List.append_nil] at whole
      exact serves_of_sent at_ within whole
    -- The parent writes what is left in one call.
    refine Serves.after (a := .parentWrite left.length)
      (t := { s.writes c left with parent := .sending c [] }) ?_ rfl ?_
    · exact serves_of_sent at_ within (sent_writes_self.trans whole)
    · simp only [StdinBridge.step, parent, List.take_length, List.drop_length]
      exact if_pos ⟨List.length_pos_iff.2 done, Nat.le_refl _⟩

theorem Inv.serves (inv : Inv auth input s) (curl : s.peer c = some .curl)
    (works : s.parent ≠ .failed) (turn : s.Turn c) : Serves auth s c := by
  rcases turn with ⟨waits, next⟩ | ⟨read, at_⟩
  · obtain ⟨rest, queue⟩ := List.head?_eq_some_iff.1 next
    have taken : StdinBridge.step auth s .accept =
        some { s with thread := .reading c [], backlog := [] } := by
      simp only [StdinBridge.step, waits, queue]
    exact Serves.after ((inv.step taken).serves_reading curl works rfl) rfl taken
  · exact inv.serves_reading curl works at_

/-- What holds wherever the system gets. -/
structure Bridged (auth : Auth) (input : List UInt8) (s : State Conn) : Prop where
  /-- The input is whole, or goes in order to one client, and that client has sent the token first. -/
  sink : ∃ sink, Sink auth input s.sent s.received s.stdin sink
  /-- `curl` writes nothing but the token, to its own connection. -/
  token : ∀ c, s.peer c = some .curl → s.sent c <+: auth.bytes
  /-- The connection of `curl` is served when it is the one that the thread takes. -/
  serves : ∀ c, s.peer c = some .curl → s.parent ≠ .failed → s.Turn c → Serves auth s c

/-- **The input goes to who has the token.** Whatever the processes of the host do, in whatever order,
and wherever the calls of the program fail. -/
theorem bridge_safe {as : List (Action Conn)} (run : exec (step auth) (started input) as = some s) :
    Bridged auth input s := by
  have inv : Inv auth input s :=
    exec_invariant (fun _ _ _ before taken => before.step taken) inv_started run
  obtain ⟨sink, sinks, -⟩ := inv.sink
  exact ⟨⟨sink, sinks⟩, fun c curl => (inv.curl c curl).isPrefix, fun c => inv.serves⟩

/-- Another process connects too, and sends sixteen bytes of its own. -/
def race : List (Action Nat) :=
  [.parentConnect 1, .connect 2, .write 2 (List.replicate 16 0), .accept, .parentWrite 6, .read 4,
    .parentWrite 10, .read 12, .compare, .parentShutdown, .forward 2]

theorem bridge_safe_race :
    ∃ s, exec (step ⟨List.replicate 16 7, rfl⟩) (started [1, 2, 3]) race = some s ∧
      Bridged ⟨List.replicate 16 7, rfl⟩ [1, 2, 3] s ∧
      s.received 1 = [1, 2] ∧ s.received 2 = [] ∧ s.stdin = [3] :=
  ⟨_, rfl, @bridge_safe Nat _ ⟨List.replicate 16 7, rfl⟩ [1, 2, 3] _ race rfl, rfl, rfl, rfl⟩

end SecurityAudits.Curl.StdinBridge
