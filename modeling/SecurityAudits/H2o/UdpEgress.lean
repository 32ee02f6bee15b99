import SecurityAudits.Lib.Checked

/-!
# The egress buffer of CONNECT-UDP

`udp_write_stream` (`lib/handler/connect.c`) gets the body of a request in chunks, cut anywhere, and
finds the capsules in it. What is not a whole capsule yet waits in `udp.egress.buf`, which is appended
to at three places: before the socket is open, behind what waits already, and behind a chunk of which
the capsules have been taken. Each has its own check against `max_buffer_size`.

The loop over the capsules is a parameter: it takes some of the bytes it is given, from the front.
-/

namespace SecurityAudits.H2o.UdpEgress
set_option autoImplicit false

open Checked Checked.Outcome

/-! ## The functions -/

/-- `h2o_buffer_t`, with every value it has had, the newest first. -/
structure Buffer where
  bytes : List UInt8
  past : List (List UInt8)
  deriving DecidableEq, Repr

/-- `h2o_buffer_append` -/
def Buffer.append (b : Buffer) (chunk : List UInt8) : Buffer :=
  ⟨b.bytes ++ chunk, (b.bytes ++ chunk) :: b.past⟩

/-- `h2o_buffer_consume` -/
def Buffer.consume (b : Buffer) (off : Nat) : Buffer :=
  ⟨b.bytes.drop off, b.bytes.drop off :: b.past⟩

variable {World : Type}

/-- `st_connect_generator_t`: whether `sock` is there, `udp.egress.buf`, whether `udp.egress.delayed`
is linked, and all that only the code not shown reads. -/
structure Generator (World : Type) where
  sock : Bool
  buf : Buffer
  delayed : Bool
  world : World
  deriving DecidableEq, Repr

/-- The loop over the capsules: how many bytes it takes, and what else it changes. -/
structure Capsules (World : Type) where
  loop : World → List UInt8 → Nat × World
  inside : ∀ world bytes, (loop world bytes).1 ≤ bytes.length

/-- What a call ends with: its result, the bytes the loop has taken in it and the generator. -/
structure Write (World : Type) where
  ret : Int
  taken : List UInt8
  self : Generator World
  deriving DecidableEq, Repr

/-- `len > max_buffer_size || size > max_buffer_size - len` -/
def exceeds (maxBufferSize size len : Nat) : Outcome Bool :=
  if len > maxBufferSize then pure true
  else do
    let room ← sub maxBufferSize len
    pure (decide (size > room))

variable (capsules : Capsules World) (maxBufferSize : Nat)

/-- `udp_do_write_stream` from the loop on. -/
def takeCapsules (self : Generator World) (fromBuf : Bool) (chunk : List UInt8) :
    Outcome (Write World) :=
  let looped := capsules.loop self.world chunk
  let off := looped.1
  let taken := chunk.take off
  let self := { self with world := looped.2 }
  if fromBuf then
    pure ⟨0, taken, { self with buf := self.buf.consume off, delayed := true }⟩
  else if chunk.length ≠ off then do
    let left ← sub chunk.length off
    if left > maxBufferSize then pure ⟨-1, taken, self⟩
    else pure ⟨0, taken, { self with buf := self.buf.append (chunk.drop off), delayed := true }⟩
  else pure ⟨0, taken, { self with delayed := true }⟩

/-- `udp_do_write_stream` -/
def udpDoWriteStream (self : Generator World) (chunk : List UInt8) : Outcome (Write World) :=
  if self.buf.bytes.length ≠ 0 then
    if chunk.length ≠ 0 then do
      let full ← exceeds maxBufferSize self.buf.bytes.length chunk.length
      if full then pure ⟨-1, [], self⟩
      else
        let self := { self with buf := self.buf.append chunk }
        takeCapsules capsules maxBufferSize self true self.buf.bytes
    else takeCapsules capsules maxBufferSize self true self.buf.bytes
  else takeCapsules capsules maxBufferSize self false chunk

/-- `udp_write_stream` -/
def udpWriteStream (self : Generator World) (chunk : List UInt8) : Outcome (Write World) :=
  if self.sock then udpDoWriteStream capsules maxBufferSize self chunk
  else do
    let full ← exceeds maxBufferSize self.buf.bytes.length chunk.length
    if full then pure ⟨-1, [], self⟩
    else pure ⟨0, [], { self with buf := self.buf.append chunk }⟩

/-! ## A stream -/

/-- What happens to a generator: a chunk comes, its socket is opened, or the code not shown calls
`udp_do_write_stream` with no bytes for what waits (the case that `chunk.len != 0` is there for). -/
inductive Event where
  | write (chunk : List UInt8)
  | opened
  | flush
  deriving DecidableEq, Repr

/-- The generator, all the bytes of the chunks accepted so far, and the bytes the loop has taken in
the calls that accepted them. -/
structure Stream (World : Type) where
  self : Generator World
  accepted : List UInt8
  taken : List UInt8
  deriving DecidableEq, Repr

def fresh (world : World) : Stream World := ⟨⟨false, ⟨[], [[]]⟩, false, world⟩, [], []⟩

/-- The books after a call with `chunk`. -/
def Stream.record (s : Stream World) (chunk : List UInt8) (w : Write World) : Stream World :=
  if w.ret = 0 then ⟨w.self, s.accepted ++ chunk, s.taken ++ w.taken⟩ else { s with self := w.self }

def step (s : Stream World) : Event → Outcome (Stream World)
  | .write chunk => do
    let w ← udpWriteStream capsules maxBufferSize s.self chunk
    pure (s.record chunk w)
  | .opened => pure { s with self := { s.self with sock := true } }
  | .flush =>
    if s.self.sock then do
      let w ← udpDoWriteStream capsules maxBufferSize s.self []
      pure (s.record [] w)
    else pure s

/-- The stream after the events. -/
def run (world : World) (events : List Event) : Outcome (Stream World) :=
  events.foldlM (step capsules maxBufferSize) (fresh world)

/-- Chunks cut inside capsules of two bytes, with room for three bytes: the fourth call refuses its
chunk, and what waits stays. -/
example :
    let pairs : Capsules Unit :=
      ⟨fun _ bytes => (bytes.length / 2 * 2, ()), fun _ bytes => Nat.div_mul_le_self bytes.length 2⟩
    run pairs 3 () [.write [1], .opened, .write [2, 3], .write [4, 5, 6], .flush] =
      .done ⟨⟨true, ⟨[3], [[3], [3], [1, 2, 3], [1], []]⟩, true, ()⟩, [1, 2, 3], [1, 2]⟩ := by
  decide

/-! ## One call -/

variable {capsules maxBufferSize}

/-- The buffer is within the limit now, and was so all the time. -/
structure Bounded (maxBufferSize : Nat) (b : Buffer) : Prop where
  now : b.bytes.length ≤ maxBufferSize
  before : ∀ bytes ∈ b.past, bytes.length ≤ maxBufferSize

theorem Bounded.append {b : Buffer} (bounded : Bounded maxBufferSize b) {chunk : List UInt8}
    (room : b.bytes.length + chunk.length ≤ maxBufferSize) :
    Bounded maxBufferSize (b.append chunk) := by
  have now : (b.bytes ++ chunk).length ≤ maxBufferSize := by
    rw [List.length_append]
    exact room
  exact ⟨now, List.forall_mem_cons.2 ⟨now, bounded.before⟩⟩

theorem Bounded.consume {b : Buffer} (bounded : Bounded maxBufferSize b) (off : Nat) :
    Bounded maxBufferSize (b.consume off) := by
  have now : (b.bytes.drop off).length ≤ maxBufferSize := by
    have short := bounded.now
    rw [List.length_drop]
    omega
  exact ⟨now, List.forall_mem_cons.2 ⟨now, bounded.before⟩⟩

/-- What a call with `chunk` makes of the buffer `b`. -/
structure Served (maxBufferSize : Nat) (b : Buffer) (chunk : List UInt8) (w : Write World) :
    Prop where
  result : w.ret = 0 ∨ w.ret = -1
  kept : w.ret = 0 → w.taken ++ w.self.buf.bytes = b.bytes ++ chunk
  refused : w.ret ≠ 0 → w.self.buf = b
  bounded : Bounded maxBufferSize w.self.buf

variable {self : Generator World} {b : Buffer} {chunk : List UInt8} {taken : List UInt8}

/-- A call that appends nothing. -/
theorem Served.refusal (untouched : self.buf = b) (bounded : Bounded maxBufferSize b) :
    Served maxBufferSize b chunk ⟨-1, taken, self⟩ where
  result := .inr rfl
  kept := fun zero => absurd zero (by decide : (-1 : Int) ≠ 0)
  refused := fun _ => untouched
  bounded := untouched ▸ bounded

/-- A call that accepts its chunk. -/
theorem Served.acceptance (kept : taken ++ self.buf.bytes = b.bytes ++ chunk)
    (bounded : Bounded maxBufferSize self.buf) : Served maxBufferSize b chunk ⟨0, taken, self⟩ where
  result := .inl rfl
  kept := fun _ => kept
  refused := fun nonzero => absurd rfl nonzero
  bounded := bounded

/-- The check does not wrap, and what passes it has room. -/
theorem exceeds_spec (maxBufferSize size len : Nat) :
    (exceeds maxBufferSize size len).Total fun full =>
      ¬ full = true → size + len ≤ maxBufferSize := by
  unfold exceeds
  split
  case isTrue long => exact total_pure fun passes => absurd rfl passes
  case isFalse short =>
    refine (total_sub (Nat.le_of_not_lt short)).bind fun room same => total_pure fun passes => ?_
    have fits : ¬ size > room := fun more => passes (decide_eq_true more)
    omega

/-- The loop over what waits. -/
theorem takeCapsules_waiting (bounded : Bounded maxBufferSize self.buf)
    (same : self.buf.bytes = b.bytes ++ chunk) :
    (takeCapsules capsules maxBufferSize self true self.buf.bytes).Total
      (Served maxBufferSize b chunk) := by
  refine total_pure (Served.acceptance ?_ (bounded.consume _))
  exact (List.take_append_drop _ _).trans same

/-- The loop over a chunk behind which nothing waits. -/
theorem takeCapsules_fresh (bounded : Bounded maxBufferSize self.buf) (empty : self.buf.bytes = [])
    (chunk : List UInt8) :
    (takeCapsules capsules maxBufferSize self false chunk).Total
      (Served maxBufferSize self.buf chunk) := by
  have inside := capsules.inside self.world chunk
  unfold takeCapsules
  generalize capsules.loop self.world chunk = looped at inside ⊢
  obtain ⟨off, world⟩ := looped
  dsimp only at inside ⊢
  rw [if_neg Bool.false_ne_true]
  split
  case isTrue =>
    refine (total_sub inside).bind fun left same => ?_
    split
    case isTrue => exact total_pure (Served.refusal rfl bounded)
    case isFalse short =>
      refine total_pure (Served.acceptance ?_ (bounded.append ?_))
      · show chunk.take off ++ (self.buf.bytes ++ chunk.drop off) = self.buf.bytes ++ chunk
        rw [empty, List.nil_append, List.nil_append, List.take_append_drop]
      · rw [empty, List.length_nil, List.length_drop]
        omega
  case isFalse all =>
    refine total_pure (Served.acceptance ?_ bounded)
    rw [List.take_of_length_le (by omega), empty, List.nil_append, List.append_nil]

theorem udpDoWriteStream_served (bounded : Bounded maxBufferSize self.buf) (chunk : List UInt8) :
    (udpDoWriteStream capsules maxBufferSize self chunk).Total
      (Served maxBufferSize self.buf chunk) := by
  unfold udpDoWriteStream
  split
  case isTrue =>
    split
    case isTrue =>
      refine (exceeds_spec _ _ _).bind fun full room => ?_
      split
      case isTrue => exact total_pure (Served.refusal rfl bounded)
      case isFalse passes => exact takeCapsules_waiting (bounded.append (room passes)) rfl
    case isFalse none =>
      refine takeCapsules_waiting bounded ?_
      rw [List.length_eq_zero_iff.1 (Decidable.not_not.1 none), List.append_nil]
  case isFalse none =>
    exact takeCapsules_fresh bounded (List.length_eq_zero_iff.1 (Decidable.not_not.1 none)) chunk

theorem udpWriteStream_served (bounded : Bounded maxBufferSize self.buf) (chunk : List UInt8) :
    (udpWriteStream capsules maxBufferSize self chunk).Total
      (Served maxBufferSize self.buf chunk) := by
  unfold udpWriteStream
  split
  case isTrue => exact udpDoWriteStream_served bounded chunk
  case isFalse =>
    refine (exceeds_spec _ _ _).bind fun full room => ?_
    split
    case isTrue => exact total_pure (Served.refusal rfl bounded)
    case isFalse passes =>
      exact total_pure (Served.acceptance rfl (bounded.append (room passes)))

/-! ## A whole stream -/

/-- What holds after every event: what waits is what the loop has not taken yet of what was
accepted. -/
structure Kept (maxBufferSize : Nat) (s : Stream World) : Prop where
  books : s.taken ++ s.self.buf.bytes = s.accepted
  bounded : Bounded maxBufferSize s.self.buf

theorem kept_fresh (world : World) : Kept maxBufferSize (fresh world) where
  books := rfl
  bounded := ⟨Nat.zero_le _, List.forall_mem_singleton.2 (Nat.zero_le _)⟩

variable {s : Stream World} {w : Write World}

theorem Kept.record (kept : Kept maxBufferSize s)
    (served : Served maxBufferSize s.self.buf chunk w) :
    Kept maxBufferSize (s.record chunk w) := by
  unfold Stream.record
  split
  case isTrue zero =>
    refine ⟨?_, served.bounded⟩
    show s.taken ++ w.taken ++ w.self.buf.bytes = s.accepted ++ chunk
    rw [List.append_assoc, served.kept zero, ← List.append_assoc, kept.books]
  case isFalse nonzero =>
    refine ⟨?_, served.bounded⟩
    show s.taken ++ w.self.buf.bytes = s.accepted
    rw [served.refused nonzero, kept.books]

theorem Kept.step (kept : Kept maxBufferSize s) (event : Event) :
    (step capsules maxBufferSize s event).Total (Kept maxBufferSize) := by
  cases event with
  | write chunk =>
    exact (udpWriteStream_served kept.bounded chunk).bind fun w served =>
      total_pure (kept.record served)
  | opened => exact total_pure ⟨kept.books, kept.bounded⟩
  | flush =>
    unfold UdpEgress.step
    dsimp only
    split
    case isTrue =>
      exact (udpDoWriteStream_served kept.bounded []).bind fun w served =>
        total_pure (kept.record served)
    case isFalse => exact total_pure kept

/-- **The egress buffer keeps what is not taken yet.** After any chunks, cut in any way, before and
after the socket is opened: no subtraction wraps, what waits is what the loop has not taken yet of
the chunks accepted so far, in order, and the buffer has never been larger than the limit. The next
call returns 0 or -1, and appends nothing in the second case. -/
theorem run_kept (capsules : Capsules World) (maxBufferSize : Nat) (world : World)
    (events : List Event) :
    ∃ s, run capsules maxBufferSize world events = .done s ∧
      s.taken ++ s.self.buf.bytes = s.accepted ∧ s.self.buf.bytes.length ≤ maxBufferSize ∧
      (∀ bytes ∈ s.self.buf.past, bytes.length ≤ maxBufferSize) ∧
      ∀ chunk, ∃ w, udpWriteStream capsules maxBufferSize s.self chunk = .done w ∧
        (w.ret = 0 ∨ w.ret = -1 ∧ w.self.buf = s.self.buf) := by
  obtain ⟨s, ran, kept⟩ := total_foldlM (Kept maxBufferSize)
    (fun s event inv => @Kept.step _ capsules _ s inv event) (kept_fresh world) events
  refine ⟨s, ran, kept.books, kept.bounded.now, kept.bounded.before, fun chunk => ?_⟩
  obtain ⟨w, called, served⟩ := @udpWriteStream_served _ capsules _ _ kept.bounded chunk
  refine ⟨w, called, served.result.imp_right fun refused => ⟨refused, served.refused ?_⟩⟩
  rw [refused]
  decide

end SecurityAudits.H2o.UdpEgress
