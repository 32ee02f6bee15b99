import SecurityAudits.BunRust.Valkey

/-!
# A stream of frames

A server sends one frame behind the other, and the network cuts the bytes anywhere: a piece may end
one frame, hold several and begin another. `stream_delivered` says what the client makes of it. As
long as it lives it has handed on the values of the frames that have arrived, in order, and keeps the
bytes of the next one; it lives as long as these fit the buffer and show no length that is refused
(`Fits`); and what it has handed on when it fails are the first values of the stream.
-/

namespace SecurityAudits.BunRust.ValkeyStream
set_option autoImplicit false
open SecurityAudits.Reading SecurityAudits.BunRust.Valkey

variable {S : Type}

abbrev Frames (S : Type) := List (Encoding (RESPValue S))

/-- The bytes of the frames. -/
def stream (frames : Frames S) : List UInt8 := frames.flatMap Encoding.bytes

/-- The values of the frames that end within the first `n` bytes. -/
def delivered : Frames S → Nat → List (RESPValue S)
  | [], _ => []
  | e :: frames, n =>
    if e.bytes.length ≤ n then e.value :: delivered frames (n - e.bytes.length) else []

/-- What the first `n` bytes have of the frame after these. -/
def pending : Frames S → Nat → List UInt8
  | [], _ => []
  | e :: frames, n =>
    if e.bytes.length ≤ n then pending frames (n - e.bytes.length) else e.bytes.take n

/-- Every length in them is at most the number of bytes behind it. -/
def MetPending : Frames S → Nat → Prop
  | [], _ => True
  | e :: frames, n =>
    if e.bytes.length ≤ n then MetPending frames (n - e.bytes.length) else 0 < n → Met e.demands n

/-- The pieces that come when `n` bytes have arrived leave the client alive. -/
def Fits (frames : Frames S) : (n : Nat) → List (List UInt8) → Prop
  | _, [] => True
  | n, piece :: pieces =>
    (if pending frames n ≠ [] then (pending frames n).length + piece.length ≤ maxReadBufferSize
      else (pending frames (n + piece.length)).length ≤ maxReadBufferSize) ∧
    MetPending frames (n + piece.length) ∧ Fits frames (n + piece.length) pieces

/-- The frames that do not end within the first `n` bytes. -/
def remaining : Frames S → Nat → Frames S
  | [], _ => []
  | e :: frames, n =>
    if e.bytes.length ≤ n then remaining frames (n - e.bytes.length) else e :: frames

/-- How many bytes of the first of them have arrived. -/
def offset : Frames S → Nat → Nat
  | [], _ => 0
  | e :: frames, n => if e.bytes.length ≤ n then offset frames (n - e.bytes.length) else n

variable {frames : Frames S} {read : Reader RedisError (RESPValue S)} {client : Client S}

theorem remaining_subset (frames : Frames S) (n : Nat) : remaining frames n ⊆ frames := by
  induction frames generalizing n with
  | nil => exact List.nil_subset _
  | cons e frames ih =>
    rw [remaining]
    split
    · exact List.Subset.trans (ih _) (List.subset_cons_self _ _)
    · exact List.Subset.refl _

theorem pending_eq (frames : Frames S) (n : Nat) :
    pending frames n = (stream (remaining frames n)).take (offset frames n) := by
  induction frames generalizing n with
  | nil => rfl
  | cons e frames ih =>
    rw [pending, remaining, offset]
    split
    · exact ih _
    next cut =>
      rw [stream, List.flatMap_cons, List.take_append_of_le_length (Nat.le_of_not_le cut)]

theorem drop_stream (frames : Frames S) (n : Nat) :
    (stream frames).drop n = (stream (remaining frames n)).drop (offset frames n) := by
  induction frames generalizing n with
  | nil => simp [stream, remaining]
  | cons e frames ih =>
    rw [remaining, offset]
    split
    next whole =>
      rw [← ih, stream, List.flatMap_cons, List.drop_append, List.drop_of_length_le whole,
        List.nil_append]
      rfl
    · rfl

theorem delivered_add (frames : Frames S) (n m : Nat) :
    delivered frames (n + m) =
      delivered frames n ++ delivered (remaining frames n) (offset frames n + m) := by
  induction frames generalizing n with
  | nil => rfl
  | cons e frames ih =>
    by_cases whole : e.bytes.length ≤ n
    · rw [delivered, if_pos (Nat.le_add_right_of_le whole), delivered, if_pos whole, remaining,
        if_pos whole, offset, if_pos whole, Nat.sub_add_comm whole, ih, List.cons_append]
    · rw [remaining, if_neg whole, offset, if_neg whole]
      conv_rhs => rw [delivered, if_neg whole, List.nil_append]

theorem pending_add (frames : Frames S) (n m : Nat) :
    pending frames (n + m) = pending (remaining frames n) (offset frames n + m) := by
  induction frames generalizing n with
  | nil => rfl
  | cons e frames ih =>
    by_cases whole : e.bytes.length ≤ n
    · rw [pending, if_pos (Nat.le_add_right_of_le whole), remaining, if_pos whole, offset,
        if_pos whole, Nat.sub_add_comm whole, ih]
    · rw [remaining, if_neg whole, offset, if_neg whole]

theorem metPending_add (frames : Frames S) (n m : Nat) :
    MetPending frames (n + m) ↔ MetPending (remaining frames n) (offset frames n + m) := by
  induction frames generalizing n with
  | nil => exact Iff.rfl
  | cons e frames ih =>
    by_cases whole : e.bytes.length ≤ n
    · rw [MetPending, if_pos (Nat.le_add_right_of_le whole), remaining, if_pos whole, offset,
        if_pos whole, Nat.sub_add_comm whole, ih]
    · rw [remaining, if_neg whole, offset, if_neg whole]

/-- What has been delivered are the first values of the stream. -/
theorem delivered_prefix (frames : Frames S) (n : Nat) :
    delivered frames n <+: frames.map Encoding.value := by
  induction frames generalizing n with
  | nil => exact List.prefix_rfl
  | cons e frames ih =>
    rw [delivered]
    split
    · exact List.cons_prefix_cons.2 ⟨rfl, ih _⟩
    · exact List.nil_prefix

/-- The frames are read by `read`. -/
def Readable (read : Reader RedisError (RESPValue S)) (frames : Frames S) : Prop :=
  ∀ e ∈ frames, Decodes read e ∧ e.bytes ≠ []

theorem Readable.remaining (readable : Readable read frames) (n : Nat) :
    Readable read (remaining frames n) :=
  fun e mem => readable e (remaining_subset frames n mem)

/-- The client reads the frames of a piece, and keeps or refuses what is left of it. -/
theorem drain_stream (readable : Readable read frames) {n : Nat} (fuel : Nat)
    (within : n ≤ (stream frames).length) (enough : n ≤ fuel) (client : Client S) :
    (MetPending frames n → drain read fuel ((stream frames).take n) client =
      { client with
        readBuffer := pending frames n
        values := client.values ++ delivered frames n }) ∧
    (¬ MetPending frames n → ∃ e, drain read fuel ((stream frames).take n) client =
      { client with
        readBuffer := []
        values := client.values ++ delivered frames n
        failed := some e }) := by
  induction frames generalizing n fuel client with
  | nil =>
    refine ⟨fun _ => ?_, fun unmet => absurd trivial unmet⟩
    cases fuel <;> simp [drain, stream, pending, delivered]
  | cons e frames ih =>
    obtain ⟨decodes, nonempty⟩ := readable e List.mem_cons_self
    have positive := List.length_pos_iff.2 nonempty
    rw [stream, List.flatMap_cons] at within ⊢
    by_cases whole : e.bytes.length ≤ n
    · obtain ⟨fuel, rfl⟩ : ∃ j, fuel = j + 1 := ⟨fuel - 1, by omega⟩
      have split : (e.bytes ++ frames.flatMap Encoding.bytes).take n =
          e.bytes ++ (stream frames).take (n - e.bytes.length) := by
        rw [List.take_append, List.take_of_length_le whole]
        rfl
      have step : drain read (fuel + 1) ((e.bytes ++ frames.flatMap Encoding.bytes).take n) client =
          drain read fuel ((stream frames).take (n - e.bytes.length))
            { client with values := client.values ++ [e.value] } := by
        rw [split, drain, if_neg (by simp [nonempty]), decodes.whole]
      have shorter : n - e.bytes.length ≤ (stream frames).length := by
        rw [List.length_append] at within
        exact Nat.sub_le_iff_le_add'.2 within
      have later := ih (fun e mem => readable e (List.mem_cons_of_mem _ mem)) fuel shorter
        (by omega) { client with values := client.values ++ [e.value] }
      rw [step, MetPending, if_pos whole, pending, if_pos whole, delivered, if_pos whole]
      simpa using later
    · have cut := Nat.lt_of_not_le whole
      have split : (e.bytes ++ frames.flatMap Encoding.bytes).take n = e.bytes.take n :=
        List.take_append_of_le_length (Nat.le_of_lt cut)
      rw [split, MetPending, if_neg whole, pending, if_neg whole, delivered, if_neg whole,
        List.append_nil]
      cases n with
      | zero =>
        refine ⟨fun _ => ?_, fun unmet => absurd (fun none' => absurd none' (Nat.lt_irrefl 0)) unmet⟩
        cases fuel <;> simp [drain]
      | succ k =>
        obtain ⟨fuel, rfl⟩ : ∃ j, fuel = j + 1 := ⟨fuel - 1, by omega⟩
        have some' : e.bytes.take (k + 1) ≠ [] :=
          List.length_pos_iff.1 (by rw [List.length_take]; omega)
        rw [drain, if_neg some']
        refine ⟨fun met => ?_, fun unmet => ?_⟩
        · rw [decodes.cut _ cut (met (Nat.succ_pos k))]
        · obtain ⟨error, refusal, refused⟩ :=
            decodes.refused _ cut fun met => unmet fun _ => met
          refine ⟨error, ?_⟩
          rw [refused]
          cases error <;> first | rfl | cases refusal

/-- The client after the first `n` bytes of the stream. -/
structure After (frames : Frames S) (n : Nat) (client : Client S) : Prop where
  readBuffer : client.readBuffer = pending frames n
  values : client.values = delivered frames n
  alive : client.failed = none

/-- The client has failed, and what it has handed on are values of the stream. -/
structure Failed (frames : Frames S) (client : Client S) : Prop where
  failed : client.failed.isSome = true
  values : client.values <+: frames.map Encoding.value

theorem offset_le (frames : Frames S) (n : Nat) :
    offset frames n ≤ (stream (remaining frames n)).length := by
  induction frames generalizing n with
  | nil => exact Nat.zero_le _
  | cons e frames ih =>
    rw [offset, remaining]
    split
    · exact ih _
    next cut =>
      rw [stream, List.flatMap_cons, List.length_append]
      omega

/-- What is buffered and the next piece are the front of what remains of the stream. -/
theorem pending_append {n : Nat} {piece : List UInt8} (more : piece <+: (stream frames).drop n) :
    pending frames n ++ piece =
        (stream (remaining frames n)).take (offset frames n + piece.length) ∧
      offset frames n + piece.length ≤ (stream (remaining frames n)).length := by
  rw [drop_stream] at more
  constructor
  · rw [List.take_add, pending_eq]
    exact congrArg _ (List.prefix_iff_eq_take.1 more)
  · have short := more.length_le
    have inside := offset_le frames n
    rw [List.length_drop] at short
    omega

/-- What `drain` makes of the buffered bytes and the next piece. -/
theorem After.drain (readable : Readable read frames) {n : Nat} {piece : List UInt8}
    (after : After frames n client) (more : piece <+: (stream frames).drop n) :
    (MetPending frames (n + piece.length) → After frames (n + piece.length)
      (Valkey.drain read (pending frames n ++ piece).length (pending frames n ++ piece) client)) ∧
    (¬ MetPending frames (n + piece.length) → Failed frames
      (Valkey.drain read (pending frames n ++ piece).length (pending frames n ++ piece) client) ∧
      (Valkey.drain read (pending frames n ++ piece).length (pending frames n ++ piece)
        client).readBuffer = []) := by
  obtain ⟨same, within⟩ := pending_append more
  have length : (pending frames n ++ piece).length = offset frames n + piece.length := by
    rw [same, List.length_take_of_le within]
  have values : client.values ++ delivered (remaining frames n) (offset frames n + piece.length) =
      delivered frames (n + piece.length) := by
    rw [after.values, ← delivered_add]
  have drained := drain_stream (readable.remaining n) _ within (Nat.le_refl _) client
  rw [← same, values, ← pending_add, ← metPending_add] at drained
  rw [length]
  refine ⟨fun met => ?_, fun unmet => ?_⟩
  · rw [drained.1 met]
    exact ⟨rfl, rfl, after.alive⟩
  · obtain ⟨e, failed⟩ := drained.2 unmet
    rw [failed]
    exact ⟨⟨rfl, delivered_prefix frames _⟩, rfl⟩

/-- One piece. -/
theorem After.onData (readable : Readable read frames) {n : Nat} {piece : List UInt8}
    (after : After frames n client) (more : piece <+: (stream frames).drop n) :
    (Fits frames n [piece] → After frames (n + piece.length) (onData read client piece)) ∧
      (¬ Fits frames n [piece] → Failed frames (onData read client piece)) := by
  obtain ⟨kept, refused⟩ := after.drain readable more
  have alive : client.failed.isSome ≠ true := by simp [after.alive]
  have tooLarge : Failed frames client.failTooLarge :=
    ⟨rfl, after.values ▸ delivered_prefix frames n⟩
  rw [Valkey.onData, if_neg alive, after.readBuffer]
  simp only [Fits, and_true]
  by_cases empty : pending frames n = []
  · rw [empty, List.nil_append] at kept refused
    rw [if_neg (not_not_intro empty), if_neg (not_not_intro empty)]
    by_cases met : MetPending frames (n + piece.length)
    · have whole := kept met
      rw [whole.readBuffer]
      refine ⟨fun fits => ?_, fun unfit => ?_⟩
      · rw [if_neg (Nat.not_lt.2 fits.1)]
        exact whole
      · rw [if_pos (Nat.lt_of_not_le fun small => unfit ⟨small, met⟩)]
        exact ⟨rfl, whole.values ▸ delivered_prefix frames _⟩
    · obtain ⟨failed, none'⟩ := refused met
      refine ⟨fun fits => absurd fits.2 met, fun _ => ?_⟩
      rw [none', if_neg (by simp)]
      exact failed
  · rw [if_pos empty, if_pos empty]
    by_cases large : maxReadBufferSize < (pending frames n).length + piece.length
    · rw [if_pos large]
      exact ⟨fun fits => absurd large (Nat.not_lt.2 fits.1), fun _ => tooLarge⟩
    · rw [if_neg large]
      refine ⟨fun fits => kept fits.2, fun unfit => (refused fun met => unfit ⟨?_, met⟩).1⟩
      exact Nat.le_of_not_lt large

/-- The pieces that are still to come. -/
theorem After.foldl (readable : Readable read frames) (pieces : List (List UInt8)) {n : Nat}
    (after : After frames n client) (more : pieces.flatten <+: (stream frames).drop n) :
    (Fits frames n pieces → After frames (n + pieces.flatten.length)
      (pieces.foldl (Valkey.onData read) client)) ∧
    (¬ Fits frames n pieces → Failed frames (pieces.foldl (Valkey.onData read) client)) := by
  induction pieces generalizing n client with
  | nil => exact ⟨fun _ => after, fun unfit => absurd trivial unfit⟩
  | cons piece pieces ih =>
    rw [List.flatten_cons] at more ⊢
    have first := after.onData readable ((List.prefix_append _ _).trans more)
    have later : pieces.flatten <+: (stream frames).drop (n + piece.length) := by
      obtain ⟨rest, split⟩ := more
      refine ⟨rest, ?_⟩
      rw [← List.drop_drop, ← split, List.append_assoc, List.drop_left]
    have joined : Fits frames n (piece :: pieces) ↔
        Fits frames n [piece] ∧ Fits frames (n + piece.length) pieces := by
      simp only [Fits, and_true, and_assoc]
    rw [joined, List.foldl_cons]
    by_cases fits : Fits frames n [piece]
    · have rest := ih (first.1 fits) later
      rw [Nat.add_assoc, ← List.length_append] at rest
      exact ⟨fun both => rest.1 both.2, fun unfit => rest.2 fun fit => unfit ⟨fits, fit⟩⟩
    · have failed := first.2 fits
      refine ⟨fun both => absurd both.1 fits, fun _ => ?_⟩
      rw [onData_failed failed.failed]
      exact failed

/-- **Frames are delivered in order, wherever the stream is cut.** The client lives exactly as long as
what is incomplete fits its buffer and shows no length that is refused. -/
theorem stream_delivered (c : Codec S) (left : Nat) (frames : Frames S)
    (wellFormed : ∀ e ∈ frames, Frame c left e) (pieces : List (List UInt8))
    (arrived : pieces.flatten <+: stream frames) :
    ((pieces.foldl (onData (readValue c left)) Client.start).failed = none ↔
      Fits frames 0 pieces) ∧
    ((pieces.foldl (onData (readValue c left)) Client.start).failed = none →
      After frames pieces.flatten.length
        (pieces.foldl (onData (readValue c left)) Client.start)) ∧
    (pieces.foldl (onData (readValue c left)) Client.start).values <+:
      frames.map Encoding.value := by
  have readable : Readable (readValue c left) frames := fun e mem =>
    ⟨reads_frame (wellFormed e mem), (wellFormed e mem).nonempty⟩
  have start : After frames 0 (Client.start : Client S) := by
    cases frames with
    | nil => exact ⟨rfl, rfl, rfl⟩
    | cons e frames =>
      have positive := List.length_pos_iff.2 (readable e List.mem_cons_self).2
      have cut : ¬ e.bytes.length ≤ 0 := Nat.not_le.2 positive
      exact ⟨by rw [pending, if_neg cut]; rfl, by rw [delivered, if_neg cut]; rfl, rfl⟩
  have result := start.foldl readable pieces arrived
  rw [Nat.zero_add] at result
  by_cases fits : Fits frames 0 pieces
  · have after := result.1 fits
    exact ⟨iff_of_true after.alive fits, fun _ => after, after.values ▸ delivered_prefix frames _⟩
  · have failed := result.2 fits
    have dead : (pieces.foldl (onData (readValue c left)) Client.start).failed ≠ none := by
      intro alive
      have some' := failed.failed
      rw [alive] at some'
      cases some'
    exact ⟨iff_of_false dead fits, fun alive => absurd alive dead, failed.values⟩

/-- Two arrays, cut within the last item of the second. -/
def twoArrays : List (List UInt8) :=
  [threeIntegers.bytes ++ threeIntegers.bytes.take 13, threeIntegers.bytes.drop 13]

theorem stream_delivered_twoArrays :
    ((twoArrays.foldl (onData (readValue digits 2)) Client.start).failed = none ↔
      Fits [threeIntegers, threeIntegers] 0 twoArrays) ∧
    ((twoArrays.foldl (onData (readValue digits 2)) Client.start).failed = none →
      After [threeIntegers, threeIntegers] twoArrays.flatten.length
        (twoArrays.foldl (onData (readValue digits 2)) Client.start)) ∧
    (twoArrays.foldl (onData (readValue digits 2)) Client.start).values <+:
      [threeIntegers.value, threeIntegers.value] := by
  refine stream_delivered digits 2 [threeIntegers, threeIntegers] ?_ twoArrays ?_
  · simp [frame_threeIntegers]
  · simp [twoArrays, stream]

end SecurityAudits.BunRust.ValkeyStream
