import Mathlib.Data.Fintype.Basic
import Mathlib.Tactic.FinCases
import Mathlib.Tactic.IntervalCases
import SecurityAudits.Lib.Reader

/-!
# `ValkeyReader` and the client that feeds it

The reader decodes one RESP value from the bytes buffered so far. The patch refuses an
aggregate whose announced length is larger than the number of bytes left in the buffer, before
it allocates that many elements. The client keeps the bytes of a value that is incomplete,
up to a limit, and reads them again when more have arrived.

A whole frame always passes that test. A frame that is cut need not: `cut_after_header` is an
array whose header has arrived alone, and `pieces_decode_iff` says exactly which cuts the
reader survives.
-/

namespace SecurityAudits.BunRust.Valkey
set_option autoImplicit false
open SecurityAudits.Reading

/-- The errors of the reader; `invalidResponse` is also the one for missing bytes. `other` stands
for those of the parts that the patch does not show. -/
inductive RedisError where
  | invalidResponse
  | invalidArray
  | invalidMap
  | invalidSet
  | invalidAttribute
  | invalidPush
  | nestingDepth
  | other (code : Nat)
  deriving DecidableEq

/-- The error refuses an aggregate. -/
def RedisError.aggregate : RedisError → Prop
  | .invalidArray | .invalidMap | .invalidSet | .invalidAttribute | .invalidPush => True
  | _ => False

/-- The values; `S` is the type of those that are not aggregates. -/
inductive RESPValue (S : Type) where
  | scalar (s : S)
  | array (items : List (RESPValue S))
  | map (entries : List (RESPValue S × RESPValue S))
  | set (items : List (RESPValue S))
  | attribute (attributes : List (RESPValue S × RESPValue S)) (value : RESPValue S)
  | push (kind : List UInt8) (data : List (RESPValue S))

/-- The marks `*`, `%`, `~`, `|` and `>` of the aggregates. -/
def aggregateMarks : List UInt8 := [42, 37, 126, 124, 62]

/-- The parts of the reader that the patch does not show: length lines, the values that are not
aggregates, and which values name the kind of a push. What is known of them is that they read
their own lines and elements, and find a truncated one incomplete. -/
structure Codec (S : Type) where
  Line : Type
  lineBytes : Line → List UInt8
  lineValue : Line → Int
  readInteger : Reader RedisError Int
  reads_integer : ∀ l, Reads .invalidResponse RedisError.aggregate readInteger (lineBytes l) []
    (lineValue l)
  Scalar : Type
  mark : Scalar → UInt8
  mark_scalar : ∀ s, mark s ∉ aggregateMarks
  scalarBytes : Scalar → List UInt8
  scalarValue : Scalar → S
  readScalar : UInt8 → Reader RedisError S
  reads_scalar : ∀ s, Reads .invalidResponse RedisError.aggregate (readScalar (mark s))
    (scalarBytes s) [] (scalarValue s)
  pushKind : RESPValue S → Option (List UInt8)

variable {S : Type}

section Code

variable (c : Codec S) (element : Reader RedisError (RESPValue S))

/-- An array behind its length line. -/
def readArray (len : Int) : Reader RedisError (RESPValue S) :=
  if len < 0 then return .array []
  else do
    demand .invalidArray len.toNat
    let items ← times element len.toNat
    return .array items

/-- A map, a set or an attribute behind its length line. -/
def counted {β : Type} (invalid : RedisError) (rest : Nat → Reader RedisError β) (len : Int) :
    Reader RedisError β :=
  if len < 0 then throw invalid
  else do
    demand invalid len.toNat
    rest len.toNat

def readEntry : Reader RedisError (RESPValue S × RESPValue S) := do
  let key ← element
  let value ← element
  return (key, value)

def readMap : Int → Reader RedisError (RESPValue S) :=
  counted .invalidMap fun len => do
    let entries ← times (readEntry element) len
    return .map entries

def readSet : Int → Reader RedisError (RESPValue S) :=
  counted .invalidSet fun len => do
    let items ← times element len
    return .set items

def readAttribute : Int → Reader RedisError (RESPValue S) :=
  counted .invalidAttribute fun len => do
    let attributes ← times (readEntry element) len
    let value ← element
    return .attribute attributes value

/-- The rest of a push behind its first element, which names its kind. -/
def readPushData (len : Nat) (pushType : RESPValue S) : Reader RedisError (RESPValue S) :=
  match c.pushKind pushType with
  | none => throw .invalidPush
  | some kind => do
    let data ← times element (len - 1)
    return .push kind data

def readPush (len : Int) : Reader RedisError (RESPValue S) :=
  if len < 0 ∨ len = 0 then throw .invalidPush
  else do
    demand .invalidPush len.toNat
    let pushType ← element
    readPushData c element len.toNat pushType

/-- The value behind its mark. -/
def readMarked (mark : UInt8) : Reader RedisError (RESPValue S) :=
  if mark = 42 then c.readInteger >>= readArray element
  else if mark = 37 then c.readInteger >>= readMap element
  else if mark = 126 then c.readInteger >>= readSet element
  else if mark = 124 then c.readInteger >>= readAttribute element
  else if mark = 62 then c.readInteger >>= readPush c element
  else do
    let s ← c.readScalar mark
    return .scalar s

/-- `read_value_with_depth`, with `left` levels of nesting to go. -/
def readValue : (left : Nat) → Reader RedisError (RESPValue S)
  | 0 => throw .nestingDepth
  | left + 1 => readByte .invalidResponse >>= readMarked c (readValue left)

end Code

/-- An aggregate: its mark, its length line, its elements. Behind the line the reader demands as
many bytes as the line announces. -/
def aggregate {β : Type} (c : Codec S) (mark : UInt8) (line : c.Line) (elements : Encoding β)
    (build : β → RESPValue S) : Encoding (RESPValue S) where
  bytes := [mark] ++ (c.lineBytes line ++ elements.bytes)
  demands := ((⟨0, (c.lineValue line).toNat⟩ :: elements.demands).map
    (Demand.shift (c.lineBytes line).length)).map (Demand.shift 1)
  value := build elements.value

/-- The entries of a map, key and value in turn. -/
def entriesOf (entries : List (Encoding (RESPValue S) × Encoding (RESPValue S))) :
    Encoding (List (RESPValue S × RESPValue S)) :=
  Encoding.sequence (entries.map fun e => e.1.pair e.2)

/-- The well-formed frames that nest at most `left` levels deep. -/
inductive Frame (c : Codec S) : (left : Nat) → Encoding (RESPValue S) → Prop
  | scalar {left : Nat} (s : c.Scalar) :
      Frame c (left + 1) ⟨[c.mark s] ++ c.scalarBytes s, [], .scalar (c.scalarValue s)⟩
  | nullArray {left : Nat} (line : c.Line) (null : c.lineValue line < 0) :
      Frame c (left + 1) ⟨[42] ++ c.lineBytes line, [], .array []⟩
  | array {left : Nat} (line : c.Line) (items : List (Encoding (RESPValue S)))
      (announced : c.lineValue line = items.length) (frames : ∀ e ∈ items, Frame c left e) :
      Frame c (left + 1) (aggregate c 42 line (Encoding.sequence items) .array)
  | map {left : Nat} (line : c.Line)
      (entries : List (Encoding (RESPValue S) × Encoding (RESPValue S)))
      (announced : c.lineValue line = entries.length) (keys : ∀ e ∈ entries, Frame c left e.1)
      (values : ∀ e ∈ entries, Frame c left e.2) :
      Frame c (left + 1) (aggregate c 37 line (entriesOf entries) .map)
  | set {left : Nat} (line : c.Line) (items : List (Encoding (RESPValue S)))
      (announced : c.lineValue line = items.length) (frames : ∀ e ∈ items, Frame c left e) :
      Frame c (left + 1) (aggregate c 126 line (Encoding.sequence items) .set)
  | attributed {left : Nat} (line : c.Line)
      (entries : List (Encoding (RESPValue S) × Encoding (RESPValue S)))
      (value : Encoding (RESPValue S))
      (announced : c.lineValue line = entries.length) (keys : ∀ e ∈ entries, Frame c left e.1)
      (values : ∀ e ∈ entries, Frame c left e.2) (frame : Frame c left value) :
      Frame c (left + 1) (aggregate c 124 line ((entriesOf entries).pair value)
        fun r => .attribute r.1 r.2)
  | push {left : Nat} (line : c.Line) (pushType : Encoding (RESPValue S)) (kind : List UInt8)
      (data : List (Encoding (RESPValue S)))
      (announced : c.lineValue line = data.length + 1) (named : c.pushKind pushType.value = some kind)
      (frame : Frame c left pushType) (frames : ∀ e ∈ data, Frame c left e) :
      Frame c (left + 1) (aggregate c 62 line (pushType.pair (Encoding.sequence data))
        fun r => .push kind r.2)

/-- What it is for a reader of this module to read an encoding. -/
abbrev Decodes {α : Type} (read : Reader RedisError α) (e : Encoding α) : Prop :=
  Reads .invalidResponse RedisError.aggregate read e.bytes e.demands e.value

section Frames

variable {c : Codec S} {element : Reader RedisError (RESPValue S)}

theorem Frame.nonempty {left : Nat} {e : Encoding (RESPValue S)} (frame : Frame c left e) :
    e.bytes ≠ [] := by
  cases frame <;> exact List.cons_ne_nil _ _

theorem decodes_entries {entries : List (Encoding (RESPValue S) × Encoding (RESPValue S))}
    (keys : ∀ e ∈ entries, Decodes element e.1) (values : ∀ e ∈ entries, Decodes element e.2) :
    Decodes (times (readEntry element) entries.length) (entriesOf entries) := by
  have each : ∀ e ∈ entries.map fun e => e.1.pair e.2, Decodes (readEntry element) e := by
    intro e mem
    obtain ⟨entry, memEntry, rfl⟩ := List.mem_map.1 mem
    exact (keys entry memEntry).pair (values entry memEntry)
  have all := Reads.times each
  rwa [List.length_map] at all

theorem length_le_entries {left : Nat}
    {entries : List (Encoding (RESPValue S) × Encoding (RESPValue S))}
    (keys : ∀ e ∈ entries, Frame c left e.1) :
    entries.length ≤ (entriesOf entries).bytes.length := by
  have nonempty : ∀ e ∈ entries.map fun e => e.1.pair e.2, e.bytes ≠ [] := by
    intro e mem
    obtain ⟨entry, memEntry, rfl⟩ := List.mem_map.1 mem
    exact List.append_ne_nil_of_left_ne_nil (keys entry memEntry).nonempty _
  have le := Encoding.length_le_sequence nonempty
  rwa [List.length_map] at le

theorem decodes_marked {left : Nat} {mark : UInt8} {bytes : List UInt8} {v : RESPValue S}
    (demands : List Demand)
    (reads : Reads .invalidResponse RedisError.aggregate (readMarked c (readValue c left) mark)
      bytes demands v) :
    Reads .invalidResponse RedisError.aggregate (readValue c (left + 1)) ([mark] ++ bytes)
      (demands.map (Demand.shift 1)) v :=
  (reads_byte mark).then reads

/-- A mark and a length line make no demands; those of the elements move behind them. -/
theorem decodes_aggregate {β : Type} {left : Nat} {mark : UInt8} {line : c.Line}
    {elements : Encoding β} {build : β → RESPValue S}
    {body : Int → Reader RedisError (RESPValue S)}
    (dispatch : readMarked c (readValue c left) mark = c.readInteger >>= body)
    (reads : Reads .invalidResponse RedisError.aggregate (body (c.lineValue line)) elements.bytes
      (⟨0, (c.lineValue line).toNat⟩ :: elements.demands) (build elements.value)) :
    Decodes (readValue c (left + 1)) (aggregate c mark line elements build) := by
  refine decodes_marked _ ?_
  rw [dispatch]
  exact (c.reads_integer line).then reads

/-- The elements of a map, a set or an attribute. -/
theorem reads_counted {β : Type} {invalid : RedisError} {rest : Nat → Reader RedisError β}
    {n : Nat} {bytes : List UInt8} {demands : List Demand} {b : β}
    (refusal : invalid.aggregate) (enough : n ≤ bytes.length)
    (reads : Reads .invalidResponse RedisError.aggregate (rest n) bytes demands b) :
    Reads .invalidResponse RedisError.aggregate (counted invalid rest n) bytes
      (⟨0, n⟩ :: demands) b := by
  rw [counted, if_neg (by omega), Int.toNat_natCast]
  exact reads.demand enough refusal

/-- Every frame is read as its value, and its demands are those of its length lines. -/
theorem reads_frame {left : Nat} {e : Encoding (RESPValue S)} (frame : Frame c left e) :
    Decodes (readValue c left) e := by
  induction frame with
  | scalar s =>
    refine decodes_marked [] ?_
    have other := c.mark_scalar s
    simp only [aggregateMarks, List.mem_cons, List.not_mem_nil, or_false, not_or] at other
    rw [readMarked, if_neg other.1, if_neg other.2.1, if_neg other.2.2.1, if_neg other.2.2.2.1,
      if_neg other.2.2.2.2]
    exact (c.reads_scalar s).pure_bind
  | @nullArray left line null =>
    refine decodes_marked [] ?_
    have empty : Reads .invalidResponse RedisError.aggregate (readArray (readValue c left)
        (c.lineValue line)) [] [] (.array []) := by
      rw [readArray, if_pos null]
      exact reads_pure _
    have both := (c.reads_integer line).then empty
    rw [List.append_nil] at both
    exact both
  | array line items announced frames ih =>
    refine decodes_aggregate rfl ?_
    rw [announced, readArray, if_neg (by omega), Int.toNat_natCast]
    exact (Reads.times ih).pure_bind.demand
      (Encoding.length_le_sequence fun e mem => (frames e mem).nonempty) trivial
  | map line entries announced keys values ihKeys ihValues =>
    refine decodes_aggregate rfl ?_
    rw [announced]
    exact reads_counted trivial (length_le_entries keys) (decodes_entries ihKeys ihValues).pure_bind
  | set line items announced frames ih =>
    refine decodes_aggregate rfl ?_
    rw [announced]
    exact reads_counted trivial
      (Encoding.length_le_sequence fun e mem => (frames e mem).nonempty) (Reads.times ih).pure_bind
  | attributed line entries value announced keys values frame ihKeys ihValues ih =>
    refine decodes_aggregate rfl ?_
    rw [announced]
    refine reads_counted trivial ?_ ?_
    · show _ ≤ ((entriesOf entries).bytes ++ value.bytes).length
      rw [List.length_append]
      exact (length_le_entries keys).trans (Nat.le_add_right _ _)
    · exact (decodes_entries ihKeys ihValues).bind ih.pure_bind
  | @push left line pushType kind data announced named frame frames ih ihData =>
    refine decodes_aggregate rfl ?_
    have length : (c.lineValue line).toNat = data.length + 1 := by omega
    have rest : Reads .invalidResponse RedisError.aggregate
        (readPushData c (readValue c left) (data.length + 1) pushType.value)
        (Encoding.sequence data).bytes (Encoding.sequence data).demands
        (.push kind (Encoding.sequence data).value) := by
      rw [readPushData, named]
      exact (Reads.times ihData).pure_bind
    rw [readPush, if_neg (by omega), length]
    refine (ih.bind rest).demand ?_ trivial
    have first := List.length_pos_iff.2 frame.nonempty
    have others := Encoding.length_le_sequence fun e mem => (frames e mem).nonempty
    show _ ≤ (pushType.bytes ++ (Encoding.sequence data).bytes).length
    rw [List.length_append]
    omega

end Frames

/-- `MAX_READ_BUFFER_SIZE`. -/
def maxReadBufferSize : Nat := 16 * 1024 * 1024

/-- The client: the bytes it keeps, the values it has handed on, and the error with which it has
closed the connection. -/
structure Client (S : Type) where
  readBuffer : List UInt8
  values : List (RESPValue S)
  failed : Option RedisError

def Client.start : Client S := ⟨[], [], none⟩

/-- Read values until the bytes are used up or incomplete, or the connection fails; a value takes
a byte at least, so `fuel` is the number of bytes. -/
def drain (read : Reader RedisError (RESPValue S)) : (fuel : Nat) → List UInt8 → Client S → Client S
  | 0, bytes, client => { client with readBuffer := bytes }
  | fuel + 1, bytes, client =>
    if bytes = [] then { client with readBuffer := [] }
    else match read bytes with
      | .ok (v, rest) => drain read fuel rest { client with values := client.values ++ [v] }
      | .error .invalidResponse => { client with readBuffer := bytes }
      | .error e => { client with readBuffer := [], failed := some e }

/-- `fail_read_buffer_too_large`. -/
def Client.failTooLarge (client : Client S) : Client S :=
  { client with readBuffer := [], failed := some .invalidResponse }

/-- `on_data`: kept bytes are appended to and read again, else the data is read where it is and
what remains of it is kept. -/
def onData (read : Reader RedisError (RESPValue S)) (client : Client S) (data : List UInt8) :
    Client S :=
  if client.failed.isSome then client
  else if client.readBuffer ≠ [] then
    if maxReadBufferSize < client.readBuffer.length + data.length then client.failTooLarge
    else drain read (client.readBuffer ++ data).length (client.readBuffer ++ data) client
  else
    let after := drain read data.length data client
    if maxReadBufferSize < after.readBuffer.length then after.failTooLarge else after

/-- The lengths of what is buffered when a piece has arrived and another one is to come. -/
def cutsFrom : (buffered : Nat) → List (List UInt8) → List Nat
  | _, [] => []
  | _, [_] => []
  | buffered, piece :: next :: pieces =>
    (buffered + piece.length) :: cutsFrom (buffered + piece.length) (next :: pieces)

section Client

variable {read : Reader RedisError (RESPValue S)} {e : Encoding (RESPValue S)} {client : Client S}

theorem onData_failed (failed : client.failed.isSome) (pieces : List (List UInt8)) :
    pieces.foldl (onData read) client = client := by
  induction pieces with
  | nil => rfl
  | cons piece pieces ih => rw [List.foldl_cons, onData, if_pos failed, ih]

/-- The client keeps a cut that meets its demands. -/
theorem drain_cut {k : Nat} (decodes : Decodes read e) (lt : k < e.bytes.length) (pos : 0 < k)
    (met : Met e.demands k) (client : Client S) :
    drain read (e.bytes.take k).length (e.bytes.take k) client
      = { client with readBuffer := e.bytes.take k } := by
  have length : (e.bytes.take k).length = k := List.length_take_of_le (Nat.le_of_lt lt)
  have ne : e.bytes.take k ≠ [] := List.length_pos_iff.1 (by omega)
  obtain ⟨j, rfl⟩ : ∃ j, k = j + 1 := ⟨k - 1, by omega⟩
  rw [length, drain, if_neg ne, decodes.cut _ lt met]

/-- The client fails on a cut that does not. -/
theorem drain_refused {k : Nat} (decodes : Decodes read e) (lt : k < e.bytes.length) (pos : 0 < k)
    (unmet : ¬ Met e.demands k) (client : Client S) :
    (drain read (e.bytes.take k).length (e.bytes.take k) client).failed.isSome := by
  have length : (e.bytes.take k).length = k := List.length_take_of_le (Nat.le_of_lt lt)
  have ne : e.bytes.take k ≠ [] := List.length_pos_iff.1 (by omega)
  obtain ⟨j, rfl⟩ : ∃ j, k = j + 1 := ⟨k - 1, by omega⟩
  obtain ⟨error, refusal, refused⟩ := decodes.refused _ lt unmet
  rw [length, drain, if_neg ne, refused]
  cases error <;> first | rfl | cases refusal

/-- The client hands on the value of a whole encoding. -/
theorem drain_whole (decodes : Decodes read e) (ne : e.bytes ≠ []) :
    drain read e.bytes.length e.bytes client
      = { client with readBuffer := [], values := client.values ++ [e.value] } := by
  have pos := List.length_pos_iff.2 ne
  obtain ⟨j, length⟩ : ∃ j, e.bytes.length = j + 1 := ⟨e.bytes.length - 1, by omega⟩
  have whole := decodes.whole []
  rw [List.append_nil] at whole
  rw [length, drain, if_neg ne, whole]
  show drain read j [] { client with values := client.values ++ [e.value] } = _
  cases j with
  | zero => rfl
  | succ j => simp only [drain, if_true]

/-- The client has delivered the frame, and its connection is alive. -/
def Client.Delivered (client : Client S) (v : RESPValue S) : Prop :=
  client.values = [v] ∧ client.failed = none

theorem not_delivered_of_failed {v : RESPValue S} (pieces : List (List UInt8))
    (failed : client.failed.isSome) : ¬ (pieces.foldl (onData read) client).Delivered v := by
  rw [onData_failed failed]
  rintro ⟨-, alive⟩
  rw [alive] at failed
  cases failed

theorem take_append_piece {k : Nat} {piece later : List UInt8} (le : k ≤ e.bytes.length)
    (split : e.bytes.take k ++ (piece ++ later) = e.bytes) :
    e.bytes.take k ++ piece = e.bytes.take (k + piece.length) := by
  have length : (e.bytes.take k ++ piece).length = k + piece.length := by
    rw [List.length_append, List.length_take_of_le le]
  have whole : e.bytes.take k ++ piece ++ later = e.bytes := by rw [List.append_assoc, split]
  conv_rhs => rw [← whole, ← length, List.take_left]

/-- The client has buffered the first `k` bytes of the frame. -/
structure Buffered (e : Encoding (RESPValue S)) (k : Nat) (client : Client S) : Prop where
  pos : 0 < k
  le : k ≤ e.bytes.length
  readBuffer : client.readBuffer = e.bytes.take k
  values : client.values = []
  alive : client.failed = none

theorem Buffered.onData {k : Nat} (buffered : Buffered e k client) (piece : List UInt8) :
    onData read client piece =
      if maxReadBufferSize < k + piece.length then client.failTooLarge
      else drain read (e.bytes.take k ++ piece).length (e.bytes.take k ++ piece) client := by
  have length : (e.bytes.take k).length = k := List.length_take_of_le buffered.le
  have ne : e.bytes.take k ≠ [] := List.length_pos_iff.1 (by have := buffered.pos; omega)
  have alive : client.failed.isSome ≠ true := by simp [buffered.alive]
  rw [Valkey.onData, if_neg alive, buffered.readBuffer, if_pos ne, length]

/-- The client with something in its buffer delivers the frame unless a cut that is still to come
does not meet its demands, or the buffer becomes too large. -/
theorem Buffered.delivered_iff {k : Nat} (decodes : Decodes read e) (pieces : List (List UInt8))
    (nonempty : ∀ piece ∈ pieces, piece ≠ []) (more : pieces ≠ [])
    (split : e.bytes.take k ++ pieces.flatten = e.bytes) (buffered : Buffered e k client) :
    (pieces.foldl (Valkey.onData read) client).Delivered e.value ↔
      (∀ cut ∈ cutsFrom k pieces, Met e.demands cut) ∧ e.bytes.length ≤ maxReadBufferSize := by
  induction pieces generalizing k client with
  | nil => exact absurd rfl more
  | cons piece pieces ih =>
    have pos := buffered.pos
    have joined := take_append_piece buffered.le split
    have total : e.bytes.length = k + (piece.length + pieces.flatten.length) := by
      rw [← congrArg List.length split, List.length_append, List.length_take_of_le buffered.le,
        List.flatten_cons, List.length_append]
    rw [List.foldl_cons, buffered.onData]
    by_cases large : maxReadBufferSize < k + piece.length
    · rw [if_pos large]
      exact iff_of_false (not_delivered_of_failed pieces rfl) fun both => by omega
    · rw [if_neg large, joined]
      cases pieces with
      | nil =>
        rw [List.flatten_nil, List.length_nil, Nat.add_zero] at total
        have ne : e.bytes ≠ [] := List.length_pos_iff.1 (by omega)
        rw [← total, List.take_length, drain_whole decodes ne]
        refine iff_of_true ⟨?_, buffered.alive⟩ ⟨fun cut mem => (by cases mem), by omega⟩
        show client.values ++ [e.value] = [e.value]
        rw [buffered.values, List.nil_append]
      | cons next pieces =>
        have nextPos := List.length_pos_iff.2 (nonempty next (by simp))
        rw [List.flatten_cons, List.length_append] at total
        by_cases met : Met e.demands (k + piece.length)
        · rw [drain_cut decodes (by omega) (by omega) met client]
          have kept : Buffered e (k + piece.length)
              { client with readBuffer := e.bytes.take (k + piece.length) } :=
            ⟨by omega, by omega, rfl, buffered.values, buffered.alive⟩
          refine (ih (fun p mem => nonempty p (List.mem_cons_of_mem _ mem)) (List.cons_ne_nil _ _)
            ?_ kept).trans ?_
          · rw [← joined, List.append_assoc]
            exact split
          · rw [cutsFrom, List.forall_mem_cons]
            exact and_congr_left fun _ => (and_iff_right met).symm
        · refine iff_of_false (not_delivered_of_failed _ (drain_refused decodes (by omega)
            (by omega) met client)) fun both => met ?_
          exact both.1 _ (by rw [cutsFrom]; exact List.mem_cons_self)

/-- A new client reads the first piece where it is, and keeps a cut that meets its demands if it
is not too large. -/
theorem onData_start_cut {k : Nat} (decodes : Decodes read e) (lt : k < e.bytes.length)
    (pos : 0 < k) (met : Met e.demands k) :
    onData read Client.start (e.bytes.take k) =
      if maxReadBufferSize < k then Client.start.failTooLarge
      else { Client.start with readBuffer := e.bytes.take k } := by
  have length : (e.bytes.take k).length = k := List.length_take_of_le (Nat.le_of_lt lt)
  show (if maxReadBufferSize < (drain read _ _ Client.start).readBuffer.length then
    (drain read _ _ Client.start).failTooLarge else drain read _ _ Client.start) = _
  rw [drain_cut decodes lt pos met, length]
  rfl

theorem onData_start_refused {k : Nat} (decodes : Decodes read e) (lt : k < e.bytes.length)
    (pos : 0 < k) (unmet : ¬ Met e.demands k) :
    (onData read Client.start (e.bytes.take k)).failed.isSome := by
  show (if maxReadBufferSize < (drain read _ _ Client.start).readBuffer.length then
    (drain read _ _ Client.start).failTooLarge else drain read _ _ Client.start).failed.isSome
  by_cases large : maxReadBufferSize
      < (drain read (e.bytes.take k).length (e.bytes.take k) Client.start).readBuffer.length
  · rw [if_pos large]
    rfl
  · rw [if_neg large]
    exact drain_refused decodes lt pos unmet Client.start

theorem onData_start_whole (decodes : Decodes read e) (ne : e.bytes ≠ []) :
    onData read Client.start e.bytes = ⟨[], [e.value], none⟩ := by
  show (if maxReadBufferSize < (drain read _ _ Client.start).readBuffer.length then
    (drain read _ _ Client.start).failTooLarge else drain read _ _ Client.start) = _
  rw [drain_whole decodes ne]
  rfl

/-- The same for a new client, which reads the first piece where it is. -/
theorem start_delivered_iff (decodes : Decodes read e) (ne : e.bytes ≠ [])
    (pieces : List (List UInt8)) (nonempty : ∀ piece ∈ pieces, piece ≠ [])
    (split : pieces.flatten = e.bytes) :
    (pieces.foldl (onData read) Client.start).Delivered e.value ↔
      (∀ cut ∈ cutsFrom 0 pieces, Met e.demands cut) ∧
        (pieces.length ≤ 1 ∨ e.bytes.length ≤ maxReadBufferSize) := by
  cases pieces with
  | nil => exact absurd split.symm ne
  | cons piece pieces =>
    rw [List.flatten_cons] at split
    rw [List.foldl_cons]
    cases pieces with
    | nil =>
      rw [List.flatten_nil, List.append_nil] at split
      rw [split, onData_start_whole decodes ne]
      exact iff_of_true ⟨rfl, rfl⟩ ⟨fun cut mem => (by cases mem), .inl (Nat.le_refl 1)⟩
    | cons next pieces =>
      have pos := List.length_pos_iff.2 (nonempty piece List.mem_cons_self)
      have nextPos := List.length_pos_iff.2 (nonempty next (by simp))
      have total : e.bytes.length = piece.length + (next.length + pieces.flatten.length) := by
        rw [← congrArg List.length split, List.length_append, List.flatten_cons,
          List.length_append]
      have lt : piece.length < e.bytes.length := by omega
      have taken : e.bytes.take piece.length = piece := by rw [← split, List.take_left]
      have many : ¬ (piece :: next :: pieces).length ≤ 1 := by simp
      by_cases met : Met e.demands piece.length
      · have first := onData_start_cut decodes lt pos met
        rw [taken] at first
        rw [first]
        by_cases large : maxReadBufferSize < piece.length
        · rw [if_pos large]
          refine iff_of_false (not_delivered_of_failed _ rfl) ?_
          rintro ⟨-, short | small⟩
          · exact many short
          · omega
        · have kept : Buffered e piece.length { Client.start with readBuffer := piece } :=
            ⟨pos, by omega, taken.symm, rfl, rfl⟩
          rw [if_neg large]
          refine (Buffered.delivered_iff decodes (next :: pieces)
            (fun p mem => nonempty p (List.mem_cons_of_mem _ mem)) (List.cons_ne_nil _ _) ?_
            kept).trans ?_
          · rw [taken, split]
          · rw [cutsFrom, List.forall_mem_cons, Nat.zero_add]
            exact and_congr (and_iff_right met).symm (or_iff_right many).symm
      · have failed := onData_start_refused decodes lt pos met
        rw [taken] at failed
        refine iff_of_false (not_delivered_of_failed _ failed) fun both => met ?_
        exact both.1 _ (by rw [cutsFrom, Nat.zero_add]; exact List.mem_cons_self)

end Client

/-- **Which cuts the reader survives**: with the first `k` bytes of a well-formed frame buffered
it refuses no aggregate if and only if behind every length line among them at least as many bytes
are buffered as the line announces; and a frame that arrives in pieces is delivered if and only
if that holds whenever a piece is still missing, and what has to be buffered is not too large. -/
theorem pieces_decode_iff (c : Codec S) (left : Nat) (e : Encoding (RESPValue S))
    (frame : Frame c left e) :
    (∀ k ≤ e.bytes.length,
      (∀ error, readValue c left (e.bytes.take k) = .error error → ¬ error.aggregate)
        ↔ Met e.demands k) ∧
    ∀ pieces : List (List UInt8), (∀ piece ∈ pieces, piece ≠ []) → pieces.flatten = e.bytes →
      ((pieces.foldl (onData (readValue c left)) Client.start).Delivered e.value ↔
        (∀ cut ∈ cutsFrom 0 pieces, Met e.demands cut) ∧
          (pieces.length ≤ 1 ∨ e.bytes.length ≤ maxReadBufferSize)) :=
  ⟨fun _ le => (reads_frame frame).refused_iff id le,
    fun pieces nonempty split =>
      start_delivered_iff (reads_frame frame) frame.nonempty pieces nonempty split⟩

/-- The line up to the next `\r\n` as an unsigned decimal number. -/
def readDecimal : (n : Int) → List UInt8 → Except RedisError (Int × List UInt8)
  | n, 13 :: 10 :: rest => .ok (n, rest)
  | n, d :: rest =>
    if 48 ≤ d ∧ d ≤ 57 then readDecimal (10 * n + (d.toNat - 48)) rest
    else if d = 13 ∧ rest = [] then .error .invalidResponse
    else .error (.other 0)
  | _, [] => .error .invalidResponse

def digitLine (d : Fin 10) : List UInt8 := [48 + UInt8.ofNat d, 13, 10]

theorem reads_decimal (d : Fin 10) : Reads .invalidResponse RedisError.aggregate (readDecimal 0)
    (digitLine d) [] (d.val : Int) where
  whole rest := by fin_cases d <;> rfl
  cut k lt _ := by
    have short : k < 3 := lt
    interval_cases k <;> fin_cases d <;> rfl
  refused _ _ unmet := absurd met_nil unmet
  within _ mem := by cases mem

/-- Length lines and integers of one digit. -/
def digits : Codec Int where
  Line := Fin 10
  lineBytes := digitLine
  lineValue d := d.val
  readInteger := readDecimal 0
  reads_integer := reads_decimal
  Scalar := Fin 10
  mark _ := 58
  mark_scalar _ := by decide
  scalarBytes := digitLine
  scalarValue d := d.val
  readScalar mark := if mark = 58 then readDecimal 0 else throw (.other 1)
  reads_scalar := reads_decimal
  pushKind _ := none

/-- `*3\r\n:1\r\n:2\r\n:3\r\n`. -/
def threeIntegers : Encoding (RESPValue Int) :=
  aggregate digits 42 (3 : Fin 10) (Encoding.sequence ([1, 2, 3].map fun d : Fin 10 =>
    ⟨[58] ++ digitLine d, [], .scalar (d.val : Int)⟩)) .array

theorem frame_threeIntegers : Frame digits 2 threeIntegers := by
  refine .array (c := digits) (3 : Fin 10) _ rfl fun e mem => ?_
  obtain ⟨d, -, rfl⟩ := List.mem_map.1 mem
  exact .scalar (c := digits) d

/-- The header of an array arrives alone: the reader refuses the array, and the client closes the
connection, although the rest of a well-formed frame is on its way. -/
theorem cut_after_header :
    Frame digits 2 threeIntegers ∧
      readValue digits 2 (threeIntegers.bytes.take 4) = .error .invalidArray ∧
      ¬ ∀ pieces : List (List UInt8), pieces.flatten = threeIntegers.bytes →
        (pieces.foldl (onData (readValue digits 2)) Client.start).Delivered threeIntegers.value := by
  refine ⟨frame_threeIntegers, rfl, fun delivered => ?_⟩
  have cut := delivered [threeIntegers.bytes.take 4, threeIntegers.bytes.drop 4] rfl
  cases cut.2

/-- The same frame cut within its last element is delivered. -/
theorem pieces_decode_iff_three_integers :
    (∀ error, readValue digits 2 (threeIntegers.bytes.take 14) = .error error → ¬ error.aggregate) ∧
      ([threeIntegers.bytes.take 14, threeIntegers.bytes.drop 14].foldl
        (onData (readValue digits 2)) Client.start).Delivered threeIntegers.value := by
  have met : Met threeIntegers.demands 14 := by
    intro d mem _
    have only : threeIntegers.demands = [⟨4, 3⟩] := rfl
    rw [only, List.mem_singleton] at mem
    rw [mem]
    decide
  obtain ⟨survives, delivered⟩ := pieces_decode_iff digits 2 threeIntegers frame_threeIntegers
  refine ⟨(survives 14 (by decide)).2 met, (delivered _ (by decide) rfl).2 ⟨?_, .inr (by decide)⟩⟩
  intro cut mem
  have only : cut = 14 := List.mem_singleton.1 mem
  rw [only]
  exact met

end SecurityAudits.BunRust.Valkey
