import SecurityAudits.Lib.Run

/-!
# The extra field of a central directory entry

`unz64local_GetCurrentFileInfoInternal` (`contrib/minizip/unzip.c`) walks over the blocks of an
entry's extra field. A ZIP64 block holds the values of those members of the entry that are
saturated; how many bytes of it have been read is counted in `dataRead`, and the rest is skipped by
a seek.

The stream is a file, a position and a log of all reads; any read and any seek may fail.
`extraField` parses the bytes of the field without a stream. `iterated` is one iteration of the loop
from a state in which position and `acc` agree, and `extraField_loop` the whole loop.
-/

namespace SecurityAudits.Zlib.ExtraField
set_option autoImplicit false
open SecurityAudits.Run

/-! ## The stream -/

/-- The members of `file_info` and `file_info_internal` that a ZIP64 block may replace, in the order
in which their values are stored. -/
inductive Field where
  | uncompressedSize
  | compressedSize
  | offsetCurfile
  | diskNumStart
  deriving DecidableEq, Repr

namespace Field

/-- The bytes of the value: `unz64local_getLong64` or `unz64local_getLong`. -/
def width : Field → Nat
  | uncompressedSize | compressedSize | offsetCurfile => 8
  | diskNumStart => 4

/-- What the member is set to when its value is in the extra field: `MAXU32` or `0xffff`. -/
def saturated : Field → Nat
  | uncompressedSize | compressedSize | offsetCurfile => 0xffffffff
  | diskNumStart => 0xffff

end Field

structure Info where
  uncompressedSize : Nat
  compressedSize : Nat
  offsetCurfile : Nat
  diskNumStart : Nat
  deriving DecidableEq, Repr

def Info.get (info : Info) : Field → Nat
  | .uncompressedSize => info.uncompressedSize
  | .compressedSize => info.compressedSize
  | .offsetCurfile => info.offsetCurfile
  | .diskNumStart => info.diskNumStart

def Info.set (info : Info) (value : Nat) : Field → Info
  | .uncompressedSize => { info with uncompressedSize := value }
  | .compressedSize => { info with compressedSize := value }
  | .offsetCurfile => { info with offsetCurfile := value }
  | .diskNumStart => { info with diskNumStart := value }

/-- `UNZ_OK`, `UNZ_BADZIPFILE` and `UNZ_ERRNO` -/
inductive Err where
  | ok
  | badZipFile
  | errno
  deriving DecidableEq, Repr

/-- A read: for a header, or for the value of a member. -/
structure Read where
  field : Option Field
  start : Nat
  width : Nat
  deriving DecidableEq, Repr

/-- How a call fails: how far the position moves all the same, and what it stores. -/
structure Fault where
  moved : Nat
  value : Nat

/-- The bytes behind the stream, and which of the calls on it fail. -/
structure File where
  byte : Nat → UInt8
  fault : Nat → Option Fault

structure Stream where
  pos : Nat
  calls : Nat
  reads : List Read
  deriving DecidableEq, Repr

def File.bytes (file : File) : Nat → Nat → List UInt8
  | _, 0 => []
  | start, n + 1 => file.byte start :: file.bytes (start + 1) n

/-- Integers are stored with the lowest byte first. -/
def littleEndian : List UInt8 → Nat
  | [] => 0
  | c :: bytes => c.toNat + 256 * littleEndian bytes

/-- `unz64local_getShort`, `unz64local_getLong` and `unz64local_getLong64`: whether the call
succeeds, and the value it stores. -/
def File.get (file : File) (field : Option Field) (width : Nat) (s : Stream) :
    Bool × Nat × Stream :=
  let reads := s.reads ++ [⟨field, s.pos, width⟩]
  match file.fault s.calls with
  | none => (true, littleEndian (file.bytes s.pos width), ⟨s.pos + width, s.calls + 1, reads⟩)
  | some fault => (false, fault.value, ⟨s.pos + min fault.moved width, s.calls + 1, reads⟩)

/-- `ZSEEK64(…, n, ZLIB_FILEFUNC_SEEK_CUR)`. Where a seek that fails leaves the position is not
specified. -/
def File.seek (file : File) (n : Nat) (s : Stream) : Bool × Stream :=
  match file.fault s.calls with
  | none => (true, ⟨s.pos + n, s.calls + 1, s.reads⟩)
  | some fault => (false, ⟨fault.moved, s.calls + 1, s.reads⟩)

/-! ## The loop -/

/-- The variables that an iteration changes before it comes to `acc`. -/
structure Block where
  err : Err
  dataRead : Nat
  info : Info
  stream : Stream

/-- The value of one member: the `if` of a ZIP64 block that it has. -/
def readValue (file : File) (dataSize extraFieldRemaining : Nat) (b : Block) (f : Field) : Block :=
  if b.err = .ok ∧ b.info.get f = f.saturated then
    if b.dataRead + f.width > dataSize ∨ b.dataRead + f.width > extraFieldRemaining then
      { b with err := .badZipFile }
    else
      match file.get (some f) f.width b.stream with
      | (false, value, stream) =>
        { b with err := .errno, info := b.info.set value f, stream := stream }
      | (true, value, stream) =>
        ⟨b.err, b.dataRead + f.width, b.info.set value f, stream⟩
  else b

/-- The order of the values. -/
def order : List Field := [.uncompressedSize, .compressedSize, .offsetCurfile, .diskNumStart]

/-- `ZSEEK64` with its check. -/
def skip (file : File) (n : Nat) (b : Block) : Block :=
  match file.seek n b.stream with
  | (false, stream) => { b with err := .errno, stream := stream }
  | (true, stream) => { b with stream := stream }

/-- `if (headerId == 0x0001)` -/
def zip64Block (file : File) (dataSize extraFieldRemaining : Nat) (b : Block) : Block :=
  let b := order.foldl (readValue file dataSize extraFieldRemaining) b
  if b.err = .ok ∧ b.dataRead < dataSize then skip file (dataSize - b.dataRead) b else b

/-- The block behind its header. -/
def readBlock (file : File) (headerId dataSize extraFieldRemaining : Nat) (b : Block) : Block :=
  if headerId = 1 then zip64Block file dataSize extraFieldRemaining b else skip file dataSize b

/-- `headerId` and `dataSize`, and whether both could be read. -/
def readHeader (file : File) (s : Stream) : Bool × Nat × Nat × Stream :=
  match file.get none 2 s with
  | (read, headerId, s) =>
    match file.get none 2 s with
    | (read', dataSize, s) => (read && read', headerId, dataSize, s)

/-- The variables of the loop. -/
structure Loop where
  acc : Nat
  err : Err
  info : Info
  stream : Stream

/-- The body of the loop, where `size` is `file_info.size_file_extra`. After a `break` the error is
set. -/
def iteration (file : File) (size : Nat) (l : Loop) : Loop :=
  let extraFieldRemaining := size - l.acc
  if extraFieldRemaining < 4 then { l with err := .badZipFile }
  else
    match readHeader file l.stream with
    | (read, headerId, dataSize, stream) =>
      let err := if read then l.err else .errno
      let extraFieldRemaining := extraFieldRemaining - 4
      if err = .ok ∧ dataSize > extraFieldRemaining then
        { l with err := .badZipFile, stream := stream }
      else
        let b := readBlock file headerId dataSize extraFieldRemaining ⟨err, 0, l.info, stream⟩
        if b.err ≠ .ok then ⟨l.acc, b.err, b.info, b.stream⟩
        else ⟨l.acc + (4 + dataSize), b.err, b.info, b.stream⟩

/-- `while (acc < file_info.size_file_extra)`, which a `break` also leaves. -/
def body (file : File) (size : Nat) (l : Loop) : Option Loop :=
  if l.err ≠ .ok then none else if l.acc < size then some (iteration file size l) else none

/-- The stream is at the extra field. -/
def start (base : Nat) (info : Info) : Loop := ⟨0, .ok, info, ⟨base, 0, []⟩⟩

/-! ## The bytes of the field -/

/-- The values in the data of a ZIP64 block: those of the saturated members, in order. -/
def values : List Field → List UInt8 → Info → Option Info
  | [], _, info => some info
  | f :: fs, data, info =>
    if info.get f = f.saturated then
      if data.length < f.width then none
      else values fs (data.drop f.width) (info.set (littleEndian (data.take f.width)) f)
    else values fs data info

/-- The reads of the values of `fs`, one after the other. -/
def layout : Nat → List Field → List Read
  | _, [] => []
  | pos, f :: fs => ⟨some f, pos, f.width⟩ :: layout (pos + f.width) fs

/-- The members whose values are in a ZIP64 block. -/
def Info.saturated (info : Info) (fs : List Field) : List Field :=
  fs.filter fun f => info.get f = f.saturated

/-- What the blocks of an extra field make of the entry; none when the blocks are not well formed,
or a ZIP64 block is too short for its values. -/
def extraField (bytes : List UInt8) (info : Info) : Option Info :=
  if bytes = [] then some info
  else if bytes.length < 4 then none
  else
    let headerId := littleEndian (bytes.take 2)
    let dataSize := littleEndian ((bytes.drop 2).take 2)
    let rest := bytes.drop 4
    if dataSize > rest.length then none
    else
      let info := if headerId = 1 then values order (rest.take dataSize) info else some info
      info.bind fun info => extraField (rest.drop dataSize) info
termination_by bytes.length
decreasing_by
  rw [List.length_drop, List.length_drop]
  omega

/-! ## Reads -/

/-- No call on the stream fails. -/
def Faultless (file : File) : Prop := ∀ n, file.fault n = none

/-- The reads from `s` to `s'` all meet `P`, and those of values are the first of `planned`. -/
def Adds (P : Read → Prop) (planned : List Read) (s s' : Stream) : Prop :=
  ∃ new, s'.reads = s.reads ++ new ∧ (∀ r ∈ new, P r) ∧ new.filter (·.field.isSome) <+: planned

variable {file : File} {P Q : Read → Prop} {planned : List Read} {s s' s'' : Stream} {pos n m : Nat}

@[simp] theorem length_bytes : (file.bytes pos n).length = n := by
  induction n generalizing pos with
  | zero => rfl
  | succ n ih => rw [File.bytes, List.length_cons, ih]

theorem drop_bytes : (file.bytes pos n).drop m = file.bytes (pos + m) (n - m) := by
  induction m generalizing pos n with
  | zero => rfl
  | succ m ih =>
    cases n with
    | zero =>
      rw [Nat.zero_sub]
      rfl
    | succ n =>
      rw [File.bytes, List.drop_succ_cons, ih, Nat.succ_sub_succ]
      congr 1
      omega

theorem take_bytes (le : m ≤ n) : (file.bytes pos n).take m = file.bytes pos m := by
  induction m generalizing pos n with
  | zero => rfl
  | succ m ih =>
    cases n with
    | zero => cases le
    | succ n => rw [File.bytes, List.take_succ_cons, ih (Nat.le_of_succ_le_succ le), File.bytes]

theorem Adds.of_eq (same : s'.reads = s.reads) : Adds P planned s s' :=
  ⟨[], same.trans (List.append_nil _).symm, List.forall_mem_nil P, List.nil_prefix⟩

/-- The two reads for a header come before those of values. -/
theorem Adds.header {a b width : Nat}
    (read : s'.reads = s.reads ++ [⟨none, a, width⟩, ⟨none, b, width⟩])
    (meets : P ⟨none, a, width⟩) (meets' : P ⟨none, b, width⟩) (adds : Adds P planned s' s'') :
    Adds P planned s s'' := by
  obtain ⟨new, reads, all, first⟩ := adds
  refine ⟨⟨none, a, width⟩ :: ⟨none, b, width⟩ :: new, ?_,
    List.forall_mem_cons.2 ⟨meets, List.forall_mem_cons.2 ⟨meets', all⟩⟩, first⟩
  rw [reads, read, List.append_assoc]
  rfl

/-- One more read of a value. -/
theorem Adds.value {f : Field} {start : Nat}
    (read : s'.reads = s.reads ++ [⟨some f, start, f.width⟩]) (meets : P ⟨some f, start, f.width⟩)
    (adds : Adds P planned s' s'') : Adds P (⟨some f, start, f.width⟩ :: planned) s s'' := by
  obtain ⟨new, reads, all, first⟩ := adds
  refine ⟨⟨some f, start, f.width⟩ :: new, ?_, List.forall_mem_cons.2 ⟨meets, all⟩, ?_⟩
  · rw [reads, read, List.append_assoc, List.singleton_append]
  · exact List.cons_prefix_cons.2 ⟨rfl, first⟩

theorem Adds.then_eq (adds : Adds P planned s s') (same : s''.reads = s'.reads) :
    Adds P planned s s'' := by
  obtain ⟨new, reads, rest⟩ := adds
  exact ⟨new, same.trans reads, rest⟩

theorem Adds.mono (adds : Adds P planned s s') (implies : ∀ r, P r → Q r) :
    Adds Q planned s s' := by
  obtain ⟨new, reads, all, first⟩ := adds
  exact ⟨new, reads, fun r mem => implies r (all r mem), first⟩

/-- A read that succeeds gives the bytes at the position and moves behind them; one that fails
moves no further. -/
theorem get_cases (file : File) (field : Option Field) (width : Nat) (s : Stream) :
    (∃ s', file.get field width s = (true, littleEndian (file.bytes s.pos width), s') ∧
        s'.pos = s.pos + width ∧ s'.reads = s.reads ++ [⟨field, s.pos, width⟩]) ∨
      ∃ value s', file.get field width s = (false, value, s') ∧ ¬ Faultless file ∧
        s.pos ≤ s'.pos ∧ s'.pos ≤ s.pos + width ∧
        s'.reads = s.reads ++ [⟨field, s.pos, width⟩] := by
  unfold File.get
  cases fault : file.fault s.calls with
  | none => exact .inl ⟨_, rfl, rfl, rfl⟩
  | some f =>
    refine .inr ⟨_, _, rfl, fun never => ?_, Nat.le_add_right _ _, ?_, rfl⟩
    · cases (never s.calls).symm.trans fault
    · exact Nat.add_le_add_left (Nat.min_le_right _ _) _

/-- Whether or not it succeeds, a read is logged. -/
theorem get_reads (file : File) (field : Option Field) (width : Nat) (s : Stream) :
    (file.get field width s).2.2.reads = s.reads ++ [⟨field, s.pos, width⟩] := by
  rcases get_cases file field width s with ⟨s', got, -, reads⟩ | ⟨value, s', got, -, -, -, reads⟩
  · rw [got]
    exact reads
  · rw [got]
    exact reads

theorem seek_cases (file : File) (n : Nat) (s : Stream) :
    (∃ s', file.seek n s = (true, s') ∧ s'.pos = s.pos + n ∧ s'.reads = s.reads) ∨
      ∃ s', file.seek n s = (false, s') ∧ ¬ Faultless file ∧ s'.reads = s.reads := by
  unfold File.seek
  cases fault : file.fault s.calls with
  | none => exact .inl ⟨_, rfl, rfl, rfl⟩
  | some f =>
    refine .inr ⟨_, rfl, fun never => ?_, rfl⟩
    cases (never s.calls).symm.trans fault

/-! ## One ZIP64 block -/

section Values

variable {dataSize remaining : Nat} {b b' : Block} {f : Field} {fs : List Field}

/-- A read of a value inside the data of a block, which are at `pos`. -/
def InData (pos dataSize : Nat) (r : Read) : Prop :=
  (∃ f, r.field = some f) ∧ pos ≤ r.start ∧ r.start + r.width ≤ pos + dataSize

/-- What reading the values of `fs` makes of `b`, where the data of the block are at `pos`. -/
structure ReadsValues (file : File) (pos dataSize : Nat) (fs : List Field) (b b' : Block) :
    Prop where
  adds : Adds (InData pos dataSize) (layout (pos + b.dataRead) (b.info.saturated fs))
    b.stream b'.stream
  ok : b'.err = .ok → b'.stream.pos = pos + b'.dataRead ∧ b'.dataRead ≤ dataSize ∧
    values fs (file.bytes (pos + b.dataRead) (dataSize - b.dataRead)) b.info = some b'.info
  failed : b'.err ≠ .ok → Faultless file → b'.err = .badZipFile ∧
    values fs (file.bytes (pos + b.dataRead) (dataSize - b.dataRead)) b.info = none

theorem readValue_of_err (failed : b.err ≠ .ok) : readValue file dataSize remaining b f = b :=
  if_neg fun ok => failed ok.1

theorem readValues_of_err (failed : b.err ≠ .ok) (fs : List Field) :
    fs.foldl (readValue file dataSize remaining) b = b := by
  induction fs with
  | nil => rfl
  | cons f fs ih => rw [List.foldl_cons, readValue_of_err failed, ih]

theorem readValue_unsaturated (other : b.info.get f ≠ f.saturated) :
    readValue file dataSize remaining b f = b :=
  if_neg fun saturated => other saturated.2

theorem Info.get_set {info : Info} {value : Nat} {g : Field} (other : g ≠ f) :
    (info.set value f).get g = info.get g := by
  cases f <;> cases g <;> first | rfl | exact absurd rfl other

/-- Setting a member leaves the others as saturated as they were. -/
theorem Info.saturated_set {info : Info} {value : Nat} (notMem : f ∉ fs) :
    (info.set value f).saturated fs = info.saturated fs := by
  refine List.filter_congr fun g mem => ?_
  have other : g ≠ f := fun same => notMem (same ▸ mem)
  rw [Info.get_set other]

/-- The value of a saturated member is there in whole, or the block is too short for it. -/
theorem readValue_cases (ok : b.err = .ok) (saturated : b.info.get f = f.saturated)
    (within : b.dataRead ≤ dataSize) (fits : dataSize ≤ remaining)
    (at' : b.stream.pos = pos + b.dataRead) :
    (dataSize - b.dataRead < f.width ∧
        readValue file dataSize remaining b f = { b with err := .badZipFile }) ∨
      b.dataRead + f.width ≤ dataSize ∧ InData pos dataSize ⟨some f, pos + b.dataRead, f.width⟩ ∧
        (readValue file dataSize remaining b f).stream.reads =
          b.stream.reads ++ [⟨some f, pos + b.dataRead, f.width⟩] ∧
        ((readValue file dataSize remaining b f).err = .ok ∧
            (readValue file dataSize remaining b f).dataRead = b.dataRead + f.width ∧
            (readValue file dataSize remaining b f).stream.pos = pos + (b.dataRead + f.width) ∧
            (readValue file dataSize remaining b f).info =
              b.info.set (littleEndian (file.bytes (pos + b.dataRead) f.width)) f ∨
          (readValue file dataSize remaining b f).err = .errno ∧ ¬ Faultless file) := by
  rw [readValue, if_pos ⟨ok, saturated⟩]
  by_cases short : b.dataRead + f.width > dataSize
  · exact .inl ⟨by omega, if_pos (.inl short)⟩
  · have room : ¬ (b.dataRead + f.width > dataSize ∨ b.dataRead + f.width > remaining) := by omega
    rw [if_neg room]
    refine .inr ⟨by omega, ⟨⟨f, rfl⟩, Nat.le_add_right _ _, ?_⟩, ?_⟩
    · show pos + b.dataRead + f.width ≤ pos + dataSize
      omega
    rcases get_cases file (some f) f.width b.stream with
      ⟨s', got, moved, reads⟩ | ⟨value, s', got, faulty, -, -, reads⟩
    · rw [got, ← at']
      exact ⟨reads, .inl ⟨ok, rfl, moved.trans (by omega), rfl⟩⟩
    · rw [got, ← at']
      exact ⟨reads, .inr ⟨rfl, faulty⟩⟩

/-- A member that is not saturated has no value in the block. -/
theorem ReadsValues.unsaturated (rest : ReadsValues file pos dataSize fs b b')
    (other : b.info.get f ≠ f.saturated) : ReadsValues file pos dataSize (f :: fs) b b' := by
  obtain ⟨adds, whenOk, whenFailed⟩ := rest
  have plan : b.info.saturated (f :: fs) = b.info.saturated fs :=
    List.filter_cons_of_neg (by rwa [decide_eq_true_eq])
  have skipped : values (f :: fs) (file.bytes (pos + b.dataRead) (dataSize - b.dataRead)) b.info =
      values fs (file.bytes (pos + b.dataRead) (dataSize - b.dataRead)) b.info :=
    if_neg other
  refine ⟨?_, ?_, ?_⟩
  · rw [plan]
    exact adds
  · rw [skipped]
    exact whenOk
  · rw [skipped]
    exact whenFailed

theorem layout_saturated {at' : Nat} (saturated : b.info.get f = f.saturated) :
    layout at' (b.info.saturated (f :: fs)) =
      ⟨some f, at', f.width⟩ :: layout (at' + f.width) (b.info.saturated fs) := by
  have here : b.info.saturated (f :: fs) = f :: b.info.saturated fs :=
    List.filter_cons_of_pos (decide_eq_true saturated)
  rw [here, layout]

/-- After the value of `f`, which makes `b₁` of `b`, come those of `fs`. -/
theorem ReadsValues.cons {b₁ : Block} (rest : ReadsValues file pos dataSize fs b₁ b')
    (saturated : b.info.get f = f.saturated) (notMem : f ∉ fs)
    (room : b.dataRead + f.width ≤ dataSize)
    (inData : InData pos dataSize ⟨some f, pos + b.dataRead, f.width⟩)
    (read : b₁.stream.reads = b.stream.reads ++ [⟨some f, pos + b.dataRead, f.width⟩])
    (dataRead : b₁.dataRead = b.dataRead + f.width)
    (info : b₁.info = b.info.set (littleEndian (file.bytes (pos + b.dataRead) f.width)) f) :
    ReadsValues file pos dataSize (f :: fs) b b' := by
  obtain ⟨adds, whenOk, whenFailed⟩ := rest
  have value : values (f :: fs) (file.bytes (pos + b.dataRead) (dataSize - b.dataRead)) b.info =
      values fs (file.bytes (pos + b₁.dataRead) (dataSize - b₁.dataRead)) b₁.info := by
    rw [values, if_pos saturated, length_bytes, if_neg (by omega), take_bytes (by omega),
      drop_bytes, dataRead, info, Nat.add_assoc, Nat.sub_sub]
  rw [dataRead, info, Info.saturated_set notMem, ← Nat.add_assoc] at adds
  refine ⟨?_, ?_, ?_⟩
  · rw [layout_saturated saturated]
    exact adds.value read inData
  · rw [value]
    exact whenOk
  · rw [value]
    exact whenFailed

/-- **The values of a ZIP64 block are read from its data, in their order.** -/
theorem readValues (ok : b.err = .ok) (within : b.dataRead ≤ dataSize) (fits : dataSize ≤ remaining)
    (at' : b.stream.pos = pos + b.dataRead) (nodup : fs.Nodup) :
    ReadsValues file pos dataSize fs b (fs.foldl (readValue file dataSize remaining) b) := by
  induction fs generalizing b with
  | nil => exact ⟨.of_eq rfl, fun _ => ⟨at', within, rfl⟩, fun failed => absurd ok failed⟩
  | cons f fs ih =>
    obtain ⟨notMem, nodup⟩ := List.nodup_cons.1 nodup
    rw [List.foldl_cons]
    by_cases saturated : b.info.get f = f.saturated
    · rcases readValue_cases ok saturated within fits at' with
        ⟨short, failed⟩ | ⟨room, inData, read, ⟨ok', dataRead, moved, info⟩ | ⟨failed, faulty⟩⟩
      · rw [failed, readValues_of_err (fun ok => by cases ok)]
        refine ⟨.of_eq rfl, fun ok => (by cases ok), fun _ _ => ⟨rfl, ?_⟩⟩
        rw [values, if_pos saturated, if_pos (by rwa [length_bytes])]
      · have rest := @ih (readValue file dataSize remaining b f) ok'
          (by rw [dataRead]; exact room) (by rw [dataRead]; exact moved) nodup
        exact rest.cons saturated notMem room inData read dataRead info
      · have err : (readValue file dataSize remaining b f).err ≠ .ok := by
          rw [failed]
          exact fun ok => by cases ok
        rw [readValues_of_err err]
        refine ⟨?_, fun ok => absurd ok err, fun _ never => absurd never faulty⟩
        rw [layout_saturated saturated]
        exact Adds.value read inData (.of_eq rfl)
    · rw [readValue_unsaturated saturated]
      exact (ih ok within at' nodup).unsaturated saturated

/-- What the data of a block, at `pos`, make of `b`; `result` is what the bytes say. -/
structure ReadsBlock (file : File) (pos dataSize : Nat) (result : Option Info) (b b' : Block) :
    Prop where
  adds : Adds (InData pos dataSize) (layout pos (b.info.saturated order)) b.stream b'.stream
  ok : b'.err = .ok → b'.stream.pos = pos + dataSize ∧ result = some b'.info
  failed : b'.err ≠ .ok → Faultless file → b'.err = .badZipFile ∧ result = none

/-- The seek goes to the end of the data, and reads nothing. -/
theorem skip_cases (ok : b.err = .ok) (at' : b.stream.pos + n = pos + dataSize) :
    (skip file n b).stream.reads = b.stream.reads ∧
      ((skip file n b).err = .ok ∧ (skip file n b).stream.pos = pos + dataSize ∧
          (skip file n b).info = b.info ∨
        (skip file n b).err ≠ .ok ∧ ¬ Faultless file) := by
  unfold skip
  rcases seek_cases file n b.stream with ⟨s', sought, moved, reads⟩ | ⟨s', sought, faulty, reads⟩
  · rw [sought]
    exact ⟨reads, .inl ⟨ok, moved.trans at', rfl⟩⟩
  · rw [sought]
    exact ⟨reads, .inr ⟨fun ok => (by cases ok), faulty⟩⟩

theorem skip_reads (ok : b.err = .ok) (at' : b.stream.pos + n = pos + dataSize) :
    ReadsBlock file pos dataSize (some b.info) b (skip file n b) := by
  obtain ⟨reads, ⟨ok', moved, info⟩ | ⟨failed, faulty⟩⟩ := @skip_cases file pos n dataSize b ok at'
  · exact ⟨.of_eq reads, fun _ => ⟨moved, congrArg some info.symm⟩, fun failed => absurd ok' failed⟩
  · exact ⟨.of_eq reads, fun ok => absurd ok failed, fun _ never => absurd never faulty⟩

theorem zip64Block_reads (ok : b.err = .ok) (none' : b.dataRead = 0) (fits : dataSize ≤ remaining)
    (at' : b.stream.pos = pos) :
    ReadsBlock file pos dataSize (values order (file.bytes pos dataSize) b.info) b
      (zip64Block file dataSize remaining b) := by
  have read := @readValues file pos dataSize remaining b order ok (none' ▸ Nat.zero_le _) fits
    (by rw [at', none', Nat.add_zero]) (by decide)
  unfold zip64Block
  generalize order.foldl (readValue file dataSize remaining) b = b' at read
  obtain ⟨adds, whenOk, whenFailed⟩ := read
  rw [none', Nat.add_zero] at adds
  rw [none', Nat.add_zero, Nat.sub_zero] at whenOk whenFailed
  by_cases ok' : b'.err = .ok
  · obtain ⟨moved, within, result⟩ := whenOk ok'
    by_cases left : b'.dataRead < dataSize
    · rw [if_pos ⟨ok', left⟩, result]
      have behind : b'.stream.pos + (dataSize - b'.dataRead) = pos + dataSize := by omega
      obtain ⟨reads, ⟨ok'', moved, info⟩ | ⟨failed, faulty⟩⟩ :=
        @skip_cases file pos (dataSize - b'.dataRead) dataSize b' ok' behind
      · exact ⟨adds.then_eq reads, fun _ => ⟨moved, congrArg some info.symm⟩,
          fun failed => absurd ok'' failed⟩
      · exact ⟨adds.then_eq reads, fun ok => absurd ok failed, fun _ never => absurd never faulty⟩
    · rw [if_neg fun both => left both.2]
      exact ⟨adds, fun _ => ⟨by omega, result⟩, whenFailed⟩
  · rw [if_neg fun both => ok' both.1]
    exact ⟨adds, fun ok => absurd ok ok', whenFailed⟩

/-- After an error nothing of a block is read. -/
theorem zip64Block_of_err (failed : b.err ≠ .ok) : zip64Block file dataSize remaining b = b := by
  unfold zip64Block
  rw [readValues_of_err failed]
  exact if_neg fun both => failed both.1

theorem skip_of_err (failed : b.err ≠ .ok) :
    (skip file n b).err ≠ .ok ∧ (skip file n b).stream.reads = b.stream.reads := by
  unfold skip
  rcases seek_cases file n b.stream with ⟨s', sought, -, reads⟩ | ⟨s', sought, -, reads⟩
  · rw [sought]
    exact ⟨failed, reads⟩
  · rw [sought]
    exact ⟨fun ok => (by cases ok), reads⟩

/-- Either kind of block is left at its end. -/
theorem readBlock_reads (headerId : Nat) (ok : b.err = .ok) (none' : b.dataRead = 0)
    (fits : dataSize ≤ remaining) (at' : b.stream.pos = pos) :
    ReadsBlock file pos dataSize
      (if headerId = 1 then values order (file.bytes pos dataSize) b.info else some b.info) b
      (readBlock file headerId dataSize remaining b) := by
  unfold readBlock
  by_cases zip64 : headerId = 1
  · rw [if_pos zip64, if_pos zip64]
    exact zip64Block_reads ok none' fits at'
  · rw [if_neg zip64, if_neg zip64]
    exact skip_reads ok (by rw [at'])

theorem readBlock_of_err (headerId : Nat) (failed : b.err ≠ .ok) :
    (readBlock file headerId dataSize remaining b).err ≠ .ok ∧
      (readBlock file headerId dataSize remaining b).stream.reads = b.stream.reads := by
  unfold readBlock
  by_cases zip64 : headerId = 1
  · rw [if_pos zip64, zip64Block_of_err failed]
    exact ⟨failed, rfl⟩
  · rw [if_neg zip64]
    exact skip_of_err failed

end Values

/-! ## The loop over the blocks -/

section Blocks

variable {base size limit : Nat} {l l' : Loop} {info : Info}

/-- The size of the data that the header of the block at `pos` gives. -/
def File.dataSize (file : File) (pos : Nat) : Nat := littleEndian (file.bytes (pos + 2) 2)

/-- A read for the block at `pos` that ends by `limit`: of its header, or of a value inside its
data. -/
def InBlock (file : File) (pos limit : Nat) (r : Read) : Prop :=
  (r.field = none ∧ pos ≤ r.start ∧ r.start + r.width ≤ pos + 4 ∨
    InData (pos + 4) (file.dataSize pos) r) ∧ r.start + r.width ≤ limit

/-- What an iteration makes of `l`, where the field ends at `limit` and the block is where the
stream is. -/
structure Iterated (file : File) (size limit : Nat) (l l' : Loop) : Prop where
  /-- Nothing is read that does not belong to the block, and its values are read in order. -/
  adds : Adds (InBlock file l.stream.pos limit)
    (layout (l.stream.pos + 4) (l.info.saturated order)) l.stream l'.stream
  /-- The next block is as far on in the stream as `acc` says. -/
  ok : l'.err = .ok → l'.acc = l.acc + (4 + file.dataSize l.stream.pos) ∧ l'.acc ≤ size ∧
    l'.stream.pos = l.stream.pos + (4 + file.dataSize l.stream.pos)
  parsed : l'.err = .ok → extraField (file.bytes l.stream.pos (size - l.acc)) l.info =
    extraField (file.bytes l'.stream.pos (size - l'.acc)) l'.info
  failed : l'.err ≠ .ok → Faultless file →
    l'.err = .badZipFile ∧ extraField (file.bytes l.stream.pos (size - l.acc)) l.info = none

theorem extraField_nil : extraField (file.bytes pos 0) info = some info := by
  rw [extraField]
  exact if_pos rfl

theorem extraField_short (some' : 0 < n) (short : n < 4) :
    extraField (file.bytes pos n) info = none := by
  have nonempty : file.bytes pos n ≠ [] := List.ne_nil_of_length_pos (by rwa [length_bytes])
  rw [extraField, if_neg nonempty, if_pos (by rwa [length_bytes])]

theorem extraField_block (header : 4 ≤ n) :
    extraField (file.bytes pos n) info =
      if file.dataSize pos > n - 4 then none
      else
        (if littleEndian (file.bytes pos 2) = 1 then
          values order (file.bytes (pos + 4) (file.dataSize pos)) info
        else some info).bind fun info =>
          extraField (file.bytes (pos + (4 + file.dataSize pos)) (n - (4 + file.dataSize pos)))
            info := by
  have nonempty : file.bytes pos n ≠ [] := List.ne_nil_of_length_pos (by rw [length_bytes]; omega)
  have size : littleEndian (((file.bytes pos n).drop 2).take 2) = file.dataSize pos := by
    rw [drop_bytes, take_bytes (by omega), File.dataSize]
  rw [extraField, if_neg nonempty, if_neg (by rw [length_bytes]; omega), size,
    take_bytes (by omega), drop_bytes]
  dsimp only
  rw [length_bytes]
  by_cases long : file.dataSize pos > n - 4
  · rw [if_pos long, if_pos long]
  · rw [if_neg long, if_neg long, take_bytes (by omega), drop_bytes, Nat.add_assoc, Nat.sub_sub]

/-- A header that is read in whole is where the stream is; no header is read from behind it. -/
theorem readHeader_cases (file : File) (s : Stream) :
    (∃ s', readHeader file s = (true, littleEndian (file.bytes s.pos 2), file.dataSize s.pos, s') ∧
        s'.pos = s.pos + 4 ∧ s'.reads = s.reads ++ [⟨none, s.pos, 2⟩, ⟨none, s.pos + 2, 2⟩]) ∨
      ∃ headerId dataSize s' middle, readHeader file s = (false, headerId, dataSize, s') ∧
        ¬ Faultless file ∧ s.pos ≤ middle ∧ middle ≤ s.pos + 2 ∧
        s'.reads = s.reads ++ [⟨none, s.pos, 2⟩, ⟨none, middle, 2⟩] := by
  unfold readHeader
  rcases get_cases file none 2 s with
    ⟨s₁, got, moved, reads⟩ | ⟨value, s₁, got, faulty, after, before, reads⟩
  · rw [got]
    rcases get_cases file none 2 s₁ with
      ⟨s₂, got', moved', reads'⟩ | ⟨value', s₂, got', faulty', -, -, reads'⟩
    · dsimp only
      rw [got', moved]
      refine .inl ⟨s₂, rfl, by rw [moved', moved], ?_⟩
      rw [reads', reads, moved, List.append_assoc]
      rfl
    · dsimp only
      rw [got']
      refine .inr ⟨_, _, s₂, s₁.pos, rfl, faulty', by rw [moved]; exact Nat.le_add_right _ _,
        moved.le, ?_⟩
      rw [reads', reads, List.append_assoc]
      rfl
  · rw [got]
    refine .inr ⟨_, _, _, s₁.pos, rfl, faulty, after, before, (get_reads file none 2 s₁).trans ?_⟩
    rw [reads, List.append_assoc]
    rfl

/-- The step lemma: one iteration from a block inside the field. -/
theorem iterated (ok : l.err = .ok) (more : l.acc < size)
    (ends : l.stream.pos + (size - l.acc) = limit) :
    Iterated file size limit l (iteration file size l) := by
  unfold iteration
  by_cases short : size - l.acc < 4
  · rw [if_pos short]
    exact ⟨.of_eq rfl, fun ok => (by cases ok), fun ok => (by cases ok), fun _ _ =>
      ⟨rfl, extraField_short (by omega) short⟩⟩
  rw [if_neg short]
  have inHeader {at' : Nat} (after : l.stream.pos ≤ at') (before : at' ≤ l.stream.pos + 2) :
      InBlock file l.stream.pos limit ⟨none, at', 2⟩ := by
    have inside : at' + 2 ≤ l.stream.pos + 4 := by omega
    exact ⟨.inl ⟨rfl, after, inside⟩, show at' + 2 ≤ limit by omega⟩
  have first := inHeader (Nat.le_refl _) (Nat.le_add_right _ _)
  rcases readHeader_cases file l.stream with
    ⟨s, read, moved, reads⟩ | ⟨headerId, dataSize, s, middle, read, faulty, after, before, reads⟩
  · have second := inHeader (Nat.le_add_right _ _) (Nat.le_refl (l.stream.pos + 2))
    rw [read]
    dsimp only
    rw [if_pos rfl]
    have parse := @extraField_block file l.stream.pos (size - l.acc) l.info (by omega)
    by_cases long : file.dataSize l.stream.pos > size - l.acc - 4
    · rw [if_pos ⟨ok, long⟩]
      rw [if_pos long] at parse
      exact ⟨Adds.header reads first second (.of_eq rfl), fun ok => (by cases ok),
        fun ok => (by cases ok), fun _ _ => ⟨rfl, parse⟩⟩
    · rw [if_neg fun both => long both.2]
      rw [if_neg long] at parse
      have block := @readBlock_reads file (l.stream.pos + 4) _ _ ⟨l.err, 0, l.info, s⟩
        (littleEndian (file.bytes l.stream.pos 2)) ok rfl (Nat.le_of_not_lt long) moved
      generalize readBlock file _ _ _ _ = b at block
      obtain ⟨adds, whenOk, whenFailed⟩ := block
      have adds' := Adds.header reads first second (adds.mono fun r inData =>
        (⟨.inr inData, by have := inData.2.2; omega⟩ : InBlock file l.stream.pos limit r))
      by_cases ok' : b.err = .ok
      · obtain ⟨behind, result⟩ := whenOk ok'
        rw [if_neg (not_not_intro ok')]
        have next : b.stream.pos = l.stream.pos + (4 + file.dataSize l.stream.pos) :=
          behind.trans (Nat.add_assoc _ _ _)
        rw [result, ← next, Nat.sub_sub] at parse
        refine ⟨adds', fun _ => ⟨rfl, ?_, next⟩, fun _ => parse, fun failed => absurd ok' failed⟩
        show l.acc + (4 + file.dataSize l.stream.pos) ≤ size
        omega
      · rw [if_pos ok']
        refine ⟨adds', fun ok => absurd ok ok', fun ok => absurd ok ok', fun _ never => ?_⟩
        obtain ⟨bad, result⟩ := whenFailed ok' never
        rw [result] at parse
        exact ⟨bad, parse⟩
  · have second := inHeader after before
    rw [read]
    dsimp only
    rw [if_neg Bool.false_ne_true, if_neg fun both => (by cases both.1)]
    obtain ⟨failed, same⟩ := @readBlock_of_err file dataSize (size - l.acc - 4)
      ⟨.errno, 0, l.info, s⟩ headerId (fun ok => by cases ok)
    rw [if_pos failed]
    exact ⟨Adds.header reads first second (.of_eq same), fun ok => absurd ok failed,
      fun ok => absurd ok failed, fun _ never => absurd never faulty⟩

/-- Where the loop stands at the head of an iteration, when the field is at `base`. -/
structure Agrees (file : File) (base size : Nat) (info : Info) (l : Loop) : Prop where
  /-- Nothing has been read that is not of the field. -/
  reads : ∀ r ∈ l.stream.reads, base ≤ r.start ∧ r.start + r.width ≤ base + size
  /-- `acc` and the stream agree. -/
  ok : l.err = .ok → l.acc ≤ size ∧ l.stream.pos = base + l.acc
  /-- What is left of the field completes the entry. -/
  parsed : l.err = .ok → extraField (file.bytes base size) info =
    extraField (file.bytes l.stream.pos (size - l.acc)) l.info
  failed : l.err ≠ .ok → Faultless file →
    l.err = .badZipFile ∧ extraField (file.bytes base size) info = none

theorem agrees_start (file : File) (base size : Nat) (info : Info) :
    Agrees file base size info (start base info) :=
  ⟨List.forall_mem_nil _, fun _ => ⟨Nat.zero_le _, rfl⟩, fun _ => rfl,
    fun failed => absurd rfl failed⟩

theorem body_cases (running : body file size l = some l') :
    l.err = .ok ∧ l.acc < size ∧ l' = iteration file size l := by
  unfold body at running
  by_cases failed : l.err ≠ .ok
  · rw [if_pos failed] at running
    cases running
  rw [if_neg failed] at running
  by_cases more : l.acc < size
  · rw [if_pos more] at running
    exact ⟨not_not.1 failed, more, (Option.some.inj running).symm⟩
  · rw [if_neg more] at running
    cases running

theorem body_eq_none (over' : body file size l = none) (ok : l.err = .ok) : size ≤ l.acc := by
  unfold body at over'
  by_contra more
  rw [if_neg (not_not_intro ok), if_pos (Nat.lt_of_not_le more)] at over'
  cases over'

theorem Agrees.iterated (agrees : Agrees file base size info l)
    (running : body file size l = some l') : Iterated file size (base + size) l l' := by
  obtain ⟨ok, more, rfl⟩ := body_cases running
  obtain ⟨-, at'⟩ := agrees.ok ok
  exact ExtraField.iterated ok more (by omega)

/-- An iteration keeps the agreement. -/
theorem Agrees.body (agrees : Agrees file base size info l)
    (running : body file size l = some l') : Agrees file base size info l' := by
  have iterated := agrees.iterated running
  obtain ⟨ok, -⟩ := body_cases running
  obtain ⟨-, at'⟩ := agrees.ok ok
  obtain ⟨new, reads, inBlock, -⟩ := iterated.adds
  refine ⟨fun r mem => ?_, fun ok' => ?_, fun ok' => ?_, fun failed never => ?_⟩
  · rw [reads, List.mem_append] at mem
    rcases mem with earlier | mem
    · exact agrees.reads r earlier
    · obtain ⟨header | data, inside⟩ := inBlock r mem
      · exact ⟨by omega, inside⟩
      · have after := data.2.1
        exact ⟨by omega, inside⟩
  · obtain ⟨acc, within, next⟩ := iterated.ok ok'
    exact ⟨within, by omega⟩
  · rw [agrees.parsed ok, iterated.parsed ok']
  · rw [agrees.parsed ok]
    exact iterated.failed failed never

/-- The iterations that are left, at most. -/
def Loop.left (size : Nat) (l : Loop) : Nat := if l.err = .ok then size - l.acc + 1 else 0

theorem Agrees.left_lt (agrees : Agrees file base size info l)
    (running : ExtraField.body file size l = some l') : l'.left size < l.left size := by
  have iterated := agrees.iterated running
  obtain ⟨ok, more, -⟩ := body_cases running
  unfold Loop.left
  rw [if_pos ok]
  by_cases ok' : l'.err = .ok
  · obtain ⟨acc, -, -⟩ := iterated.ok ok'
    rw [if_pos ok']
    omega
  · rw [if_neg ok']
    omega

/-- **The extra field is walked block by block.** Whatever calls on the stream fail, at the head of
every iteration that comes after no error `acc` says how far the stream is, and every iteration
reads only of its own block, the values of a ZIP64 block in their order. The loop ends, without
having read beyond the field. Without an error it ends at the end of the field, with the entry that
the bytes of the field give; and when no call on the stream fails, it ends with an error only where
these are not well formed. -/
theorem extraField_loop (file : File) (base size : Nat) (info : Info) :
    (∀ n l, loop (body file size) n (start base info) = some l →
      (l.err = .ok → l.acc ≤ size ∧ l.stream.pos = base + l.acc) ∧
        ∀ l', body file size l = some l' → Iterated file size (base + size) l l') ∧
      ∃ n l, n ≤ size + 1 ∧ loop (body file size) n (start base info) = some l ∧
        body file size l = none ∧
        (∀ r ∈ l.stream.reads, base ≤ r.start ∧ r.start + r.width ≤ base + size) ∧
        (l.err = .ok → l.acc = size ∧ l.stream.pos = base + size ∧
          extraField (file.bytes base size) info = some l.info) ∧
        (l.err ≠ .ok → Faultless file →
          l.err = .badZipFile ∧ extraField (file.bytes base size) info = none) := by
  have preserved : ∀ l l', Agrees file base size info l → body file size l = some l' →
      Agrees file base size info l' := fun l l' agrees running => agrees.body running
  refine ⟨fun n l run => ?_, ?_⟩
  · have agrees := loop_invariant preserved (agrees_start file base size info) run
    exact ⟨agrees.ok, fun l' running => agrees.iterated running⟩
  · obtain ⟨n, l, few, run, over', agrees⟩ := loop_ends preserved
      (fun l l' agrees running => agrees.left_lt running) (agrees_start file base size info)
    refine ⟨n, l, few, run, over', agrees.reads, fun ok => ?_, agrees.failed⟩
    obtain ⟨within, at'⟩ := agrees.ok ok
    have ends : l.acc = size := Nat.le_antisymm within (body_eq_none over' ok)
    rw [agrees.parsed ok, ends, Nat.sub_self, extraField_nil, at', ends]
    exact ⟨rfl, rfl, rfl⟩

end Blocks

end SecurityAudits.Zlib.ExtraField
