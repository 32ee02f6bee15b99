import Mathlib.Data.List.Basic
import Mathlib.Algebra.Order.Ring.Nat
import SecurityAudits.Lib.Memory

/-!
# Removing blocks from an extra field

`zipRemoveExtraInfoBlock` (`contrib/minizip/zip.c`) copies the blocks that stay to a temporary
buffer and that back. Every block is copied to `pTmp`, which is never advanced: each one comes over
those before it. With two blocks or more to stay, memory that has never been written is copied back.

A read or a write outside the buffers has no result. Memory is that of `Lib.Memory`, where fresh
cells are unset. The check of the arguments before the loop and what comes behind the `if` are not
in the patch, and parameters (`Unseen`). `removes_iff` says when the function does what it is for.
-/

namespace SecurityAudits.Zlib.RemoveExtraInfo
set_option autoImplicit false

open Memory (Buffer Holds alloc copy)

/-! ## The function -/

/-- `ZIP_OK`, `ZIP_ERRNO` and the other codes -/
inductive Code where
  | ok
  | errno
  | other (code : Nat)
  deriving DecidableEq, Repr

/-- What the patch does not show. -/
structure Unseen where
  /-- The error of the check before the loop, for some values of `*dataLen`. -/
  refuses : Nat → Option Code
  refuses_error : ∀ n, refuses n ≠ some .ok
  /-- What becomes of `retVal` when the `if` behind the loop is not taken. -/
  otherwise : Code → Code
  otherwise_error : otherwise .errno ≠ .ok

/-- The `n` elements from `start` on. -/
def slice {α : Type} (xs : List α) (start n : Nat) : Option (List α) :=
  if start + n ≤ xs.length then some ((xs.drop start).take n) else none

variable (short : UInt8 → UInt8 → UInt16)

/-- `while(p < (pData + *dataLen))`, where `short` is the host's way of reading a `short`: `retVal`,
`size` and the temporary buffer. -/
def removeLoop (sHeader : UInt16) (data : List UInt8) (p size : Nat) (temp : Buffer UInt8) :
    Option (Code × Nat × Buffer UInt8) :=
  if p < data.length then
    let remaining := data.length - p
    if remaining < 4 then some (.errno, size, temp)
    else
      match data.drop p with
      | a :: b :: c :: d :: _ =>
        let blockSize := (short c d).toNat + 4
        if blockSize > remaining then some (.errno, size, temp)
        else if short a b = sHeader then removeLoop sHeader data (p + blockSize) size temp
        else
          (slice data p blockSize).bind fun block =>
            (copy temp 0 (block.map some)).bind fun temp =>
              removeLoop sHeader data (p + blockSize) (size + blockSize) temp
      | _ => none
  else some (.ok, size, temp)
termination_by data.length - p

/-- `zipRemoveExtraInfoBlock`: what it returns, the buffer, and `*dataLen`. -/
def zipRemoveExtraInfoBlock (unseen : Unseen) (data : List UInt8) (sHeader : UInt16) :
    Option (Code × Buffer UInt8 × Nat) :=
  match unseen.refuses data.length with
  | some code => some (code, data.map some, data.length)
  | none =>
    (removeLoop short sHeader data 0 0 (alloc data.length)).bind fun (retVal, size, temp) =>
      if retVal = .ok ∧ size < data.length then
        (slice temp 0 size).bind fun cells =>
          (copy (List.replicate data.length (some 0)) 0 cells).map fun buffer =>
            (retVal, buffer, size)
      else some (unseen.otherwise retVal, data.map some, data.length)

/-! ## Blocks -/

/-- A block: its id, the size of its data, and these. -/
structure Block where
  id : UInt8 × UInt8
  size : UInt8 × UInt8
  data : List UInt8
  sized : data.length = (short size.1 size.2).toNat

variable {short}

def Block.bytes (b : Block short) : List UInt8 :=
  b.id.1 :: b.id.2 :: b.size.1 :: b.size.2 :: b.data

def Block.hasId (sHeader : UInt16) (b : Block short) : Bool := short b.id.1 b.id.2 = sHeader

/-- The bytes of a sequence of blocks. -/
def bytes (blocks : List (Block short)) : List UInt8 := blocks.flatMap Block.bytes

/-- The blocks that are to stay. -/
def kept (sHeader : UInt16) (blocks : List (Block short)) : List (Block short) :=
  blocks.filter fun b => !b.hasId sHeader

variable {sHeader : UInt16} {data rest : List UInt8} {b : Block short} {blocks : List (Block short)}
  {temp : Buffer UInt8} {n : Nat}

theorem Block.length_bytes (b : Block short) :
    b.bytes.length = (short b.size.1 b.size.2).toNat + 4 := by
  rw [Block.bytes, List.length_cons, List.length_cons, List.length_cons, List.length_cons, b.sized]

theorem bytes_cons : bytes (b :: blocks) = b.bytes ++ bytes blocks := List.flatMap_cons

theorem kept_cons_of_pos (removed : b.hasId sHeader = true) :
    kept sHeader (b :: blocks) = kept sHeader blocks :=
  List.filter_cons_of_neg (by rw [removed]; exact Bool.false_ne_true)

theorem kept_cons_of_neg (stays : b.hasId sHeader = false) :
    kept sHeader (b :: blocks) = b :: kept sHeader blocks :=
  List.filter_cons_of_pos (by rw [stays]; rfl)

/-- Bytes at the front of which there is no block. -/
def Stops (short : UInt8 → UInt8 → UInt16) (rest : List UInt8) : Prop :=
  rest ≠ [] ∧ ∀ (b : Block short) later, rest ≠ b.bytes ++ later

/-- All bytes are blocks and a rest at which the blocks stop, or nothing. -/
theorem exists_blocks (short : UInt8 → UInt8 → UInt16) (data : List UInt8) :
    ∃ (blocks : List (Block short)) (rest : List UInt8), data = bytes blocks ++ rest ∧
      (rest = [] ∨ Stops short rest) := by
  induction length : data.length using Nat.strong_induction_on generalizing data with
  | _ n ih =>
    by_cases stops : data = [] ∨ Stops short data
    · exact ⟨[], data, rfl, stops⟩
    · obtain ⟨some', more⟩ := not_or.1 stops
      obtain ⟨b, later, split⟩ :
          ∃ (b : Block short) (later : List UInt8), data = b.bytes ++ later := by
        by_contra none'
        exact more ⟨some', fun b later split => none' ⟨b, later, split⟩⟩
      have shorter : later.length < n := by
        rw [← length, split, List.length_append, b.length_bytes]
        omega
      obtain ⟨blocks, rest, split', end'⟩ := ih later.length shorter later rfl
      exact ⟨b :: blocks, rest, by rw [split, split', bytes_cons, List.append_assoc], end'⟩

/-! ## The loop -/

/-- `bytes` over the first cells of the temporary buffer. -/
def overwrite (temp : Buffer UInt8) (bytes : List UInt8) : Buffer UInt8 :=
  bytes.map some ++ temp.drop bytes.length

variable {done later : List UInt8} {size : Nat}

theorem length_overwrite (room : rest.length ≤ temp.length) :
    (overwrite temp rest).length = temp.length := by
  rw [overwrite, List.length_append, List.length_map, List.length_drop]
  omega

theorem copy_overwrite (room : rest.length ≤ temp.length) :
    copy temp 0 (rest.map some) = some (overwrite temp rest) := by
  have fits : 0 + (rest.map some).length ≤ temp.length := by
    rw [List.length_map, Nat.zero_add]
    exact room
  rw [copy, if_pos fits, List.take_zero, List.nil_append, Nat.zero_add, List.length_map, overwrite]

/-- Four bytes and as many behind them as they say begin with a block. -/
theorem Stops.long {a b c d : UInt8} (stops : Stops short (a :: b :: c :: d :: later)) :
    later.length < (short c d).toNat := by
  by_contra fits
  have sized : (later.take (short c d).toNat).length = (short c d).toNat :=
    List.length_take_of_le (Nat.le_of_not_lt fits)
  refine stops.2 ⟨(a, b), (c, d), later.take (short c d).toNat, sized⟩
    (later.drop (short c d).toNat) ?_
  simp only [Block.bytes, List.cons_append, List.take_append_drop]

/-- Where no block begins the loop is left with an error. -/
theorem removeLoop_stops (stops : Stops short rest) :
    removeLoop short sHeader (done ++ rest) done.length size temp = some (.errno, size, temp) := by
  have more : done.length < (done ++ rest).length := by
    have some' := List.length_pos_iff.2 stops.1
    rw [List.length_append]
    omega
  have remaining : (done ++ rest).length - done.length = rest.length := by
    rw [List.length_append]
    omega
  rw [removeLoop, if_pos more, remaining, List.drop_left]
  by_cases header : rest.length < 4
  · exact if_pos header
  · rw [if_neg header]
    obtain ⟨a, b, c, d, later, rfl⟩ : ∃ a b c d later, rest = a :: b :: c :: d :: later := by
      rcases rest with _ | ⟨a, _ | ⟨b, _ | ⟨c, _ | ⟨d, later⟩⟩⟩⟩
      · exact absurd (Nat.zero_lt_succ 3) header
      · exact absurd (Nat.succ_lt_succ (Nat.zero_lt_succ 2)) header
      · exact absurd (Nat.succ_lt_succ (Nat.succ_lt_succ (Nat.zero_lt_succ 1))) header
      · exact absurd (Nat.lt_succ_self 3) header
      · exact ⟨a, b, c, d, later, rfl⟩
    have long : (short c d).toNat + 4 > (a :: b :: c :: d :: later).length := by
      have short' := stops.long
      simp only [List.length_cons]
      omega
    exact if_pos long

/-- The step lemma: at a block the loop goes on behind it, and copies it unless it has the id. -/
theorem removeLoop_block (whole : temp.length = (done ++ (b.bytes ++ later)).length) :
    removeLoop short sHeader (done ++ (b.bytes ++ later)) done.length size temp =
      removeLoop short sHeader (done ++ (b.bytes ++ later)) (done ++ b.bytes).length
        (if b.hasId sHeader then size else size + b.bytes.length)
        (if b.hasId sHeader then temp else overwrite temp b.bytes) := by
  have blockSize := b.length_bytes
  have length : (done ++ (b.bytes ++ later)).length =
      done.length + (b.bytes.length + later.length) := by
    rw [List.length_append, List.length_append]
  have block : slice (done ++ (b.bytes ++ later)) done.length b.bytes.length = some b.bytes := by
    rw [slice, if_pos (by omega), List.drop_left, List.take_left]
  have front : (done ++ (b.bytes ++ later)).drop done.length =
      b.id.1 :: b.id.2 :: b.size.1 :: b.size.2 :: (b.data ++ later) := List.drop_left
  rw [removeLoop, if_pos (by omega), front]
  dsimp only
  rw [if_neg (by omega), ← blockSize, if_neg (by omega), block, Option.bind_some,
    copy_overwrite (by omega), Option.bind_some, List.length_append]
  by_cases removed : b.hasId sHeader = true
  · rw [if_pos removed, if_pos removed, if_pos (of_decide_eq_true removed)]
  · rw [if_neg removed, if_neg removed, if_neg fun same => removed (decide_eq_true same)]

/-- The run lemma: a sequence of blocks. -/
theorem removeLoop_blocks (whole : temp.length = (done ++ (bytes blocks ++ rest)).length) :
    removeLoop short sHeader (done ++ (bytes blocks ++ rest)) done.length size temp =
      removeLoop short sHeader (done ++ (bytes blocks ++ rest)) (done ++ bytes blocks).length
        (size + (bytes (kept sHeader blocks)).length)
        (((kept sHeader blocks).map Block.bytes).foldl overwrite temp) := by
  induction blocks generalizing done size temp with
  | nil => rw [bytes, List.flatMap_nil, List.append_nil]; rfl
  | cons b blocks ih =>
    have length : (done ++ (b.bytes ++ (bytes blocks ++ rest))).length =
        done.length + (b.bytes.length + (bytes blocks ++ rest).length) := by
      rw [List.length_append, List.length_append]
    rw [bytes_cons, List.append_assoc] at whole ⊢
    rw [removeLoop_block whole, ← List.append_assoc done, ← List.append_assoc done]
    cases removed : b.hasId sHeader with
    | true =>
      rw [if_pos rfl, if_pos rfl, kept_cons_of_pos removed]
      exact ih (by rw [whole, List.append_assoc])
    | false =>
      have sizes : size + (bytes (b :: kept sHeader blocks)).length =
          size + b.bytes.length + (bytes (kept sHeader blocks)).length := by
        rw [bytes_cons, List.length_append, Nat.add_assoc]
      rw [if_neg Bool.false_ne_true, if_neg Bool.false_ne_true, kept_cons_of_neg removed, sizes,
        List.map_cons, List.foldl_cons]
      refine ih ?_
      rw [length_overwrite (by omega), whole, List.append_assoc]

theorem removeLoop_end (data : List UInt8) :
    removeLoop short sHeader data data.length size temp = some (.ok, size, temp) := by
  rw [removeLoop, if_neg (Nat.lt_irrefl _)]

/-! ## The temporary buffer -/

theorem length_bytes_le (mem : b ∈ blocks) : b.bytes.length ≤ (bytes blocks).length := by
  induction blocks with
  | nil => cases mem
  | cons b' blocks ih =>
    rw [bytes_cons, List.length_append]
    rcases List.mem_cons.1 mem with rfl | mem
    · exact Nat.le_add_right _ _
    · exact (ih mem).trans (Nat.le_add_left _ _)

/-- Unless all blocks stay there is less to copy back than there was. -/
theorem kept_cases (sHeader : UInt16) (blocks : List (Block short)) :
    kept sHeader blocks = blocks ∨
      (bytes (kept sHeader blocks)).length < (bytes blocks).length := by
  induction blocks with
  | nil => exact .inl rfl
  | cons b blocks ih =>
    have some' := b.length_bytes
    cases removed : b.hasId sHeader with
    | true =>
      rw [kept_cons_of_pos removed, bytes_cons, List.length_append]
      rcases ih with all | fewer
      · rw [all]
        exact .inr (by omega)
      · exact .inr (by omega)
    | false =>
      rw [kept_cons_of_neg removed, bytes_cons, bytes_cons, List.length_append, List.length_append]
      rcases ih with all | fewer
      · exact .inl (by rw [all])
      · exact .inr (by omega)

theorem length_kept_le (sHeader : UInt16) (blocks : List (Block short)) :
    (bytes (kept sHeader blocks)).length ≤ (bytes blocks).length := by
  rcases kept_cases sHeader blocks with all | fewer
  · rw [all]
  · exact fewer.le

theorem length_foldl_overwrite {ks : List (List UInt8)} (room : ∀ k ∈ ks, k.length ≤ temp.length) :
    (ks.foldl overwrite temp).length = temp.length := by
  induction ks generalizing temp with
  | nil => rfl
  | cons k ks ih =>
    have same := length_overwrite (room k List.mem_cons_self)
    rw [List.foldl_cons, ih, same]
    intro k' mem
    rw [same]
    exact room k' (List.mem_cons_of_mem _ mem)

/-- Behind the longest block the buffer is as it was. -/
theorem foldl_overwrite_behind {ks : List (List UInt8)} {i : Nat}
    (behind : ∀ k ∈ ks, k.length ≤ i) :
    (ks.foldl overwrite temp)[i]? = temp[i]? := by
  induction ks generalizing temp with
  | nil => rfl
  | cons k ks ih =>
    have first := behind k List.mem_cons_self
    rw [List.foldl_cons, ih fun k' mem => behind k' (List.mem_cons_of_mem _ mem), overwrite,
      List.getElem?_append_right (by rwa [List.length_map]), List.length_map, List.getElem?_drop]
    congr 1
    omega

/-- Two blocks are longer than the longest one. -/
theorem exists_behind (two : 2 ≤ blocks.length) :
    ∃ i, (∀ b ∈ blocks, b.bytes.length ≤ i) ∧ i < (bytes blocks).length := by
  match blocks, two with
  | b :: b' :: blocks, _ =>
    have some' := b.length_bytes
    have others : b'.bytes.length ≤ (bytes (b' :: blocks)).length :=
      length_bytes_le List.mem_cons_self
    have some'' := b'.length_bytes
    have total : (bytes (b :: b' :: blocks)).length =
        b.bytes.length + (bytes (b' :: blocks)).length := by
      rw [bytes_cons, List.length_append]
    refine ⟨max b.bytes.length (bytes (b' :: blocks)).length, fun c mem => ?_, ?_⟩
    · rcases List.mem_cons.1 mem with rfl | mem
      · exact Nat.le_max_left _ _
      · exact (length_bytes_le mem).trans (Nat.le_max_right _ _)
    · rw [total]
      omega

theorem length_foldl_alloc (room : (bytes blocks).length ≤ n) :
    ((blocks.map Block.bytes).foldl overwrite (alloc n)).length = n := by
  rw [length_foldl_overwrite, Memory.length_alloc]
  intro k mem
  obtain ⟨b, member, rfl⟩ := List.mem_map.1 mem
  rw [Memory.length_alloc]
  exact (length_bytes_le member).trans room

/-- What is copied back when the blocks `blocks` stay, and the buffer is `n` cells long. -/
def gathered (n : Nat) (blocks : List (Block short)) : Buffer UInt8 :=
  ((blocks.map Block.bytes).foldl overwrite (alloc n)).take (bytes blocks).length

/-- It is these blocks when there are fewer than two. -/
theorem gathered_iff (room : (bytes blocks).length ≤ n) :
    gathered n blocks = (bytes blocks).map some ↔ blocks.length ≤ 1 := by
  constructor
  · intro same
    by_contra two
    obtain ⟨i, behind, inside⟩ := exists_behind (Nat.lt_of_not_le two)
    have unset : (gathered n blocks)[i]? = some none := by
      rw [gathered, List.getElem?_take_of_lt inside, foldl_overwrite_behind, alloc,
        List.getElem?_replicate_of_lt (by omega)]
      intro k mem
      obtain ⟨c, member, rfl⟩ := List.mem_map.1 mem
      exact behind c member
    rw [same, List.getElem?_map, List.getElem?_eq_getElem inside] at unset
    cases unset
  · intro few
    match blocks, few with
    | [], _ => rfl
    | [b], _ =>
      rw [gathered, bytes_cons, bytes, List.flatMap_nil, List.append_nil]
      show (overwrite (alloc n) b.bytes).take b.bytes.length = _
      have sized : (b.bytes.map some).length = b.bytes.length := List.length_map some
      rw [overwrite, ← sized, List.take_left]

/-! ## The function -/

variable {unseen : Unseen}

theorem copy_back {cells : Buffer UInt8} (room : cells.length ≤ n) :
    ∃ zeros, copy (List.replicate n (some 0)) 0 cells = some (cells ++ zeros) := by
  have fits : 0 + cells.length ≤ (List.replicate n (some (0 : UInt8))).length := by
    rw [List.length_replicate, Nat.zero_add]
    exact room
  refine ⟨(List.replicate n (some 0)).drop (0 + cells.length), ?_⟩
  rw [copy, if_pos fits, List.take_zero, List.nil_append]

/-- Where the blocks stop there is an error, and nothing is changed. -/
theorem zipRemove_stops (stops : Stops short rest)
    (passes : unseen.refuses (bytes blocks ++ rest).length = none) :
    zipRemoveExtraInfoBlock short unseen (bytes blocks ++ rest) sHeader =
      some (unseen.otherwise .errno, (bytes blocks ++ rest).map some,
        (bytes blocks ++ rest).length) := by
  have run := @removeLoop_blocks short sHeader rest blocks
    (alloc (bytes blocks ++ rest).length) [] 0 Memory.length_alloc
  rw [List.nil_append, List.nil_append, List.length_nil, removeLoop_stops stops] at run
  rw [zipRemoveExtraInfoBlock, passes]
  dsimp only
  rw [run, Option.bind_some]
  exact if_neg fun both => by cases both.1

/-- The loop on a sequence of blocks, and what follows it. -/
theorem zipRemove_after_loop (passes : unseen.refuses (bytes blocks).length = none) :
    zipRemoveExtraInfoBlock short unseen (bytes blocks) sHeader =
      if (bytes (kept sHeader blocks)).length < (bytes blocks).length then
        (slice (((kept sHeader blocks).map Block.bytes).foldl overwrite
          (alloc (bytes blocks).length)) 0 (bytes (kept sHeader blocks)).length).bind fun cells =>
          (copy (List.replicate (bytes blocks).length (some 0)) 0 cells).map fun buffer =>
            (.ok, buffer, (bytes (kept sHeader blocks)).length)
      else some (unseen.otherwise .ok, (bytes blocks).map some, (bytes blocks).length) := by
  have run := @removeLoop_blocks short sHeader [] blocks
    (alloc (bytes blocks).length) [] 0 (by rw [Memory.length_alloc, List.append_nil]; rfl)
  rw [List.nil_append, List.nil_append, List.length_nil, List.append_nil, removeLoop_end,
    Nat.zero_add] at run
  rw [zipRemoveExtraInfoBlock, passes]
  dsimp only
  rw [run, Option.bind_some]
  simp only [true_and]

/-- On a sequence of blocks the function succeeds, and copies back what it has gathered, when it
has removed a block; when it has not, nothing is changed. -/
theorem zipRemove_blocks (passes : unseen.refuses (bytes blocks).length = none) :
    (kept sHeader blocks = blocks ∧ zipRemoveExtraInfoBlock short unseen (bytes blocks) sHeader =
        some (unseen.otherwise .ok, (bytes blocks).map some, (bytes blocks).length)) ∨
      kept sHeader blocks ≠ blocks ∧ ∃ zeros,
        zipRemoveExtraInfoBlock short unseen (bytes blocks) sHeader =
          some (.ok, gathered (bytes blocks).length (kept sHeader blocks) ++ zeros,
            (bytes (kept sHeader blocks)).length) := by
  have few := length_kept_le sHeader blocks
  rcases kept_cases sHeader blocks with all | fewer
  · refine .inl ⟨all, ?_⟩
    rw [zipRemove_after_loop passes, if_neg]
    rw [all]
    exact Nat.lt_irrefl _
  · refine .inr ⟨fun all => ?_, ?_⟩
    · rw [all] at fewer
      exact Nat.lt_irrefl _ fewer
    · have cells : slice (((kept sHeader blocks).map Block.bytes).foldl overwrite
          (alloc (bytes blocks).length)) 0 (bytes (kept sHeader blocks)).length =
          some (gathered (bytes blocks).length (kept sHeader blocks)) := by
        rw [slice, if_pos (by rw [length_foldl_alloc few, Nat.zero_add]; exact few)]
        rfl
      obtain ⟨zeros, copied⟩ := @copy_back (bytes blocks).length
        (gathered (bytes blocks).length (kept sHeader blocks))
        ((List.length_take_le _ _).trans few)
      refine ⟨zeros, ?_⟩
      rw [zipRemove_after_loop passes, if_pos fewer, cells, Option.bind_some, copied]
      rfl

/-! ## What it is for -/

/-- Two blocks at the front of the same bytes are one. -/
theorem Block.prefix_unique {b b' : Block short} {later later' : List UInt8}
    (same : b.bytes ++ later = b'.bytes ++ later') : b = b' ∧ later = later' := by
  obtain ⟨⟨a, c⟩, ⟨d, e⟩, front, sized⟩ := b
  obtain ⟨⟨a', c'⟩, ⟨d', e'⟩, front', sized'⟩ := b'
  simp only [Block.bytes, List.cons_append, List.cons.injEq] at same
  obtain ⟨rfl, rfl, rfl, rfl, same⟩ := same
  obtain ⟨rfl, rfl⟩ := List.append_inj same (sized.trans sized'.symm)
  exact ⟨rfl, rfl⟩

/-- Where the blocks stop the bytes are no sequence of blocks. -/
theorem Stops.not_bytes (stops : Stops short rest) (blocks' : List (Block short)) :
    bytes blocks ++ rest ≠ bytes blocks' := by
  induction blocks generalizing blocks' with
  | nil =>
    intro same
    cases blocks' with
    | nil => exact stops.1 same
    | cons b' blocks' => exact stops.2 b' (bytes blocks') same
  | cons b blocks ih =>
    intro same
    rw [bytes_cons, List.append_assoc] at same
    cases blocks' with
    | nil => cases same
    | cons b' blocks' => exact ih blocks' (Block.prefix_unique same).2

theorem bytes_injective {blocks' : List (Block short)} (same : bytes blocks = bytes blocks') :
    blocks = blocks' := by
  induction blocks generalizing blocks' with
  | nil =>
    cases blocks' with
    | nil => rfl
    | cons b' blocks' => cases same
  | cons b blocks ih =>
    cases blocks' with
    | nil => cases same
    | cons b' blocks' =>
      rw [bytes_cons, bytes_cons] at same
      obtain ⟨rfl, behind⟩ := Block.prefix_unique same
      rw [ih behind]

theorem length_gathered (room : (bytes blocks).length ≤ n) :
    (gathered n blocks).length = (bytes blocks).length := by
  rw [gathered, List.length_take, length_foldl_alloc room, min_eq_left room]

theorem holds_gathered_iff {zeros : Buffer UInt8} (room : (bytes blocks).length ≤ n) :
    Holds (gathered n blocks ++ zeros) (bytes blocks) ↔ blocks.length ≤ 1 := by
  have length : ((bytes blocks).map some).length = (gathered n blocks).length := by
    rw [List.length_map, length_gathered room]
  rw [← gathered_iff room, Holds]
  constructor
  · rintro ⟨slack, same⟩
    exact (List.append_inj same length).1.symm
  · intro same
    exact ⟨zeros, by rw [same]⟩

/-- What the function is for: an error where the buffer is no sequence of blocks, and only there,
which changes nothing, and else the blocks that stay. -/
structure Removes (short : UInt8 → UInt8 → UInt16) (data : List UInt8) (sHeader : UInt16)
    (code : Code) (buffer : Buffer UInt8) (dataLen : Nat) : Prop where
  unchanged : code ≠ .ok → buffer = data.map some ∧ dataLen = data.length
  error_iff : code ≠ .ok ↔ ¬ ∃ blocks : List (Block short), data = bytes blocks
  removed : code = .ok → ∀ blocks : List (Block short), data = bytes blocks →
    Holds buffer (bytes (kept sHeader blocks)) ∧ dataLen = (bytes (kept sHeader blocks)).length

/-- The function returns, having read and written inside the buffers only, and does this. -/
def Right (short : UInt8 → UInt8 → UInt16) (unseen : Unseen) (data : List UInt8)
    (sHeader : UInt16) : Prop :=
  ∃ code buffer dataLen,
    zipRemoveExtraInfoBlock short unseen data sHeader = some (code, buffer, dataLen) ∧
      Removes short data sHeader code buffer dataLen

/-- If the buffer is a sequence of blocks it passes the first check, the code behind the `if` lets
it be when no block has the id, and when one has it at most one has not. -/
def AtMostOneStays (short : UInt8 → UInt8 → UInt16) (unseen : Unseen) (data : List UInt8)
    (sHeader : UInt16) : Prop :=
  ∀ blocks : List (Block short), data = bytes blocks → unseen.refuses data.length = none ∧
    (kept sHeader blocks = blocks → unseen.otherwise .ok = .ok) ∧
    (kept sHeader blocks ≠ blocks → (kept sHeader blocks).length ≤ 1)

/-- What is no sequence of blocks is left alone, with an error. -/
theorem right_of_stops (stops : Stops short rest) :
    Right short unseen (bytes blocks ++ rest) sHeader := by
  have error {code : Code} (failed : code ≠ .ok) : Removes short (bytes blocks ++ rest) sHeader code
      ((bytes blocks ++ rest).map some) (bytes blocks ++ rest).length :=
    { unchanged := fun _ => ⟨rfl, rfl⟩
      error_iff := ⟨fun _ ⟨blocks', same⟩ => stops.not_bytes blocks' same, fun _ => failed⟩
      removed := fun ok => absurd ok failed }
  cases refused : unseen.refuses (bytes blocks ++ rest).length with
  | none => exact ⟨_, _, _, zipRemove_stops stops refused, error unseen.otherwise_error⟩
  | some code =>
    refine ⟨code, _, _, ?_, error fun ok => ?_⟩
    · rw [zipRemoveExtraInfoBlock, refused]
    · exact unseen.refuses_error (bytes blocks ++ rest).length (by rw [refused, ok])

/-- The function on a sequence of blocks. -/
theorem right_of_blocks (passes : unseen.refuses (bytes blocks).length = none)
    (lets : kept sHeader blocks = blocks → unseen.otherwise .ok = .ok)
    (few : kept sHeader blocks ≠ blocks → (kept sHeader blocks).length ≤ 1) :
    Right short unseen (bytes blocks) sHeader := by
  have unique {blocks' : List (Block short)} (same : bytes blocks = bytes blocks') :
      bytes (kept sHeader blocks') = bytes (kept sHeader blocks) := by
    rw [bytes_injective same]
  rcases @zipRemove_blocks short sHeader blocks unseen passes with
    ⟨all, returns⟩ | ⟨some', zeros, returns⟩
  · rw [lets all] at returns
    refine ⟨_, _, _, returns, fun failed => absurd rfl failed,
      ⟨fun failed => absurd rfl failed, fun none' => absurd ⟨blocks, rfl⟩ none'⟩,
      fun _ blocks' same => ?_⟩
    rw [unique same, all]
    exact ⟨List.prefix_rfl, rfl⟩
  · refine ⟨_, _, _, returns, fun failed => absurd rfl failed,
      ⟨fun failed => absurd rfl failed, fun none' => absurd ⟨blocks, rfl⟩ none'⟩,
      fun _ blocks' same => ?_⟩
    rw [unique same]
    exact ⟨(holds_gathered_iff (length_kept_le sHeader blocks)).2 (few some'), rfl⟩

/-- What the function is for on a sequence of blocks needs that at most one stays. -/
theorem Right.atMostOneStays (right : Right short unseen data sHeader) :
    AtMostOneStays short unseen data sHeader := by
  obtain ⟨code, buffer, dataLen, returns, removes⟩ := right
  rintro blocks rfl
  have ok : code = .ok := by
    by_contra failed
    exact removes.error_iff.1 failed ⟨blocks, rfl⟩
  subst ok
  have passes : unseen.refuses (bytes blocks).length = none := by
    cases refused : unseen.refuses (bytes blocks).length with
    | none => rfl
    | some code =>
      rw [zipRemoveExtraInfoBlock, refused] at returns
      cases returns
      exact absurd refused (unseen.refuses_error _)
  refine ⟨passes, fun all => ?_, fun some' => ?_⟩
  · rcases @zipRemove_blocks short sHeader blocks unseen passes with ⟨-, returned⟩ | ⟨not, -⟩
    · rw [returned] at returns
      exact (Prod.mk.inj (Option.some.inj returns)).1
    · exact absurd all not
  · rcases @zipRemove_blocks short sHeader blocks unseen passes with ⟨all, -⟩ | ⟨-, zeros, returned⟩
    · exact absurd all some'
    · rw [returned] at returns
      obtain ⟨-, same⟩ := Prod.mk.inj (Option.some.inj returns)
      obtain ⟨held, -⟩ := removes.removed rfl blocks rfl
      rw [← (Prod.mk.inj same).1] at held
      exact (holds_gathered_iff (length_kept_le sHeader blocks)).1 held

/-- **The function reads and writes inside its buffers, and does what it is for just when the buffer
is no sequence of blocks or at most one block stays beside one that is removed.** -/
theorem removes_iff (short : UInt8 → UInt8 → UInt16) (unseen : Unseen) (data : List UInt8)
    (sHeader : UInt16) :
    (zipRemoveExtraInfoBlock short unseen data sHeader).isSome = true ∧
      (Right short unseen data sHeader ↔ AtMostOneStays short unseen data sHeader) := by
  obtain ⟨blocks, rest, rfl, end'⟩ := exists_blocks short data
  rcases end' with rfl | stops
  · rw [List.append_nil]
    refine ⟨?_, Right.atMostOneStays, fun most => ?_⟩
    · cases refused : unseen.refuses (bytes blocks).length with
      | some code =>
        rw [zipRemoveExtraInfoBlock, refused]
        rfl
      | none =>
        rcases @zipRemove_blocks short sHeader blocks unseen refused with
          ⟨-, returned⟩ | ⟨-, zeros, returned⟩
        · rw [returned]
          rfl
        · rw [returned]
          rfl
    · obtain ⟨passes, lets, few⟩ := most blocks rfl
      exact right_of_blocks passes lets few
  · have right := @right_of_stops short sHeader rest blocks unseen stops
    refine ⟨?_, Right.atMostOneStays, fun _ => right⟩
    obtain ⟨code, buffer, dataLen, returned, -⟩ := right
    rw [returned]
    rfl

/-- The host's `short` on a little-endian machine. -/
def shortLe (a b : UInt8) : UInt16 := a.toUInt16 + 256 * b.toUInt16

/-- A function of which all is shown: nothing more is refused, and `retVal` is returned. -/
def lenient : Unseen where
  refuses _ := none
  refuses_error _ := by simp
  otherwise code := code
  otherwise_error := by simp

/-- An empty block of the id `id`. -/
def emptyBlock (id : UInt8) : Block shortLe := ⟨(id, 0), (0, 0), [], rfl⟩

/-- Blocks with the ids 2 and 3 stay, and one with the id 1 goes: the function returns `ZIP_OK` and
the last block that stays, with four bytes behind it that nobody has written. -/
theorem removes_shared : ¬ Right shortLe lenient [2, 0, 0, 0, 3, 0, 0, 0, 1, 0, 0, 0] 1 := by
  intro right
  obtain ⟨-, -, few⟩ := right.atMostOneStays [emptyBlock 2, emptyBlock 3, emptyBlock 1] rfl
  exact absurd (few fun all => absurd (congrArg List.length all) (by decide)) (by decide)

end SecurityAudits.Zlib.RemoveExtraInfo
