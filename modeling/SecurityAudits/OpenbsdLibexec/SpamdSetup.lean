import SecurityAudits.Lib.Memory

/-!
# `add_blacklist` of spamd-setup

The replaced parser reads the whole feed into one buffer and parses that; the patched one
parses while it reads, keeps the unfinished line and the pairs found so far in buffers of its
own, and hands the pairs over to the caller's list at the end.

Both are translated with their memory: a store outside a buffer has no result. What a feed
says is `blocks` of its `feedLines`, and each parser is shown to append that.
-/

namespace SecurityAudits.OpenbsdLibexec.SpamdSetup
set_option autoImplicit false
open SecurityAudits.Memory

def spamdFeedMax : Nat := 64 * 1024 * 1024
def spamdLineMax : Nat := 8192

abbrev Errno := Nat

def eio : Errno := 5
def enomem : Errno := 12
def efbig : Errno := 27

def newline : UInt8 := 10

variable {Bl : Type}

/-- What the caller passes by reference: the list, `none` where it is `NULL`, its count and its
capacity. -/
structure Caller (Bl : Type) where
  bl : Option (Buffer Bl)
  blc : Nat
  bls : Nat
  deriving DecidableEq

/-- The memory of the list; `NULL` has none. -/
def Caller.cells (caller : Caller Bl) : Buffer Bl := caller.bl.getD []

/-- What a call leaves: the caller's list, `errno` if it is set, and whether `NULL` is
returned. -/
structure Outcome (Bl : Type) where
  caller : Caller Bl
  errno : Option Errno
  null : Bool
  deriving DecidableEq

/-- `return (bl)`. -/
def returnBl (caller : Caller Bl) (errno : Option Errno) : Outcome Bl :=
  ⟨caller, errno, caller.bl.isNone⟩

theorem returnBl_of_ne_none {caller : Caller Bl} {errno : Option Errno}
    (nonNull : caller.bl ≠ none) : returnBl caller errno = ⟨caller, errno, false⟩ := by
  rw [returnBl, Option.isNone_eq_false_iff.2 (Option.isSome_iff_ne_none.2 nonNull)]

/-- Why a parser does not go on: a store out of range, or `goto bldone`. -/
inductive Stop where
  | outOfRange
  | bldone (serrno : Errno)
  deriving DecidableEq

def inRange {β : Type} : Option β → Except Stop β
  | some b => .ok b
  | none => .error .outOfRange

/-- One answer of `gzread`: the bytes read, none at the end, or -1 with `errno`. -/
abbrev Read := Except Errno (List UInt8)

/-- The local variables of the patched function. `allocs` counts the allocations, the `k`th of
which succeeds if `granted k`. -/
structure Stream (Bl : Type) where
  rbuf : Buffer UInt8
  line : Buffer UInt8
  lb : Nat
  nbl : Buffer Bl
  nblc : Nat
  nbls : Nat
  total : Nat
  allocs : Nat

def Stream.start : Stream Bl :=
  ⟨alloc spamdLineMax, alloc (spamdLineMax + 1), 0, [], 0, 0, 0, 0⟩

section Code

variable (granted : Nat → Bool) (parseNetblock : List UInt8 → Int → Option (Bl × Bl)) (white : Int)

/-- `if (nblc + 1 >= nbls) ..`: room for two more entries. -/
def reserve (s : Stream Bl) : Except Stop (Stream Bl) :=
  if s.nbls ≤ s.nblc + 1 then
    if granted s.allocs then
      .ok { s with
        nbls := s.nbls + 1024, nbl := grow s.nbl (s.nbls + 1024), allocs := s.allocs + 1 }
    else .error (.bldone enomem)
  else .ok s

/-- `line[lb] = '\0'; if (parse_netblock(line, ..)) ..`. -/
def endLine (s : Stream Bl) : Except Stop (Stream Bl) := do
  let line ← inRange (store s.line s.lb 0)
  match parseNetblock (string line 0) white with
  | none => .ok { s with line := line }
  | some (start, end') =>
    let s ← reserve granted { s with line := line }
    let nbl ← inRange (store s.nbl s.nblc start)
    let nbl ← inRange (store nbl (s.nblc + 1) end')
    .ok { s with nbl := nbl, nblc := s.nblc + 2 }

/-- The body of the loop over `rbuf`. -/
def takeByte (s : Stream Bl) (c : UInt8) : Except Stop (Stream Bl) :=
  if c = newline then do
    let s ← endLine granted parseNetblock white s
    .ok { s with lb := 0 }
  else if s.lb = spamdLineMax then .error (.bldone efbig)
  else do
    let line ← inRange (store s.line s.lb c)
    .ok { s with line := line, lb := s.lb + 1 }

/-- A read of `data`, which `gzread` puts into `rbuf`. -/
def takeRead (s : Stream Bl) (data : List UInt8) : Except Stop (Stream Bl) := do
  let rbuf ← inRange (copy s.rbuf 0 (data.map some))
  if spamdFeedMax - s.total < data.length then .error (.bldone efbig)
  else
    let s := { s with rbuf := rbuf, total := s.total + data.length }
    data.foldlM (takeByte granted parseNetblock white) s

def readLoop (s : Stream Bl) : List Read → Except Stop (Stream Bl)
  | [] => .ok s
  | .error errno :: _ => .error (.bldone (if errno = 0 then eio else errno))
  | .ok [] :: _ => .ok s
  | .ok (c :: cs) :: reads => do
    let s ← takeRead granted parseNetblock white s (c :: cs)
    readLoop s reads

/-- The hand-over to the caller; `*bls` is set before the list is reallocated. -/
def handOver (caller : Caller Bl) (s : Stream Bl) : Option (Outcome Bl) :=
  let errno := if s.total = 0 then some eio else none
  let size := caller.blc + s.nblc
  if s.nblc = 0 then some (returnBl caller errno)
  else if caller.bls < size then
    if granted s.allocs then
      (copy (grow caller.cells size) caller.blc (s.nbl.take s.nblc)).map fun bl =>
        returnBl ⟨some bl, size, size⟩ errno
    else some ⟨{ caller with bls := size }, some enomem, true⟩
  else (copy caller.cells caller.blc (s.nbl.take s.nblc)).map fun bl =>
    returnBl { caller with bl := some bl, blc := size } errno

/-- The patched `add_blacklist`; `none` is a store out of range. -/
def addBlacklist (caller : Caller Bl) (reads : List Read) : Option (Outcome Bl) :=
  let parsed := do
    let s ← readLoop granted parseNetblock white Stream.start reads
    if s.lb ≠ 0 then endLine granted parseNetblock white s else .ok s
  match parsed with
  | .ok s => handOver granted caller s
  | .error (.bldone serrno) =>
    if serrno = 0 then some (returnBl caller none) else some ⟨caller, some serrno, true⟩
  | .error .outOfRange => none

/-- `addBlacklist` up to the hand-over. -/
def parse (reads : List Read) : Except Stop (Stream Bl) := do
  let s ← readLoop granted parseNetblock white Stream.start reads
  if s.lb ≠ 0 then endLine granted parseNetblock white s else .ok s

theorem addBlacklist_eq (caller : Caller Bl) (reads : List Read) :
    addBlacklist granted parseNetblock white caller reads =
      match parse granted parseNetblock white reads with
      | .ok s => handOver granted caller s
      | .error (.bldone serrno) =>
        if serrno = 0 then some (returnBl caller none) else some ⟨caller, some serrno, true⟩
      | .error .outOfRange => none :=
  rfl

/-- The replaced parser's buffer and its counters. -/
structure Whole where
  buf : Buffer UInt8
  bu : Nat
  bs : Nat
  allocs : Nat

def mebibyte : Nat := 1024 * 1024

/-- `if (bu == bs) ..`: another mebibyte, and a cell for the last terminator. -/
def Whole.makeRoom (w : Whole) : Except Stop Whole :=
  if w.bu = w.bs then
    if granted w.allocs then
      .ok { w with
        buf := grow w.buf (w.bs + mebibyte + 1), bs := w.bs + mebibyte, allocs := w.allocs + 1 }
    else .error (.bldone enomem)
  else .ok w

/-- The replaced reading loop. -/
def readWhole (w : Whole) : List Read → Except Stop Whole
  | [] => w.makeRoom granted
  | read :: reads => do
    let w ← w.makeRoom granted
    match read with
    | .error errno => .error (.bldone errno)
    | .ok [] => .ok w
    | .ok (c :: cs) =>
      let buf ← inRange (copy w.buf w.bu ((c :: cs).map some))
      readWhole { w with buf := buf, bu := w.bu + (c :: cs).length } reads

/-- `*bls += more; bl = reallocarray(bl, *bls, ..)`, where a failure is taken back. -/
def Caller.extend (caller : Caller Bl) (more : Nat) : Caller Bl :=
  { caller with
    bl := some (grow caller.cells (caller.bls + more)), bls := caller.bls + more }

/-- The replaced parsing loop, with `left` bytes to go: `i` runs to the end of the buffer. -/
def parseWhole (bu : Nat) : (left start i : Nat) → (buf : Buffer UInt8) → (caller : Caller Bl) →
    (allocs : Nat) → Option (Outcome Bl)
  | 0, _, _, _, caller, _ => some (returnBl caller (if bu = 0 then some eio else none))
  | left + 1, start, i, buf, caller, allocs =>
    let full := decide (caller.bls ≤ caller.blc + 1)
    if full && !granted allocs then some (returnBl caller (some enomem))
    else
      let caller := if full then caller.extend 1024 else caller
      let allocs := if full then allocs + 1 else allocs
      if i = bu ∨ buf[i]? = some (some newline) then
        (store buf i 0).bind fun buf =>
          match parseNetblock (string buf start) white with
          | none => parseWhole bu left (i + 1) (i + 1) buf caller allocs
          | some (first, last) =>
            ((store caller.cells caller.blc first).bind (store · (caller.blc + 1) last)).bind
              fun bl => parseWhole bu left (i + 1) (i + 1) buf
                { caller with bl := some bl, blc := caller.blc + 2 } allocs
      else parseWhole bu left start (i + 1) buf caller allocs

/-- The replaced `add_blacklist`. -/
def addBlacklistWhole (caller : Caller Bl) (reads : List Read) : Option (Outcome Bl) :=
  match readWhole granted ⟨[], 0, 0, 0⟩ reads with
  | .error .outOfRange => none
  | .error (.bldone serrno) =>
    some (returnBl caller (if serrno = 0 then none else some serrno))
  | .ok w =>
    let full := decide (caller.bls ≤ caller.blc + w.bu / 7)
    if full && !granted w.allocs then some (returnBl caller (some enomem))
    else
      let caller := if full then caller.extend (w.bu / 7) else caller
      let allocs := if full then w.allocs + 1 else w.allocs
      parseWhole granted parseNetblock white w.bu (w.bu + 1) 0 0 w.buf caller allocs

end Code

/-- The lines of a feed whose unfinished line so far is `line`; the last one may lack its
newline. -/
def linesFrom (line : List UInt8) : List UInt8 → List (List UInt8)
  | [] => if line = [] then [] else [line]
  | c :: feed => if c = newline then line :: linesFrom [] feed else linesFrom (line ++ [c]) feed

def feedLines (feed : List UInt8) : List (List UInt8) := linesFrom [] feed

section Blocks

variable (parseNetblock : List UInt8 → Int → Option (Bl × Bl)) (white : Int)

/-- The pair of a line, which is a C string for `parse_netblock`. -/
def block (line : List UInt8) : List Bl :=
  match parseNetblock (line.takeWhile (· != 0)) white with
  | none => []
  | some (first, last) => [first, last]

def blocks (lines : List (List UInt8)) : List Bl := lines.flatMap (block parseNetblock white)

end Blocks

/-- The caller's list is `entries`, and `*bls` is what is allocated. -/
structure Lists (caller : Caller Bl) (entries : List Bl) : Prop where
  held : Holds caller.cells entries
  count : caller.blc = entries.length
  capacity : caller.bls = caller.cells.length

/-- The patched parser's variables when `line` is the unfinished line and `pairs` was found. -/
structure Streams (s : Stream Bl) (line : List UInt8) (pairs : List Bl) : Prop where
  rbuf : s.rbuf.length = spamdLineMax
  lineHeld : Holds s.line line
  lineSize : s.line.length = spamdLineMax + 1
  lb : s.lb = line.length
  short : line.length ≤ spamdLineMax
  nblHeld : Holds s.nbl pairs
  nblc : s.nblc = pairs.length
  nbls : s.nbls = s.nbl.length

section Streaming

variable {granted : Nat → Bool} (parseNetblock : List UInt8 → Int → Option (Bl × Bl)) (white : Int)
variable {s : Stream Bl} {line : List UInt8} {pairs : List Bl}

theorem streams_start : Streams (Stream.start : Stream Bl) [] [] where
  rbuf := length_alloc
  lineHeld := holds_nil
  lineSize := length_alloc
  lb := rfl
  short := Nat.zero_le _
  nblHeld := holds_nil
  nblc := rfl
  nbls := rfl

theorem Streams.reserve (streams : Streams s line pairs) (grants : ∀ k, granted k = true) :
    ∃ t, reserve granted s = .ok t ∧ Streams t line pairs ∧ t.total = s.total ∧
      pairs.length + 1 < t.nbl.length := by
  unfold SpamdSetup.reserve
  by_cases full : s.nbls ≤ s.nblc + 1
  · rw [if_pos full, if_pos (grants _)]
    have le : s.nbl.length ≤ s.nbls + 1024 := by rw [streams.nbls]; omega
    obtain ⟨held, size⟩ := streams.nblHeld.grow le
    refine ⟨_, rfl, { streams with nblHeld := held, nbls := size.symm }, rfl, ?_⟩
    have := streams.nblHeld.length_le
    have := streams.nbls
    show pairs.length + 1 < (grow s.nbl (s.nbls + 1024)).length
    omega
  · rw [if_neg full]
    refine ⟨s, rfl, streams, rfl, ?_⟩
    have := streams.nblc
    have := streams.nbls
    omega

theorem Streams.reset (streams : Streams s line pairs) : Streams { s with lb := 0 } [] pairs :=
  { streams with lineHeld := holds_nil, lb := rfl, short := Nat.zero_le _ }

/-- A pair behind those found so far. -/
theorem Streams.push (streams : Streams s line pairs) (first last : Bl)
    (room : pairs.length + 1 < s.nbl.length) :
    ∃ nbl, (store s.nbl s.nblc first).bind (store · (s.nblc + 1) last) = some nbl ∧
      Streams { s with nbl := nbl, nblc := s.nblc + 2 } line (pairs ++ [first, last]) := by
  obtain ⟨nbl, stored, size, held⟩ := streams.nblHeld.store_two first last room
  rw [← streams.nblc] at stored
  exact ⟨nbl, stored,
    { streams with
      nblHeld := held
      nblc := by simp [streams.nblc]
      nbls := by rw [size, streams.nbls] }⟩

/-- A line that is ended adds its pair, and the next one starts with nothing. -/
theorem Streams.endLine (streams : Streams s line pairs) (grants : ∀ k, granted k = true) :
    ∃ t, endLine granted parseNetblock white s = .ok t ∧
      Streams { t with lb := 0 } [] (pairs ++ block parseNetblock white line) ∧
      t.total = s.total := by
  have room : line.length < s.line.length := by
    have := streams.lineSize
    have := streams.short
    omega
  obtain ⟨cells, stored, size, held⟩ := streams.lineHeld.store 0 room
  rw [← streams.lb] at stored
  have terminated : Streams { s with line := cells } line pairs :=
    { streams with
      lineHeld := List.IsPrefix.trans ⟨[some 0], by simp⟩ held
      lineSize := size.trans streams.lineSize }
  obtain ⟨t, reserved, streamsT, total, free⟩ := terminated.reserve grants
  unfold SpamdSetup.endLine block
  rw [stored]
  simp only [inRange, bind, Except.bind, held.string, reserved]
  cases parseNetblock (line.takeWhile (· != 0)) white with
  | none => exact ⟨_, rfl, by rw [List.append_nil]; exact terminated.reset, rfl⟩
  | some pair =>
    obtain ⟨nbl, pushed, streamsNbl⟩ := streamsT.push pair.1 pair.2 free
    obtain ⟨one, storedOne, storedTwo⟩ := Option.bind_eq_some_iff.1 pushed
    exact ⟨_, by simp only [storedOne, storedTwo], streamsNbl.reset, total⟩

/-- A byte of a line that is not too long. -/
theorem Streams.takeByte (granted : Nat → Bool) {c : UInt8} (streams : Streams s line pairs)
    (text : c ≠ newline) (short : line.length < spamdLineMax) :
    ∃ t, takeByte granted parseNetblock white s c = .ok t ∧ Streams t (line ++ [c]) pairs ∧
      t.total = s.total := by
  have room : line.length < s.line.length := by
    have := streams.lineSize
    omega
  obtain ⟨cells, stored, size, held⟩ := streams.lineHeld.store c room
  rw [← streams.lb] at stored
  unfold SpamdSetup.takeByte
  rw [if_neg text, if_neg (by rw [streams.lb]; omega), stored]
  refine ⟨_, rfl, ?_, rfl⟩
  exact
    { streams with
      lineHeld := held
      lineSize := size.trans streams.lineSize
      lb := by simp [streams.lb]
      short := by rw [List.length_append]; exact short }

/-- The unfinished line is the beginning of one of the lines. -/
theorem exists_line_ge {line : List UInt8} (ne : line ≠ []) (feed : List UInt8) :
    ∃ l ∈ linesFrom line feed, line.length ≤ l.length := by
  induction feed generalizing line with
  | nil => exact ⟨line, by simp [linesFrom, ne], Nat.le_refl _⟩
  | cons c feed ih =>
    by_cases ends : c = newline
    · exact ⟨line, by simp [linesFrom, ends], Nat.le_refl _⟩
    · obtain ⟨l, mem, le⟩ := ih (List.append_ne_nil_of_right_ne_nil line (List.cons_ne_nil c []))
      rw [List.length_append] at le
      exact ⟨l, by rw [linesFrom, if_neg ends]; exact mem, by omega⟩

/-- The bytes of a read: what they and the bytes behind them say is what was found, and what
the rest says. -/
theorem Streams.takeBytes (grants : ∀ k, granted k = true) (data rest : List UInt8)
    (streams : Streams s line pairs)
    (short : ∀ l ∈ linesFrom line (data ++ rest), l.length ≤ spamdLineMax) :
    ∃ t line' pairs', data.foldlM (SpamdSetup.takeByte granted parseNetblock white) s = .ok t ∧
      Streams t line' pairs' ∧ t.total = s.total ∧
      (∀ l ∈ linesFrom line' rest, l.length ≤ spamdLineMax) ∧
      pairs' ++ blocks parseNetblock white (linesFrom line' rest)
        = pairs ++ blocks parseNetblock white (linesFrom line (data ++ rest)) := by
  induction data generalizing s line pairs with
  | nil => exact ⟨s, line, pairs, rfl, streams, rfl, short, rfl⟩
  | cons c data ih =>
    rw [List.cons_append] at short ⊢
    rw [List.foldlM_cons]
    by_cases ends : c = newline
    · obtain ⟨t, taken, streamsT, total⟩ :=
        streams.endLine parseNetblock white grants
      have step : SpamdSetup.takeByte granted parseNetblock white s c = .ok { t with lb := 0 } := by
        rw [SpamdSetup.takeByte, if_pos ends, taken]
        rfl
      rw [linesFrom, if_pos ends] at short ⊢
      obtain ⟨t', line', pairs', run, streams', total', short', meaning⟩ :=
        ih streamsT fun l mem => short l (List.mem_cons_of_mem _ mem)
      refine ⟨t', line', pairs', by rw [step]; exact run, streams', total'.trans total, short', ?_⟩
      rw [meaning, List.append_assoc]
      rfl
    · rw [linesFrom, if_neg ends] at short ⊢
      have room : line.length < spamdLineMax := by
        obtain ⟨l, mem, le⟩ := exists_line_ge
          (List.append_ne_nil_of_right_ne_nil line (List.cons_ne_nil c [])) (data ++ rest)
        have := short l mem
        rw [List.length_append, List.length_singleton] at le
        omega
      obtain ⟨t, taken, streamsT, total⟩ := streams.takeByte parseNetblock white granted ends room
      obtain ⟨t', line', pairs', run, streams', total', short', meaning⟩ := ih streamsT short
      exact ⟨t', line', pairs', by rw [taken]; exact run, streams', total'.trans total, short',
        meaning⟩

/-- A read that fits into `rbuf` and into what the feed may still have. -/
theorem Streams.takeRead (grants : ∀ k, granted k = true) (data rest : List UInt8)
    (streams : Streams s line pairs) (fits : data.length ≤ spamdLineMax)
    (small : s.total + data.length ≤ spamdFeedMax)
    (short : ∀ l ∈ linesFrom line (data ++ rest), l.length ≤ spamdLineMax) :
    ∃ t line' pairs', takeRead granted parseNetblock white s data = .ok t ∧
      Streams t line' pairs' ∧ t.total = s.total + data.length ∧
      (∀ l ∈ linesFrom line' rest, l.length ≤ spamdLineMax) ∧
      pairs' ++ blocks parseNetblock white (linesFrom line' rest)
        = pairs ++ blocks parseNetblock white (linesFrom line (data ++ rest)) := by
  obtain ⟨rbuf, copied, size, -⟩ := (holds_nil (b := s.rbuf)).copy data
    (by rw [streams.rbuf, List.length_nil]; omega)
  have streamsRead : Streams { s with rbuf := rbuf, total := s.total + data.length } line pairs :=
    { streams with rbuf := size.trans streams.rbuf }
  obtain ⟨t, line', pairs', run, streams', total, short', meaning⟩ :=
    streamsRead.takeBytes parseNetblock white grants data rest short
  refine ⟨t, line', pairs', ?_, streams', total, short', meaning⟩
  rw [SpamdSetup.takeRead, show copy s.rbuf 0 (data.map some) = some rbuf from copied]
  simp only [inRange, bind, Except.bind]
  rw [if_neg (by omega)]
  exact run

/-- The whole reading loop, however the feed is split into reads. -/
theorem Streams.readLoop (grants : ∀ k, granted k = true) (reads : List (List UInt8))
    (streams : Streams s line pairs) (nonempty : ∀ data ∈ reads, data ≠ [])
    (fits : ∀ data ∈ reads, data.length ≤ spamdLineMax)
    (small : s.total + reads.flatten.length ≤ spamdFeedMax)
    (short : ∀ l ∈ linesFrom line reads.flatten, l.length ≤ spamdLineMax) :
    ∃ t line' pairs', readLoop granted parseNetblock white s (reads.map .ok) = .ok t ∧
      Streams t line' pairs' ∧ t.total = s.total + reads.flatten.length ∧
      pairs' ++ blocks parseNetblock white (linesFrom line' [])
        = pairs ++ blocks parseNetblock white (linesFrom line reads.flatten) := by
  induction reads generalizing s line pairs with
  | nil => exact ⟨s, line, pairs, rfl, streams, rfl, rfl⟩
  | cons data reads ih =>
    rw [List.flatten_cons] at short small ⊢
    rw [List.length_append] at small
    obtain ⟨t, line', pairs', run, streams', total, short', meaning⟩ :=
      streams.takeRead parseNetblock white grants data reads.flatten
        (fits data List.mem_cons_self) (by omega) short
    obtain ⟨t', line'', pairs'', run', streams'', total', meaning'⟩ :=
      ih streams' (fun d mem => nonempty d (List.mem_cons_of_mem _ mem))
        (fun d mem => fits d (List.mem_cons_of_mem _ mem)) (by omega) short'
    refine ⟨t', line'', pairs'', ?_, streams'', ?_, meaning'.trans meaning⟩
    · obtain ⟨c, cs, rfl⟩ := List.exists_cons_of_ne_nil (nonempty data List.mem_cons_self)
      rw [List.map_cons, SpamdSetup.readLoop, run]
      exact run'
    · rw [List.length_append]
      omega

/-- The hand-over appends the pairs. -/
theorem Streams.handOver (grants : ∀ k, granted k = true) {caller : Caller Bl}
    {entries : List Bl} (streams : Streams s line pairs) (lists : Lists caller entries) :
    ∃ after, handOver granted caller s
        = some (returnBl after (if s.total = 0 then some eio else none)) ∧
      Lists after (entries ++ pairs) ∧ (after.bl = none ↔ caller.bl = none ∧ pairs = []) := by
  have cells : s.nbl.take s.nblc = pairs.map some := by rw [streams.nblc, streams.nblHeld.take]
  have count := lists.count
  have capacity := lists.capacity
  have nblc := streams.nblc
  unfold SpamdSetup.handOver
  by_cases none : s.nblc = 0
  · have empty : pairs = [] := List.eq_nil_of_length_eq_zero (by omega)
    subst empty
    exact ⟨caller, by simp only [if_pos none], by rw [List.append_nil]; exact lists, by simp⟩
  · have found : pairs ≠ [] := by
      rintro rfl
      exact none nblc
    simp only [if_neg none, cells]
    by_cases full : caller.bls < caller.blc + s.nblc
    · simp only [if_pos full, if_pos (grants s.allocs)]
      obtain ⟨held, size⟩ := lists.held.grow (n := caller.blc + s.nblc) (by omega)
      obtain ⟨bl, copied, sizeBl, heldBl⟩ := held.copy pairs (by omega)
      rw [← count] at copied
      rw [copied]
      refine ⟨_, rfl, ⟨heldBl, ?_, ?_⟩, by simp [found]⟩
      · rw [List.length_append, count, nblc]
      · exact (sizeBl.trans size).symm
    · simp only [if_neg full]
      obtain ⟨bl, copied, sizeBl, heldBl⟩ := lists.held.copy pairs (by omega)
      rw [← count] at copied
      rw [copied]
      refine ⟨_, rfl, ⟨heldBl, ?_, ?_⟩, by simp [found]⟩
      · show caller.blc + s.nblc = _
        rw [List.length_append, count, nblc]
      · exact capacity.trans sizeBl.symm

/-- What has been parsed when the feed is over. -/
theorem parse_appends (grants : ∀ k, granted k = true) (reads : List (List UInt8))
    (nonempty : ∀ data ∈ reads, data ≠ []) (fits : ∀ data ∈ reads, data.length ≤ spamdLineMax)
    (small : reads.flatten.length ≤ spamdFeedMax)
    (short : ∀ l ∈ feedLines reads.flatten, l.length ≤ spamdLineMax) :
    ∃ s, parse granted parseNetblock white (reads.map .ok) = .ok s ∧
      Streams { s with lb := 0 } [] (blocks parseNetblock white (feedLines reads.flatten)) ∧
      s.total = reads.flatten.length := by
  obtain ⟨s, line, pairs, run, streams, total, meaning⟩ :=
    streams_start.readLoop parseNetblock white grants reads nonempty fits
      (by show 0 + _ ≤ _; omega) short
  have total : s.total = reads.flatten.length := by
    rw [total, show (Stream.start : Stream Bl).total = 0 from rfl, Nat.zero_add]
  rw [List.nil_append] at meaning
  unfold parse feedLines
  rw [run, ← meaning]
  by_cases unfinished : line = []
  · have lb : s.lb = 0 := by rw [streams.lb, unfinished]; rfl
    refine ⟨s, ?_, ?_, total⟩
    · simp only [bind, Except.bind, lb, ne_eq, not_true_eq_false, if_false]
    · simpa [linesFrom, unfinished, blocks] using streams.reset
  · have lb : s.lb ≠ 0 := by
      rw [streams.lb]
      exact fun none => unfinished (List.eq_nil_of_length_eq_zero none)
    obtain ⟨t, ended, streamsT, totalT⟩ := streams.endLine parseNetblock white grants
    refine ⟨t, ?_, ?_, totalT.trans total⟩
    · simp only [bind, Except.bind, if_pos lb, ended]
    · simpa [linesFrom, unfinished, blocks] using streamsT

/-- The patched parser appends what the feed says. -/
theorem addBlacklist_appends (grants : ∀ k, granted k = true) {caller : Caller Bl}
    {entries : List Bl} (lists : Lists caller entries) (reads : List (List UInt8))
    (nonempty : ∀ data ∈ reads, data ≠ []) (fits : ∀ data ∈ reads, data.length ≤ spamdLineMax)
    (small : reads.flatten.length ≤ spamdFeedMax)
    (short : ∀ l ∈ feedLines reads.flatten, l.length ≤ spamdLineMax) :
    ∃ after, addBlacklist granted parseNetblock white caller (reads.map .ok)
        = some (returnBl after (if reads.flatten.length = 0 then some eio else none)) ∧
      Lists after (entries ++ blocks parseNetblock white (feedLines reads.flatten)) ∧
      (after.bl = none ↔
        caller.bl = none ∧ blocks parseNetblock white (feedLines reads.flatten) = []) := by
  obtain ⟨s, parsed, streams, total⟩ :=
    parse_appends parseNetblock white grants reads nonempty fits small short
  obtain ⟨after, handed, listed, null⟩ := streams.handOver grants lists
  refine ⟨after, ?_, listed, null⟩
  rw [addBlacklist_eq, parsed, ← total]
  exact handed

end Streaming

/-- `gzread` gives the replaced loop something, and not more than it asks for. -/
def Honours : (bu bs : Nat) → List (List UInt8) → Prop
  | _, _, [] => True
  | bu, bs, data :: reads =>
    let bs := if bu = bs then bs + mebibyte else bs
    data ≠ [] ∧ data.length ≤ bs - bu ∧ Honours (bu + data.length) bs reads

/-- The lines that the replaced parser sees: it parses what follows the last newline always. -/
def wholeLinesFrom (line : List UInt8) : List UInt8 → List (List UInt8)
  | [] => [line]
  | c :: feed =>
    if c = newline then line :: wholeLinesFrom [] feed else wholeLinesFrom (line ++ [c]) feed

/-- The replaced loop has read `feed`. -/
structure Collected (w : Whole) (feed : List UInt8) : Prop where
  held : Holds w.buf feed
  bu : w.bu = feed.length
  le : w.bu ≤ w.bs
  size : w.buf.length = w.bs + 1 ∨ w.buf.length = 0 ∧ w.bs = 0

section WholeBuffer

variable {granted : Nat → Bool} (parseNetblock : List UInt8 → Int → Option (Bl × Bl)) (white : Int)
variable {w : Whole} {feed : List UInt8} {caller : Caller Bl} {entries : List Bl}

theorem Collected.makeRoom (collected : Collected w feed) (grants : ∀ k, granted k = true) :
    ∃ t, w.makeRoom granted = .ok t ∧ Collected t feed ∧ t.bu < t.bs ∧
      t.buf.length = t.bs + 1 ∧ t.bs = if w.bu = w.bs then w.bs + mebibyte else w.bs := by
  have le := collected.le
  have size := collected.size
  unfold Whole.makeRoom
  by_cases full : w.bu = w.bs
  · rw [if_pos full, if_pos (grants _), if_pos full]
    have mebi : 0 < mebibyte := by decide
    obtain ⟨held, length⟩ := collected.held.grow (n := w.bs + mebibyte + 1) (by omega)
    refine ⟨_, rfl, ⟨held, collected.bu, ?_, .inl length⟩, ?_, length, rfl⟩
    · show w.bu ≤ w.bs + mebibyte
      omega
    · show w.bu < w.bs + mebibyte
      omega
  · rw [if_neg full, if_neg full]
    exact ⟨w, rfl, collected, by omega, by omega, rfl⟩

theorem Collected.readWhole (grants : ∀ k, granted k = true) (reads : List (List UInt8))
    (collected : Collected w feed) (honours : Honours w.bu w.bs reads) :
    ∃ t, readWhole granted w (reads.map .ok) = .ok t ∧
      Holds t.buf (feed ++ reads.flatten) ∧ t.bu = (feed ++ reads.flatten).length ∧
      t.bu < t.buf.length := by
  induction reads generalizing w feed with
  | nil =>
    obtain ⟨t, made, collectedT, less, size, -⟩ := collected.makeRoom grants
    rw [List.flatten_nil, List.append_nil]
    exact ⟨t, made, collectedT.held, collectedT.bu, by omega⟩
  | cons data reads ih =>
    obtain ⟨t, made, collectedT, less, size, bs⟩ := collected.makeRoom grants
    obtain ⟨nonempty, fits, later⟩ := honours
    have bu : w.bu = t.bu := by rw [collected.bu, collectedT.bu]
    rw [← bs] at fits later
    obtain ⟨buf, copied, sizeBuf, held⟩ := collectedT.held.copy data
      (by have := collectedT.bu; omega)
    rw [← collectedT.bu] at copied
    have next : Collected { t with buf := buf, bu := t.bu + data.length } (feed ++ data) := by
      refine ⟨held, ?_, ?_, .inl (sizeBuf.trans size)⟩
      · rw [List.length_append, ← collectedT.bu]
      · show t.bu + data.length ≤ t.bs
        omega
    rw [bu] at later
    obtain ⟨t', run, heldT, buT, lessT⟩ := ih next later
    rw [List.append_assoc] at heldT buT
    refine ⟨t', ?_, heldT, buT, lessT⟩
    obtain ⟨c, cs, rfl⟩ := List.exists_cons_of_ne_nil nonempty
    rw [List.map_cons, SpamdSetup.readWhole, made]
    simp only [bind, Except.bind, copied, inRange]
    exact run

theorem Lists.extend (lists : Lists caller entries) (more : Nat) :
    Lists (caller.extend more) entries := by
  obtain ⟨held, size⟩ := lists.held.grow (n := caller.bls + more) (by have := lists.capacity; omega)
  exact ⟨held, lists.count, size.symm⟩

theorem Lists.push (lists : Lists caller entries) (first last : Bl)
    (room : caller.blc + 1 < caller.bls) :
    ∃ bl, (store caller.cells caller.blc first).bind (store · (caller.blc + 1) last) = some bl ∧
      Lists { caller with bl := some bl, blc := caller.blc + 2 } (entries ++ [first, last]) := by
  obtain ⟨bl, stored, size, held⟩ := lists.held.store_two first last
    (by rw [← lists.count, ← lists.capacity]; exact room)
  rw [← lists.count] at stored
  exact ⟨bl, stored, ⟨held, by simp [lists.count], lists.capacity.trans size.symm⟩⟩

theorem Lists.bl_ne_none (lists : Lists caller entries) (room : 0 < caller.bls) :
    caller.bl ≠ none := by
  intro null
  have capacity := lists.capacity
  rw [Caller.cells, null, Option.getD_none, List.length_nil] at capacity
  omega

/-- `if (*blc + 1 >= *bls) ..` of the replaced parser. -/
theorem Lists.reserve (lists : Lists caller entries) :
    ∃ roomy, (if decide (caller.bls ≤ caller.blc + 1) = true then caller.extend 1024 else caller)
        = roomy ∧ Lists roomy entries ∧ roomy.blc + 1 < roomy.bls := by
  by_cases full : caller.bls ≤ caller.blc + 1
  · rw [if_pos (by simpa using full)]
    refine ⟨_, rfl, lists.extend 1024, ?_⟩
    have := lists.held.length_le
    have := lists.count
    have := lists.capacity
    show caller.blc + 1 < caller.bls + 1024
    omega
  · rw [if_neg (by simpa using full)]
    exact ⟨caller, rfl, lists, by omega⟩

/-- The cell behind the bytes of the line. -/
theorem cell_behind (before : Buffer UInt8) (line : List UInt8) (cell : Option UInt8)
    (slack : Buffer UInt8) :
    (before ++ (line.map some ++ cell :: slack))[before.length + line.length]? = some cell := by
  rw [List.getElem?_append_right (by omega), List.getElem?_append_right (by simp)]
  simp

/-- The end of a line in the replaced parser: the pair is appended and the line's end becomes a
terminator in the buffer. -/
theorem parseWhole_line (grants : ∀ k, granted k = true) {bu : Nat} (left allocs : Nat)
    (before : Buffer UInt8) (line : List UInt8) (cell : Option UInt8) (slack : Buffer UInt8)
    (ends : before.length + line.length = bu ∨ cell = some newline)
    (lists : Lists caller entries) :
    ∃ after allocs', parseWhole granted parseNetblock white bu (left + 1) before.length
        (before.length + line.length) (before ++ (line.map some ++ cell :: slack)) caller allocs
          = parseWhole granted parseNetblock white bu left (before.length + line.length + 1)
              (before.length + line.length + 1)
              (before ++ (line.map some ++ some 0 :: slack)) after allocs' ∧
      Lists after (entries ++ block parseNetblock white line) ∧ after.bl ≠ none := by
  obtain ⟨roomy, reserved, listed, room⟩ := lists.reserve
  have stored : store (before ++ (line.map some ++ cell :: slack)) (before.length + line.length) 0
      = some (before ++ (line.map some ++ some 0 :: slack)) := by
    have := store_append (before ++ line.map some) slack cell (0 : UInt8)
    simpa using this
  have here : before.length + line.length = bu ∨
      (before ++ (line.map some ++ cell :: slack))[before.length + line.length]?
        = some (some newline) := by
    refine ends.imp_right fun eq => ?_
    rw [cell_behind, eq]
  rw [parseWhole]
  simp only [grants, Bool.not_true, Bool.and_false, Bool.false_eq_true, if_false, reserved,
    if_pos here, stored, Option.bind_some, string_terminated, block]
  cases parseNetblock (line.takeWhile (· != 0)) white with
  | none =>
    exact ⟨_, _, rfl, by rw [List.append_nil]; exact listed, listed.bl_ne_none (by omega)⟩
  | some pair =>
    obtain ⟨bl, pushed, listedBl⟩ := listed.push pair.1 pair.2 room
    refine ⟨_, if decide (caller.bls ≤ caller.blc + 1) = true then allocs + 1 else allocs, ?_,
      listedBl, Option.some_ne_none _⟩
    simp only [pushed, Option.bind_some]

/-- Another byte of a line in the replaced parser. -/
theorem parseWhole_text (grants : ∀ k, granted k = true) {bu : Nat} (left allocs : Nat)
    (before : Buffer UInt8) (line : List UInt8) (c : UInt8) (slack : Buffer UInt8)
    (inside : before.length + line.length < bu) (text : c ≠ newline)
    (lists : Lists caller entries) :
    ∃ after allocs', parseWhole granted parseNetblock white bu (left + 1) before.length
        (before.length + line.length) (before ++ (line.map some ++ some c :: slack)) caller allocs
          = parseWhole granted parseNetblock white bu left before.length
              (before.length + line.length + 1) (before ++ (line.map some ++ some c :: slack))
              after allocs' ∧
      Lists after entries := by
  obtain ⟨roomy, reserved, listed, -⟩ := lists.reserve
  have here : ¬ (before.length + line.length = bu ∨
      (before ++ (line.map some ++ some c :: slack))[before.length + line.length]?
        = some (some newline)) := by
    rintro (eq | eq)
    · omega
    · rw [cell_behind] at eq
      exact text (Option.some.inj (Option.some.inj eq))
  rw [parseWhole]
  simp only [grants, Bool.not_true, Bool.and_false, Bool.false_eq_true, if_false, reserved,
    if_neg here]
  exact ⟨_, _, rfl, listed⟩

/-- The replaced parser at a byte of `feed`, with `line` before it in the same line. -/
theorem parseWhole_appends (grants : ∀ k, granted k = true) (bu : Nat) (feed : List UInt8)
    (before : Buffer UInt8) (line : List UInt8) (cell : Option UInt8) (slack : Buffer UInt8)
    (at' : bu = before.length + line.length + feed.length)
    (lists : Lists caller entries) (allocs : Nat) :
    ∃ after, parseWhole granted parseNetblock white bu (feed.length + 1) before.length
        (before.length + line.length)
        (before ++ (line.map some ++ (feed.map some ++ cell :: slack))) caller allocs
          = some ⟨after, if bu = 0 then some eio else none, false⟩ ∧
      Lists after (entries ++ blocks parseNetblock white (wholeLinesFrom line feed)) := by
  induction feed generalizing before line caller entries allocs with
  | nil =>
    obtain ⟨after, allocs', run, listed, nonNull⟩ := parseWhole_line parseNetblock white grants 0
      allocs before line cell slack (.inl at'.symm) lists
    refine ⟨after, ?_, by simpa [wholeLinesFrom, blocks] using listed⟩
    rw [List.map_nil, List.nil_append, ← returnBl_of_ne_none nonNull]
    exact run
  | cons c feed ih =>
    rw [List.length_cons] at at' ⊢
    by_cases ends : c = newline
    · obtain ⟨after, allocs', run, listed, -⟩ := parseWhole_line parseNetblock white grants
        (feed.length + 1) allocs before line (some c) (feed.map some ++ cell :: slack)
        (.inr (congrArg some ends)) lists
      obtain ⟨last, rest, listedLast⟩ := ih (before ++ (line.map some ++ [some 0])) []
        (by simp; omega) listed allocs'
      refine ⟨last, ?_, ?_⟩
      · rw [List.map_cons, List.cons_append, run]
        simpa [Nat.add_assoc] using rest
      · rw [wholeLinesFrom, if_pos ends]
        simpa [blocks] using listedLast
    · obtain ⟨after, allocs', run, listed⟩ := parseWhole_text parseNetblock white grants
        (feed.length + 1) allocs before line c (feed.map some ++ cell :: slack)
        (show before.length + line.length < bu by omega) ends lists
      obtain ⟨last, rest, listedLast⟩ := ih before (line ++ [c]) (by simp; omega) listed allocs'
      refine ⟨last, ?_, ?_⟩
      · rw [List.map_cons, List.cons_append, run]
        simpa [Nat.add_assoc] using rest
      · rw [wholeLinesFrom, if_neg ends]
        exact listedLast

/-- Only an empty last line makes a difference. -/
theorem blocks_wholeLinesFrom (silent : parseNetblock [] white = none) (line feed : List UInt8) :
    blocks parseNetblock white (wholeLinesFrom line feed)
      = blocks parseNetblock white (linesFrom line feed) := by
  induction feed generalizing line with
  | nil =>
    by_cases empty : line = []
    · simp [wholeLinesFrom, linesFrom, empty, blocks, block, silent]
    · simp [wholeLinesFrom, linesFrom, empty]
  | cons c feed ih =>
    by_cases ends : c = newline
    · rw [wholeLinesFrom, linesFrom, if_pos ends, if_pos ends]
      simpa [blocks] using ih []
    · rw [wholeLinesFrom, linesFrom, if_neg ends, if_neg ends]
      exact ih (line ++ [c])

/-- The replaced parser appends what the feed says, too. -/
theorem addBlacklistWhole_appends (grants : ∀ k, granted k = true)
    (silent : parseNetblock [] white = none) (lists : Lists caller entries)
    (reads : List (List UInt8)) (honours : Honours 0 0 reads) :
    ∃ after, addBlacklistWhole granted parseNetblock white caller (reads.map .ok)
        = some ⟨after, if reads.flatten.length = 0 then some eio else none, false⟩ ∧
      Lists after (entries ++ blocks parseNetblock white (feedLines reads.flatten)) := by
  have start : Collected ⟨[], 0, 0, 0⟩ [] := ⟨holds_nil, rfl, Nat.le_refl 0, .inr ⟨rfl, rfl⟩⟩
  obtain ⟨w, run, held, bu, less⟩ := start.readWhole grants reads honours
  rw [List.nil_append] at held bu
  obtain ⟨roomy, reserved, listed⟩ : ∃ roomy,
      (if decide (caller.bls ≤ caller.blc + w.bu / 7) = true then caller.extend (w.bu / 7)
        else caller) = roomy ∧ Lists roomy entries := by
    by_cases full : caller.bls ≤ caller.blc + w.bu / 7
    · exact ⟨_, by rw [if_pos (by simpa using full)], lists.extend _⟩
    · exact ⟨_, by rw [if_neg (by simpa using full)], lists⟩
  obtain ⟨slack, cells⟩ := held
  cases slack with
  | nil =>
    rw [← cells, List.append_nil, List.length_map] at less
    omega
  | cons cell slack =>
    obtain ⟨after, parsed, appended⟩ := parseWhole_appends parseNetblock white grants w.bu
      reads.flatten [] [] cell slack (by rw [bu]; simp) listed
      (if decide (caller.bls ≤ caller.blc + w.bu / 7) = true then w.allocs + 1 else w.allocs)
    rw [blocks_wholeLinesFrom parseNetblock white silent] at appended
    refine ⟨after, ?_, appended⟩
    unfold addBlacklistWhole
    simp only [run, grants, Bool.not_true, Bool.and_false, Bool.false_eq_true, if_false, reserved]
    rw [← bu, ← cells]
    simpa [bu] using parsed

end WholeBuffer

/-- **Parsing while reading changes nothing**: however a feed within the limits is split into
reads, and when no allocation fails, the patched function stores in range only and appends the
pairs of the feed's lines to the caller's list. The replaced function, which may have read the
same feed in other pieces, leaves the same list, if an empty line has no pair. A `NULL` list to
which nothing is appended is returned as `NULL`; there the replaced function returns memory
without entries. -/
theorem addBlacklist_feed (granted : Nat → Bool)
    (parseNetblock : List UInt8 → Int → Option (Bl × Bl)) (white : Int) (caller : Caller Bl)
    (entries : List Bl) (reads : List (List UInt8)) (grants : ∀ k, granted k = true)
    (lists : Lists caller entries) (nonempty : ∀ data ∈ reads, data ≠ [])
    (fits : ∀ data ∈ reads, data.length ≤ spamdLineMax)
    (small : reads.flatten.length ≤ spamdFeedMax)
    (short : ∀ line ∈ feedLines reads.flatten, line.length ≤ spamdLineMax) :
    ∃ after errno, addBlacklist granted parseNetblock white caller (reads.map .ok)
        = some ⟨after, errno, after.bl.isNone⟩ ∧
      Lists after (entries ++ blocks parseNetblock white (feedLines reads.flatten)) ∧
      (after.bl = none ↔
        caller.bl = none ∧ blocks parseNetblock white (feedLines reads.flatten) = []) ∧
      (parseNetblock [] white = none → ∀ readsWhole, readsWhole.flatten = reads.flatten →
        Honours 0 0 readsWhole →
        ∃ afterWhole, addBlacklistWhole granted parseNetblock white caller (readsWhole.map .ok)
            = some ⟨afterWhole, errno, false⟩ ∧
          Lists afterWhole (entries ++ blocks parseNetblock white (feedLines reads.flatten))) := by
  obtain ⟨after, run, appended, null⟩ := addBlacklist_appends parseNetblock white grants lists
    reads nonempty fits small short
  refine ⟨after, _, run, appended, null, fun silent readsWhole same honours => ?_⟩
  have whole := addBlacklistWhole_appends parseNetblock white grants silent lists readsWhole honours
  rwa [same] at whole

/-- A netblock parser for the test below: the first byte of the line, twice. -/
def firstByte (line : List UInt8) (_ : Int) : Option (UInt8 × UInt8) :=
  line.head?.map fun c => (c, c)

/-- `ab`, `c` and the unfinished `d`, in reads that cut the first line. -/
theorem addBlacklist_feed_cut_line :
    ∃ after errno, addBlacklist (fun _ => true) firstByte 0 ⟨none, 0, 0⟩
        ([[97], [98, 10, 99, 10, 100]].map .ok) = some ⟨after, errno, after.bl.isNone⟩ ∧
      Lists after [97, 97, 99, 99, 100, 100] ∧ after.bl ≠ none ∧
      ∃ afterWhole, addBlacklistWhole (fun _ => true) firstByte 0 ⟨none, 0, 0⟩
          ([[97, 98, 10, 99, 10, 100]].map .ok) = some ⟨afterWhole, errno, false⟩ ∧
        Lists afterWhole [97, 97, 99, 99, 100, 100] := by
  obtain ⟨after, errno, run, appended, null, whole⟩ := addBlacklist_feed (fun _ => true) firstByte
    0 ⟨none, 0, 0⟩ [] [[97], [98, 10, 99, 10, 100]] (fun _ => rfl) ⟨holds_nil, rfl, rfl⟩
    (by decide) (by decide) (by decide) (by decide)
  exact ⟨after, errno, run, appended, fun none => absurd (null.1 none).2 (by decide),
    whole rfl [[97, 98, 10, 99, 10, 100]] rfl ⟨by decide, by decide, trivial⟩⟩

end SecurityAudits.OpenbsdLibexec.SpamdSetup
