import SecurityAudits.Lib.Grants
import SecurityAudits.OpenbsdLibexec.SpamdSetup

/-!
# What a failing `add_blacklist` leaves

A call that returns `NULL` has failed to read, met one of the limits, or was refused memory. Up
to the hand-over the patched function touches nothing of the caller's. In the hand-over it raises
`*bls` before it asks for the memory, and does not take that back: `HandOverFails` lists what has
to come together for it.

Whether memory is refused only decides how far the function gets (`follows_parse`), so how far a
feed gets it is found out where nothing is refused (`delivers_of_parse`, `Delivers.parse`).
-/

namespace SecurityAudits.OpenbsdLibexec.SpamdSetup
set_option autoImplicit false
open SecurityAudits.Memory SecurityAudits.Grants

variable {Bl : Type}

/-- The allocations for `n` entries of the function's own list. -/
def growths (n : Nat) : Nat := (n + 1023) / 1024

/-- The reads before the end of the feed, if none of them fails. -/
def fed : List Read → Option (List (List UInt8))
  | [] => some []
  | .error _ :: _ => none
  | .ok [] :: _ => some []
  | .ok (c :: cs) :: reads => (fed reads).map ((c :: cs) :: ·)

/-- The feed comes to its end: no read fails or is larger than what was asked for, and neither the
feed nor one of its lines is too long. -/
structure Delivers (reads : List Read) (feed : List UInt8) : Prop where
  pieces : ∃ pieces, fed reads = some pieces ∧ pieces.flatten = feed ∧
    ∀ data ∈ pieces, data.length ≤ spamdLineMax
  small : feed.length ≤ spamdFeedMax
  short : ∀ l ∈ feedLines feed, l.length ≤ spamdLineMax

/-- The feed is read to its end, the function's own list gets its memory, and the caller's list is
too small for the pairs and is not given more. -/
structure HandOverFails (granted : Nat → Bool) (parseNetblock : List UInt8 → Int → Option (Bl × Bl))
    (white : Int) (caller : Caller Bl) (reads : List Read) (feed : List UInt8) : Prop where
  delivers : Delivers reads feed
  pairs : blocks parseNetblock white (feedLines feed) ≠ []
  exceeds : caller.bls < caller.blc + (blocks parseNetblock white (feedLines feed)).length
  grown : ∀ k < growths (blocks parseNetblock white (feedLines feed)).length, granted k = true
  refused : granted (growths (blocks parseNetblock white (feedLines feed)).length) = false

section Requests

variable (parseNetblock : List UInt8 → Int → Option (Bl × Bl)) (white : Int) (s : Stream Bl)

theorem follows_reserve : Follows Stream.allocs s.allocs fun granted => reserve granted s := by
  unfold reserve
  by_cases full : s.nbls ≤ s.nblc + 1
  · simp only [if_pos full]
    exact .ask rfl
  · simp only [if_neg full]
    exact .ok rfl

theorem follows_endLine :
    Follows Stream.allocs s.allocs fun granted => endLine granted parseNetblock white s := by
  unfold endLine
  refine .after fun line _ => ?_
  cases parseNetblock (string line 0) white with
  | none => exact .ok rfl
  | some pair =>
    dsimp only
    refine (follows_reserve { s with line := line }).bind fun t _ => ?_
    exact .after fun one _ => .after fun two _ => .ok rfl

theorem follows_takeByte (c : UInt8) :
    Follows Stream.allocs s.allocs fun granted => takeByte granted parseNetblock white s c := by
  unfold takeByte
  by_cases ends : c = newline
  · simp only [if_pos ends]
    exact (follows_endLine parseNetblock white s).bind fun t _ => .ok rfl
  · simp only [if_neg ends]
    by_cases full : s.lb = spamdLineMax
    · simp only [if_pos full]
      exact .error
    · simp only [if_neg full]
      exact .after fun line _ => .ok rfl

theorem follows_takeRead (data : List UInt8) :
    Follows Stream.allocs s.allocs fun granted => takeRead granted parseNetblock white s data := by
  unfold takeRead
  refine .after fun rbuf _ => ?_
  by_cases large : spamdFeedMax - s.total < data.length
  · simp only [if_pos large]
    exact .error
  · simp only [if_neg large]
    exact .foldlM (fun s c => follows_takeByte parseNetblock white s c) data
      { s with rbuf := rbuf, total := s.total + data.length }

theorem follows_readLoop (reads : List Read) :
    Follows Stream.allocs s.allocs fun granted => readLoop granted parseNetblock white s reads := by
  induction reads generalizing s with
  | nil => exact .ok rfl
  | cons read reads ih =>
    rcases read with errno | data
    · exact .error
    · cases data with
      | nil => exact .ok rfl
      | cons c cs => exact (follows_takeRead parseNetblock white s (c :: cs)).bind fun t _ => ih t

theorem follows_parse (reads : List Read) :
    Follows (Stream.allocs : Stream Bl → Nat) 0
      fun granted => parse granted parseNetblock white reads := by
  refine (follows_readLoop parseNetblock white Stream.start reads).bind fun t _ => ?_
  by_cases unfinished : t.lb ≠ 0
  · simp only [if_pos unfinished]
    exact follows_endLine parseNetblock white t
  · simp only [if_neg unfinished]
    exact .ok rfl

end Requests

/-- The memory of the function's own list. -/
structure Grown (s : Stream Bl) : Prop where
  even : s.nblc % 2 = 0
  allocs : s.allocs = growths s.nblc
  nbls : s.nbls = 1024 * s.allocs

section Growth

variable {granted : Nat → Bool} {parseNetblock : List UInt8 → Int → Option (Bl × Bl)} {white : Int}
variable {s t : Stream Bl}

/-- Room for two entries more takes an allocation when the count is a multiple of 1024. -/
theorem Grown.reserve (grown : Grown s) (run : reserve granted s = .ok t) :
    t.nblc = s.nblc ∧ t.nbls = 1024 * t.allocs ∧ t.allocs = growths (s.nblc + 2) := by
  obtain ⟨even, allocs, nbls⟩ := grown
  unfold growths at *
  unfold SpamdSetup.reserve at run
  by_cases full : s.nbls ≤ s.nblc + 1
  · rw [if_pos full] at run
    by_cases grants : granted s.allocs = true
    · rw [if_pos grants] at run
      cases run
      refine ⟨rfl, ?_, ?_⟩
      · show s.nbls + 1024 = 1024 * (s.allocs + 1)
        omega
      · show s.allocs + 1 = (s.nblc + 2 + 1023) / 1024
        omega
    · rw [if_neg grants] at run
      cases run
  · rw [if_neg full] at run
    cases run
    refine ⟨rfl, nbls, ?_⟩
    omega

theorem Grown.endLine (grown : Grown s) (run : endLine granted parseNetblock white s = .ok t) :
    Grown t := by
  obtain ⟨line, -, run⟩ := bind_eq_ok.1 run
  cases found : parseNetblock (string line 0) white with
  | none =>
    rw [found] at run
    cases run
    exact ⟨grown.even, grown.allocs, grown.nbls⟩
  | some pair =>
    rw [found] at run
    obtain ⟨u, reserved, run⟩ := bind_eq_ok.1 run
    obtain ⟨one, -, run⟩ := bind_eq_ok.1 run
    obtain ⟨two, -, run⟩ := bind_eq_ok.1 run
    cases run
    have terminated : Grown { s with line := line } := ⟨grown.even, grown.allocs, grown.nbls⟩
    obtain ⟨nblc, nbls, allocs⟩ := terminated.reserve reserved
    refine ⟨?_, ?_, nbls⟩
    · show (u.nblc + 2) % 2 = 0
      rw [nblc, Nat.add_mod_right]
      exact grown.even
    · show u.allocs = growths (u.nblc + 2)
      rw [nblc]
      exact allocs

theorem Grown.takeByte {c : UInt8} (grown : Grown s)
    (run : takeByte granted parseNetblock white s c = .ok t) : Grown t := by
  unfold SpamdSetup.takeByte at run
  by_cases ends : c = newline
  · rw [if_pos ends] at run
    obtain ⟨u, ended, run⟩ := bind_eq_ok.1 run
    cases run
    obtain ⟨even, allocs, nbls⟩ := grown.endLine ended
    exact ⟨even, allocs, nbls⟩
  · rw [if_neg ends] at run
    by_cases full : s.lb = spamdLineMax
    · rw [if_pos full] at run
      cases run
    · rw [if_neg full] at run
      obtain ⟨line, -, run⟩ := bind_eq_ok.1 run
      cases run
      exact ⟨grown.even, grown.allocs, grown.nbls⟩

theorem Grown.takeRead {data : List UInt8} (grown : Grown s)
    (run : takeRead granted parseNetblock white s data = .ok t) : Grown t := by
  obtain ⟨rbuf, -, run⟩ := bind_eq_ok.1 run
  by_cases large : spamdFeedMax - s.total < data.length
  · rw [if_pos large] at run
    cases run
  · rw [if_neg large] at run
    have preserved (s : Stream Bl) (c : UInt8) (t : Stream Bl) (grown : Grown s)
        (run : SpamdSetup.takeByte granted parseNetblock white s c = .ok t) : Grown t :=
      grown.takeByte run
    have started : Grown { s with rbuf := rbuf, total := s.total + data.length } :=
      ⟨grown.even, grown.allocs, grown.nbls⟩
    exact foldlM_invariant preserved started run

theorem Grown.readLoop (grown : Grown s) {reads : List Read}
    (run : readLoop granted parseNetblock white s reads = .ok t) : Grown t := by
  induction reads generalizing s with
  | nil =>
    cases run
    exact grown
  | cons read reads ih =>
    rcases read with errno | data
    · cases run
    · cases data with
      | nil =>
        cases run
        exact grown
      | cons c cs =>
        obtain ⟨u, taken, run⟩ := bind_eq_ok.1 run
        exact ih (grown.takeRead taken) run

theorem grown_parse {reads : List Read} (run : parse granted parseNetblock white reads = .ok s) :
    Grown s := by
  obtain ⟨u, loop, run⟩ := bind_eq_ok.1 run
  have none : 0 = growths 0 := by decide
  have start : Grown (Stream.start : Stream Bl) := ⟨rfl, none, rfl⟩
  have grown := start.readLoop loop
  by_cases unfinished : u.lb ≠ 0
  · rw [if_pos unfinished] at run
    exact grown.endLine run
  · rw [if_neg unfinished] at run
    cases run
    exact grown

end Growth

section Delivered

variable (parseNetblock : List UInt8 → Int → Option (Bl × Bl)) (white : Int)
variable {s t : Stream Bl} {line : List UInt8} {pairs : List Bl}

theorem reset_short (short : line.length ≤ spamdLineMax) :
    ∀ l ∈ linesFrom line [], l.length ≤ spamdLineMax := by
  intro l member
  by_cases empty : line = []
  · rw [linesFrom, if_pos empty] at member
    cases member
  · rw [linesFrom, if_neg empty, List.mem_singleton] at member
    rw [member]
    exact short

/-- Bytes that have been taken belong to lines that are not too long. -/
theorem Streams.takeBytes_ok {data : List UInt8} (streams : Streams s line pairs)
    (run : data.foldlM (SpamdSetup.takeByte all parseNetblock white) s = .ok t) :
    ∃ line' pairs', Streams t line' pairs' ∧ t.total = s.total ∧
      ∀ rest, (∀ l ∈ linesFrom line' rest, l.length ≤ spamdLineMax) →
        ∀ l ∈ linesFrom line (data ++ rest), l.length ≤ spamdLineMax := by
  induction data generalizing s line pairs with
  | nil =>
    cases run
    exact ⟨line, pairs, streams, rfl, fun rest short => short⟩
  | cons c data ih =>
    obtain ⟨u, taken, run⟩ := bind_eq_ok.1 run
    by_cases ends : c = newline
    · obtain ⟨v, ended, streamsV, totalV⟩ := streams.endLine parseNetblock white fun _ => rfl
      rw [SpamdSetup.takeByte, if_pos ends, ended] at taken
      cases taken
      obtain ⟨line', pairs', streams', total, short⟩ := ih streamsV run
      refine ⟨line', pairs', streams', total.trans totalV, fun rest tail => ?_⟩
      rw [List.cons_append, linesFrom, if_pos ends]
      exact List.forall_mem_cons.2 ⟨streams.short, short rest tail⟩
    · have room : line.length < spamdLineMax := by
        have notFull : s.lb ≠ spamdLineMax := by
          intro full
          rw [SpamdSetup.takeByte, if_neg ends, if_pos full] at taken
          cases taken
        have := streams.short
        have := streams.lb
        omega
      obtain ⟨v, taken', streamsV, totalV⟩ :=
        streams.takeByte parseNetblock white all ends room
      rw [taken'] at taken
      cases taken
      obtain ⟨line', pairs', streams', total, short⟩ := ih streamsV run
      refine ⟨line', pairs', streams', total.trans totalV, fun rest tail => ?_⟩
      rw [List.cons_append, linesFrom, if_neg ends]
      exact short rest tail

/-- A feed that has been read to its end was within the limits. -/
theorem Streams.readLoop_ok {reads : List Read} (streams : Streams s line pairs)
    (small : s.total ≤ spamdFeedMax)
    (run : SpamdSetup.readLoop all parseNetblock white s reads = .ok t) :
    ∃ pieces, fed reads = some pieces ∧ (∀ data ∈ pieces, data.length ≤ spamdLineMax) ∧
      s.total + pieces.flatten.length ≤ spamdFeedMax ∧
      ∀ l ∈ linesFrom line pieces.flatten, l.length ≤ spamdLineMax := by
  induction reads generalizing s line pairs with
  | nil => exact ⟨[], rfl, by simp, small, reset_short streams.short⟩
  | cons read reads ih =>
    rcases read with errno | data
    · cases run
    · cases data with
      | nil => exact ⟨[], rfl, by simp, small, reset_short streams.short⟩
      | cons c cs =>
        obtain ⟨u, taken, run⟩ := bind_eq_ok.1 run
        obtain ⟨rbuf, copied, taken⟩ := bind_eq_ok.1 taken
        have fits : (c :: cs).length ≤ spamdLineMax := by
          by_contra large
          rw [copy, if_neg (by rw [streams.rbuf, List.length_map]; omega)] at copied
          cases copied
        by_cases large : spamdFeedMax - s.total < (c :: cs).length
        · rw [if_pos large] at taken
          cases taken
        · rw [if_neg large] at taken
          obtain ⟨rbuf', copied', size, -⟩ := (holds_nil (b := s.rbuf)).copy (c :: cs)
            (by rw [streams.rbuf, List.length_nil]; omega)
          have same : rbuf = rbuf' := by
            rw [show copy s.rbuf 0 ((c :: cs).map some) = some rbuf' from copied'] at copied
            exact (Except.ok.inj copied).symm
          have streamsRead : Streams
              { s with rbuf := rbuf, total := s.total + (c :: cs).length } line pairs :=
            { streams with rbuf := by rw [same]; exact size.trans streams.rbuf }
          obtain ⟨line', pairs', streamsU, total, short⟩ :=
            streamsRead.takeBytes_ok parseNetblock white taken
          have total : u.total = s.total + (c :: cs).length := total
          obtain ⟨pieces, rest, fit, smallRest, shortRest⟩ := ih streamsU (by omega) run
          refine ⟨(c :: cs) :: pieces, by rw [fed, rest]; rfl, ?_, ?_, ?_⟩
          · exact List.forall_mem_cons.2 ⟨fits, fit⟩
          · rw [List.flatten_cons, List.length_append]
            omega
          · rw [List.flatten_cons]
            exact short _ shortRest

theorem fed_ne_nil {reads : List Read} {pieces : List (List UInt8)} (eq : fed reads = some pieces) :
    ∀ data ∈ pieces, data ≠ [] := by
  induction reads generalizing pieces with
  | nil =>
    cases eq
    simp
  | cons read reads ih =>
    rcases read with errno | data
    · cases eq
    · cases data with
      | nil =>
        cases eq
        simp
      | cons c cs =>
        obtain ⟨rest, later, rfl⟩ := Option.map_eq_some_iff.1 eq
        exact List.forall_mem_cons.2 ⟨List.cons_ne_nil c cs, ih later⟩

/-- Only the reads before the end of the feed matter. -/
theorem readLoop_fed (granted : Nat → Bool) {reads : List Read} {pieces : List (List UInt8)}
    (eq : fed reads = some pieces) (s : Stream Bl) :
    readLoop granted parseNetblock white s reads
      = readLoop granted parseNetblock white s (pieces.map .ok) := by
  induction reads generalizing pieces s with
  | nil =>
    cases eq
    rfl
  | cons read reads ih =>
    rcases read with errno | data
    · cases eq
    · cases data with
      | nil =>
        cases eq
        rfl
      | cons c cs =>
        obtain ⟨rest, later, rfl⟩ := Option.map_eq_some_iff.1 eq
        rw [List.map_cons, readLoop, readLoop]
        exact congrArg _ (funext fun t => ih later t)

/-- Where nothing is refused, a feed that gets to the hand-over came to its end. -/
theorem delivers_of_parse {reads : List Read} (run : parse all parseNetblock white reads = .ok s) :
    ∃ feed, Delivers reads feed := by
  obtain ⟨u, loop, -⟩ := bind_eq_ok.1 run
  obtain ⟨pieces, eq, fits, small, short⟩ :=
    streams_start.readLoop_ok parseNetblock white (Nat.zero_le _) loop
  exact ⟨pieces.flatten, ⟨pieces, eq, rfl, fits⟩,
    by rwa [show (Stream.start : Stream Bl).total = 0 from rfl, Nat.zero_add] at small, short⟩

/-- A feed that comes to its end gets to the hand-over, with what it says. -/
theorem Delivers.parse {reads : List Read} {feed : List UInt8} (delivers : Delivers reads feed) :
    ∃ s, SpamdSetup.parse all parseNetblock white reads = .ok s ∧
      Streams { s with lb := 0 } [] (blocks parseNetblock white (feedLines feed)) := by
  obtain ⟨⟨pieces, eq, rfl, fits⟩, small, short⟩ := delivers
  have grants : ∀ k, all k = true := fun _ => rfl
  obtain ⟨s, parsed, streams, -⟩ :=
    parse_appends parseNetblock white grants pieces (fed_ne_nil eq) fits small short
  refine ⟨s, ?_, streams⟩
  rw [SpamdSetup.parse, readLoop_fed parseNetblock white all eq]
  exact parsed

end Delivered

/-- How far a feed gets: the state that is handed over, or none. -/
theorem parse_ok (granted : Nat → Bool) (parseNetblock : List UInt8 → Int → Option (Bl × Bl))
    (white : Int) {reads : List Read} {s : Stream Bl}
    (run : parse granted parseNetblock white reads = .ok s) :
    ∃ feed, Delivers reads feed ∧
      s.nblc = (blocks parseNetblock white (feedLines feed)).length ∧
      s.allocs = growths s.nblc ∧ ∀ k < s.allocs, granted k = true := by
  obtain ⟨free, grants⟩ := ((follows_parse parseNetblock white reads).ok_iff granted s).1 run
  obtain ⟨feed, delivers⟩ := delivers_of_parse parseNetblock white free
  obtain ⟨t, parsed, streams⟩ := delivers.parse parseNetblock white
  rw [parsed] at free
  cases free
  exact ⟨feed, delivers, streams.nblc, (grown_parse run).allocs,
    fun k less => grants k k.zero_le less⟩

theorem Delivers.parse_granted {granted : Nat → Bool}
    (parseNetblock : List UInt8 → Int → Option (Bl × Bl)) (white : Int) {reads : List Read}
    {feed : List UInt8} (delivers : Delivers reads feed)
    (grants : ∀ k < growths (blocks parseNetblock white (feedLines feed)).length,
      granted k = true) :
    ∃ s, SpamdSetup.parse granted parseNetblock white reads = .ok s ∧
      s.nblc = (blocks parseNetblock white (feedLines feed)).length ∧
      s.allocs = growths s.nblc := by
  obtain ⟨s, parsed, streams⟩ := delivers.parse parseNetblock white
  have nblc : s.nblc = (blocks parseNetblock white (feedLines feed)).length := streams.nblc
  have allocs := (grown_parse parsed).allocs
  rw [← nblc, ← allocs] at grants
  exact ⟨s, ((follows_parse parseNetblock white reads).ok_iff granted s).2
    ⟨parsed, fun k _ less => grants k less⟩, nblc, allocs⟩

/-- A hand-over returns `NULL` where it has nothing to append to a `NULL` list, and where the
caller's list is too small and is not given more, with `*bls` raised. -/
theorem handOver_null {granted : Nat → Bool} {caller : Caller Bl} {s : Stream Bl}
    {out : Outcome Bl} (run : handOver granted caller s = some out) (null : out.null = true) :
    out.caller = caller ∨
      s.nblc ≠ 0 ∧ caller.bls < caller.blc + s.nblc ∧ granted s.allocs = false := by
  unfold handOver at run
  by_cases none : s.nblc = 0
  · simp only [if_pos none] at run
    cases run
    exact .inl rfl
  · simp only [if_neg none] at run
    by_cases full : caller.bls < caller.blc + s.nblc
    · simp only [if_pos full] at run
      cases grants : granted s.allocs with
      | false => exact .inr ⟨none, full, rfl⟩
      | true =>
        rw [if_pos grants] at run
        obtain ⟨bl, -, rfl⟩ := Option.map_eq_some_iff.1 run
        cases null
    · simp only [if_neg full] at run
      obtain ⟨bl, -, rfl⟩ := Option.map_eq_some_iff.1 run
      cases null

/-- **A failing call and the caller's list.** When the patched function returns `NULL`, the
caller's list, its count and its capacity are as before, if and only if it has not got as far as
the hand-over with a list that is too small and is not given more. -/
theorem null_unchanged_iff (granted : Nat → Bool)
    (parseNetblock : List UInt8 → Int → Option (Bl × Bl)) (white : Int) (caller : Caller Bl)
    (reads : List Read) :
    (∀ out, addBlacklist granted parseNetblock white caller reads = some out → out.null = true →
        out.caller = caller) ↔
      ¬ ∃ feed, HandOverFails granted parseNetblock white caller reads feed := by
  constructor
  · rintro unchanged ⟨feed, fails⟩
    obtain ⟨s, parsed, nblc, allocs⟩ :=
      fails.delivers.parse_granted parseNetblock white fails.grown
    have some : s.nblc ≠ 0 := by
      rw [nblc]
      exact fun none => fails.pairs (List.eq_nil_of_length_eq_zero none)
    have exceeds := fails.exceeds
    have refused := fails.refused
    rw [← nblc] at exceeds refused
    rw [← allocs] at refused
    have kept := unchanged ⟨{ caller with bls := caller.blc + s.nblc }, Option.some enomem, true⟩
      (by
        rw [addBlacklist_eq, parsed]
        simp only [handOver, if_neg some, if_pos exceeds, refused, Bool.false_eq_true, if_false])
      rfl
    have same : caller.blc + s.nblc = caller.bls := congrArg Caller.bls kept
    omega
  · intro none out run null
    rw [addBlacklist_eq] at run
    cases parsed : SpamdSetup.parse granted parseNetblock white reads with
    | ok s =>
      rw [parsed] at run
      obtain kept | ⟨some, exceeds, refused⟩ := handOver_null run null
      · exact kept
      obtain ⟨feed, delivers, nblc, allocs, grants⟩ := parse_ok granted parseNetblock white parsed
      rw [allocs] at refused grants
      rw [nblc] at some exceeds refused grants
      have found : blocks parseNetblock white (feedLines feed) ≠ [] := by
        intro empty
        exact some (by rw [empty]; rfl)
      exact absurd ⟨feed, delivers, found, exceeds, grants, refused⟩ none
    | error stop =>
      rw [parsed] at run
      cases stop with
      | outOfRange => cases run
      | bldone serrno =>
        by_cases zero : serrno = 0
        · simp only [if_pos zero] at run
          cases run
          rfl
        · simp only [if_neg zero] at run
          cases run
          rfl

/-- One line, an empty list, and memory for the function's own list only: the capacity becomes 2. -/
theorem capacity_raised :
    ¬ ∀ out, addBlacklist (fun k => k == 0) firstByte 0 ⟨none, 0, 0⟩ [.ok [97, 10]] = some out →
      out.null = true → out.caller = ⟨none, 0, 0⟩ := by
  intro unchanged
  have raised := unchanged ⟨⟨none, 0, 2⟩, some enomem, true⟩ (by decide +kernel) rfl
  cases raised

end SecurityAudits.OpenbsdLibexec.SpamdSetup
