import SecurityAudits.Lib.Memory
import SecurityAudits.Lib.Run

/-!
# The blocked streams of the QPACK decoder

A stream whose header block refers to inserts that have not arrived is appended to a vector. When
inserts arrive, the leading streams that no longer wait are reported to the caller; they stay in
the vector, counted by `num_unblocked`, until the next call of `h2o_qpack_decoder_handle_input`
removes them by moving the others to the front.

`History` adds which streams were ever blocked and reported. `Tracks` says that the vector is the
prefix reported last and then what was blocked and not reported, in order; every call keeps it.
-/

namespace SecurityAudits.H2o.QpackDecoder
set_option autoImplicit false
open SecurityAudits.Memory SecurityAudits.Run

/-- An entry of `blocked_streams.list`. -/
structure Entry where
  streamId : Int
  largestRef : Int
  deriving DecidableEq

/-- `blocked_streams`, with the cells that are allocated for the vector, and the number of
inserts into the dynamic table so far. -/
structure Decoder where
  entries : Buffer Entry
  size : Nat
  numUnblocked : Nat
  totalInserts : Int
  deriving DecidableEq

/-- The elements of the vector. -/
def Decoder.list (d : Decoder) : List (Option Entry) := d.entries.take d.size

/-- `h2o_vector_reserve` for one more entry; `slack` is how much more it reserves. -/
def reserve (slack : Nat → Nat) (d : Decoder) : Decoder :=
  if d.entries.length ≤ d.size then
    { d with entries := grow d.entries (d.size + 1 + slack d.size) }
  else d

/-- A stream is appended to the vector. -/
def decoderLinkBlocked (slack : Nat → Nat) (d : Decoder) (streamId largestRef : Int) :
    Option Decoder :=
  let d := reserve slack d
  (store d.entries d.size ⟨streamId, largestRef⟩).map fun entries =>
    { d with entries := entries, size := d.size + 1 }

/-- The removal of the streams reported last. -/
def removeUnblocked (d : Decoder) : Option Decoder :=
  if d.numUnblocked ≠ 0 then
    let remaining := d.size - d.numUnblocked
    let moved := if remaining ≠ 0 then move d.entries 0 d.numUnblocked remaining else some d.entries
    moved.map fun entries => { d with entries := entries, size := remaining, numUnblocked := 0 }
  else some d

/-- The leading entries that no longer wait for an insert; an entry that was never written has
no value. -/
def unblocked (totalInserts : Int) : List (Option Entry) → Option (List Entry)
  | [] => some []
  | none :: _ => none
  | some e :: cells =>
    if e.largestRef < totalInserts then (unblocked totalInserts cells).map (e :: ·) else some []

/-- `h2o_qpack_decoder_handle_input` on input with `inserts` inserts, and the streams it
reports. -/
def handleInput (d : Decoder) (inserts : Nat) : Option (Decoder × List Entry) :=
  (removeUnblocked d).bind fun d =>
    let total := d.totalInserts + inserts
    (unblocked total d.list).map fun ready =>
      ({ d with totalInserts := total, numUnblocked := ready.length }, ready)

/-- The two kinds of calls: a header block that has to wait, and input from the encoder. -/
inductive Call where
  | block (streamId largestRef : Int)
  | input (inserts : Nat)

/-- The decoder, the streams that were blocked and those that were reported, in order. -/
structure History where
  decoder : Decoder
  blocked : List Entry
  reported : List Entry

def History.start : History := ⟨⟨[], 0, 0, 0⟩, [], []⟩

def step (slack : Nat → Nat) (h : History) : Call → Option History
  | .block streamId largestRef =>
    (decoderLinkBlocked slack h.decoder streamId largestRef).map fun d =>
      { h with decoder := d, blocked := h.blocked ++ [⟨streamId, largestRef⟩] }
  | .input inserts =>
    (handleInput h.decoder inserts).map fun (d, ready) =>
      { h with decoder := d, reported := h.reported ++ ready }

/-- The vector is the prefix reported last, and `pending` behind it. -/
structure Vector (d : Decoder) (reported pending : List Entry) : Prop where
  held : Holds d.entries (reported ++ pending)
  size : d.size = (reported ++ pending).length
  numUnblocked : d.numUnblocked = reported.length

/-- What was blocked is what was reported and then what is pending. -/
structure Tracks (h : History) (last pending : List Entry) : Prop where
  vector : Vector h.decoder last pending
  recent : last <:+ h.reported
  blocked : h.blocked = h.reported ++ pending

variable {d : Decoder} {reported pending : List Entry} {h : History}

theorem Vector.list (vector : Vector d reported pending) :
    d.list = (reported ++ pending).map some := by
  rw [Decoder.list, vector.size]
  exact vector.held.take

theorem tracks_start : Tracks History.start [] [] :=
  ⟨⟨holds_nil, rfl, rfl⟩, List.suffix_rfl, rfl⟩

/-- Compaction keeps what is behind the prefix. -/
theorem Vector.removeUnblocked (vector : Vector d reported pending) :
    ∃ d', removeUnblocked d = some d' ∧ Vector d' [] pending := by
  unfold QpackDecoder.removeUnblocked
  have remaining : d.size - d.numUnblocked = pending.length := by
    rw [vector.size, vector.numUnblocked, List.length_append, Nat.add_sub_cancel_left]
  by_cases none : d.numUnblocked = 0
  · have empty : reported = [] := List.length_eq_zero_iff.1 (vector.numUnblocked.symm.trans none)
    rw [if_neg (not_not.2 none)]
    refine ⟨d, rfl, ?_, ?_, ?_⟩
    · simpa [empty] using vector.held
    · simpa [empty] using vector.size
    · simpa [empty] using vector.numUnblocked
  · rw [if_pos none]
    simp only [remaining]
    by_cases last : pending = []
    · subst last
      exact ⟨_, rfl, holds_nil, rfl, rfl⟩
    · obtain ⟨entries, moved, -, held⟩ := vector.held.move reported
      rw [← vector.numUnblocked] at moved
      rw [if_pos (mt List.length_eq_zero_iff.1 last), moved]
      exact ⟨_, rfl, held, rfl, rfl⟩

/-- The entries that no longer wait are at the front of those that did. -/
theorem unblocked_map (totalInserts : Int) (pending : List Entry) :
    ∃ ready waiting, unblocked totalInserts (pending.map some) = some ready ∧
      pending = ready ++ waiting := by
  induction pending with
  | nil => exact ⟨[], [], rfl, rfl⟩
  | cons e pending ih =>
    rw [List.map_cons, unblocked]
    by_cases arrived : e.largestRef < totalInserts
    · obtain ⟨ready, waiting, run, split⟩ := ih
      exact ⟨e :: ready, waiting, by rw [if_pos arrived, run]; rfl, by rw [split]; rfl⟩
    · exact ⟨[], e :: pending, by rw [if_neg arrived], rfl⟩

/-- When the streams were blocked in the order of their inserts, those reported are all that no
longer wait. -/
theorem unblocked_ordered (totalInserts : Int) (pending : List Entry)
    (ordered : pending.Pairwise fun e later => e.largestRef ≤ later.largestRef) :
    unblocked totalInserts (pending.map some)
      = some (pending.filter fun e => e.largestRef < totalInserts) := by
  induction pending with
  | nil => rfl
  | cons e pending ih =>
    obtain ⟨first, ordered⟩ := List.pairwise_cons.1 ordered
    rw [List.map_cons, unblocked]
    by_cases arrived : e.largestRef < totalInserts
    · rw [if_pos arrived, ih ordered, List.filter_cons_of_pos (by simpa using arrived)]
      rfl
    · have wait : ∀ later ∈ e :: pending, ¬ later.largestRef < totalInserts := by
        intro later member
        rcases List.mem_cons.1 member with rfl | member
        · exact arrived
        · have := first later member
          omega
      rw [if_neg arrived,
        List.filter_eq_nil_iff.2 fun later member => by simpa using wait later member]

theorem Vector.handleInput (vector : Vector d reported pending) (inserts : Nat) :
    ∃ d' ready waiting, handleInput d inserts = some (d', ready) ∧ pending = ready ++ waiting ∧
      Vector d' ready waiting := by
  obtain ⟨m, removed, kept⟩ := vector.removeUnblocked
  obtain ⟨ready, waiting, run, rfl⟩ := unblocked_map (m.totalInserts + inserts) pending
  have list : m.list = (ready ++ waiting).map some := kept.list
  refine ⟨{ m with
    totalInserts := m.totalInserts + inserts, numUnblocked := ready.length }, ready, waiting, ?_,
    rfl, kept.held, kept.size, rfl⟩
  rw [QpackDecoder.handleInput, removed, Option.bind_some]
  simp only [list, run, Option.map_some]

/-- There is a cell behind the vector. -/
theorem Vector.reserve (vector : Vector d reported pending) (slack : Nat → Nat) :
    Vector (reserve slack d) reported pending ∧ d.size < (reserve slack d).entries.length := by
  unfold QpackDecoder.reserve
  by_cases full : d.entries.length ≤ d.size
  · rw [if_pos full]
    obtain ⟨held, length⟩ := vector.held.grow (n := d.size + 1 + slack d.size) (by omega)
    exact ⟨⟨held, vector.size, vector.numUnblocked⟩, by rw [length]; omega⟩
  · rw [if_neg full]
    exact ⟨vector, Nat.lt_of_not_le full⟩

theorem Vector.link (vector : Vector d reported pending) (slack : Nat → Nat)
    (streamId largestRef : Int) :
    ∃ d', decoderLinkBlocked slack d streamId largestRef = some d' ∧
      Vector d' reported (pending ++ [⟨streamId, largestRef⟩]) := by
  obtain ⟨roomy, room⟩ := vector.reserve slack
  generalize reserved : QpackDecoder.reserve slack d = m at roomy room
  rw [vector.size] at room
  obtain ⟨entries, stored, -, held⟩ := roomy.held.store ⟨streamId, largestRef⟩ room
  rw [← roomy.size] at stored
  refine ⟨{ m with entries := entries, size := m.size + 1 }, ?_, ?_, ?_, roomy.numUnblocked⟩
  · rw [decoderLinkBlocked, reserved]
    simp only [stored, Option.map_some]
  · rw [← List.append_assoc]
    exact held
  · rw [← List.append_assoc, List.length_append, ← roomy.size]
    rfl

/-- What holds of the decoder in every state of a run. -/
theorem step_tracks (slack : Nat → Nat) (call : Call)
    (tracks : ∃ last pending, Tracks h last pending) :
    ∃ h', step slack h call = some h' ∧ ∃ last pending, Tracks h' last pending := by
  obtain ⟨last, pending, tracks⟩ := tracks
  cases call with
  | block streamId largestRef =>
    obtain ⟨d, linked, vector⟩ := tracks.vector.link slack streamId largestRef
    refine ⟨⟨d, h.blocked ++ [⟨streamId, largestRef⟩], h.reported⟩, by rw [step, linked]; rfl,
      last, _, vector, tracks.recent, ?_⟩
    rw [tracks.blocked, List.append_assoc]
  | input inserts =>
    obtain ⟨d, ready, waiting, handled, rfl, vector⟩ := tracks.vector.handleInput inserts
    refine ⟨⟨d, h.blocked, h.reported ++ ready⟩, by rw [step, handled]; rfl, ready, waiting,
      vector, List.suffix_append _ _, ?_⟩
    rw [tracks.blocked, List.append_assoc]

/-- **The blocked streams**: in every run the vector is the streams reported last and, behind
them, the streams that were blocked and not reported, in the order in which they were blocked;
the blocked streams are those reported, each once and in that order, and these. The next
compaction leaves the vector without the reported prefix and moves entries of the vector only. -/
theorem blocked_streams (slack : Nat → Nat) (calls : List Call) :
    ∃ h, exec (step slack) History.start calls = some h ∧
      ∃ last pending, h.decoder.list = (last ++ pending).map some ∧
        h.decoder.numUnblocked = last.length ∧ last <:+ h.reported ∧
        h.blocked = h.reported ++ pending ∧
        h.decoder.numUnblocked + (h.decoder.size - h.decoder.numUnblocked) = h.decoder.size ∧
        h.decoder.size ≤ h.decoder.entries.length ∧
        ∃ d, removeUnblocked h.decoder = some d ∧
          d.list = h.decoder.list.drop h.decoder.numUnblocked ∧ d.numUnblocked = 0 := by
  obtain ⟨h, run, last, pending, tracks⟩ := exec_total (fun h call => step_tracks slack call)
    ⟨[], [], tracks_start⟩ calls
  obtain ⟨d, removed, kept⟩ := tracks.vector.removeUnblocked
  refine ⟨h, run, last, pending, tracks.vector.list, tracks.vector.numUnblocked, tracks.recent,
    tracks.blocked, ?_, ?_, d, removed, ?_, kept.numUnblocked⟩
  · rw [tracks.vector.size, tracks.vector.numUnblocked, List.length_append]
    omega
  · rw [tracks.vector.size]
    exact tracks.vector.held.length_le
  · rw [kept.list, tracks.vector.list, tracks.vector.numUnblocked, ← List.map_drop,
      List.drop_left]
    rfl

end SecurityAudits.H2o.QpackDecoder
