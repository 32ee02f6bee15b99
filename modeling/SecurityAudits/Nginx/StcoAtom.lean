import SecurityAudits.Lib.BigEndian
import Mathlib.Data.List.Forall2

/-!
# Moving the chunk offsets of an MP4

When `ngx_http_mp4_process` has cut a file, every chunk lies `adjustment` bytes from where the tables of
the tracks say. Its last loop goes through the tracks and rewrites the tables, those of 64-bit offsets
with `ngx_http_mp4_adjust_co64_atom`, which is a parameter, and those of 32-bit offsets, in place, with
`ngx_http_mp4_adjust_stco_atom`.

A table is the bytes from `data->pos` to `data->last`. No result stands for what C leaves undefined: a
read past `data->last`, or an `off_t` that overflows.
-/

namespace SecurityAudits.Nginx.StcoAtom
set_option autoImplicit false
open SecurityAudits.CString SecurityAudits.BigEndian

/-! ## The code -/

inductive Rc where
  | ok
  | error
  deriving DecidableEq, Repr

def maxUint32Value : Int := 0xffffffff

/-- The values of `off_t` -/
def IsOffT (n : Int) : Prop := -2 ^ 63 ≤ n ∧ n < 2 ^ 63

instance (n : Int) : Decidable (IsOffT n) := inferInstanceAs (Decidable (_ ∧ _))

/-- `ngx_http_mp4_adjust_stco_atom` from `entry` on -/
def adjustStcoAtom (adjustment : Int) : List UInt8 → Option (Rc × List UInt8)
  | [] => some (.ok, [])
  | a :: b :: c :: d :: entries =>
    let offset : Int := bigEndian [a, b, c, d] + adjustment
    if ¬ IsOffT offset then none
    else if offset < 0 ∨ offset > maxUint32Value then some (.error, a :: b :: c :: d :: entries)
    else do
      let (rc, adjusted) ← adjustStcoAtom adjustment entries
      return (rc, encode 4 offset.toNat ++ adjusted)
  | _ => none

/-- The table of a track, by the atom that it has -/
inductive Trak where
  | co64 (data : List UInt8)
  | stco (data : List UInt8)
  deriving DecidableEq, Repr

/-- The last loop of `ngx_http_mp4_process` -/
def process (adjustCo64Atom : Int → List UInt8 → List UInt8) (adjustment : Int) :
    List Trak → Option (Rc × List Trak)
  | [] => some (.ok, [])
  | .co64 data :: traks => do
    let (rc, adjusted) ← process adjustCo64Atom adjustment traks
    return (rc, .co64 (adjustCo64Atom adjustment data) :: adjusted)
  | .stco data :: traks => do
    let (rc, moved) ← adjustStcoAtom adjustment data
    match rc with
    | .error => return (.error, .stco moved :: traks)
    | .ok =>
      let (rc, adjusted) ← process adjustCo64Atom adjustment traks
      return (rc, .stco moved :: adjusted)

/-! ## Tables as the offsets in them -/

/-- The bytes of a table -/
def table (offsets : List Nat) : List UInt8 := offsets.flatMap (encode 4)

def offsets : List UInt8 → List Nat
  | a :: b :: c :: d :: entries => bigEndian [a, b, c, d] :: offsets entries
  | _ => []

/-- The offset is in the file's first 4 GiB, where a table can say it is, also after the move. -/
def Fits (adjustment : Int) (offset : Nat) : Prop :=
  0 ≤ offset + adjustment ∧ offset + adjustment ≤ maxUint32Value

instance (adjustment : Int) (offset : Nat) : Decidable (Fits adjustment offset) :=
  inferInstanceAs (Decidable (_ ∧ _))

def moveBy (adjustment : Int) (offset : Nat) : Nat := (offset + adjustment).toNat

/-- What the loop does to the offsets: it moves them up to the first that would not fit. -/
def shift (adjustment : Int) : List Nat → Rc × List Nat
  | [] => (.ok, [])
  | o :: os =>
    if Fits adjustment o then
      ((shift adjustment os).1, moveBy adjustment o :: (shift adjustment os).2)
    else (.error, o :: os)

/-- Every offset is one of a table. -/
def Stored (os : List Nat) : Prop := ∀ o ∈ os, o < 256 ^ 4

variable {adjustment : Int} {data : List UInt8} {os : List Nat} {o : Nat}

theorem offsets_table (stored : Stored os) : offsets (table os) = os := by
  induction os with
  | nil => rfl
  | cons o os ih =>
    obtain ⟨small, stored⟩ := List.forall_mem_cons.1 stored
    have entry := bigEndian_encode_of_lt small
    exact congrArg₂ _ entry (ih stored)

/-- Every table of whole entries is the table of its offsets. -/
theorem table_offsets (whole : data.length % 4 = 0) :
    table (offsets data) = data ∧ Stored (offsets data) := by
  fun_induction offsets data with
  | case1 a b c d entries ih =>
    have rest : entries.length % 4 = 0 := by
      simp only [List.length_cons] at whole
      omega
    obtain ⟨bytes, stored⟩ := ih rest
    refine ⟨?_, List.forall_mem_cons.2 ⟨bigEndian_lt [a, b, c, d], stored⟩⟩
    exact congrArg₂ (· ++ ·) (encode_bigEndian [a, b, c, d]) bytes
  | case2 short notFour =>
    match short, notFour, whole with
    | [], _, _ => exact ⟨rfl, by simp [Stored]⟩
    | [_], _, whole => simp at whole
    | [_, _], _, whole => simp at whole
    | [_, _, _], _, whole => simp at whole
    | a :: b :: c :: d :: entries, notFour, _ => exact absurd rfl (notFour a b c d entries)

theorem length_table (os : List Nat) : (table os).length = 4 * os.length := by
  induction os with
  | nil => rfl
  | cons o os ih =>
    have bytes : table (o :: os) = encode 4 o ++ table os := rfl
    rw [bytes, List.length_append, length_encode, ih, List.length_cons]
    omega

/-- No sum of the loop overflows. -/
def Small (adjustment : Int) : Prop := -2 ^ 63 ≤ adjustment ∧ adjustment + maxUint32Value < 2 ^ 63

theorem Small.isOffT (small : Small adjustment) (stored : o < 256 ^ 4) : IsOffT (o + adjustment) := by
  have bound : (o : Int) ≤ maxUint32Value := by
    unfold maxUint32Value
    omega
  exact ⟨by have := small.1; omega, by have := small.2; omega⟩

theorem moveBy_stored (fits : Fits adjustment o) : moveBy adjustment o < 256 ^ 4 := by
  have upper := fits.2
  unfold maxUint32Value at upper
  unfold moveBy
  omega

theorem moveBy_eq (fits : Fits adjustment o) : (moveBy adjustment o : Int) = o + adjustment :=
  Int.toNat_of_nonneg fits.1

/-- On the table of some offsets the code does what `shift` does to these. -/
theorem adjustStcoAtom_table (small : Small adjustment) (stored : Stored os) :
    adjustStcoAtom adjustment (table os) =
      some ((shift adjustment os).1, table (shift adjustment os).2) := by
  induction os with
  | nil => rfl
  | cons o os ih =>
    obtain ⟨here, stored⟩ := List.forall_mem_cons.1 stored
    have entry := bigEndian_encode_of_lt here
    have bytes : table (o :: os) = encode 4 o ++ table os := rfl
    rw [bytes, shift]
    simp only [encode, List.cons_append, List.nil_append] at entry ⊢
    rw [adjustStcoAtom, entry]
    dsimp only
    rw [if_neg (not_not_intro (small.isOffT here))]
    by_cases fits : Fits adjustment o
    · have inside : ¬ (o + adjustment < 0 ∨ o + adjustment > maxUint32Value) := by
        rw [not_or, not_lt, not_lt]
        exact fits
      rw [if_pos fits, if_neg inside, ih stored]
      rfl
    · have outside : o + adjustment < 0 ∨ o + adjustment > maxUint32Value := by
        by_contra inside
        rw [not_or, not_lt, not_lt] at inside
        exact fits inside
      rw [if_neg fits, if_pos outside]
      rfl

/-! ## What has moved -/

/-- Each offset has moved by the adjustment, none wrapped. -/
def Moved (adjustment : Int) (os os' : List Nat) : Prop :=
  List.Forall₂ (fun o o' : Nat => (o' : Int) = o + adjustment) os os'

theorem length_shift (adjustment : Int) (os : List Nat) : (shift adjustment os).2.length = os.length := by
  induction os with
  | nil => rfl
  | cons o os ih =>
    rw [shift]
    split
    · exact congrArg (· + 1) ih
    · rfl

theorem shift_stored (stored : Stored os) : Stored (shift adjustment os).2 := by
  induction os with
  | nil => exact stored
  | cons o os ih =>
    obtain ⟨-, rest⟩ := List.forall_mem_cons.1 stored
    rw [shift]
    split
    next fits => exact List.forall_mem_cons.2 ⟨moveBy_stored fits, ih rest⟩
    · exact stored

theorem shift_ok_iff : (shift adjustment os).1 = .ok ↔ ∀ o ∈ os, Fits adjustment o := by
  induction os with
  | nil => exact iff_of_true rfl (by simp)
  | cons o os ih =>
    rw [List.forall_mem_cons, shift]
    by_cases fits : Fits adjustment o
    · rw [if_pos fits, ih]
      exact (and_iff_right fits).symm
    · rw [if_neg fits]
      exact iff_of_false (by simp) fun all => fits all.1

theorem shift_moved (ok : (shift adjustment os).1 = .ok) : Moved adjustment os (shift adjustment os).2 := by
  induction os with
  | nil => exact .nil
  | cons o os ih =>
    have fits := (shift_ok_iff.1 ok) o List.mem_cons_self
    rw [shift, if_pos fits] at ok ⊢
    exact .cons (moveBy_eq fits) (ih ok)

/-- The loop stops at the first offset that does not fit. -/
theorem shift_stopped (error : (shift adjustment os).1 = .error) :
    ∃ before o behind before', os = before ++ o :: behind ∧ ¬ Fits adjustment o ∧
      Moved adjustment before before' ∧ (shift adjustment os).2 = before' ++ o :: behind := by
  induction os with
  | nil => cases error
  | cons o os ih =>
    by_cases fits : Fits adjustment o
    · rw [shift, if_pos fits] at error ⊢
      obtain ⟨before, o', behind, before', rfl, wide, moved, after⟩ := ih error
      exact ⟨o :: before, o', behind, _, rfl, wide, .cons (moveBy_eq fits) moved, congrArg _ after⟩
    · rw [shift, if_neg fits]
      exact ⟨[], o, os, [], rfl, fits, .nil, rfl⟩

/-- Moving back is not stopped, and ends where it began. -/
theorem shift_back {os' : List Nat} (stored : Stored os) (moved : Moved adjustment os os') :
    shift (-adjustment) os' = (.ok, os) := by
  induction moved with
  | nil => rfl
  | @cons o o' os os' sum _ ih =>
    obtain ⟨here, rest⟩ := List.forall_mem_cons.1 stored
    have back : (o' : Int) + -adjustment = o := by omega
    have fits : Fits (-adjustment) o' := by
      unfold Fits maxUint32Value
      omega
    have ends : moveBy (-adjustment) o' = o := by
      rw [moveBy, back, Int.toNat_natCast]
    rw [shift, if_pos fits, ih rest, ends]

theorem Small.back (stored : Stored os) (ok : (shift adjustment os).1 = .ok) (small : Small adjustment) :
    os = [] ∨ Small (-adjustment) := by
  cases os with
  | nil => exact .inl rfl
  | cons o os =>
    have fits := (shift_ok_iff.1 ok) o List.mem_cons_self
    have here := stored o List.mem_cons_self
    unfold Fits maxUint32Value at fits
    unfold Small maxUint32Value at *
    exact .inr (by omega)

/-- What `ngx_http_mp4_adjust_stco_atom` makes of a table. -/
structure Adjusted (adjustment : Int) (data : List UInt8) (rc : Rc) (after : List UInt8) : Prop where
  length : after.length = data.length
  ok_iff : rc = .ok ↔ ∀ o ∈ offsets data, Fits adjustment o
  moved : rc = .ok → Moved adjustment (offsets data) (offsets after)
  /-- the offsets behind the one that does not fit are not touched -/
  stopped : rc = .error → ∃ before o behind before', offsets data = before ++ o :: behind ∧
    ¬ Fits adjustment o ∧ Moved adjustment before before' ∧ offsets after = before' ++ o :: behind
  back : rc = .ok → adjustStcoAtom (-adjustment) after = some (.ok, data)

theorem adjustStcoAtom_adjusted (small : Small adjustment) (whole : data.length % 4 = 0) :
    ∃ rc after, adjustStcoAtom adjustment data = some (rc, after) ∧ Adjusted adjustment data rc after := by
  obtain ⟨bytes, stored⟩ := table_offsets whole
  have run := adjustStcoAtom_table small stored
  have stored' : Stored (shift adjustment (offsets data)).2 := shift_stored stored
  have read := offsets_table stored'
  rw [bytes] at run
  refine ⟨_, _, run, ?_, shift_ok_iff, ?_, ?_, ?_⟩
  · conv_rhs => rw [← bytes]
    rw [length_table, length_table, length_shift]
  · rw [read]
    exact shift_moved
  · rw [read]
    exact shift_stopped
  · intro ok
    have back := shift_back stored (shift_moved ok)
    rcases small.back stored ok with none | small'
    · rw [none] at bytes ⊢
      rw [← bytes]
      rfl
    · rw [adjustStcoAtom_table small' stored', back, bytes]

/-! ## All tracks -/

variable {adjustCo64Atom : Int → List UInt8 → List UInt8} {traks : List Trak}

inductive TrakMoved (adjustCo64Atom : Int → List UInt8 → List UInt8) (adjustment : Int) :
    Trak → Trak → Prop where
  | co64 (data : List UInt8) :
      TrakMoved adjustCo64Atom adjustment (.co64 data) (.co64 (adjustCo64Atom adjustment data))
  | stco {data after : List UInt8} (adjusted : Adjusted adjustment data .ok after) :
      TrakMoved adjustCo64Atom adjustment (.stco data) (.stco after)

/-- What the loop over the tracks makes of them. -/
structure Processed (adjustCo64Atom : Int → List UInt8 → List UInt8) (adjustment : Int)
    (traks : List Trak) (rc : Rc) (after : List Trak) : Prop where
  ok_iff : rc = .ok ↔ ∀ data, .stco data ∈ traks → ∀ o ∈ offsets data, Fits adjustment o
  moved : rc = .ok → List.Forall₂ (TrakMoved adjustCo64Atom adjustment) traks after
  stopped : rc = .error → ∃ before data behind before' data',
    traks = before ++ .stco data :: behind ∧ after = before' ++ .stco data' :: behind ∧
      List.Forall₂ (TrakMoved adjustCo64Atom adjustment) before before' ∧
        Adjusted adjustment data .error data'

/-- A track that has moved, in front of tracks that have been processed. -/
theorem Processed.cons {trak trak' : Trak} {rc : Rc} {after : List Trak}
    (first : TrakMoved adjustCo64Atom adjustment trak trak')
    (rest : Processed adjustCo64Atom adjustment traks rc after) :
    Processed adjustCo64Atom adjustment (trak :: traks) rc (trak' :: after) where
  ok_iff := by
    rw [rest.ok_iff]
    refine ⟨fun fit data listed => ?_, fun fit data listed => fit data (List.mem_cons_of_mem _ listed)⟩
    rcases List.mem_cons.1 listed with rfl | listed
    · cases first with
      | stco adjusted => exact adjusted.ok_iff.1 rfl
    · exact fit data listed
  moved ok := .cons first (rest.moved ok)
  stopped error := by
    obtain ⟨before, data, behind, before', data', rfl, rfl, moved, adjusted⟩ := rest.stopped error
    exact ⟨trak :: before, data, behind, trak' :: before', data', rfl, rfl, .cons first moved, adjusted⟩

/-- **No chunk offset wraps.** When every table has whole entries, the loop ends: with success exactly
when every 32-bit offset fits after the move, all tables then saying where the chunks are and moving back
to what they were; and with an error at the first table that has an offset which does not fit. -/
theorem process_processed (adjustCo64Atom : Int → List UInt8 → List UInt8) (small : Small adjustment)
    (whole : ∀ data, .stco data ∈ traks → data.length % 4 = 0) :
    ∃ rc after, process adjustCo64Atom adjustment traks = some (rc, after) ∧
      Processed adjustCo64Atom adjustment traks rc after := by
  induction traks with
  | nil =>
    refine ⟨.ok, [], rfl, iff_of_true rfl ?_, fun _ => .nil, fun error => (by cases error)⟩
    simp
  | cons trak traks ih =>
    obtain ⟨rc, after, run, rest⟩ := ih fun data listed => whole data (List.mem_cons_of_mem _ listed)
    cases trak with
    | co64 data => exact ⟨rc, _, by rw [process, run]; rfl, rest.cons (.co64 data)⟩
    | stco data =>
      obtain ⟨rc', data', run', adjusted⟩ :=
        adjustStcoAtom_adjusted small (whole data List.mem_cons_self)
      cases rc' with
      | ok => exact ⟨rc, _, by rw [process, run', run]; rfl, rest.cons (.stco adjusted)⟩
      | error =>
        refine ⟨.error, _, by rw [process, run']; rfl, iff_of_false (by simp) fun fit => ?_, fun ok => ?_,
          fun _ => ⟨[], data, traks, [], data', rfl, rfl, .nil, adjusted⟩⟩
        · cases adjusted.ok_iff.2 (fit data List.mem_cons_self)
        · cases ok

/-- Two tracks, the second with a chunk just below 4 GiB. -/
def tracks : List Trak := [.stco [0, 0, 0, 40], .stco [0, 0, 1, 0, 0xff, 0xff, 0xff, 0xf8]]

theorem process_processed_tracks :
    process (fun _ data => data) 16 tracks =
        some (.error, [.stco [0, 0, 0, 56], .stco [0, 0, 1, 16, 0xff, 0xff, 0xff, 0xf8]]) ∧
      ∃ rc after, process (fun _ data => data) 16 tracks = some (rc, after) ∧
        Processed (fun _ data => data) 16 tracks rc after := by
  refine ⟨by decide, process_processed _ (by unfold Small maxUint32Value; omega) fun data listed => ?_⟩
  rcases List.mem_cons.1 listed with same | listed
  · cases same
    rfl
  · cases List.mem_singleton.1 listed
    rfl

end SecurityAudits.Nginx.StcoAtom
