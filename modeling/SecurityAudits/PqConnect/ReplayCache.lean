import SecurityAudits.Lib.Run
import Mathlib.Algebra.Order.Floor.Ring
import Mathlib.Data.Rat.Floor

/-!
# The replay cache of `PQCServer`

The server remembers the McEliece ciphertext of every handshake it accepts, with a timestamp,
refuses a handshake whose ciphertext it remembers, and has a thread that removes what is
`EPOCH_TIMEOUT_SECONDS` old. The patched cache is a dictionary from the ciphertext to the
timestamp. The timestamp is `int(time())`, and the clean-up compares it with the untruncated
`time()`: what was accepted late in a second is removed up to a second too early.

`History` adds the times of the accepted handshakes to the cache, so that the purpose of the
cache (`Keeps`) can be stated about every state of a run; `keeps_iff` says which clean-up passes
it fails at.
-/

namespace SecurityAudits.PqConnect.ReplayCache
set_option autoImplicit false
open SecurityAudits.Run

section Cache

variable {Ct : Type} [DecidableEq Ct]
variable {T : Type} [Ring T] [LinearOrder T] [FloorRing T]

/-- Python's `int` of a float: the fraction is cut off. -/
def int (x : T) : ℤ := if 0 ≤ x then ⌊x⌋ else ⌈x⌉

/-- `Dict[bytes, int]`, in the order of insertion. -/
abbrev SeenMcelieceCts (Ct : Type) := List (Ct × ℤ)

/-- `mceliece_ct in self._seen_mceliece_cts`. -/
def isMcelieceCtSeen (seen : SeenMcelieceCts Ct) (mcelieceCt : Ct) : Bool :=
  seen.any fun entry => entry.1 == mcelieceCt

def addTwice : String := "Cannot add the same mceliece ciphertext twice"

/-- `remember_mceliece_ct` at the reading `time` of the clock. -/
def rememberMcelieceCt (time : T) (seen : SeenMcelieceCts Ct) (mcelieceCt : Ct) :
    Except String (SeenMcelieceCts Ct) :=
  if isMcelieceCtSeen seen mcelieceCt then .error addTwice
  else .ok (seen ++ [(mcelieceCt, int time)])

/-- `del self._seen_mceliece_cts[ct]`. -/
def del (seen : SeenMcelieceCts Ct) (ct : Ct) : SeenMcelieceCts Ct :=
  seen.filter fun entry => entry.1 != ct

/-- A pass of `_forget_old_mceliece_cts` at the reading `time` of the clock. -/
def forgetOldMcelieceCts (epochTimeoutSeconds time : T) (seen : SeenMcelieceCts Ct) :
    SeenMcelieceCts Ct :=
  let old := time - epochTimeoutSeconds
  let expired := (seen.filter fun entry => decide ((entry.2 : T) ≤ old)).map Prod.fst
  expired.foldl del seen

/-- The calls, each of which holds the mutex and reads the clock once. -/
inductive Call (Ct T : Type) where
  | remember (time : T) (mcelieceCt : Ct)
  | isSeen (time : T) (mcelieceCt : Ct)
  | forgetOld (time : T)

def Call.time : Call Ct T → T
  | .remember time _ => time
  | .isSeen time _ => time
  | .forgetOld time => time

/-- The cache, the ciphertexts accepted so far with their times, the last one first, the time
of the last call, and whether that was a clean-up pass. -/
structure History (Ct T : Type) where
  seen : SeenMcelieceCts Ct
  accepted : List (Ct × T)
  time : T
  cleaned : Bool
  deriving DecidableEq

/-- A new server. -/
def History.start (time : T) : History Ct T := ⟨[], [], time, false⟩

/-- The time at which the ciphertext was last accepted. -/
def History.remembered (h : History Ct T) (ct : Ct) : Option T := h.accepted.lookup ct

/-- The clock is monotonic: it does not go back between two calls. -/
def step (epochTimeoutSeconds : T) (h : History Ct T) (call : Call Ct T) :
    Option (History Ct T) :=
  if call.time < h.time then none
  else match call with
    | .remember time ct =>
      match rememberMcelieceCt time h.seen ct with
      | .error _ => some { h with time := time, cleaned := false }
      | .ok seen => some ⟨seen, (ct, time) :: h.accepted, time, false⟩
    | .isSeen time _ => some { h with time := time, cleaned := false }
    | .forgetOld time =>
      some { h with
        seen := forgetOldMcelieceCts epochTimeoutSeconds time h.seen, time := time, cleaned := true }

/-- What the cache is for, in one state of a run. -/
structure Keeps (epochTimeoutSeconds : T) (h : History Ct T) : Prop where
  seen : ∀ ct t, h.remembered ct = some t → h.time < t + epochTimeoutSeconds →
    isMcelieceCtSeen h.seen ct = true
  forgotten : h.cleaned = true → ∀ ct t, h.remembered ct = some t →
    t + epochTimeoutSeconds ≤ h.time → isMcelieceCtSeen h.seen ct = false
  once : h.accepted.Pairwise fun later earlier =>
    later.1 = earlier.1 → earlier.2 + epochTimeoutSeconds ≤ later.2

/-- A clean-up pass does not fall between the end of an acceptance's epoch and the end that its
truncated timestamp gives. -/
def Timely (epochTimeoutSeconds : T) (h : History Ct T) : Call Ct T → Prop
  | .forgetOld time => ∀ ct t, h.remembered ct = some t →
    (t + epochTimeoutSeconds ≤ time ↔ (int t : T) + epochTimeoutSeconds ≤ time)
  | _ => True

variable {epochTimeoutSeconds time t : T} {seen : SeenMcelieceCts Ct} {ct : Ct}
variable {h h' : History Ct T} {call : Call Ct T}

theorem isMcelieceCtSeen_iff : isMcelieceCtSeen seen ct = true ↔ ∃ ts, (ct, ts) ∈ seen := by
  rw [isMcelieceCtSeen, List.any_eq_true]
  constructor
  · rintro ⟨⟨key, ts⟩, member, same⟩
    exact ⟨ts, by rwa [← eq_of_beq same]⟩
  · rintro ⟨ts, member⟩
    exact ⟨(ct, ts), member, beq_self_eq_true ct⟩

theorem isMcelieceCtSeen_eq_false_iff :
    isMcelieceCtSeen seen ct = false ↔ ∀ ts, (ct, ts) ∉ seen := by
  rw [Bool.eq_false_iff, ne_eq, isMcelieceCtSeen_iff, not_exists]

theorem mem_foldl_del {entry : Ct × ℤ} {cts : List Ct} :
    entry ∈ cts.foldl del seen ↔ entry ∈ seen ∧ entry.1 ∉ cts := by
  induction cts generalizing seen with
  | nil => simp
  | cons ct cts ih =>
    rw [List.foldl_cons, ih, del, List.mem_filter, bne_iff_ne, List.mem_cons, not_or, and_assoc]

omit [FloorRing T] in
/-- A pass keeps the entries whose ciphertext has no old timestamp. -/
theorem mem_forgetOldMcelieceCts {entry : Ct × ℤ} :
    entry ∈ forgetOldMcelieceCts epochTimeoutSeconds time seen ↔
      entry ∈ seen ∧ ∀ ts, (entry.1, ts) ∈ seen → ¬ (ts : T) ≤ time - epochTimeoutSeconds := by
  rw [forgetOldMcelieceCts, mem_foldl_del]
  refine and_congr_right fun _ => ⟨fun absent ts member old => absent ?_, fun fresh member => ?_⟩
  · exact List.mem_map.2 ⟨(entry.1, ts), List.mem_filter.2 ⟨member, decide_eq_true old⟩, rfl⟩
  · obtain ⟨⟨key, ts⟩, expired, rfl⟩ := List.mem_map.1 member
    obtain ⟨member, old⟩ := List.mem_filter.1 expired
    exact fresh ts member (of_decide_eq_true old)

/-- What a call does. -/
inductive Turn (epochTimeoutSeconds : T) (h : History Ct T) : Call Ct T → History Ct T → Prop
  | accepted (time : T) (ct : Ct) (fresh : isMcelieceCtSeen h.seen ct = false) :
    Turn epochTimeoutSeconds h (.remember time ct)
      ⟨h.seen ++ [(ct, int time)], (ct, time) :: h.accepted, time, false⟩
  | unchanged (call : Call Ct T) (any : ∀ epoch (h : History Ct T), Timely epoch h call) :
    Turn epochTimeoutSeconds h call { h with time := call.time, cleaned := false }
  | cleaned (time : T) :
    Turn epochTimeoutSeconds h (.forgetOld time)
      { h with
        seen := forgetOldMcelieceCts epochTimeoutSeconds time h.seen, time := time, cleaned := true }

theorem step_turn (first : step epochTimeoutSeconds h call = some h') :
    h.time ≤ call.time ∧ h'.time = call.time ∧ Turn epochTimeoutSeconds h call h' := by
  unfold step at first
  by_cases back : call.time < h.time
  · rw [if_pos back] at first
    cases first
  · rw [if_neg back] at first
    refine ⟨not_lt.1 back, ?_⟩
    cases call with
    | remember time ct =>
      cases fresh : isMcelieceCtSeen h.seen ct with
      | true =>
        simp only [rememberMcelieceCt, fresh, if_true] at first
        cases first
        exact ⟨rfl, .unchanged (.remember time ct) fun _ _ => trivial⟩
      | false =>
        simp only [rememberMcelieceCt, fresh, Bool.false_eq_true, if_false] at first
        cases first
        exact ⟨rfl, .accepted time ct fresh⟩
    | isSeen time ct =>
      cases first
      exact ⟨rfl, .unchanged (.isSeen time ct) fun _ _ => trivial⟩
    | forgetOld time =>
      cases first
      exact ⟨rfl, .cleaned time⟩

/-- What the cache holds in a run whose clean-up passes are timely. -/
structure Tracks (epochTimeoutSeconds : T) (h : History Ct T) : Prop where
  entries : ∀ ct ts, (ct, ts) ∈ h.seen → ∃ t, h.remembered ct = some t ∧ ts = int t
  past : ∀ ct t, h.remembered ct = some t → t ≤ h.time
  dropped : ∀ ct t, h.remembered ct = some t → isMcelieceCtSeen h.seen ct = false →
    t + epochTimeoutSeconds ≤ h.time ∧ (int t : T) + epochTimeoutSeconds ≤ h.time
  forgotten : h.cleaned = true → ∀ ct t, h.remembered ct = some t →
    t + epochTimeoutSeconds ≤ h.time → isMcelieceCtSeen h.seen ct = false
  once : h.accepted.Pairwise fun later earlier =>
    later.1 = earlier.1 → earlier.2 + epochTimeoutSeconds ≤ later.2

theorem tracks_start : Tracks epochTimeoutSeconds (History.start time : History Ct T) where
  entries := by intro _ _ member; cases member
  past := by intro _ _ was; cases was
  dropped := by intro _ _ was; cases was
  forgotten := by intro never; cases never
  once := List.Pairwise.nil

theorem Tracks.keeps (tracks : Tracks epochTimeoutSeconds h) : Keeps epochTimeoutSeconds h where
  seen ct t was early := by
    by_contra gone
    exact absurd (tracks.dropped ct t was (Bool.eq_false_iff.2 gone)).1 (not_le.2 early)
  forgotten := tracks.forgotten
  once := tracks.once

omit [LinearOrder T] [FloorRing T] [Ring T] in
theorem remembered_accepted (seen : SeenMcelieceCts Ct) (accepted : List (Ct × T)) (ct key : Ct)
    (time : T) (cleaned : Bool) :
    (⟨seen, (key, time) :: accepted, time, cleaned⟩ : History Ct T).remembered ct =
      if ct = key then some time else accepted.lookup ct := by
  rw [History.remembered, List.lookup_cons]
  by_cases same : ct = key
  · rw [if_pos same, beq_iff_eq.2 same]
  · rw [if_neg same, beq_eq_false_iff_ne.2 same]

omit [FloorRing T] in
/-- Every acceptance is the last one of its ciphertext, or an epoch before it. -/
theorem remembered_of_mem {accepted : List (Ct × T)}
    (once : accepted.Pairwise fun later earlier =>
      later.1 = earlier.1 → earlier.2 + epochTimeoutSeconds ≤ later.2)
    {entry : Ct × T} (member : entry ∈ accepted) :
    ∃ t, accepted.lookup entry.1 = some t ∧
      (entry.2 = t ∨ entry.2 + epochTimeoutSeconds ≤ t) := by
  induction accepted with
  | nil => cases member
  | cons last accepted ih =>
    obtain ⟨apart, once⟩ := List.pairwise_cons.1 once
    rw [List.lookup_cons]
    by_cases same : entry.1 = last.1
    · rw [beq_iff_eq.2 same]
      rcases List.mem_cons.1 member with rfl | earlier
      · exact ⟨entry.2, rfl, .inl rfl⟩
      · exact ⟨last.2, rfl, .inr (apart entry earlier same.symm)⟩
    · rw [beq_eq_false_iff_ne.2 same]
      rcases List.mem_cons.1 member with rfl | earlier
      · exact absurd rfl same
      · exact ih once earlier

/-- An acceptance follows the ones before it by an epoch, since they are no longer held. -/
theorem Tracks.apart (tracks : Tracks epochTimeoutSeconds h) (later : h.time ≤ time)
    (fresh : isMcelieceCtSeen h.seen ct = false) :
    ∀ earlier ∈ h.accepted, ct = earlier.1 → earlier.2 + epochTimeoutSeconds ≤ time := by
  rintro earlier member rfl
  obtain ⟨t, was, gap⟩ := remembered_of_mem tracks.once member
  have dropped := (tracks.dropped earlier.1 t was fresh).1
  have past := tracks.past earlier.1 t was
  rcases gap with same | gap
  · rw [same]
    exact dropped.trans later
  · exact gap.trans (past.trans later)

theorem Tracks.wait (tracks : Tracks epochTimeoutSeconds h) (later : h.time ≤ time) :
    Tracks epochTimeoutSeconds { h with time := time, cleaned := false } where
  entries := tracks.entries
  past key t was := (tracks.past key t was).trans later
  dropped key t was gone := by
    obtain ⟨past, pastInt⟩ := tracks.dropped key t was gone
    exact ⟨past.trans later, pastInt.trans later⟩
  forgotten := by intro never; cases never
  once := tracks.once

theorem Tracks.accept (tracks : Tracks epochTimeoutSeconds h) (later : h.time ≤ time)
    (fresh : isMcelieceCtSeen h.seen ct = false) :
    Tracks epochTimeoutSeconds
      ⟨h.seen ++ [(ct, int time)], (ct, time) :: h.accepted, time, false⟩ where
  entries key ts member := by
    rw [remembered_accepted]
    rcases List.mem_append.1 member with old | new
    · have other : key ≠ ct := by
        rintro rfl
        exact isMcelieceCtSeen_eq_false_iff.1 fresh ts old
      rw [if_neg other]
      exact tracks.entries key ts old
    · obtain ⟨rfl, rfl⟩ := Prod.mk.inj (List.mem_singleton.1 new)
      exact ⟨time, if_pos rfl, rfl⟩
  past key t was := by
    rw [remembered_accepted] at was
    by_cases same : key = ct
    · rw [if_pos same] at was
      exact le_of_eq (Option.some.inj was).symm
    · rw [if_neg same] at was
      exact (tracks.past key t was).trans later
  dropped key t was gone := by
    have absent := isMcelieceCtSeen_eq_false_iff.1 gone
    have other : key ≠ ct := by
      rintro rfl
      exact absent _ (List.mem_append_right _ List.mem_cons_self)
    rw [remembered_accepted, if_neg other] at was
    obtain ⟨past, pastInt⟩ := tracks.dropped key t was (isMcelieceCtSeen_eq_false_iff.2
      fun ts member => absent ts (List.mem_append_left _ member))
    exact ⟨past.trans later, pastInt.trans later⟩
  forgotten := by intro never; cases never
  once := List.pairwise_cons.2 ⟨tracks.apart later fresh, tracks.once⟩

section Ordered

variable [IsStrictOrderedRing T]

/-- What a pass does to a ciphertext that was last accepted at `t`. -/
theorem Tracks.isSeen_forgetOld (tracks : Tracks epochTimeoutSeconds h)
    (was : h.remembered ct = some t) :
    isMcelieceCtSeen (forgetOldMcelieceCts epochTimeoutSeconds time h.seen) ct = true ↔
      isMcelieceCtSeen h.seen ct = true ∧ time < (int t : T) + epochTimeoutSeconds := by
  have stamp : ∀ ts, (ct, ts) ∈ h.seen → ts = int t := by
    intro ts member
    obtain ⟨t', was', rfl⟩ := tracks.entries ct ts member
    rw [Option.some.inj (was.symm.trans was')]
  simp only [isMcelieceCtSeen_iff, mem_forgetOldMcelieceCts]
  constructor
  · rintro ⟨ts, member, fresh⟩
    have late := fresh ts member
    rw [stamp ts member, not_le] at late
    exact ⟨⟨ts, member⟩, sub_lt_iff_lt_add.1 late⟩
  · rintro ⟨⟨ts, member⟩, late⟩
    refine ⟨ts, member, fun ts' member' old => ?_⟩
    rw [stamp ts' member', le_sub_iff_add_le] at old
    exact not_le.2 late old

theorem Tracks.clean (tracks : Tracks epochTimeoutSeconds h) (later : h.time ≤ time)
    (timely : Timely epochTimeoutSeconds h (.forgetOld time)) :
    Tracks epochTimeoutSeconds
      { h with
        seen := forgetOldMcelieceCts epochTimeoutSeconds time h.seen, time := time,
        cleaned := true } where
  entries key ts member := tracks.entries key ts (mem_forgetOldMcelieceCts.1 member).1
  past key t was := (tracks.past key t was).trans later
  dropped key t was gone := by
    cases held : isMcelieceCtSeen h.seen key with
    | false =>
      obtain ⟨past, pastInt⟩ := tracks.dropped key t was held
      exact ⟨past.trans later, pastInt.trans later⟩
    | true =>
      have pastInt : (int t : T) + epochTimeoutSeconds ≤ time := by
        by_contra early
        rw [(tracks.isSeen_forgetOld was).2 ⟨held, not_le.1 early⟩] at gone
        cases gone
      exact ⟨(timely key t was).2 pastInt, pastInt⟩
  forgotten _ key t was past := by
    rw [Bool.eq_false_iff, ne_eq, tracks.isSeen_forgetOld was]
    exact fun kept => not_le.2 kept.2 ((timely key t was).1 past)
  once := tracks.once

theorem Tracks.step (tracks : Tracks epochTimeoutSeconds h)
    (timely : Timely epochTimeoutSeconds h call)
    (first : step epochTimeoutSeconds h call = some h') : Tracks epochTimeoutSeconds h' := by
  obtain ⟨later, -, turn⟩ := step_turn first
  cases turn with
  | accepted time ct fresh => exact tracks.accept later fresh
  | unchanged => exact tracks.wait later
  | cleaned time => exact tracks.clean later timely

/-- A pass between the two ends of an epoch removes what must be seen, or keeps what must be
forgotten. -/
theorem Tracks.not_keeps (tracks : Tracks epochTimeoutSeconds h)
    (untimely : ¬ Timely epochTimeoutSeconds h call)
    (first : ReplayCache.step epochTimeoutSeconds h call = some h') :
    ¬ Keeps epochTimeoutSeconds h' := by
  obtain ⟨later, -, turn⟩ := step_turn first
  intro keeps
  cases turn with
  | accepted => exact untimely trivial
  | unchanged _ any => exact untimely (any _ _)
  | cleaned time =>
    refine untimely fun ct t was => ⟨fun past => ?_, fun pastInt => ?_⟩
    · by_contra early
      have gone := keeps.forgotten rfl ct t was past
      cases held : isMcelieceCtSeen h.seen ct with
      | false => exact early ((tracks.dropped ct t was held).2.trans later)
      | true =>
        rw [(tracks.isSeen_forgetOld was).2 ⟨held, not_le.1 early⟩] at gone
        cases gone
    · by_contra early
      have kept := (tracks.isSeen_forgetOld was).1 (keeps.seen ct t was (not_le.1 early))
      exact not_le.2 kept.2 pastInt

/-- **The replay cache**: in a run from a new server, a ciphertext is seen from its acceptance
until its epoch is past, gone after every later clean-up pass, and accepted at most once in an
epoch, if and only if no clean-up pass falls between the end of the epoch of an acceptance and
the end that its truncated timestamp gives. -/
theorem keeps_iff (epochTimeoutSeconds time : T) (calls : List (Call Ct T)) :
    Always (ReplayCache.step epochTimeoutSeconds) (Keeps epochTimeoutSeconds)
        (History.start time) calls ↔
      Along (ReplayCache.step epochTimeoutSeconds) (Timely epochTimeoutSeconds)
        (History.start time) calls :=
  always_iff_along (fun _ tracks => tracks.keeps)
    (fun _ _ _ tracks timely first => tracks.step timely first)
    (fun _ _ _ tracks untimely first => tracks.not_keeps untimely first) tracks_start

end Ordered

end Cache

/-- Accepted at 0.9 and remembered up to a pass at 31. -/
theorem keeps_after_epoch :
    Always (step 30) (Keeps 30) (History.start (0 : ℚ))
      [.remember (9 / 10) (7 : UInt8), .forgetOld 31] := by
  refine (keeps_iff 30 0 _).2 ((along_cons (m := ⟨[(7, 0)], [(7, 9 / 10)], 9 / 10, false⟩)
    (by decide +kernel)).2 ⟨trivial, fun _ _ => ⟨fun ct t was => ?_, trivial⟩⟩)
  have known : t = 9 / 10 := by
    rw [remembered_accepted] at was
    by_cases same : ct = 7
    · rw [if_pos same] at was
      exact (Option.some.inj was).symm
    · rw [if_neg same] at was
      cases was
  rw [known]
  decide +kernel

/-- Accepted at 0.9, removed by a pass at 30, accepted again at 30.5. -/
def replay : List (Call UInt8 ℚ) := [.remember (9 / 10) 7, .forgetOld 30, .remember (61 / 2) 7]

def afterReplay : History UInt8 ℚ := ⟨[(7, 30)], [(7, 61 / 2), (7, 9 / 10)], 61 / 2, false⟩

/-- A ciphertext is accepted twice within an epoch of 30 seconds. -/
theorem accepted_twice :
    exec (step 30) (History.start 0) replay = some afterReplay ∧
      ¬ Always (step 30) (Keeps 30) (History.start 0) replay := by
  have run : exec (step 30) (History.start 0) replay = some afterReplay := by decide +kernel
  refine ⟨run, fun always => ?_⟩
  have once := (always replay (List.prefix_refl replay) afterReplay run).once
  have apart := (List.pairwise_cons.1 once).1 (7, 9 / 10) List.mem_cons_self rfl
  exact absurd apart (by decide +kernel)

end SecurityAudits.PqConnect.ReplayCache
