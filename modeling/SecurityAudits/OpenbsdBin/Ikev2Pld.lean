import Mathlib.Order.Basic

/-!
# `ikev2_pld_xform`

The transforms of an IKEv2 proposal stand one behind the other, each with its length and a
mark whether another one follows. The replaced parser calls itself for the next one; the
patched one is a loop over the count that the proposal announces.

Every transform is at least a header long and ends within the `total` bytes that are left
(`Transform.large`, `Transform.fits`): that is what `ikev2_validate_xform` checks, so a
transform that was read carries it. It makes the recursion terminate and `total -= xfrm_length`
exact.
-/

namespace SecurityAudits.OpenbsdBin.Ikev2Pld
set_option autoImplicit false

/-- `IKEV2_XFORM_MORE`. -/
def xformMore : UInt8 := 3

/-- `sizeof(struct ikev2_transform)`. -/
def xformSize : UInt64 := 8

/-- A transform header that was read where `total` bytes are left, in host byte order. -/
structure Transform (total : UInt64) where
  xfrmMore : UInt8
  xfrmType : UInt8
  xfrmId : UInt16
  xfrmLength : UInt16
  large : xformSize ≤ xfrmLength.toUInt64
  fits : xfrmLength.toUInt64 ≤ total

/-- The arguments of a call of `config_add_transform`. -/
structure AddTransform where
  xfrmType : UInt8
  xfrmId : UInt16
  attrlength : Nat
  keylength : Nat
  deriving DecidableEq

/-- A message and what its parsing calls: `ikev2_validate_xform` on its bytes, `ikev2_pld_attr`,
which returns its result and `msg_attrlength` and may change `Env`, `ikev2_msg_frompeer`, and
`config_add_transform` on the proposal in `Env`. -/
structure Message (Env : Type) where
  validateXform : (offset total : UInt64) → Option (Transform total)
  pldAttr : {total : UInt64} → Transform total → (offset length : UInt64) → Env → Int × Nat × Env
  frompeer : Bool
  configAddTransform : AddTransform → Env → Int × Env

/-- Where a transform was taken from. -/
structure Taken where
  offset : UInt64
  total : UInt64
  length : UInt64
  deriving DecidableEq

/-- What a call changes. `taken` and `calls` are the history: the transforms that were
validated, and the calls of `config_add_transform`. -/
structure State (Env : Type) where
  env : Env
  attrlength : Nat
  taken : List Taken
  calls : List AddTransform

variable {Env : Type}

/-- The attributes of a transform, if it is longer than its header, and their result. -/
def xformAttrs (msg : Message Env) {total : UInt64} (xfrm : Transform total) (offset : UInt64)
    (st : State Env) : Int × State Env :=
  let length := xfrm.xfrmLength.toUInt64
  if xformSize < length then
    let attrs := msg.pldAttr xfrm (offset + xformSize) (length - xformSize) st.env
    (attrs.1, { st with attrlength := attrs.2.1, env := attrs.2.2 })
  else (0, st)

/-- The transform is added to the proposal of a message from the peer; the result is there if
the parser returns with it. -/
def xformConfig (msg : Message Env) {total : UInt64} (xfrm : Transform total) (st : State Env) :
    Option Int × State Env :=
  if msg.frompeer then
    let call := ⟨xfrm.xfrmType, xfrm.xfrmId, st.attrlength, st.attrlength⟩
    let answer := msg.configAddTransform call st.env
    let st := { st with env := answer.2, calls := st.calls ++ [call] }
    if answer.1 = -1 then (some answer.1, st)
    else if answer.1 = -2 then (some answer.1, st)
    else (none, st)
  else (none, st)

/-- What is done with a transform that was read, the same in both parsers. -/
def addXform (msg : Message Env) {total : UInt64} (xfrm : Transform total) (offset : UInt64)
    (st : State Env) : Option Int × State Env :=
  let taken := st.taken ++ [⟨offset, total, xfrm.xfrmLength.toUInt64⟩]
  let attrs := xformAttrs msg xfrm offset { st with attrlength := 0, taken := taken }
  if attrs.1 ≠ 0 then (some (-1), attrs.2) else xformConfig msg xfrm attrs.2

theorem sub_length_lt {total : UInt64} (xfrm : Transform total) :
    (total - xfrm.xfrmLength.toUInt64).toNat < total.toNat := by
  have large := UInt64.le_iff_toNat_le.1 xfrm.large
  have fits := UInt64.le_iff_toNat_le.1 xfrm.fits
  have size : xformSize.toNat = 8 := rfl
  rw [UInt64.toNat_sub_of_le _ _ xfrm.fits]
  omega

/-- The replaced `ikev2_pld_xform`. -/
def pldXformRec (msg : Message Env) (offset total : UInt64) (st : State Env) : Int × State Env :=
  match msg.validateXform offset total with
  | none => (-1, st)
  | some xfrm =>
    match addXform msg xfrm offset st with
    | (some r, st) => (r, st)
    | (none, st) =>
      let length := xfrm.xfrmLength.toUInt64
      if xfrm.xfrmMore = xformMore then pldXformRec msg (offset + length) (total - length) st
      else if total - length ≠ 0 then (-1, st)
      else (0, st)
termination_by total.toNat
decreasing_by exact sub_length_lt xfrm

/-- How the loop of the patched parser ends: by a `return`, or with what the tests behind it
read: whether `i == count`, the `xfrm_more` of the last transform, and `total`. -/
inductive Flow (Env : Type) where
  | returned (r : Int) (st : State Env)
  | over (counted : Bool) (more : Option UInt8) (total : UInt64) (st : State Env)

/-- The loop of the patched parser with `left = count - i` rounds to go; `more` is the
`xfrm_more` of the transform before. -/
def xformLoop (msg : Message Env) : (left : Nat) → (more : Option UInt8) →
    (offset total : UInt64) → State Env → Flow Env
  | 0, more, _, total, st => .over true more total st
  | left + 1, _, offset, total, st =>
    match msg.validateXform offset total with
    | none => .returned (-1) st
    | some xfrm =>
      match addXform msg xfrm offset st with
      | (some r, st) => .returned r st
      | (none, st) =>
        let length := xfrm.xfrmLength.toUInt64
        if xfrm.xfrmMore ≠ xformMore then .over false xfrm.xfrmMore (total - length) st
        else xformLoop msg left xfrm.xfrmMore (offset + length) (total - length) st

/-- The tests behind the loop. -/
def afterLoop : Flow Env → Int × State Env
  | .returned r st => (r, st)
  | .over counted more total st =>
    if total ≠ 0 then (-1, st)
    else if counted && more == some xformMore then (-1, st)
    else (0, st)

/-- The patched `ikev2_pld_xform`. -/
def pldXform (msg : Message Env) (offset total : UInt64) (count : UInt32) (st : State Env) :
    Int × State Env :=
  if count = 0 then (-1, st)
  else afterLoop (xformLoop msg count.toNat none offset total st)

/-- The number of transforms in the chain that starts at `offset`. -/
def chainLength (msg : Message Env) (offset total : UInt64) : Nat :=
  match msg.validateXform offset total with
  | none => 0
  | some xfrm =>
    let length := xfrm.xfrmLength.toUInt64
    if xfrm.xfrmMore = xformMore then chainLength msg (offset + length) (total - length) + 1
    else 1
termination_by total.toNat
decreasing_by exact sub_length_lt xfrm

/-- The header positions of a parse of `sum` bytes from the start of the message on: each
transform ends within what is left, so `total -= xfrm_length` does not wrap. -/
def InBounds (sum : UInt64) (taken : List Taken) : Prop :=
  ∀ t ∈ taken, t.offset + t.total = sum ∧ t.length ≤ t.total

section OneTransform

variable {msg : Message Env} {offset total : UInt64} {xfrm : Transform total} {st st' : State Env}
variable {stop : Option Int}

theorem xformAttrs_history (msg : Message Env) (xfrm : Transform total) (offset : UInt64)
    (st : State Env) :
    (xformAttrs msg xfrm offset st).2.taken = st.taken ∧
      (xformAttrs msg xfrm offset st).2.calls = st.calls := by
  unfold xformAttrs
  by_cases long : xformSize < xfrm.xfrmLength.toUInt64
  · simp only [if_pos long, and_self]
  · simp only [if_neg long, and_self]

theorem xformConfig_history (configured : xformConfig msg xfrm st = (stop, st')) :
    st'.taken = st.taken ∧ st'.calls.length ≤ st.calls.length + 1 ∧ ∀ r, stop = some r → r < 0 := by
  unfold xformConfig at configured
  by_cases frompeer : msg.frompeer = true
  · simp only [if_pos frompeer] at configured
    by_cases alloc : (msg.configAddTransform
        ⟨xfrm.xfrmType, xfrm.xfrmId, st.attrlength, st.attrlength⟩ st.env).1 = -1
    · rw [if_pos alloc] at configured
      cases configured
      exact ⟨rfl, by simp, fun r eq => by cases eq; omega⟩
    · rw [if_neg alloc] at configured
      by_cases unknown : (msg.configAddTransform
          ⟨xfrm.xfrmType, xfrm.xfrmId, st.attrlength, st.attrlength⟩ st.env).1 = -2
      · rw [if_pos unknown] at configured
        cases configured
        exact ⟨rfl, by simp, fun r eq => by cases eq; omega⟩
      · rw [if_neg unknown] at configured
        cases configured
        exact ⟨rfl, by simp, fun r eq => by cases eq⟩
  · rw [if_neg frompeer] at configured
    cases configured
    exact ⟨rfl, Nat.le_succ _, fun r eq => by cases eq⟩

/-- What one transform does to the history, whatever the functions it calls answer. -/
theorem addXform_history (added : addXform msg xfrm offset st = (stop, st')) :
    st'.taken = st.taken ++ [⟨offset, total, xfrm.xfrmLength.toUInt64⟩] ∧
      st'.calls.length ≤ st.calls.length + 1 ∧ ∀ r, stop = some r → r < 0 := by
  unfold addXform at added
  obtain ⟨taken, calls⟩ := xformAttrs_history msg xfrm offset { st with
      attrlength := 0, taken := st.taken ++ [⟨offset, total, xfrm.xfrmLength.toUInt64⟩] }
  by_cases failed : (xformAttrs msg xfrm offset { st with
      attrlength := 0
      taken := st.taken ++ [⟨offset, total, xfrm.xfrmLength.toUInt64⟩] }).1 ≠ 0
  · simp only [if_pos failed] at added
    cases added
    exact ⟨taken, by rw [calls]; exact Nat.le_succ _, fun r eq => by cases eq; decide⟩
  · simp only [if_neg failed] at added
    obtain ⟨taken', calls', negative⟩ := xformConfig_history added
    exact ⟨taken'.trans taken, by rwa [calls] at calls', negative⟩

/-- The next transform is looked for in the same part of the message. -/
theorem next_sum (offset : UInt64) (xfrm : Transform total) :
    offset + xfrm.xfrmLength.toUInt64 + (total - xfrm.xfrmLength.toUInt64) = offset + total := by
  rw [UInt64.add_assoc, UInt64.add_comm xfrm.xfrmLength.toUInt64, UInt64.sub_add_cancel]

end OneTransform

section Loop

variable {msg : Message Env}

theorem validateXform_of_chainLength {offset total : UInt64}
    (empty : chainLength msg offset total = 0) : msg.validateXform offset total = none := by
  rw [chainLength] at empty
  cases read : msg.validateXform offset total with
  | none => rfl
  | some xfrm =>
    by_cases next : xfrm.xfrmMore = xformMore <;> simp [read, next] at empty

/-- The loop agrees with the recursion where the count suffices. It may be exhausted only
behind a transform that announced another one. -/
theorem afterLoop_eq_rec (left : Nat) {more : Option UInt8} {offset total : UInt64}
    {st : State Env} (announced : left = 0 → more = some xformMore)
    (enough : chainLength msg offset total ≤ left) :
    afterLoop (xformLoop msg left more offset total st) = pldXformRec msg offset total st := by
  induction left generalizing more offset total st with
  | zero =>
    rw [announced rfl, pldXformRec, validateXform_of_chainLength (Nat.le_zero.1 enough)]
    by_cases rest : total = 0 <;> simp [xformLoop, afterLoop, rest]
  | succ left ih =>
    rw [chainLength] at enough
    rw [xformLoop, pldXformRec]
    cases read : msg.validateXform offset total with
    | none => rfl
    | some xfrm =>
      obtain ⟨stop, st', added⟩ : ∃ stop st', addXform msg xfrm offset st = (stop, st') :=
        ⟨_, _, rfl⟩
      simp only [read] at enough
      simp only [added]
      cases stop with
      | some r => rfl
      | none =>
        by_cases next : xfrm.xfrmMore = xformMore
        · simp only [if_pos next] at enough
          simp only [ne_eq, next, not_true_eq_false, if_true, if_false]
          exact ih (fun _ => rfl) (Nat.le_of_succ_le_succ enough)
        · simp only [ne_eq, next, not_false_eq_true, if_true, if_false]
          by_cases rest : total - xfrm.xfrmLength.toUInt64 = 0 <;> simp [afterLoop, rest]

/-- A chain that is longer than the count is refused. -/
theorem afterLoop_negative (left : Nat) {more : Option UInt8} {offset total : UInt64}
    {st : State Env} (announced : left = 0 → more = some xformMore)
    (long : left < chainLength msg offset total) :
    (afterLoop (xformLoop msg left more offset total st)).1 < 0 := by
  induction left generalizing more offset total st with
  | zero =>
    rw [announced rfl]
    by_cases rest : total = 0 <;> simp [xformLoop, afterLoop, rest]
  | succ left ih =>
    rw [chainLength] at long
    rw [xformLoop]
    cases read : msg.validateXform offset total with
    | none =>
      rw [read] at long
      cases long
    | some xfrm =>
      obtain ⟨stop, st', added⟩ : ∃ stop st', addXform msg xfrm offset st = (stop, st') :=
        ⟨_, _, rfl⟩
      simp only [read] at long
      simp only [added]
      cases stop with
      | some r => exact (addXform_history added).2.2 r rfl
      | none =>
        by_cases next : xfrm.xfrmMore = xformMore
        · simp only [if_pos next] at long
          simp only [ne_eq, next, not_true_eq_false, if_false]
          exact ih (fun _ => rfl) (Nat.lt_of_succ_lt_succ long)
        · rw [if_neg next] at long
          omega

theorem afterLoop_over (counted : Bool) (more : Option UInt8) (total : UInt64) (st : State Env) :
    (afterLoop (.over counted more total st)).2 = st := by
  unfold afterLoop
  by_cases rest : total = 0 <;> cases counted <;> by_cases next : more = some xformMore <;>
    simp [rest, next]

/-- The loop takes no more transforms than it has rounds, all of them in the same part of the
message, and calls `config_add_transform` once for each at most. -/
theorem afterLoop_taken (msg : Message Env) (left : Nat) (more : Option UInt8) (offset total : UInt64)
    (st : State Env) :
    ∃ new, (afterLoop (xformLoop msg left more offset total st)).2.taken = st.taken ++ new ∧
      new.length ≤ left ∧ InBounds (offset + total) new ∧
      (afterLoop (xformLoop msg left more offset total st)).2.calls.length
        ≤ st.calls.length + new.length := by
  induction left generalizing more offset total st with
  | zero =>
    refine ⟨[], ?_, Nat.le_refl 0, fun t mem => (by cases mem), ?_⟩
    · rw [xformLoop, afterLoop_over, List.append_nil]
    · rw [xformLoop, afterLoop_over]
      exact Nat.le_refl _
  | succ left ih =>
    rw [xformLoop]
    cases read : msg.validateXform offset total with
    | none =>
      exact ⟨[], (List.append_nil _).symm, Nat.zero_le _, fun t mem => (by cases mem),
        Nat.le_refl _⟩
    | some xfrm =>
      obtain ⟨stop, st', added⟩ : ∃ stop st', addXform msg xfrm offset st = (stop, st') :=
        ⟨_, _, rfl⟩
      obtain ⟨taken, calls, -⟩ := addXform_history added
      have here : InBounds (offset + total) [⟨offset, total, xfrm.xfrmLength.toUInt64⟩] := by
        intro t mem
        rw [List.mem_singleton.1 mem]
        exact ⟨rfl, xfrm.fits⟩
      have alone : ∃ new, st'.taken = st.taken ++ new ∧ new.length ≤ left + 1 ∧
          InBounds (offset + total) new ∧ st'.calls.length ≤ st.calls.length + new.length :=
        ⟨_, taken, Nat.le_add_left 1 left, here, calls⟩
      simp only [added]
      cases stop with
      | some r => exact alone
      | none =>
        by_cases next : xfrm.xfrmMore = xformMore
        · simp only [ne_eq, next, not_true_eq_false, if_false]
          obtain ⟨new, eq, short, inside, called⟩ := ih (some xformMore)
            (offset + xfrm.xfrmLength.toUInt64) (total - xfrm.xfrmLength.toUInt64) st'
          rw [next_sum] at inside
          refine ⟨⟨offset, total, xfrm.xfrmLength.toUInt64⟩ :: new, ?_, Nat.succ_le_succ short,
            ?_, ?_⟩
          · rw [eq, taken, List.append_assoc]
            rfl
          · intro t mem
            rcases List.mem_cons.1 mem with rfl | later
            · exact ⟨rfl, xfrm.fits⟩
            · exact inside t later
          · rw [List.length_cons]
            omega
        · simp only [ne_eq, next, not_false_eq_true, if_true, afterLoop_over]
          exact alone

end Loop

/-- The state of a call before it has taken a transform. -/
def State.start (env : Env) (attrlength : Nat) : State Env := ⟨env, attrlength, [], []⟩

/-- **The loop replaces the recursion**: with a count that covers the chain it returns the same
and has made the same calls; a longer chain is refused after at most `count` transforms; and
every transform it takes lies within the bytes left, at a position where `offset + total` is
what it was. -/
theorem pldXform_agrees (msg : Message Env) (offset total : UInt64) (count : UInt32) (env : Env)
    (attrlength : Nat) (announced : 0 < count) :
    (chainLength msg offset total ≤ count.toNat →
      pldXform msg offset total count (.start env attrlength)
        = pldXformRec msg offset total (.start env attrlength)) ∧
    (count.toNat < chainLength msg offset total →
      (pldXform msg offset total count (.start env attrlength)).1 < 0) ∧
    (pldXform msg offset total count (.start env attrlength)).2.taken.length ≤ count.toNat ∧
    (pldXform msg offset total count (.start env attrlength)).2.calls.length ≤ count.toNat ∧
    InBounds (offset + total) (pldXform msg offset total count (.start env attrlength)).2.taken := by
  have positive : 0 < count.toNat := UInt32.lt_iff_toNat_lt.1 announced
  have entered : count ≠ 0 := by
    rintro rfl
    exact absurd positive (Nat.lt_irrefl 0)
  have notYet : count.toNat = 0 → (none : Option UInt8) = some xformMore := fun zero => by omega
  obtain ⟨new, taken, short, inside, calls⟩ :=
    afterLoop_taken msg count.toNat none offset total (.start env attrlength)
  rw [State.start, List.nil_append] at taken
  rw [State.start, List.length_nil] at calls
  unfold pldXform
  rw [if_neg entered, State.start, taken]
  exact ⟨afterLoop_eq_rec count.toNat notYet, afterLoop_negative count.toNat notYet, short,
    by omega, inside⟩

/-- Headers as they stand in the message. -/
def header (bytes : List UInt8) (offset total : UInt64) : Option (Transform total) :=
  let byte (i : Nat) : UInt8 := bytes.getD (offset.toNat + i) 0
  let word (i : Nat) : UInt16 := (byte i).toUInt16 * 256 + (byte (i + 1)).toUInt16
  if checked : xformSize ≤ (word 2).toUInt64 ∧ (word 2).toUInt64 ≤ total then
    some ⟨byte 0, byte 4, word 6, word 2, checked.1, checked.2⟩
  else none

/-- A proposal of the peer with two transforms and no attributes. -/
def twoXforms : Message Unit where
  validateXform := header [3, 0, 0, 8, 1, 0, 0, 12, 0, 0, 0, 8, 4, 0, 0, 14]
  pldAttr _ _ _ env := (0, 0, env)
  frompeer := true
  configAddTransform _ env := (0, env)

theorem pldXform_agrees_two_xforms :
    chainLength twoXforms 0 16 = 2 ∧
      pldXform twoXforms 0 16 2 (.start () 0) = pldXformRec twoXforms 0 16 (.start () 0) ∧
      (pldXform twoXforms 0 16 2 (.start () 0)).2.calls = [⟨1, 12, 0, 0⟩, ⟨4, 14, 0, 0⟩] ∧
      (pldXform twoXforms 0 16 1 (.start () 0)).1 < 0 := by
  have length : chainLength twoXforms 0 16 = 2 := by
    have first : twoXforms.validateXform 0 16 = some ⟨3, 1, 12, 8, by decide, by decide⟩ := rfl
    have second : twoXforms.validateXform 8 8 = some ⟨0, 4, 14, 8, by decide, by decide⟩ := rfl
    rw [chainLength, first]
    show chainLength twoXforms 8 8 + 1 = 2
    rw [chainLength, second]
    rfl
  refine ⟨length, ?_, ?_, ?_⟩
  · exact (pldXform_agrees twoXforms 0 16 2 () 0 (by decide)).1 (by rw [length]; decide)
  · decide
  · exact (pldXform_agrees twoXforms 0 16 1 () 0 (by decide)).2.1 (by rw [length]; decide)

end SecurityAudits.OpenbsdBin.Ikev2Pld
