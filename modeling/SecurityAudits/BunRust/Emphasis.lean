import Mathlib.Data.List.Forall2
import Mathlib.Logic.Function.Basic
import SecurityAudits.Lib.Run

/-!
# `resolve_emphasis_delimiters`

The resolver goes through the delimiter runs from left to right and scans back from each
closer for an opener. The patch keeps, for each of 18 classes of closers, a bound below which
a scan of that class has already failed, and stops the scan there.

A bound recorded for one closer is used for later ones of its class, after matches have
changed the runs. That is sound for two reasons, and the proof is these two lemmas: the class
fixes everything that validity reads of the closer (`validOpener_of_key_eq`), and a run that
is no valid opener never becomes one (`validOpener_of_lowered`).
-/

namespace SecurityAudits.BunRust.Emphasis
set_option autoImplicit false
open SecurityAudits.Run

/-- A run of emphasis characters. The resolver only ever sees runs of `*`, `_` or `~`. -/
structure EmphDelim where
  emphChar : UInt8
  count : Nat
  remaining : Nat
  canOpen : Bool
  canClose : Bool
  active : Bool
  isEmph : emphChar = 42 ∨ emphChar = 95 ∨ emphChar = 126
  deriving DecidableEq

def charIdx (d : EmphDelim) : Fin 3 :=
  if d.emphChar = 42 then 0
  else if d.emphChar = 95 then 1
  else if d.emphChar = 126 then 2
  else 0

/-- The class of a closer: its character, its count modulo 3, and whether it can open. -/
def openerBottomKey (d : EmphDelim) : Fin 18 :=
  ⟨((charIdx d).val * 3 + d.count % 3) * 2 + d.canOpen.toNat, by
    have idx := (charIdx d).isLt
    have mod := Nat.mod_lt d.count (show 0 < 3 by decide)
    have bit := Bool.toNat_le d.canOpen
    omega⟩

/-- What became of a run: it is the same run, perhaps deactivated, perhaps shorter. -/
structure Lowered (d d' : EmphDelim) : Prop where
  emphChar : d'.emphChar = d.emphChar
  count : d'.count = d.count
  canOpen : d'.canOpen = d.canOpen
  canClose : d'.canClose = d.canClose
  active : d'.active = true → d.active = true
  remaining : d'.remaining ≤ d.remaining

/-- The parts of the loop that the patch does not show, over the rest of the parser's state:
which runs are passed over as closers, the rule of three, and what a match of the opener `oi`
with the closer `ci` does; it may set `closer_idx` back to look at the closer again. -/
structure Unshown (Parser : Type) where
  skips : Parser → List EmphDelim → Nat → Bool
  ruleOfThree : (openerMod3 closerMod3 : Nat) → (openerCanClose closerCanOpen : Bool) → Bool
  processMatch : Parser → List EmphDelim → (oi ci : Nat) → Parser × List EmphDelim × Nat
  lowers : ∀ parser delims oi ci, oi < ci → ci < delims.length →
    List.Forall₂ Lowered delims (processMatch parser delims oi ci).2.1

variable {Parser : Type} {u : Unshown Parser}

def validOpener (u : Unshown Parser) (opener closer : EmphDelim) : Bool :=
  opener.emphChar == closer.emphChar && opener.active && opener.canOpen &&
    decide (0 < opener.remaining) &&
    u.ruleOfThree (opener.count % 3) (closer.count % 3) opener.canClose closer.canOpen

/-- `while oi > bottom { oi -= 1; .. }`, up to the first valid opener. -/
def findOpener (u : Unshown Parser) (delims : List EmphDelim) (closer : EmphDelim) (bottom : Nat) :
    Nat → Option Nat
  | 0 => none
  | oi + 1 =>
    if bottom < oi + 1 then
      if delims[oi]?.any (validOpener u · closer) then some oi
      else findOpener u delims closer bottom oi
    else none

/-- The loop's variables. `found` is the history: each closer that was looked at, with the
opener that the scan found for it. -/
structure State (Parser : Type) where
  parser : Parser
  emphDelims : List EmphDelim
  closerIdx : Nat
  found : List (Nat × Option Nat)
  deriving DecidableEq

/-- `closer_idx.wrapping_add(1)`. -/
def wrappingSucc (i : Nat) : Nat := (i + 1) % UInt64.size

def deactivate (d : EmphDelim) : EmphDelim := { d with active := false }

def State.matched (u : Unshown Parser) (s : State Parser) (oi : Nat) : State Parser :=
  let r := u.processMatch s.parser s.emphDelims oi s.closerIdx
  { parser := r.1, emphDelims := r.2.1, closerIdx := wrappingSucc r.2.2
    found := s.found ++ [(s.closerIdx, some oi)] }

def State.unmatched (s : State Parser) (closer : EmphDelim) : State Parser :=
  { s with
    emphDelims := if closer.canOpen then s.emphDelims else s.emphDelims.modify s.closerIdx deactivate
    closerIdx := wrappingSucc s.closerIdx
    found := s.found ++ [(s.closerIdx, none)] }

/-- One iteration of the loop before the patch, which scans back to index 0. -/
def scanAll (u : Unshown Parser) (s : State Parser) : Option (State Parser) :=
  if inRange : s.closerIdx < s.emphDelims.length then
    if u.skips s.parser s.emphDelims s.closerIdx then
      some { s with closerIdx := wrappingSucc s.closerIdx }
    else
      let closer := s.emphDelims[s.closerIdx]
      match findOpener u s.emphDelims closer 0 s.closerIdx with
      | some oi => some (s.matched u oi)
      | none => some (s.unmatched closer)
  else none

/-- The patched loop's variables: the array of bounds is new. -/
structure Bounded (Parser : Type) extends State Parser where
  openersBottom : Fin 18 → Nat

/-- One iteration of the patched loop. -/
def scanToBottom (u : Unshown Parser) (s : Bounded Parser) : Option (Bounded Parser) :=
  if inRange : s.closerIdx < s.emphDelims.length then
    if u.skips s.parser s.emphDelims s.closerIdx then
      some { s with closerIdx := wrappingSucc s.closerIdx }
    else
      let closer := s.emphDelims[s.closerIdx]
      let key := openerBottomKey closer
      match findOpener u s.emphDelims closer (s.openersBottom key) s.closerIdx with
      | some oi => some { s with toState := s.toState.matched u oi }
      | none => some
          { toState := s.toState.unmatched closer
            openersBottom := Function.update s.openersBottom key s.closerIdx }
  else none

/-- `resolve_emphasis_delimiters` before the patch, stopped after `n` iterations. -/
def resolveAll (u : Unshown Parser) (n : Nat) (parser : Parser) (delims : List EmphDelim) :
    Option (State Parser) :=
  loop (scanAll u) n ⟨parser, delims, 0, []⟩

/-- The patched `resolve_emphasis_delimiters`, stopped after `n` iterations. -/
def resolveToBottom (u : Unshown Parser) (n : Nat) (parser : Parser) (delims : List EmphDelim) :
    Option (Bounded Parser) :=
  loop (scanToBottom u) n ⟨⟨parser, delims, 0, []⟩, fun _ => 0⟩

theorem charIdx_injective {c c' : EmphDelim} (same : charIdx c = charIdx c') :
    c.emphChar = c'.emphChar := by
  unfold charIdx at same
  rcases c.isEmph with e | e | e <;> rcases c'.isEmph with e' | e' | e' <;> simp_all

/-- The class of a closer holds all that validity reads of it. -/
theorem validOpener_of_key_eq {c c' : EmphDelim} (same : openerBottomKey c = openerBottomKey c')
    (o : EmphDelim) : validOpener u o c = validOpener u o c' := by
  have eq : ((charIdx c).val * 3 + c.count % 3) * 2 + c.canOpen.toNat
      = ((charIdx c').val * 3 + c'.count % 3) * 2 + c'.canOpen.toNat := congrArg Fin.val same
  have mod := Nat.mod_lt c.count (show 0 < 3 by decide)
  have mod' := Nat.mod_lt c'.count (show 0 < 3 by decide)
  have le := Bool.toNat_le c.canOpen
  have le' := Bool.toNat_le c'.canOpen
  have char : c.emphChar = c'.emphChar := charIdx_injective (Fin.ext (by omega))
  have count : c.count % 3 = c'.count % 3 := by omega
  have bit : c.canOpen.toNat = c'.canOpen.toNat := by omega
  have canOpen : c.canOpen = c'.canOpen := by
    cases open' : c.canOpen <;> cases open'' : c'.canOpen <;> simp_all
  unfold validOpener
  rw [char, count, canOpen]

/-- A run that is no valid opener does not become one. -/
theorem validOpener_of_lowered {o o' : EmphDelim} (low : Lowered o o') {c : EmphDelim}
    (valid : validOpener u o' c = true) : validOpener u o c = true := by
  simp only [validOpener, Bool.and_eq_true, beq_iff_eq, decide_eq_true_eq] at valid ⊢
  obtain ⟨⟨⟨⟨char, active⟩, canOpen⟩, remaining⟩, rule⟩ := valid
  refine ⟨⟨⟨⟨?_, low.active active⟩, ?_⟩, ?_⟩, ?_⟩
  · rw [← low.emphChar, char]
  · rw [← low.canOpen, canOpen]
  · have := low.remaining
    omega
  · rw [← low.count, ← low.canClose, rule]

theorem lowered_deactivate (d : EmphDelim) : Lowered d (deactivate d) where
  emphChar := rfl
  count := rfl
  canOpen := rfl
  canClose := rfl
  active h := by cases h
  remaining := le_rfl

theorem Lowered.refl (d : EmphDelim) : Lowered d d := ⟨rfl, rfl, rfl, rfl, id, le_rfl⟩

/-- No opener below `bottom` serves a closer of the class of `closer`. -/
def NoneBelow (u : Unshown Parser) (delims : List EmphDelim) (closer : EmphDelim)
    (bottom : Nat) : Prop :=
  ∀ j < bottom, ∀ o, delims[j]? = some o → validOpener u o closer = false

theorem NoneBelow.of_lowered {delims delims' : List EmphDelim} {closer : EmphDelim} {bottom : Nat}
    (none : NoneBelow u delims closer bottom) (low : List.Forall₂ Lowered delims delims') :
    NoneBelow u delims' closer bottom := by
  intro j below o' at'
  obtain ⟨inRange', rfl⟩ := List.getElem?_eq_some_iff.1 at'
  have inRange : j < delims.length := by rw [low.length_eq]; exact inRange'
  have lowered : Lowered delims[j] delims'[j] := low.get inRange inRange'
  by_contra valid
  have before := none j below delims[j] (List.getElem?_eq_getElem inRange)
  rw [validOpener_of_lowered lowered (by simpa using valid)] at before
  cases before

theorem NoneBelow.mono {delims : List EmphDelim} {closer : EmphDelim} {bottom bottom' : Nat}
    (none : NoneBelow u delims closer bottom) (le : bottom' ≤ bottom) :
    NoneBelow u delims closer bottom' :=
  fun j below => none j (by omega)

/-- A full scan fails exactly when there is nothing to find. -/
theorem findOpener_eq_none {delims : List EmphDelim} {closer : EmphDelim} (oi : Nat) :
    findOpener u delims closer 0 oi = none ↔ NoneBelow u delims closer oi := by
  induction oi with
  | zero => exact ⟨fun _ j below => absurd below (Nat.not_lt_zero j), fun _ => rfl⟩
  | succ oi ih =>
    unfold findOpener
    rw [if_pos (Nat.succ_pos oi)]
    by_cases here : delims[oi]?.any (validOpener u · closer) = true
    · rw [if_pos here]
      obtain ⟨o, at', valid⟩ := (Option.any_eq_true _ _).1 here
      refine ⟨fun h => (by cases h), fun none => ?_⟩
      rw [none oi (Nat.lt_succ_self oi) o at'] at valid
      cases valid
    · rw [if_neg here, ih]
      refine ⟨fun none j below o at' => ?_, fun none => none.mono (Nat.le_succ oi)⟩
      rcases Nat.lt_succ_iff_lt_or_eq.1 below with lower | rfl
      · exact none j lower o at'
      · rw [at'] at here
        simpa using here

/-- A scan whose bound hides no valid opener finds what a full scan finds. -/
theorem findOpener_bottom {delims : List EmphDelim} {closer : EmphDelim} {bottom : Nat}
    (none : NoneBelow u delims closer bottom) (oi : Nat) :
    findOpener u delims closer bottom oi = findOpener u delims closer 0 oi := by
  induction oi with
  | zero => rfl
  | succ oi ih =>
    by_cases above : bottom < oi + 1
    · unfold findOpener
      rw [if_pos above, if_pos (Nat.succ_pos oi), ih]
    · rw [(findOpener_eq_none (oi + 1)).2 (none.mono (by omega)), findOpener, if_neg above]

/-- The invariant of the patched run: no bound hides an opener from a closer of its class. -/
def BottomsSound (u : Unshown Parser) (s : Bounded Parser) : Prop :=
  ∀ closer, NoneBelow u s.emphDelims closer (s.openersBottom (openerBottomKey closer))

theorem forall₂_lowered_refl (delims : List EmphDelim) : List.Forall₂ Lowered delims delims :=
  List.forall₂_same.2 fun d _ => Lowered.refl d

theorem forall₂_lowered_modify (delims : List EmphDelim) (i : Nat) :
    List.Forall₂ Lowered delims (delims.modify i deactivate) := by
  induction delims generalizing i with
  | nil => cases i <;> exact List.Forall₂.nil
  | cons d ds ih =>
    cases i with
    | zero => exact .cons (lowered_deactivate d) (forall₂_lowered_refl ds)
    | succ i => exact .cons (Lowered.refl d) (ih i)

theorem lowered_unmatched (s : State Parser) (closer : EmphDelim) :
    List.Forall₂ Lowered s.emphDelims (s.unmatched closer).emphDelims := by
  unfold State.unmatched
  by_cases opens : closer.canOpen = true
  · simpa only [if_pos opens] using forall₂_lowered_refl s.emphDelims
  · simpa only [if_neg opens] using forall₂_lowered_modify s.emphDelims s.closerIdx

theorem findOpener_lt {delims : List EmphDelim} {closer : EmphDelim} {bottom oi : Nat} {n : Nat}
    (found : findOpener u delims closer bottom n = some oi) : oi < n := by
  induction n with
  | zero => cases found
  | succ n ih =>
    unfold findOpener at found
    by_cases above : bottom < n + 1
    · rw [if_pos above] at found
      by_cases here : delims[n]?.any (validOpener u · closer) = true
      · rw [if_pos here] at found
        cases found
        exact Nat.lt_succ_self _
      · rw [if_neg here] at found
        exact Nat.lt_succ_of_lt (ih found)
    · rw [if_neg above] at found
      cases found

/-- What an iteration of the patched loop can do. -/
theorem scanToBottom_cases {s t : Bounded Parser} (step : scanToBottom u s = some t) :
    ∃ inRange : s.closerIdx < s.emphDelims.length,
      (t = { s with closerIdx := wrappingSucc s.closerIdx }) ∨
      (∃ oi < s.closerIdx, t = { s with toState := s.toState.matched u oi }) ∨
      (findOpener u s.emphDelims s.emphDelims[s.closerIdx]
          (s.openersBottom (openerBottomKey s.emphDelims[s.closerIdx])) s.closerIdx = none ∧
        t = ⟨s.toState.unmatched s.emphDelims[s.closerIdx],
          Function.update s.openersBottom (openerBottomKey s.emphDelims[s.closerIdx])
            s.closerIdx⟩) := by
  unfold scanToBottom at step
  by_cases inRange : s.closerIdx < s.emphDelims.length
  · refine ⟨inRange, ?_⟩
    rw [dif_pos inRange] at step
    by_cases skip : u.skips s.parser s.emphDelims s.closerIdx = true
    · rw [if_pos skip] at step
      exact .inl (Option.some.inj step).symm
    · simp only [if_neg skip] at step
      cases found : findOpener u s.emphDelims s.emphDelims[s.closerIdx]
          (s.openersBottom (openerBottomKey s.emphDelims[s.closerIdx])) s.closerIdx with
      | some oi =>
        simp only [found] at step
        exact .inr (.inl ⟨oi, findOpener_lt found, (Option.some.inj step).symm⟩)
      | none =>
        simp only [found] at step
        exact .inr (.inr ⟨rfl, (Option.some.inj step).symm⟩)
  · rw [dif_neg inRange] at step
    cases step

theorem bottomsSound_step {s t : Bounded Parser} (sound : BottomsSound u s)
    (step : scanToBottom u s = some t) : BottomsSound u t := by
  obtain ⟨inRange, rfl | ⟨oi, below, rfl⟩ | ⟨none, rfl⟩⟩ := scanToBottom_cases step
  · exact sound
  · intro closer
    exact (sound closer).of_lowered (u.lowers s.parser s.emphDelims oi s.closerIdx below inRange)
  · intro closer
    refine NoneBelow.of_lowered ?_ (lowered_unmatched s.toState s.emphDelims[s.closerIdx])
    rw [findOpener_bottom (sound _), findOpener_eq_none] at none
    dsimp only
    by_cases same : openerBottomKey closer = openerBottomKey s.emphDelims[s.closerIdx]
    · rw [same, Function.update_self]
      intro j below o at'
      rw [validOpener_of_key_eq same]
      exact none j below o at'
    · rw [Function.update_of_ne same]
      exact sound closer

/-- Where the bounds are sound, an iteration of the patched loop is one of the old loop. -/
theorem scanToBottom_simulates {s : Bounded Parser} (sound : BottomsSound u s) :
    (scanToBottom u s).map Bounded.toState = scanAll u s.toState := by
  unfold scanToBottom scanAll
  by_cases inRange : s.closerIdx < s.emphDelims.length
  · rw [dif_pos inRange, dif_pos inRange]
    by_cases skip : u.skips s.parser s.emphDelims s.closerIdx = true
    · rw [if_pos skip, if_pos skip]
      rfl
    · simp only [if_neg skip, findOpener_bottom (sound _)]
      cases findOpener u s.emphDelims s.emphDelims[s.closerIdx] 0 s.closerIdx <;> rfl
  · rw [dif_neg inRange, dif_neg inRange]
    rfl

/-- **The bounds change nothing**: after any number of iterations the patched resolver has
found the same openers for the same closers and left the same runs and the same parser as the
resolver that scans back to index 0, and the one is done when the other is. -/
theorem resolve_bottoms_agree (u : Unshown Parser) (parser : Parser) (delims : List EmphDelim)
    (n : Nat) :
    (resolveToBottom u n parser delims).map Bounded.toState = resolveAll u n parser delims :=
  loop_simulation (fun _ _ sound step => bottomsSound_step sound step)
    (fun _ sound => scanToBottom_simulates sound)
    (fun _ _ below => absurd below (Nat.not_lt_zero _)) n

/-- The run at index `i` after a match of `oi` with `ci` that uses `n` characters. -/
def afterMatch (oi ci n i : Nat) (d : EmphDelim) : EmphDelim :=
  if i = oi ∨ i = ci then { d with remaining := d.remaining - n }
  else if oi < i ∧ i < ci then deactivate d
  else d

theorem lowered_afterMatch (oi ci n i : Nat) (d : EmphDelim) :
    Lowered d (afterMatch oi ci n i d) := by
  unfold afterMatch
  by_cases matched : i = oi ∨ i = ci
  · rw [if_pos matched]
    exact ⟨rfl, rfl, rfl, rfl, id, Nat.sub_le _ _⟩
  · rw [if_neg matched]
    by_cases between : oi < i ∧ i < ci
    · rw [if_pos between]
      exact lowered_deactivate d
    · rw [if_neg between]
      exact Lowered.refl d

/-- A match as Markdown has it: two characters of both runs when both have them, else one;
the runs between are deactivated; a closer with characters left is looked at again. -/
def markdown : Unshown (List (Nat × Nat × Nat)) where
  skips _ delims i := !delims[i]?.any fun d => d.active && d.canClose && decide (0 < d.remaining)
  ruleOfThree o c openerCanClose closerCanOpen :=
    !((openerCanClose || closerCanOpen) && (o + c) % 3 == 0 && !(o == 0 && c == 0))
  processMatch matches' delims oi ci :=
    let left (i : Nat) := (delims[i]?.map EmphDelim.remaining).getD 0
    let n := if 2 ≤ left oi ∧ 2 ≤ left ci then 2 else 1
    (matches' ++ [(oi, ci, n)], delims.mapIdx (afterMatch oi ci n),
      if n < left ci then (ci + (UInt64.size - 1)) % UInt64.size else ci)
  lowers _ delims oi ci _ _ := by
    refine List.forall₂_iff_get.2 ⟨(List.length_mapIdx ..).symm, fun i h h' => ?_⟩
    simpa using lowered_afterMatch oi ci _ i delims[i]

/-- `a* a* **b* c*` and so on: two closers without an opener, an opener, two closers for it. -/
def runs : List EmphDelim :=
  [⟨42, 1, 1, false, true, true, .inl rfl⟩, ⟨42, 1, 1, false, true, true, .inl rfl⟩,
    ⟨42, 2, 2, true, false, true, .inl rfl⟩, ⟨42, 1, 1, false, true, true, .inl rfl⟩,
    ⟨42, 1, 1, false, true, true, .inl rfl⟩]

theorem resolve_bottoms_agree_markdown :
    ((resolveToBottom markdown 5 [] runs).map fun s => s.openersBottom (openerBottomKey runs[1]))
        = some 1 ∧
      (resolveAll markdown 5 [] runs).map State.found
        = some [(0, none), (1, none), (3, some 2), (4, some 2)] ∧
      (resolveToBottom markdown 5 [] runs).map Bounded.toState = resolveAll markdown 5 [] runs :=
  ⟨by decide, by decide, resolve_bottoms_agree markdown [] runs 5⟩

end SecurityAudits.BunRust.Emphasis
