import SecurityAudits.Lib.BigEndian
import SecurityAudits.Lib.Lock

/-!
# The nonces of `Sender.Seal`

An HPKE context encrypts all its messages under one key, so no two of them may use the same nonce.
`Sender.Seal` (`crypto/hpke/hpke.go`) takes the next nonce and counts the sequence number up, both under
`seqNumMu`; the encryption itself is outside. A task is one call, and any number of tasks run.

The sequence number is a `uint64` and wraps. So `seal_nonces` says exactly which calls share a nonce:
those that are a multiple of `2 ^ 64` calls apart. A context without an AEAD is left out: its calls
return an error before they come to the lock.
-/

namespace SecurityAudits.GoCrypto.SealNonce
set_option autoImplicit false
open SecurityAudits.Run SecurityAudits.Lock SecurityAudits.BigEndian

variable {Task : Type}

/-- `nextNonce`: `baseNonce XOR seqNum`, with the sequence number in the last eight bytes. -/
def nextNonce (baseNonce : List UInt8) (seqNum : UInt64) : List UInt8 :=
  List.zipWith (· ^^^ ·) baseNonce
    (List.replicate (baseNonce.length - 8) 0 ++ encode 8 seqNum.toNat)

/-- How far a call is behind `s.seqNumMu.Lock()`. -/
inductive Local where
  | locked
  | nonced (nonce : List UInt8)

/-- `Sender.Seal` up to the nonce that it gives to `s.aead.Seal`: its own steps under the lock, the
second with the `Unlock` behind it. -/
def sealCall (baseNonce : List UInt8) : Call Task UInt64 Local Unit (List UInt8) where
  prepare _ _ := .locked
  inside _ here seqNum _ :=
    match here with
    | .locked => (seqNum, .inl (.nonced (nextNonce baseNonce seqNum)))
    | .nonced nonce => (seqNum + 1, .inr nonce)

/-- `Sender.Seal` run alone: the sequence number it leaves, and the nonce it encrypts with. -/
def sealAlone (baseNonce : List UInt8) (seqNum : UInt64) : UInt64 × List UInt8 :=
  (seqNum + 1, nextNonce baseNonce seqNum)

/-! ## Nonces of different sequence numbers -/

variable {baseNonce : List UInt8} {p q : UInt64}

theorem zipWith_xor_injective {mask xs ys : List UInt8} (lengthX : xs.length = mask.length)
    (lengthY : ys.length = mask.length)
    (same : List.zipWith (· ^^^ ·) mask xs = List.zipWith (· ^^^ ·) mask ys) : xs = ys := by
  induction mask generalizing xs ys with
  | nil => rw [List.length_eq_zero_iff.1 lengthX, List.length_eq_zero_iff.1 lengthY]
  | cons b mask ih =>
    obtain ⟨x, xs, rfl⟩ := List.exists_cons_of_length_eq_add_one lengthX
    obtain ⟨y, ys, rfl⟩ := List.exists_cons_of_length_eq_add_one lengthY
    obtain ⟨first, rest⟩ := List.cons.inj same
    rw [(UInt8.xor_right_inj b).1 first, ih (by simpa using lengthX) (by simpa using lengthY) rest]

theorem nextNonce_injective (wide : 8 ≤ baseNonce.length)
    (same : nextNonce baseNonce p = nextNonce baseNonce q) : p = q := by
  have length : ∀ seqNum : UInt64,
      (List.replicate (baseNonce.length - 8) 0 ++ encode 8 seqNum.toNat).length =
        baseNonce.length := by
    intro seqNum
    simp only [List.length_append, List.length_replicate, length_encode]
    omega
  have suffix := List.append_cancel_left (zipWith_xor_injective (length p) (length q) same)
  exact UInt64.toNat_inj.1 (encode_injective p.toNat_lt q.toNat_lt suffix)

/-! ## Calls one after another -/

variable {c : Config Task UInt64 Local Unit (List UInt8)} {log : List (Entry Task Unit (List UInt8))}
  {e : Entry Task Unit (List UInt8)} {s u : UInt64}

/-- A call does under the lock what it does alone. -/
theorem replay_sealCall (ran : replay (sealCall baseNonce) e.task s e.inputs = some (u, e.result)) :
    sealAlone baseNonce s = (u, e.result) := by
  match inputs : e.inputs with
  | [] =>
    rw [inputs] at ran
    cases ran
  | [_] =>
    rw [inputs] at ran
    cases ran
  | [_, _] =>
    rw [inputs] at ran
    cases ran
  | [_, _, _] =>
    rw [inputs] at ran
    exact Option.some.inj ran
  | _ :: _ :: _ :: _ :: _ =>
    rw [inputs] at ran
    cases ran

/-- The sequence number counts the calls. -/
theorem serially_seal (s : UInt64) (calls : List Unit) :
    (serially (fun _ => sealAlone baseNonce) s calls).1 = s + UInt64.ofNat calls.length := by
  induction calls generalizing s with
  | nil => exact (UInt64.add_zero s).symm
  | cons _ calls ih =>
    rw [serially, ih, sealAlone, List.length_cons, Nat.add_comm, UInt64.ofNat_add, ← UInt64.add_assoc]
    rfl

/-- The nonce of a call is that of its place in the log. -/
theorem result_of_serial (ran : Serial (sealCall baseNonce) 0 log u) {i : Nat}
    (found : log[i]? = some e) : e.result = nextNonce baseNonce (UInt64.ofNat i) := by
  obtain ⟨short, rfl⟩ := List.getElem?_eq_some_iff.1 found
  have calls := Serial.serially (fun _ => sealAlone baseNonce) (fun _ => ())
    (fun _ _ _ => replay_sealCall) ran
  have split : log.map (fun _ => ()) =
      (log.take i).map (fun _ => ()) ++ () :: (log.drop (i + 1)).map fun _ => () := by
    rw [← List.map_cons (f := fun _ => ()) (a := log[i]), ← List.map_append,
      ← List.drop_eq_getElem_cons short, List.take_append_drop]
  rw [split] at calls
  have result := serially_result calls
  rw [serially_seal, List.length_map, List.length_take_of_le short.le, List.getElem?_map, found] at result
  simpa [sealAlone] using result

/-! ## Every interleaving -/

/-- What the calls of a context have used. -/
structure Nonces (baseNonce : List UInt8) (c : Config Task UInt64 Local Unit (List UInt8)) : Prop where
  /-- a call that is behind its `Unlock` is in the log, and encrypts with the nonce it has there -/
  returned : ∀ t nonce, c.phase t = .done nonce ↔ ∃ e ∈ c.log, e.task = t ∧ e.result = nonce
  /-- the calls use the nonces in order, none left out -/
  numbered : ∀ i e, c.log[i]? = some e → e.result = nextNonce baseNonce (UInt64.ofNat i)
  /-- two calls share a nonce when they are a multiple of `2 ^ 64` calls apart, and only then -/
  shared : ∀ i j e f, c.log[i]? = some e → c.log[j]? = some f →
    (e.result = f.result ↔ i % 2 ^ 64 = j % 2 ^ 64)
  /-- so the first `2 ^ 64` calls have nonces of their own -/
  fresh : c.log.length ≤ 2 ^ 64 → ∀ t u nonce, c.phase t = .done nonce → c.phase u = .done nonce →
    t = u

theorem ofNat_eq_iff (i j : Nat) : UInt64.ofNat i = UInt64.ofNat j ↔ i % 2 ^ 64 = j % 2 ^ 64 := by
  rw [← UInt64.toNat_inj, UInt64.toNat_ofNat', UInt64.toNat_ofNat']

/-- The sequence number is not written before the lock is released. -/
theorem seal_quiet {t : Task} {a : Unit} {as : List Unit} {here : Local}
    (inside : progress (sealCall baseNonce) t ((sealCall baseNonce).prepare t a) s as = some (u, here)) :
    u = s := by
  match as with
  | [] => exact (Prod.mk.inj (Option.some.inj inside)).1.symm
  | [_] => exact (Prod.mk.inj (Option.some.inj inside)).1.symm
  | _ :: _ :: _ => cases inside

variable [DecidableEq Task]

/-- **No nonce is used twice.** Whatever calls of `Seal` run at once, and however they interleave, the
calls take the nonces of consecutive sequence numbers, and the first `2 ^ 64` of them one each. -/
theorem seal_nonces {acts : List (Lock.Action Task Unit)} (wide : 8 ≤ baseNonce.length)
    (run : exec (step (sealCall baseNonce)) (initial 0) acts = some c) : Nonces baseNonce c := by
  have ran := serial_always (fun _ _ _ _ _ _ inside => seal_quiet inside) run
  have inv : Inv (sealCall baseNonce) 0 c :=
    exec_invariant (fun _ _ _ before taken => before.step taken) inv_initial run
  have numbered : ∀ i e, c.log[i]? = some e → e.result = nextNonce baseNonce (UInt64.ofNat i) :=
    fun _ _ found => result_of_serial ran found
  have shared : ∀ i j e f, c.log[i]? = some e → c.log[j]? = some f →
      (e.result = f.result ↔ i % 2 ^ 64 = j % 2 ^ 64) := by
    intro i j e f foundI foundJ
    rw [numbered i e foundI, numbered j f foundJ, ← ofNat_eq_iff]
    exact ⟨nextNonce_injective wide, congrArg _⟩
  refine ⟨inv.finished, numbered, shared, fun few t u nonce doneT doneU => ?_⟩
  obtain ⟨e, inE, rfl, result⟩ := (inv.finished t nonce).1 doneT
  obtain ⟨f, inF, rfl, result'⟩ := (inv.finished u nonce).1 doneU
  obtain ⟨i, foundI⟩ := List.mem_iff_getElem?.1 inE
  obtain ⟨j, foundJ⟩ := List.mem_iff_getElem?.1 inF
  have same := (shared i j e f foundI foundJ).1 (result.trans result'.symm)
  have shortI := (List.getElem?_eq_some_iff.1 foundI).1
  have shortJ := (List.getElem?_eq_some_iff.1 foundJ).1
  rw [Nat.mod_eq_of_lt (shortI.trans_le few), Nat.mod_eq_of_lt (shortJ.trans_le few)] at same
  rw [same, foundJ] at foundI
  rw [Option.some.inj foundI]

/-- Two calls at once: the second waits for the lock while the first is between its two steps. -/
def contended : List (Lock.Action Bool Unit) :=
  [.prepare false (), .prepare true (), .lock true, .inside true (), .inside true (), .lock false,
    .inside false (), .inside false ()]

def twelve : List UInt8 := [7, 0, 0, 0, 0, 0, 0, 0, 0, 0, 0, 3]

theorem seal_nonces_contended :
    ((exec (step (sealCall twelve)) (initial 0) contended).map fun c => c.log.map Entry.result) =
        some [[7, 0, 0, 0, 0, 0, 0, 0, 0, 0, 0, 3], [7, 0, 0, 0, 0, 0, 0, 0, 0, 0, 0, 2]] ∧
      ∀ c, exec (step (sealCall twelve)) (initial 0) contended = some c → Nonces twelve c :=
  ⟨by decide, fun _ run => seal_nonces (by decide) run⟩

end SecurityAudits.GoCrypto.SealNonce
