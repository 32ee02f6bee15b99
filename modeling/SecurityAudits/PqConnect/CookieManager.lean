import Mathlib.Data.List.Range
import Mathlib.Data.List.Nodup
import Mathlib.Algebra.Order.Ring.Nat
import SecurityAudits.Lib.Lock

/-!
# The nonces of `CookieManager`

The cookie manager keeps, for each timestamp, a key and the counter that its nonces are taken from.
`get_cookie_key` reads both and, for a cookie that is to be issued, advances the counter, all under
the manager's mutex; for a cookie that is to be checked it leaves the counter alone, because that
cookie brings its own nonce.

`getCookieKey` is one call run alone, `cookieCall` the same call cut into the steps between which
other tasks run. Every task makes one call, and any number of tasks run. `nonces_unique` holds at
every moment of every interleaving.
-/

namespace SecurityAudits.PqConnect.CookieManager
set_option autoImplicit false
open SecurityAudits.Run SecurityAudits.Lock

variable {Ts Key Task : Type} [DecidableEq Ts]

/-- `self._keystore[ts]` -/
structure Epoch (Key : Type) where
  key : Key
  ctr : Nat
  deriving DecidableEq, Repr

/-- `self._keystore` -/
abbrev Keystore (Ts Key : Type) := Ts → Option (Epoch Key)

/-- The exceptions that come out of `get_cookie_key`. -/
inductive CookieError where
  | valueError (message : String)
  | overflowError
  | exhaustedNonceSpaceError
  deriving DecidableEq, Repr

/-- The arguments of `get_cookie_key`, with `ts` as it is when the key is looked up. -/
structure Request (Ts : Type) where
  ts : Ts
  incrementNonce : Bool

/-- What `get_cookie_key` returns: a key and the current nonce. -/
abbrev Returned (Key : Type) := Except CookieError (Key × List UInt8)

/-- `NLEN` -/
def nlen : Nat := 12

/-- The `length` low bytes of `n`, the highest first. -/
def bigEndian : Nat → Nat → List UInt8
  | 0, _ => []
  | length + 1, n => bigEndian length (n / 256) ++ [UInt8.ofNat (n % 256)]

/-- `n.to_bytes(length, "big")` -/
def toBytes (n length : Nat) : Option (List UInt8) :=
  if n < 256 ^ length then some (bigEndian length n) else none

def invalidTimestamp : CookieError := .valueError "Invalid timestamp"

/-- The counter of `ts` has no room for another nonce: `(ctr + 1) >= (1 << NLEN)`. -/
def exhausted (ctr : Nat) : Bool := ctr + 1 ≥ 1 <<< nlen

/-- `self._keystore[ts]["ctr"] += 1` -/
def increment (store : Keystore Ts Key) (ts : Ts) (epoch : Epoch Key) : Keystore Ts Key :=
  Function.update store ts (some { epoch with ctr := epoch.ctr + 1 })

/-- `get_cookie_key`, run alone. -/
def getCookieKey (request : Request Ts) (store : Keystore Ts Key) :
    Keystore Ts Key × Returned Key :=
  match store request.ts with
  | none => (store, .error invalidTimestamp)
  | some epoch =>
    match toBytes epoch.ctr nlen with
    | none => (store, .error .overflowError)
    | some nonce =>
      if request.incrementNonce then
        if exhausted epoch.ctr then (store, .error .exhaustedNonceSpaceError)
        else (increment store request.ts epoch, .ok (epoch.key, nonce))
      else (store, .ok (epoch.key, nonce))

/-- How far a call is inside the critical section, with what it has read. -/
inductive Local (Key : Type) where
  | entered
  | keyed (key : Key)
  /-- In `_increment_nonce`. -/
  | nonced (key : Key) (nonce : List UInt8)
  /-- In `_increment_nonce`, behind its check. -/
  | checked (key : Key) (nonce : List UInt8)

/-- `get_cookie_key`, one access to the keystore a step. -/
def cookieCall (ask : Task → Request Ts) :
    Call Task (Keystore Ts Key) (Local Key) Unit (Returned Key) where
  prepare _ _ := .entered
  inside t here store _ :=
    match store (ask t).ts with
    | none => (store, .inr (.error invalidTimestamp))
    | some epoch =>
      match here with
      | .entered => (store, .inl (.keyed epoch.key))
      | .keyed key =>
        match toBytes epoch.ctr nlen with
        | none => (store, .inr (.error .overflowError))
        | some nonce =>
          if (ask t).incrementNonce then (store, .inl (.nonced key nonce))
          else (store, .inr (.ok (key, nonce)))
      | .nonced key nonce =>
        if exhausted epoch.ctr then (store, .inr (.error .exhaustedNonceSpaceError))
        else (store, .inl (.checked key nonce))
      | .checked key nonce => (increment store (ask t).ts epoch, .inr (.ok (key, nonce)))

variable {ask : Task → Request Ts} {store u : Keystore Ts Key} {t : Task} {ts : Ts}
variable {epoch : Epoch Key}

/-- A step that goes on leaves the keystore as it is. -/
theorem inside_stays {here next : Local Key} {a : Unit}
    (stays : (cookieCall ask).inside t here store a = (u, .inl next)) : u = store := by
  simp only [cookieCall] at stays
  split at stays
  · cases stays
  · cases here with
    | entered => cases stays; rfl
    | keyed key =>
      dsimp only at stays
      split at stays
      · cases stays
      · split at stays <;> cases stays
        rfl
    | nonced key nonce =>
      dsimp only at stays
      split at stays <;> cases stays
      rfl
    | checked key nonce => cases stays

/-- So a call writes to the keystore in its last step only. -/
theorem progress_quiet {here next : Local Key} {as : List Unit}
    (ran : progress (cookieCall ask) t here store as = some (u, next)) : u = store := by
  induction as generalizing here store with
  | nil => cases ran; rfl
  | cons a as ih =>
    rw [progress] at ran
    split at ran
    · rename_i m middle stays
      rw [ih ran, inside_stays stays]
    · cases ran

/-- In `_increment_nonce`, a call finds the counter exhausted, or advances it and returns. -/
theorem finish_nonced {key : Key} {nonce : List UInt8} {as : List Unit} {result : Returned Key}
    (known : store (ask t).ts = some epoch)
    (ran : finish (cookieCall ask) t (.nonced key nonce) store as = some (u, result)) :
    (u, result) = if exhausted epoch.ctr then (store, .error .exhaustedNonceSpaceError)
      else (increment store (ask t).ts epoch, .ok (key, nonce)) := by
  cases full : exhausted epoch.ctr with
  | true =>
    obtain ⟨_, released | ⟨_, _, _, stays, -⟩⟩ := finish_cases ran
    · simp only [cookieCall, known, full, if_true] at released
      cases released
      rfl
    · simp only [cookieCall, known, full, if_true] at stays
      cases stays
  | false =>
    obtain ⟨_, released | ⟨_, _, _, stays, later⟩⟩ := finish_cases ran
    · simp only [cookieCall, known, full, Bool.false_eq_true, if_false] at released
      cases released
    · simp only [cookieCall, known, full, Bool.false_eq_true, if_false] at stays
      cases stays
      obtain ⟨_, released | ⟨_, _, _, stays, -⟩⟩ := finish_cases later
      · simp only [cookieCall, known] at released
        cases released
        rfl
      · simp only [cookieCall, known] at stays
        cases stays

/-- With its key, a call goes on to the nonce. -/
theorem finish_keyed {key : Key} {as : List Unit} {result : Returned Key}
    (known : store (ask t).ts = some epoch)
    (ran : finish (cookieCall ask) t (.keyed key) store as = some (u, result)) :
    (u, result) = match toBytes epoch.ctr nlen with
      | none => (store, .error .overflowError)
      | some nonce =>
        if (ask t).incrementNonce then
          if exhausted epoch.ctr then (store, .error .exhaustedNonceSpaceError)
          else (increment store (ask t).ts epoch, .ok (key, nonce))
        else (store, .ok (key, nonce)) := by
  cases bytes : toBytes epoch.ctr nlen with
  | none =>
    obtain ⟨_, released | ⟨_, _, _, stays, -⟩⟩ := finish_cases ran
    · simp only [cookieCall, known, bytes] at released
      cases released
      rfl
    · simp only [cookieCall, known, bytes] at stays
      cases stays
  | some nonce =>
    cases issues : (ask t).incrementNonce with
    | true =>
      obtain ⟨_, released | ⟨_, _, _, stays, later⟩⟩ := finish_cases ran
      · simp only [cookieCall, known, bytes, issues, if_true] at released
        cases released
      · simp only [cookieCall, known, bytes, issues, if_true] at stays
        cases stays
        exact finish_nonced known later
    | false =>
      obtain ⟨_, released | ⟨_, _, _, stays, -⟩⟩ := finish_cases ran
      · simp only [cookieCall, known, bytes, issues, Bool.false_eq_true, if_false] at released
        cases released
        rfl
      · simp only [cookieCall, known, bytes, issues, Bool.false_eq_true, if_false] at stays
        cases stays

/-- A call cut into steps does what the call does. -/
theorem replay_getCookieKey {as : List Unit} {result : Returned Key}
    (ran : replay (cookieCall ask) t store as = some (u, result)) :
    getCookieKey (ask t) store = (u, result) := by
  cases as with
  | nil => cases ran
  | cons _ as =>
    have entered : finish (cookieCall ask) t .entered store as = some (u, result) := ran
    rw [getCookieKey]
    cases known : store (ask t).ts with
    | none =>
      obtain ⟨_, released | ⟨_, _, _, stays, -⟩⟩ := finish_cases entered
      · simp only [cookieCall, known] at released
        cases released
        rfl
      · simp only [cookieCall, known] at stays
        cases stays
    | some epoch =>
      obtain ⟨_, released | ⟨_, _, _, stays, keyed⟩⟩ := finish_cases entered
      · simp only [cookieCall, known] at released
        cases released
      · simp only [cookieCall, known] at stays
        cases stays
        exact (finish_keyed known keyed).symm

/-! ## What calls issue -/

/-- The nonce that a finished call has issued from the counter of `ts`. -/
def issuedNonce (ask : Task → Request Ts) (ts : Ts)
    (call : Entry Task Unit (Returned Key)) : Option (List UInt8) :=
  if (ask call.task).ts = ts ∧ (ask call.task).incrementNonce = true then
    match call.result with
    | .ok (_, nonce) => some nonce
    | .error _ => none
  else none

/-- The nonces that the calls of `log` have issued for `ts`, in order. -/
def issued (ask : Task → Request Ts) (ts : Ts) (log : List (Entry Task Unit (Returned Key))) :
    List (List UInt8) :=
  log.filterMap (issuedNonce ask ts)

theorem issuedNonce_check {call : Entry Task Unit (Returned Key)}
    (check : (ask call.task).incrementNonce = false) (ts : Ts) : issuedNonce ask ts call = none :=
  if_neg fun issues => absurd (issues.2.symm.trans check) (by decide)

theorem issuedNonce_error {call : Entry Task Unit (Returned Key)} {error : CookieError}
    (raised : call.result = .error error) (ts : Ts) : issuedNonce ask ts call = none := by
  rw [issuedNonce, raised]
  exact ite_self none

/-- What a call does: it issues the nonce of the counter and advances it, or it issues nothing and
leaves the keystore as it is. -/
theorem getCookieKey_cases {call : Entry Task Unit (Returned Key)}
    (ran : getCookieKey (ask call.task) store = (u, call.result)) :
    (∃ epoch, store (ask call.task).ts = some epoch ∧ (ask call.task).incrementNonce = true ∧
        exhausted epoch.ctr = false ∧ call.result = .ok (epoch.key, bigEndian nlen epoch.ctr) ∧
        u = increment store (ask call.task).ts epoch) ∨
      u = store ∧ ∀ ts, issuedNonce ask ts call = none := by
  have raises : ∀ error, (store, .error error) = (u, call.result) →
      u = store ∧ ∀ ts, issuedNonce ask ts call = none := by
    intro error same
    obtain ⟨stays, raised⟩ := Prod.mk.inj same
    exact ⟨stays.symm, issuedNonce_error raised.symm⟩
  rw [getCookieKey] at ran
  cases known : store (ask call.task).ts with
  | none =>
    rw [known] at ran
    exact .inr (raises _ ran)
  | some epoch =>
    rw [known] at ran
    dsimp only at ran
    cases bytes : toBytes epoch.ctr nlen with
    | none =>
      rw [bytes] at ran
      exact .inr (raises _ ran)
    | some nonce =>
      rw [bytes] at ran
      dsimp only at ran
      cases issues : (ask call.task).incrementNonce with
      | false =>
        rw [issues] at ran
        obtain ⟨stays, -⟩ := Prod.mk.inj ran
        exact .inr ⟨stays.symm, issuedNonce_check issues⟩
      | true =>
        rw [issues, if_pos rfl] at ran
        cases full : exhausted epoch.ctr with
        | true =>
          rw [full] at ran
          exact .inr (raises _ ran)
        | false =>
          rw [full] at ran
          obtain ⟨advanced, returned⟩ := Prod.mk.inj ran
          have encoded : nonce = bigEndian nlen epoch.ctr := by
            unfold toBytes at bytes
            split at bytes <;> cases bytes
            rfl
          refine .inl ⟨epoch, rfl, rfl, full, ?_, advanced.symm⟩
          rw [← encoded]
          exact returned.symm

theorem bigEndian_inj {length n m : Nat} (small : n < 256 ^ length) (small' : m < 256 ^ length)
    (same : bigEndian length n = bigEndian length m) : n = m := by
  induction length generalizing n m with
  | zero => omega
  | succ length ih =>
    rw [Nat.pow_succ] at small small'
    obtain ⟨high, low⟩ := List.append_inj' same rfl
    have high := ih (by omega) (by omega) high
    have byte : ∀ k : Nat, (UInt8.ofNat (k % 256)).toNat = k % 256 := fun k =>
      UInt8.toNat_ofNat_of_lt' (Nat.mod_lt k (by decide))
    have low := congrArg UInt8.toNat (List.cons.inj low).1
    rw [byte, byte] at low
    omega

/-- The counters after some calls, and the nonces that these have issued: those of consecutive
values of the counter, none of which is beyond the last one that there is room for. -/
structure Counted (ask : Task → Request Ts) (store : Keystore Ts Key)
    (log : List (Entry Task Unit (Returned Key))) (u : Keystore Ts Key) (ts : Ts) : Prop where
  counter : u ts = (store ts).map fun epoch =>
    { epoch with ctr := epoch.ctr + (issued ask ts log).length }
  consecutive : ∀ epoch, store ts = some epoch →
    issued ask ts log = (List.range' epoch.ctr (issued ask ts log).length).map (bigEndian nlen)
  room : ∀ epoch, store ts = some epoch → issued ask ts log ≠ [] →
    epoch.ctr + (issued ask ts log).length < 1 <<< nlen
  unknown : store ts = none → issued ask ts log = []

theorem issued_cons (call : Entry Task Unit (Returned Key))
    (log : List (Entry Task Unit (Returned Key))) :
    issued ask ts (call :: log) = (issuedNonce ask ts call).toList ++ issued ask ts log := by
  rw [issued, List.filterMap_cons]
  cases issuedNonce ask ts call <;> rfl

theorem counted_nil : Counted ask store [] store ts where
  counter := by
    cases store ts <;> rfl
  consecutive _ _ := rfl
  room _ _ some := absurd rfl some
  unknown _ := rfl

/-- A call that issues nothing for `ts`, before others. -/
theorem Counted.cons_other {call : Entry Task Unit (Returned Key)} {m : Keystore Ts Key}
    {log : List (Entry Task Unit (Returned Key))} (counted : Counted ask m log u ts)
    (same : m ts = store ts) (none : issuedNonce ask ts call = none) :
    Counted ask store (call :: log) u ts := by
  have nonces : issued ask ts (call :: log) = issued ask ts log := by
    rw [issued_cons, none]
    rfl
  constructor
  · rw [nonces, ← same]
    exact counted.counter
  · rw [nonces, ← same]
    exact counted.consecutive
  · rw [nonces, ← same]
    exact counted.room
  · rw [nonces, ← same]
    exact counted.unknown

/-- A call that issues a nonce for `ts`, before others. -/
theorem Counted.cons_issues {call : Entry Task Unit (Returned Key)} {m : Keystore Ts Key}
    {log : List (Entry Task Unit (Returned Key))} (counted : Counted ask m log u ts)
    (known : store ts = some epoch) (advanced : m ts = some { epoch with ctr := epoch.ctr + 1 })
    (room : exhausted epoch.ctr = false)
    (nonce : issuedNonce ask ts call = some (bigEndian nlen epoch.ctr)) :
    Counted ask store (call :: log) u ts := by
  have nonces : issued ask ts (call :: log) = bigEndian nlen epoch.ctr :: issued ask ts log := by
    rw [issued_cons, nonce]
    rfl
  have left : epoch.ctr + 1 < 1 <<< nlen := by
    have := of_decide_eq_false room
    omega
  have count : ∀ n, epoch.ctr + 1 + n = epoch.ctr + (n + 1) := fun n => by omega
  constructor
  · rw [nonces, counted.counter, advanced, known, List.length_cons, Option.map_some, Option.map_some,
      count]
  · intro epoch' known'
    cases known.symm.trans known'
    rw [nonces, List.length_cons, List.range'_succ, List.map_cons,
      ← counted.consecutive _ advanced]
  · intro epoch' known' _
    cases known.symm.trans known'
    rw [nonces, List.length_cons]
    by_cases empty : issued ask ts log = []
    · rw [empty]
      exact left
    · rw [← count]
      exact counted.room _ advanced empty
  · intro unknown
    cases known.symm.trans unknown

theorem serial_counted {log : List (Entry Task Unit (Returned Key))}
    (ran : Serial (cookieCall ask) store log u) (ts : Ts) : Counted ask store log u ts := by
  induction ran with
  | nil s => exact counted_nil
  | @cons s m u call log replayed _ ih =>
    rcases getCookieKey_cases (replay_getCookieKey replayed) with
      ⟨epoch, known, issues, room, returned, advanced⟩ | ⟨stays, none⟩
    · by_cases here : (ask call.task).ts = ts
      · subst here
        refine ih.cons_issues known ?_ room ?_
        · rw [advanced, increment, Function.update_self]
        · rw [issuedNonce, if_pos ⟨rfl, issues⟩, returned]
      · refine ih.cons_other ?_ (if_neg fun issues => here issues.1)
        rw [advanced, increment, Function.update_of_ne (Ne.symm here)]
    · exact ih.cons_other (congrFun stays ts) (none ts)

section Logs

variable {log before after : List (Entry Task Unit (Returned Key))}
variable {call : Entry Task Unit (Returned Key)}

/-- The key and the nonce of a cookie that a finished call has issued. -/
def issuedCookie (ask : Task → Request Ts) (call : Entry Task Unit (Returned Key)) :
    Option (Key × List UInt8) :=
  if (ask call.task).incrementNonce then call.result.toOption else none

/-- What a finished call has found in the keystore. -/
theorem call_found (ran : Serial (cookieCall ask) store (before ++ call :: after) u) :
    ∃ m v, getCookieKey (ask call.task) m = (v, call.result) ∧
      ∀ ts, Counted ask store before m ts := by
  obtain ⟨m, v, earlier, here⟩ := ran.middle
  exact ⟨m, v, replay_getCookieKey here, serial_counted earlier⟩

theorem Counted.nodup (counted : Counted ask store log u ts) : (issued ask ts log).Nodup := by
  cases known : store ts with
  | none =>
    rw [counted.unknown known]
    exact List.nodup_nil
  | some epoch =>
    by_cases empty : issued ask ts log = []
    · rw [empty]
      exact List.nodup_nil
    · have room := counted.room epoch known empty
      have fits : ∀ n ∈ List.range' epoch.ctr (issued ask ts log).length, n < 256 ^ nlen := by
        intro n mem
        have below := (List.mem_range'_1.1 mem).2
        have bound : 1 <<< nlen < 256 ^ nlen := by decide
        omega
      rw [counted.consecutive epoch known]
      refine List.Nodup.map_on (fun n memN m memM same => ?_) List.nodup_range'
      exact bigEndian_inj (fits n memN) (fits m memM) same

/-- What a call that returns, or that finds the counter exhausted, has read. -/
theorem getCookieKey_read {request : Request Ts} {result : Returned Key}
    (ran : getCookieKey request store = (u, result)) :
    (∀ key nonce, result = .ok (key, nonce) → ∃ epoch, store request.ts = some epoch ∧
        epoch.key = key) ∧
      (result = .error .exhaustedNonceSpaceError → request.incrementNonce = true ∧
        ∃ epoch, store request.ts = some epoch ∧ exhausted epoch.ctr = true) := by
  rw [getCookieKey] at ran
  cases known : store request.ts with
  | none =>
    rw [known] at ran
    cases ran
    exact ⟨fun _ _ returned => (by cases returned), fun raised => (by cases raised)⟩
  | some epoch =>
    rw [known] at ran
    dsimp only at ran
    cases bytes : toBytes epoch.ctr nlen with
    | none =>
      rw [bytes] at ran
      cases ran
      exact ⟨fun _ _ returned => (by cases returned), fun raised => (by cases raised)⟩
    | some nonce =>
      rw [bytes] at ran
      dsimp only at ran
      split at ran
      · rename_i issues
        split at ran
        · rename_i full
          cases ran
          exact ⟨fun _ _ returned => (by cases returned), fun _ => ⟨issues, epoch, rfl, full⟩⟩
        · cases ran
          exact ⟨fun _ _ returned => ⟨epoch, rfl, by cases returned; rfl⟩,
            fun raised => (by cases raised)⟩
      · cases ran
        exact ⟨fun _ _ returned => ⟨epoch, rfl, by cases returned; rfl⟩,
          fun raised => (by cases raised)⟩

/-- A call that returns returns the key that its timestamp had from the beginning. -/
theorem call_key (ran : Serial (cookieCall ask) store (before ++ call :: after) u) {key : Key}
    {nonce : List UInt8} (returned : call.result = .ok (key, nonce)) :
    ∃ epoch, store (ask call.task).ts = some epoch ∧ epoch.key = key := by
  obtain ⟨m, v, found, counted⟩ := call_found ran
  obtain ⟨epoch, known, same⟩ := (getCookieKey_read found).1 key nonce returned
  rw [(counted _).counter, Option.map_eq_some_iff] at known
  obtain ⟨epoch', known, rfl⟩ := known
  exact ⟨epoch', known, same⟩

/-- A call that finds the counter exhausted was to issue a cookie, and the calls before it have used
the nonces up. -/
theorem call_exhausted (ran : Serial (cookieCall ask) store (before ++ call :: after) u)
    (raised : call.result = .error .exhaustedNonceSpaceError) :
    (ask call.task).incrementNonce = true ∧ ∃ epoch, store (ask call.task).ts = some epoch ∧
      exhausted (epoch.ctr + (issued ask (ask call.task).ts before).length) = true := by
  obtain ⟨m, v, found, counted⟩ := call_found ran
  obtain ⟨issues, epoch, known, full⟩ := (getCookieKey_read found).2 raised
  rw [(counted _).counter, Option.map_eq_some_iff] at known
  obtain ⟨epoch', known, rfl⟩ := known
  exact ⟨issues, epoch', known, full⟩

theorem issuedNonce_of_cookie {key : Key} {nonce : List UInt8}
    (cookie : issuedCookie ask call = some (key, nonce)) :
    call.result = .ok (key, nonce) ∧ issuedNonce ask (ask call.task).ts call = some nonce := by
  rw [issuedCookie] at cookie
  split at cookie
  · rename_i issues
    cases returned : call.result with
    | error e =>
      rw [returned] at cookie
      cases cookie
    | ok pair =>
      rw [returned] at cookie
      cases cookie
      refine ⟨rfl, ?_⟩
      rw [issuedNonce, if_pos ⟨rfl, issues⟩, returned]
  · cases cookie

/-- Where timestamps have different keys, no cookie is issued with key and nonce of another. -/
theorem cookies_nodup (ran : Serial (cookieCall ask) store log u)
    (keys : ∀ ts ts' epoch epoch', store ts = some epoch → store ts' = some epoch' →
      epoch.key = epoch'.key → ts = ts') : (log.filterMap (issuedCookie ask)).Nodup := by
  have key_of : ∀ call ∈ log, ∀ key nonce, call.result = .ok (key, nonce) →
      ∃ epoch, store (ask call.task).ts = some epoch ∧ epoch.key = key := by
    intro call mem key nonce returned
    obtain ⟨before, after, split⟩ := List.append_of_mem mem
    exact call_key (split ▸ ran) returned
  have nonces : ∀ ts, log.Pairwise fun call call' => ∀ nonce, issuedNonce ask ts call = some nonce →
      ∀ nonce', issuedNonce ask ts call' = some nonce' → nonce ≠ nonce' := fun ts =>
    List.pairwise_filterMap.1 (serial_counted ran ts).nodup
  refine List.pairwise_filterMap.2 (List.pairwise_iff_getElem.2 fun i j hi hj lt => ?_)
  rintro ⟨key, nonce⟩ cookie ⟨key', nonce'⟩ cookie' same
  obtain ⟨rfl, rfl⟩ := Prod.mk.inj same
  obtain ⟨returned, issued⟩ := issuedNonce_of_cookie cookie
  obtain ⟨returned', issued'⟩ := issuedNonce_of_cookie cookie'
  obtain ⟨epoch, known, keyed⟩ := key_of _ (List.getElem_mem hi) _ _ returned
  obtain ⟨epoch', known', keyed'⟩ := key_of _ (List.getElem_mem hj) _ _ returned'
  have timestamps := keys _ _ _ _ known known' (keyed.trans keyed'.symm)
  rw [← timestamps] at issued'
  exact List.pairwise_iff_getElem.1 (nonces _) i j hi hj lt nonce issued nonce issued' rfl

end Logs

variable {start : Keystore Ts Key} [DecidableEq Task]
variable {acts : List (Action Task Unit)}
variable {c : Config Task (Keystore Ts Key) (Local Key) Unit (Returned Key)}

/-- **The nonces.** At every moment of every interleaving of tasks that issue and that check
cookies: no two issued cookies have the same key and nonce; the counter of a timestamp has advanced
by the cookies issued for it, so that checks alone leave it as it is; and only a task that was to
issue a cookie is ever told that the nonces are exhausted, when the issued ones have used them up. -/
theorem nonces_unique (run : exec (Lock.step (cookieCall ask)) (initial start) acts = some c) :
    (∀ ts, (issued ask ts c.log).Nodup) ∧
      ((∀ ts ts' epoch epoch', start ts = some epoch → start ts' = some epoch' →
        epoch.key = epoch'.key → ts = ts') → (c.log.filterMap (issuedCookie ask)).Nodup) ∧
      (∀ ts, c.shared ts = (start ts).map fun epoch =>
        { epoch with ctr := epoch.ctr + (issued ask ts c.log).length }) ∧
      (∀ ts, (∀ call ∈ c.log, (ask call.task).ts = ts → (ask call.task).incrementNonce = false) →
        c.shared ts = start ts) ∧
      ∀ before call after, c.log = before ++ call :: after →
        call.result = .error .exhaustedNonceSpaceError →
        (ask call.task).incrementNonce = true ∧ ∃ epoch, start (ask call.task).ts = some epoch ∧
          exhausted (epoch.ctr + (issued ask (ask call.task).ts before).length) = true := by
  have ran : Serial (cookieCall ask) start c.log c.shared :=
    serial_always (fun _ _ _ _ _ _ ran => progress_quiet ran) run
  have counted := fun ts => serial_counted ran ts
  refine ⟨fun ts => (counted ts).nodup, cookies_nodup ran, fun ts => (counted ts).counter, ?_, ?_⟩
  · intro ts checks
    have none : issued ask ts c.log = [] := by
      refine List.filterMap_eq_nil_iff.2 fun call mem => if_neg fun issues => ?_
      exact absurd (issues.2.symm.trans (checks call mem issues.1)) (by decide)
    rw [(counted ts).counter, none]
    cases start ts <;> rfl
  · intro before call after split raised
    exact call_exhausted (split ▸ ran) raised

/-- The tasks issue cookies, but for task 1, which checks one. -/
def sampleAsk (t : Nat) : Request Unit := ⟨(), t ≠ 1⟩

/-- Task 1 is checking while the others wait for the lock. -/
def sampleRun : List (Lock.Action Nat Unit) :=
  [.prepare 0 (), .prepare 1 (), .lock 0, .inside 0 (), .prepare 2 (), .inside 0 (), .inside 0 (),
    .inside 0 (), .lock 1, .inside 1 (), .inside 1 (), .lock 2, .inside 2 (), .inside 2 (),
    .inside 2 (), .inside 2 ()]

theorem nonces_sample : ∃ c,
    exec (Lock.step (cookieCall sampleAsk)) (initial fun _ => some ⟨"key", 0⟩) sampleRun = some c ∧
      (issued sampleAsk () c.log).Nodup ∧
      c.shared () = some ⟨"key", (issued sampleAsk () c.log).length⟩ := by
  have ends : (exec (Lock.step (cookieCall sampleAsk)) (initial fun _ => some ⟨"key", 0⟩)
      sampleRun).isSome = true := by decide +kernel
  obtain ⟨c, run⟩ := Option.isSome_iff_exists.1 ends
  obtain ⟨nodup, -, counter, -⟩ := nonces_unique run
  refine ⟨c, run, nodup (), (counter ()).trans ?_⟩
  rw [Option.map_some, Nat.zero_add]

end SecurityAudits.PqConnect.CookieManager
