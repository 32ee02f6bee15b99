import SecurityAudits.Lib.CString

/-!
# The mdstore list reply

`mdstore_rx_data` of `usr.sbin/ldomctl/mdstore.c` reads a reply of the mdstore service. The packet
is the object that its pointers point into, so a read outside it has no result (`Lib.CString`), and
neither has `payload_len - len` where it would wrap. The layout of the reply and its byte order are
those of the included headers, and parameters here.

`Records` says which names are in the bytes of the list, without the loop. Whatever the service
sends, `mdstore_rx_data` returns, and inserts one set for each of them (`rxData_inserts`).
-/

namespace SecurityAudits.OpenbsdBin.Mdstore
set_option autoImplicit false

open CString (memchr strdup)

/-- A member of a structure: its offset and its size. -/
structure Field where
  offset : Nat
  size : Nat

/-- `struct mdstore_list_resp`, whose last member is `sets`, and the constants of its header. -/
structure Header where
  result : Field
  payloadLen : Field
  bootedSet : Field
  bootSet : Field
  /-- `offsetof(struct mdstore_list_resp, sets)` -/
  sets : Nat
  result_le : result.offset + result.size ≤ sets
  payloadLen_le : payloadLen.offset + payloadLen.size ≤ sets
  bootedSet_le : bootedSet.offset + bootedSet.size ≤ sets
  bootSet_le : bootSet.offset + bootSet.size ≤ sets
  /-- The integer that the bytes of a member hold. -/
  integer : List UInt8 → Nat
  /-- `MDST_SUCCESS` -/
  success : Nat
  /-- `MDSET_LIST_REQUEST` -/
  listRequest : Nat
  /-- What a reply has behind the timestamp of a set from version 3 on. -/
  version3 : Nat

/-- `struct mdstore_set` -/
structure MdstoreSet where
  name : List UInt8
  bootedSet : Bool
  bootSet : Bool
  deriving DecidableEq, Repr

/-- The static variables of `mdstore.c` that are used here. -/
structure Globals where
  mdstoreCommand : Nat
  mdstoreMajor : Nat
  mdstoreSets : List MdstoreSet
  deriving DecidableEq, Repr

/-- How `mdstore_rx_data` ends: with the switch over the error results, or with its return. -/
inductive Outcome where
  | failed (result : Nat)
  | returned (globals : Globals)
  deriving DecidableEq, Repr

/-- `mr->field` -/
def Field.read (f : Field) (h : Header) (data : List UInt8) : Option Nat :=
  if f.offset + f.size ≤ data.length then some (h.integer ((data.drop f.offset).take f.size))
  else none

/-- `a - b`, when it does not wrap. -/
def minus (a b : Nat) : Option Nat := if b ≤ a then some (a - b) else none

/-- What `len` skips behind the NUL of a name. -/
def Header.skipped (h : Header) (major : Nat) : Nat :=
  (if major ≥ 2 then 8 else 0) + if major ≥ 3 then h.version3 else 0

/-- The loop over the list, from the `idx`-th set on, for at most `fuel` evaluations of its
condition. -/
def listLoop (h : Header) (major : Nat) (data : List UInt8) (payloadLen : Nat) :
    Nat → Nat → Nat → Option (List MdstoreSet)
  | 0, _, _ => none
  | fuel + 1, idx, len =>
    if len < payloadLen then do
      let sets := data.drop (h.sets + len)
      let left ← minus payloadLen len
      match ← memchr sets 0 left with
      | none => return []
      | some nul =>
        let name ← strdup sets
        let bootedSet ← h.bootedSet.read h data
        let bootSet ← h.bootSet.read h data
        let len := len + (nul + 1)
        let len := if major ≥ 2 then len + 8 else len
        let len := if major ≥ 3 then len + h.version3 else len
        let later ← listLoop h major data payloadLen fuel (idx + 1) len
        return ⟨name, idx = bootedSet, idx = bootSet⟩ :: later
    else return []

/-- The case `MDSET_LIST_REQUEST`: the sets that are inserted at the tail of `mdstore_sets`. -/
def listReply (h : Header) (major : Nat) (data : List UInt8) (fuel : Nat) :
    Option (List MdstoreSet) :=
  if data.length < h.sets then some []
  else do
    let advertised ← h.payloadLen.read h data
    if advertised < 24 then return []
    else
      let payloadLen := min (data.length - h.sets) (advertised - 24)
      listLoop h major data payloadLen fuel 0 0

/-- `mdstore_rx_data` -/
def rxData (h : Header) (g : Globals) (data : List UInt8) (fuel : Nat) : Option Outcome :=
  if data.length < h.result.offset + h.result.size then
    some (.returned { g with mdstoreCommand := 0 })
  else do
    let result ← h.result.read h data
    if result ≠ h.success then return .failed result
    else if g.mdstoreCommand = h.listRequest then do
      let sets ← listReply h g.mdstoreMajor data fuel
      return .returned { g with mdstoreCommand := 0, mdstoreSets := g.mdstoreSets ++ sets }
    else return .returned { g with mdstoreCommand := 0 }

/-- `names` are the names in the bytes of a list: each ends in a NUL, behind which `skipped` bytes
(or what is left) are passed over, and what is behind the last contains no NUL. -/
inductive Records (skipped : Nat) : List UInt8 → List (List UInt8) → Prop where
  | done {bytes : List UInt8} (unterminated : 0 ∉ bytes) : Records skipped bytes []
  | record {name behind : List UInt8} {names : List (List UInt8)} (noNul : 0 ∉ name)
      (later : Records skipped (behind.drop skipped) names) :
      Records skipped (name ++ 0 :: behind) (name :: names)

/-- The sets for these names, the first of which has the position `idx`. -/
def setsOf (bootedSet bootSet : Nat) : Nat → List (List UInt8) → List MdstoreSet
  | _, [] => []
  | idx, name :: names =>
    ⟨name, idx = bootedSet, idx = bootSet⟩ :: setsOf bootedSet bootSet (idx + 1) names

variable {h : Header} {major payloadLen idx len : Nat} {data : List UInt8}

theorem Field.read_of_le (h : Header) {f : Field} {bound : Nat} (before : f.offset + f.size ≤ bound)
    (long : bound ≤ data.length) : ∃ n, f.read h data = some n :=
  ⟨_, if_pos (before.trans long)⟩

/-- The bytes of a list determine its names. -/
theorem Records.unique {skipped : Nat} {bytes : List UInt8} {names names' : List (List UInt8)}
    (records : Records skipped bytes names) (records' : Records skipped bytes names') :
    names = names' := by
  induction records generalizing names' with
  | done unterminated =>
    cases records' with
    | done _ => rfl
    | record _ _ => exact absurd (List.mem_append_right _ List.mem_cons_self) unterminated
  | @record name behind names noNul _ ih =>
    generalize split : name ++ 0 :: behind = bytes at records'
    cases records' with
    | done unterminated =>
      exact absurd (split ▸ List.mem_append_right name List.mem_cons_self) unterminated
    | record noNul' later =>
      obtain ⟨rfl, rfl⟩ := CString.first_unique noNul noNul' split
      rw [ih later]

/-- The bytes of the list that the loop has still to look at. -/
def window (h : Header) (data : List UInt8) (payloadLen len : Nat) : List UInt8 :=
  (data.drop (h.sets + len)).take (payloadLen - len)

theorem window_add (n : Nat) :
    window h data payloadLen (len + n) = (window h data payloadLen len).drop n := by
  rw [window, window, List.drop_take, List.drop_drop, Nat.add_assoc, Nat.sub_sub]

theorem skipped_eq (n : Nat) :
    (if major ≥ 3 then (if major ≥ 2 then n + 8 else n) + h.version3
      else if major ≥ 2 then n + 8 else n) = n + h.skipped major := by
  unfold Header.skipped
  split <;> split <;> omega

section Iteration

variable {bootedSet bootSet fuel : Nat} {name behind : List UInt8}

/-- Where no name is left in the window, also where it is empty or `len` is past its end, the loop
is over. -/
theorem listLoop_done (room : payloadLen ≤ data.length - h.sets)
    (unterminated : 0 ∉ window h data payloadLen len) :
    listLoop h major data payloadLen (fuel + 1) idx len = some [] := by
  rw [listLoop]
  by_cases inside : len < payloadLen
  · have left : minus payloadLen len = some (payloadLen - len) := if_pos (Nat.le_of_lt inside)
    have enough : payloadLen - len ≤ (data.drop (h.sets + len)).length := by
      rw [List.length_drop]
      omega
    rw [if_pos inside, left]
    show (memchr _ 0 (payloadLen - len)).bind _ = _
    rw [CString.memchr_absent enough unterminated]
    rfl
  · rw [if_neg inside]
    rfl

/-- An iteration that finds a name. -/
theorem listLoop_record (split : window h data payloadLen len = name ++ 0 :: behind)
    (noNul : 0 ∉ name) (booted : h.bootedSet.read h data = some bootedSet)
    (boot : h.bootSet.read h data = some bootSet) :
    listLoop h major data payloadLen (fuel + 1) idx len =
      (listLoop h major data payloadLen fuel (idx + 1)
        (len + (name.length + 1 + h.skipped major))).map
        (⟨name, idx = bootedSet, idx = bootSet⟩ :: ·) := by
  have length : name.length < payloadLen - len := by
    have shorter : (window h data payloadLen len).length ≤ payloadLen - len :=
      List.length_take_le _ _
    rw [split, List.length_append, List.length_cons] at shorter
    omega
  have left : minus payloadLen len = some (payloadLen - len) := if_pos (by omega)
  have sets : data.drop (h.sets + len) =
      name ++ 0 :: (behind ++ (data.drop (h.sets + len)).drop (payloadLen - len)) := by
    rw [← List.cons_append, ← List.append_assoc, ← split, window, List.take_append_drop]
  rw [listLoop, if_pos (by omega), left]
  show (memchr (data.drop (h.sets + len)) 0 (payloadLen - len)).bind _ = _
  rw [sets, CString.memchr_found noNul length]
  show (strdup _).bind _ = _
  rw [CString.strdup_terminated noNul, booted, boot]
  show (listLoop h major data payloadLen fuel (idx + 1)
    (if major ≥ 3 then (if major ≥ 2 then _ else _) + h.version3 else _)).bind _ = _
  rw [skipped_eq, Nat.add_assoc]
  cases listLoop h major data payloadLen fuel (idx + 1)
    (len + (name.length + 1 + h.skipped major)) <;> rfl

/-- The loop inserts a set for each name that the window has from `len` on. -/
theorem listLoop_records (room : payloadLen ≤ data.length - h.sets)
    (booted : h.bootedSet.read h data = some bootedSet) (boot : h.bootSet.read h data = some bootSet)
    (some : 0 < fuel) (enough : payloadLen < len + fuel) :
    ∃ names, Records (h.skipped major) (window h data payloadLen len) names ∧
      listLoop h major data payloadLen fuel idx len = .some (setsOf bootedSet bootSet idx names) := by
  induction fuel generalizing idx len with
  | zero => exact absurd some (Nat.lt_irrefl 0)
  | succ fuel ih =>
    by_cases terminated : 0 ∈ window h data payloadLen len
    · obtain ⟨name, behind, split, noNul⟩ := CString.exists_first terminated
      have inside : len < payloadLen := by
        by_contra outside
        rw [window, Nat.sub_eq_zero_of_le (Nat.le_of_not_lt outside)] at terminated
        cases terminated
      obtain ⟨names, records, inserts⟩ :=
        @ih (idx + 1) (len + (name.length + 1 + h.skipped major)) (by omega) (by omega)
      have later : window h data payloadLen (len + (name.length + 1 + h.skipped major)) =
          behind.drop (h.skipped major) := by
        rw [window_add, split, ← List.drop_drop, List.drop_length_add_append]
        rfl
      refine ⟨name :: names, ?_, ?_⟩
      · rw [split]
        exact .record noNul (later ▸ records)
      · rw [listLoop_record split noNul booted boot, inserts]
        rfl
    · exact ⟨[], .done terminated, listLoop_done room terminated⟩

end Iteration

/-- `mdstore_rx_data` gets to its list: the packet is a successful reply to a list request, and
holds all members before the list. -/
def ListReply (h : Header) (g : Globals) (data : List UInt8) : Prop :=
  h.result.read h data = some h.success ∧ g.mdstoreCommand = h.listRequest ∧
    h.sets ≤ data.length

/-- `sets` are those of the list in `data`, which ends where the packet ends and where its payload
does. -/
def Inserts (h : Header) (major : Nat) (data : List UInt8) (sets : List MdstoreSet) : Prop :=
  ∃ advertised bootedSet bootSet names, h.payloadLen.read h data = some advertised ∧
    h.bootedSet.read h data = some bootedSet ∧ h.bootSet.read h data = some bootSet ∧
    Records (h.skipped major)
      ((data.drop h.sets).take (min (data.length - h.sets) (advertised - 24))) names ∧
    sets = setsOf bootedSet bootSet 0 names

theorem listReply_of_lt (short : data.length < h.sets) (fuel : Nat) :
    listReply h major data fuel = some [] :=
  if_pos short

theorem listReply_inserts (major : Nat) (long : h.sets ≤ data.length) (extra : Nat) :
    ∃ sets, listReply h major data (data.length + 1 + extra) = some sets ∧
      Inserts h major data sets := by
  obtain ⟨payload, advertised⟩ := Field.read_of_le h h.payloadLen_le long
  obtain ⟨bootedSet, booted⟩ := Field.read_of_le h h.bootedSet_le long
  obtain ⟨bootSet, boot⟩ := Field.read_of_le h h.bootSet_le long
  rw [listReply, if_neg (Nat.not_lt.2 long), advertised]
  show ∃ sets, (if payload < 24 then _ else _) = _ ∧ _
  by_cases small : payload < 24
  · -- the source leaves the switch, and the list is empty
    have empty : Records (h.skipped major)
        ((data.drop h.sets).take (min (data.length - h.sets) (payload - 24))) [] := by
      rw [Nat.sub_eq_zero_of_le (Nat.le_of_lt small), Nat.min_zero]
      exact .done List.not_mem_nil
    exact ⟨[], if_pos small, payload, bootedSet, bootSet, [], advertised, booted, boot, empty, rfl⟩
  · have inserted : ∃ names, Records (h.skipped major)
          (window h data (min (data.length - h.sets) (payload - 24)) 0) names ∧
        listLoop h major data (min (data.length - h.sets) (payload - 24))
          (data.length + 1 + extra) 0 0 = some (setsOf bootedSet bootSet 0 names) :=
      listLoop_records (Nat.min_le_left _ _) booted boot (by omega) (by omega)
    obtain ⟨names, records, inserts⟩ := inserted
    exact ⟨_, (if_neg small).trans inserts, payload, bootedSet, bootSet, names, advertised, booted,
      boot, records, rfl⟩

/-- **The list reply.** Whatever the service sends, `mdstore_rx_data` comes to its end without a
read outside the packet and without a length that wraps. On a list it inserts, in order, exactly one
set for each name that the list holds, and otherwise none. -/
theorem rxData_inserts (h : Header) (g : Globals) (data : List UInt8) (extra : Nat) :
    (∃ result, h.result.read h data = some result ∧ result ≠ h.success ∧
      rxData h g data (data.length + 1 + extra) = some (.failed result)) ∨
    ∃ sets, rxData h g data (data.length + 1 + extra) =
        some (.returned { g with mdstoreCommand := 0, mdstoreSets := g.mdstoreSets ++ sets }) ∧
      (ListReply h g data → Inserts h g.mdstoreMajor data sets) ∧
      (¬ ListReply h g data → sets = []) := by
  have cleared : some (Outcome.returned { g with mdstoreCommand := 0 }) = some (.returned
      { g with mdstoreCommand := 0, mdstoreSets := g.mdstoreSets ++ [] }) := by
    rw [List.append_nil]
  rw [rxData]
  by_cases short : data.length < h.result.offset + h.result.size
  · refine .inr ⟨[], (if_pos short).trans cleared, fun ⟨_, _, long⟩ => ?_, fun _ => rfl⟩
    exact absurd (h.result_le.trans long) (Nat.not_le.2 short)
  obtain ⟨result, read⟩ := Field.read_of_le h (Nat.le_refl _) (Nat.not_lt.1 short)
  rw [if_neg short, read]
  show (∃ result', some result = some result' ∧ result' ≠ h.success ∧
    (if result ≠ h.success then _ else _) = _) ∨ ∃ sets, (if result ≠ h.success then _ else _) = _ ∧ _
  by_cases success : result = h.success
  · rw [if_neg (not_not_intro success)]
    refine .inr ?_
    by_cases list : g.mdstoreCommand = h.listRequest
    · rw [if_pos list]
      by_cases long : h.sets ≤ data.length
      · obtain ⟨sets, replied, inserts⟩ := listReply_inserts g.mdstoreMajor long extra
        rw [replied]
        refine ⟨sets, rfl, fun _ => inserts, fun other => ?_⟩
        exact absurd ⟨success ▸ read, list, long⟩ other
      · rw [listReply_of_lt (Nat.not_le.1 long)]
        exact ⟨[], rfl, fun reply => absurd reply.2.2 long, fun _ => rfl⟩
    · rw [if_neg list]
      exact ⟨[], cleared, fun reply => absurd reply.2.1 list, fun _ => rfl⟩
  · exact .inl ⟨result, rfl, success, if_pos success⟩

/-- The reply as the service lays it out: the 24 bytes that `payload_len` counts before the sets end
with `boot_set`, and all numbers are big-endian. -/
def listResp : Header where
  result := ⟨24, 4⟩
  payloadLen := ⟨4, 4⟩
  bootedSet := ⟨28, 2⟩
  bootSet := ⟨30, 2⟩
  sets := 32
  result_le := by decide
  payloadLen_le := by decide
  bootedSet_le := by decide
  bootSet_le := by decide
  integer := List.foldl (fun n byte => 256 * n + byte.toNat) 0
  success := 0
  listRequest := 4
  version3 := 1

/-- The sets `a` and `b`, the second of which is booted. -/
def twoSets : List UInt8 :=
  [0, 0, 0, 4, 0, 0, 0, 28] ++ List.replicate 16 0 ++ [0, 0, 0, 0, 0, 1, 0, 0, 97, 0, 98, 0]

theorem rxData_inserts_twoSets :
    ∃ sets, rxData listResp ⟨4, 1, []⟩ twoSets 37 = some (.returned ⟨0, 1, sets⟩) ∧
      Inserts listResp 1 twoSets sets := by
  have success : listResp.result.read listResp twoSets = some listResp.success := by decide
  rcases rxData_inserts listResp ⟨4, 1, []⟩ twoSets 0 with
    ⟨result, read, failed, -⟩ | ⟨sets, run, inserts, -⟩
  · exact absurd (Option.some.inj (read.symm.trans success)) failed
  · exact ⟨sets, run, inserts ⟨success, rfl, by decide⟩⟩

end SecurityAudits.OpenbsdBin.Mdstore
