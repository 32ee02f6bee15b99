import SecurityAudits.Lib.Window

/-!
# The protocol of a TLS client

A client lists the protocols that it would speak, each name behind a byte that says how long it is.
`ssl_alpn_callback` (`ssl.c`) goes from name to name, and selects `ftp`. It stops where a name is
said to be longer than what is left of the list.

Positions are in `p_in`; `*p_out` points to one of them.
-/

namespace SecurityAudits.Vsftpd.AlpnCallback
set_option autoImplicit false
open SecurityAudits.Checked SecurityAudits.Window

/-- What the callback leaves: `is_ok`, by which it returns `SSL_TLSEXT_ERR_OK` or
`SSL_TLSEXT_ERR_ALERT_FATAL`, `*p_out` and `*outlen`. -/
structure Answer where
  isOk : Bool
  out : Nat
  outlen : Nat
  deriving DecidableEq, Repr

/-- `"ftp"` -/
def ftp : List UInt8 := [102, 116, 112]

/-- `p_in[i]` -/
def byte (pIn : List UInt8) (i : Nat) : Outcome UInt8 :=
  match pIn[i]? with
  | some c => .done c
  | none => .fault

/-- The test of the name at `i`, which ends with the first comparison that fails. -/
def isFtp (pIn : List UInt8) (i protoLen : Nat) : Outcome Bool := do
  if protoLen ≠ 3 then return false
  if (← byte pIn (i + 1)) ≠ 102 then return false
  if (← byte pIn (i + 2)) ≠ 116 then return false
  return decide ((← byte pIn (i + 3)) = 112)

/-- `*p_out = p_in` and `*outlen = 0` -/
def rejected : Answer := ⟨false, 0, 0⟩

/-- `for (i = 0; i < inlen;)` -/
def scanBody (pIn : List UInt8) (i : Nat) : Outcome (Nat ⊕ Answer) := do
  if ¬ i < pIn.length then return .inr rejected
  let protoLen := (← byte pIn i).toNat
  let left := pIn.length - i
  if protoLen + 1 > left then return .inr rejected
  if ← isFtp pIn i protoLen then return .inr ⟨true, i + 1, 3⟩
  return .inl (i + (protoLen + 1))

def sslAlpnCallback (pIn : List UInt8) : Outcome Answer :=
  loop (scanBody pIn) (pIn.length + 1) 0

/-! ## Lists of names -/

/-- A name as it is listed. -/
def code (name : List UInt8) : List UInt8 := UInt8.ofNat name.length :: name

/-- The names that are whole in a list. -/
inductive Names : List UInt8 → List (List UInt8) → Prop where
  | ended : Names [] []
  /-- there is less left than the name should have -/
  | cut {n : UInt8} {left : List UInt8} (short : left.length < n.toNat) : Names (n :: left) []
  | name {name left : List UInt8} {names : List (List UInt8)} (short : name.length < 256)
    (later : Names left names) : Names (code name ++ left) (name :: names)

variable {name left pIn before : List UInt8} {names names' : List (List UInt8)} {i k fuel : Nat}
  {c : UInt8}

theorem toNat_length (short : name.length < 256) : (UInt8.ofNat name.length).toNat = name.length :=
  UInt8.toNat_ofNat_of_lt' short

theorem exists_names (pIn : List UInt8) : ∃ names, Names pIn names := by
  induction length : pIn.length using Nat.strongRecOn generalizing pIn with
  | ind n ih =>
    cases pIn with
    | nil => exact ⟨[], .ended⟩
    | cons c rest =>
      by_cases short : rest.length < c.toNat
      · exact ⟨[], .cut short⟩
      · have taken : (rest.take c.toNat).length = c.toNat := List.length_take_of_le (by omega)
        have fewer : (rest.drop c.toNat).length < n := by
          rw [List.length_cons] at length
          rw [List.length_drop]
          omega
        obtain ⟨names, later⟩ := ih _ fewer _ rfl
        have whole := Names.name (by rw [taken]; exact c.toNat_lt) later
        rw [code, taken, UInt8.ofNat_toNat, List.cons_append, List.take_append_drop] at whole
        exact ⟨_, whole⟩

theorem code_inj {name' left' : List UInt8} (short : name.length < 256) (short' : name'.length < 256)
    (same : code name ++ left = code name' ++ left') : name = name' ∧ left = left' := by
  rw [code, code, List.cons_append, List.cons_append] at same
  obtain ⟨first, rest⟩ := List.cons.inj same
  have length := congrArg UInt8.toNat first
  rw [toNat_length short, toNat_length short'] at length
  exact List.append_inj rest length

theorem code_not_cut {n : UInt8} {rest : List UInt8} (short : name.length < 256)
    (same : code name ++ left = n :: rest) : ¬ rest.length < n.toNat := by
  obtain ⟨rfl, rfl⟩ := List.cons.inj same
  show ¬ (name ++ left).length < (UInt8.ofNat name.length).toNat
  rw [toNat_length short, List.length_append]
  omega

theorem Names.unique (listed : Names pIn names) (listed' : Names pIn names') : names' = names := by
  induction listed generalizing names' with
  | ended =>
    cases listed'
    rfl
  | cut short =>
    generalize whole : _ :: _ = pIn at listed'
    cases listed' with
    | ended => rfl
    | cut => rfl
    | name named => exact absurd short (code_not_cut named whole.symm)
  | @name name left names named later ih =>
    generalize whole : code name ++ left = pIn at listed'
    cases listed' with
    | ended => cases whole
    | cut short => exact absurd short (code_not_cut named whole)
    | name named' later' =>
      obtain ⟨rfl, rfl⟩ := code_inj named named' whole
      rw [ih later']

theorem Names.split (listed : Names pIn names) : ∃ left, pIn = names.flatMap code ++ left := by
  induction listed with
  | ended => exact ⟨[], rfl⟩
  | cut => exact ⟨_, rfl⟩
  | name _ _ ih =>
    obtain ⟨left, rfl⟩ := ih
    exact ⟨left, by rw [List.flatMap_cons, List.append_assoc]⟩

/-! ## The scan -/

/-- The answer to names that are listed from `start` on. -/
def found (start : Nat) : List (List UInt8) → Answer
  | [] => rejected
  | name :: names =>
    if name = ftp then ⟨true, start + 1, 3⟩ else found (start + (name.length + 1)) names

theorem byte_eq (here : left[k]? = some c) : byte (before ++ left) (before.length + k) = .done c := by
  rw [byte, List.getElem?_append_right (by omega), Nat.add_sub_cancel_left, here]

/-- The comparisons are with the bytes of the name. -/
theorem isFtp_eq (before name left : List UInt8) :
    isFtp (before ++ (code name ++ left)) before.length name.length = .done (decide (name = ftp)) := by
  unfold isFtp
  by_cases three : name.length = 3
  · obtain ⟨a, b, c, rfl⟩ := List.length_eq_three.1 three
    have first : byte (before ++ (code [a, b, c] ++ left)) (before.length + 1) = .done a := byte_eq rfl
    have second : byte (before ++ (code [a, b, c] ++ left)) (before.length + 2) = .done b := byte_eq rfl
    have third : byte (before ++ (code [a, b, c] ++ left)) (before.length + 3) = .done c := byte_eq rfl
    rw [if_neg (not_not_intro three), first, second, third]
    by_cases f : a = 102
    · by_cases t : b = 116
      · simp [f, t, ftp, Bind.bind, Outcome.bind, pure]
      · simp [f, t, ftp, Bind.bind, Outcome.bind, pure]
    · simp [f, ftp, Bind.bind, Outcome.bind, pure]
  · have other : name ≠ ftp := fun same => three (congrArg List.length same)
    rw [if_pos three, decide_eq_false other]
    rfl

/-- A name that is whole is selected, or passed over. -/
theorem scanBody_name (before : List UInt8) (short : name.length < 256) (left : List UInt8) :
    scanBody (before ++ (code name ++ left)) before.length = .done
      (if name = ftp then .inr ⟨true, before.length + 1, 3⟩
        else .inl (before ++ code name).length) := by
  have length : (before ++ (code name ++ left)).length =
      before.length + (name.length + 1 + left.length) := by
    rw [List.length_append, List.length_append, code, List.length_cons]
  have first : byte (before ++ (code name ++ left)) before.length = .done (UInt8.ofNat name.length) :=
    byte_eq (k := 0) rfl
  unfold scanBody
  rw [if_neg (by omega)]
  refine bind_eq_done.2 ⟨_, first, ?_⟩
  dsimp only
  rw [toNat_length short, if_neg (by omega)]
  refine bind_eq_done.2 ⟨_, isFtp_eq before name left, ?_⟩
  by_cases same : name = ftp
  · rw [decide_eq_true same, if_pos rfl, if_pos same]
    rfl
  · rw [decide_eq_false same, if_neg same, List.length_append, code, List.length_cons]
    rfl

theorem scanBody_cut (before : List UInt8) {n : UInt8} (short : left.length < n.toNat) :
    scanBody (before ++ n :: left) before.length = .done (.inr rejected) := by
  have length : (before ++ n :: left).length = before.length + (left.length + 1) := by
    rw [List.length_append, List.length_cons]
  have first : byte (before ++ n :: left) before.length = .done n := byte_eq (k := 0) rfl
  unfold scanBody
  rw [if_neg (by omega)]
  refine bind_eq_done.2 ⟨_, first, ?_⟩
  exact if_pos (by omega)

theorem scan_names (listed : Names left names) (before : List UInt8) (enough : names.length < fuel) :
    loop (scanBody (before ++ left)) fuel before.length = .done (found before.length names) := by
  induction listed generalizing before fuel with
  | ended =>
    obtain ⟨fuel, rfl⟩ := Nat.exists_eq_add_of_lt enough
    refine bind_eq_done.2 ⟨.inr rejected, if_pos ?_, rfl⟩
    rw [List.append_nil]
    exact Nat.lt_irrefl _
  | cut short =>
    obtain ⟨fuel, rfl⟩ := Nat.exists_eq_add_of_lt enough
    exact bind_eq_done.2 ⟨_, scanBody_cut before short, rfl⟩
  | @name name left names short later ih =>
    obtain ⟨fuel, rfl⟩ := Nat.exists_eq_add_of_lt enough
    have body := scanBody_name before short left
    rw [found]
    by_cases same : name = ftp
    · rw [if_pos same] at body ⊢
      exact bind_eq_done.2 ⟨_, body, rfl⟩
    · rw [if_neg same] at body ⊢
      have fewer : names.length < (name :: names).length + fuel := by
        rw [List.length_cons]
        omega
      have rest := ih (before ++ code name) fewer
      rw [List.append_assoc] at rest
      refine bind_eq_done.2 ⟨_, body, rest.trans ?_⟩
      rw [List.length_append, code, List.length_cons]

theorem Names.length_le (listed : Names pIn names) : names.length ≤ pIn.length := by
  induction listed with
  | ended => exact Nat.le_refl 0
  | cut => exact Nat.zero_le _
  | @name name left names _ _ ih =>
    rw [List.length_append, code, List.length_cons, List.length_cons]
    omega

/-- The list of a client that lists whole names. -/
theorem names_flatMap (short : ∀ name ∈ names, name.length < 256) :
    Names (names.flatMap code) names := by
  induction names with
  | nil => exact .ended
  | cons name names ih =>
    obtain ⟨first, rest⟩ := List.forall_mem_cons.1 short
    exact .name first (ih rest)

/-! ## The answer -/

theorem found_cases (start : Nat) (names : List (List UInt8)) :
    (ftp ∉ names ∧ found start names = rejected) ∨
      ∃ before after, names = before ++ ftp :: after ∧ ftp ∉ before ∧
        found start names = ⟨true, start + (before.flatMap code).length + 1, 3⟩ := by
  induction names generalizing start with
  | nil => exact .inl ⟨List.not_mem_nil, rfl⟩
  | cons name names ih =>
    rw [found]
    by_cases same : name = ftp
    · subst same
      exact .inr ⟨[], names, rfl, List.not_mem_nil, if_pos rfl⟩
    · rw [if_neg same]
      rcases ih (start + (name.length + 1)) with ⟨absent, answer⟩ | ⟨before, after, rfl, first, answer⟩
      · refine .inl ⟨fun listed => ?_, answer⟩
        exact (List.mem_cons.1 listed).elim (fun here => same here.symm) absent
      · refine .inr ⟨name :: before, after, rfl, fun listed => ?_, ?_⟩
        · exact (List.mem_cons.1 listed).elim (fun here => same here.symm) first
        · rw [answer, List.flatMap_cons, List.length_append, code, List.length_cons, Nat.add_assoc start]

/-- What the callback answers to a list with these names. -/
structure Selects (pIn : List UInt8) (names : List (List UInt8)) (answer : Answer) : Prop where
  isOk : answer.isOk = true ↔ ftp ∈ names
  /-- the first name of them that is `ftp` -/
  out : answer.isOk = true → ∃ before after, names = before ++ ftp :: after ∧ ftp ∉ before ∧
    answer.out = (before.flatMap code).length + 1 ∧ answer.outlen = 3
  text : answer.isOk = true → (pIn.drop answer.out).take answer.outlen = ftp
  rejected : answer.isOk = false → answer = rejected

theorem found_selects (listed : Names pIn names) : Selects pIn names (found 0 names) := by
  rcases found_cases 0 names with ⟨absent, answer⟩ | ⟨before, after, rfl, first, answer⟩
  · rw [answer]
    exact ⟨iff_of_false Bool.false_ne_true absent, fun ok => absurd ok Bool.false_ne_true,
      fun ok => absurd ok Bool.false_ne_true, fun _ => rfl⟩
  · rw [answer, Nat.zero_add]
    obtain ⟨left, rfl⟩ := listed.split
    refine ⟨iff_of_true rfl (by simp), fun _ => ⟨before, after, rfl, first, rfl, rfl⟩, fun _ => ?_,
      fun failed => absurd failed.symm Bool.false_ne_true⟩
    rw [List.flatMap_append, List.flatMap_cons, List.append_assoc, List.drop_length_add_append]
    rfl

/-- **`ftp` is selected where it is a name.** On any bytes the callback reads inside of `p_in` and
ends. The bytes are a list of names in one way, up to one that is cut; `ftp` is accepted exactly when
it is one of them, and never for bytes inside of another name. -/
theorem sslAlpnCallback_selects (pIn : List UInt8) :
    ∃ names answer, Names pIn names ∧ (∀ names', Names pIn names' → names' = names) ∧
      sslAlpnCallback pIn = .done answer ∧ Selects pIn names answer := by
  obtain ⟨names, listed⟩ := exists_names pIn
  have run := scan_names listed [] (Nat.lt_succ_of_le listed.length_le)
  exact ⟨names, _, listed, fun names' listed' => listed.unique listed', run, found_selects listed⟩

/-- **A client that speaks `ftp` is accepted**, and one that lists other names only is not. -/
theorem sslAlpnCallback_list (short : ∀ name ∈ names, name.length < 256) :
    ∃ answer, sslAlpnCallback (names.flatMap code) = .done answer ∧
      Selects (names.flatMap code) names answer := by
  have listed := names_flatMap short
  have run := scan_names listed [] (Nat.lt_succ_of_le listed.length_le)
  exact ⟨_, run, found_selects listed⟩

/-- A name with the bytes of an entry `ftp` inside of it -/
example : sslAlpnCallback [5, 120, 3, 102, 116, 112] = .done rejected := by decide

end SecurityAudits.Vsftpd.AlpnCallback
