import SecurityAudits.Lib.CString
import SecurityAudits.Lib.Labels

/-!
# DNS name constraints

`nc_dns` (`x509/x509_ncons.c`) decides whether a DNS name of a certificate is in a subtree that a CA is
constrained to. Both are IA5Strings: bytes with a length, behind which there is a NUL that does not count,
and in which a NUL may be. The function never takes the names apart, but what it decides is about labels:
`Within`.

The patch does not show the condition `dns->length > base->length`, but shows its other half,
`else if (dns->length < base->length)`.
-/

namespace SecurityAudits.Libressl.NcDns
set_option autoImplicit false
open SecurityAudits.CString SecurityAudits.Labels

/-! ## The code -/

/-- `ASN1_IA5STRING` -/
structure Asn1Ia5String where
  /-- the `length` bytes -/
  chars : List UInt8
  deriving DecidableEq, Repr

def Asn1Ia5String.data (s : Asn1Ia5String) : List UInt8 := s.chars ++ [0]

def Asn1Ia5String.length (s : Asn1Ia5String) : Nat := s.chars.length

/-- The results of `nc_dns`, `X509_V_OK` and the errors -/
inductive Verdict where
  | ok
  | permittedViolation
  | unsupportedConstraintSyntax
  | unsupportedNameSyntax
  deriving DecidableEq, Repr

/-- `'.'` -/
def dot : UInt8 := 46

def tolower (c : UInt8) : UInt8 := if 65 ≤ c ∧ c ≤ 90 then c + 32 else c

/-- `strncasecmp(p, q, n)` -/
def strncasecmp : List UInt8 → List UInt8 → Nat → Option Int
  | _, _, 0 => some 0
  | c :: p, d :: q, n + 1 =>
    if tolower c ≠ tolower d then some ((tolower c).toNat - (tolower d).toNat)
    else if c = 0 then some 0
    else strncasecmp p q n
  | _, _, _ + 1 => none

/-- The last test of `nc_dns`. -/
def compare (base : Asn1Ia5String) (dnsptr : List UInt8) : Option Verdict := do
  let differs ← strncasecmp base.data dnsptr base.length
  return if differs ≠ 0 then .permittedViolation else .ok

/-- `nc_dns` -/
def ncDns (dns base : Asn1Ia5String) : Option Verdict := do
  match ← memchr base.data 0 base.length with
  | some _ => return .unsupportedConstraintSyntax
  | none =>
    match ← memchr dns.data 0 dns.length with
    | some _ => return .unsupportedNameSyntax
    | none =>
      -- empty matches everything
      if base.length = 0 then return .ok
      else if dns.length > base.length then
        let first ← deref base.data
        let before ← deref (dns.data.drop (dns.length - base.length - 1))
        if first ≠ dot ∧ before ≠ dot then return .permittedViolation
        else compare base (dns.data.drop (dns.length - base.length))
      else if dns.length < base.length then return .permittedViolation
      else compare base dns.data

/-! ## Subtrees -/

/-- The characters by which names are told apart. -/
def fold (chars : List UInt8) : List UInt8 := chars.map tolower

/-- The name is in the subtree of `tree`: its last labels are those of the tree, with at least one more in
front of them where the tree begins with a dot. -/
def Within (name : List UInt8) : List UInt8 → Prop
  | [] => True
  | c :: tree =>
    if c = dot then tree.splitOn dot <:+ name.splitOn dot ∧ name ≠ tree
    else (c :: tree).splitOn dot <:+ name.splitOn dot

variable {name mid tree left s t p q : List UInt8} {c : UInt8}

theorem within_dot : Within name (dot :: tree) ↔ ∃ left, name = left ++ dot :: tree := by
  rw [Within, if_pos rfl]
  exact proper_labels_iff

theorem within_label (label : c ≠ dot) :
    Within name (c :: tree) ↔ name = c :: tree ∨ ∃ left, name = left ++ dot :: c :: tree := by
  rw [Within, if_neg label]
  exact suffix_labels_iff

/-- A name in a subtree ends in it. -/
theorem Within.ends (within : Within name tree) : ∃ left, name = left ++ tree := by
  cases tree with
  | nil => exact ⟨name, (List.append_nil name).symm⟩
  | cons c tree =>
    by_cases label : c = dot
    · subst label
      exact within_dot.1 within
    · rcases (within_label label).1 within with same | ⟨left, same⟩
      · exact ⟨[], same⟩
      · exact ⟨left ++ [dot], by rw [same, List.append_assoc, List.singleton_append]⟩

/-- A subtree of a subtree is one. -/
theorem Within.trans (inner : Within name mid) (outer : Within mid tree) : Within name tree := by
  cases tree with
  | nil => trivial
  | cons c tree =>
    obtain ⟨front, ends⟩ := inner.ends
    by_cases label : c = dot
    · subst label
      obtain ⟨left, rfl⟩ := within_dot.1 outer
      exact within_dot.2 ⟨front ++ left, by rw [ends, List.append_assoc]⟩
    · rcases (within_label label).1 outer with rfl | ⟨left, rfl⟩
      · exact inner
      · exact (within_label label).2 (.inr ⟨front ++ left, by rw [ends, List.append_assoc]⟩)

/-- A name that is longer than the constraint is in the subtree when it ends in the constraint, and there
is a dot on one side of the cut. -/
theorem within_longer {x : UInt8} (length : t.length = (c :: tree).length) :
    Within (left ++ x :: t) (c :: tree) ↔ (c = dot ∨ x = dot) ∧ t = c :: tree := by
  have cut : ∀ front : List UInt8, left ++ x :: t = front ++ c :: tree ↔
      left ++ [x] = front ∧ t = c :: tree := by
    intro front
    rw [List.append_cons left x t]
    exact ⟨fun same => List.append_inj' same length, fun ⟨same, same'⟩ => by rw [same, same']⟩
  by_cases label : c = dot
  · subst label
    rw [within_dot]
    exact ⟨fun ⟨front, ends⟩ => ⟨.inl rfl, ((cut front).1 ends).2⟩,
      fun ⟨_, same⟩ => ⟨left ++ [x], (cut _).2 ⟨rfl, same⟩⟩⟩
  · rw [within_label label]
    constructor
    · rintro (same | ⟨front, ends⟩)
      · have longer := congrArg List.length same
        rw [List.length_append, List.length_cons, length] at longer
        omega
      · rw [List.append_cons front dot] at ends
        obtain ⟨same, same'⟩ := (cut _).1 ends
        exact ⟨.inr (List.append_inj' same rfl |>.2 |> List.cons.inj |>.1), same'⟩
    · rintro ⟨dots, same⟩
      have dots : x = dot := dots.resolve_left label
      exact .inr ⟨left, by rw [dots, same]⟩

theorem within_sameLength (length : t.length = (c :: tree).length) :
    Within t (c :: tree) ↔ t = c :: tree := by
  refine ⟨fun within => ?_, ?_⟩
  · obtain ⟨front, ends⟩ := within.ends
    have none := congrArg List.length ends
    rw [List.length_append, length] at none
    rw [ends, List.length_eq_zero_iff.1 (by omega : front.length = 0), List.nil_append]
  · rintro rfl
    by_cases label : c = dot
    · subst label
      exact within_dot.2 ⟨[], rfl⟩
    · exact (within_label label).2 (.inl rfl)

theorem not_within_shorter (length : t.length < tree.length) : ¬ Within t tree := by
  intro within
  obtain ⟨front, ends⟩ := within.ends
  have longer := congrArg List.length ends
  rw [List.length_append] at longer
  omega

/-! ## The comparison -/

theorem tolower_dot : tolower c = dot ↔ c = dot := by
  unfold tolower dot
  split
  next upper =>
    have bounds := And.intro (UInt8.le_iff_toNat_le.1 upper.1) (UInt8.le_iff_toNat_le.1 upper.2)
    refine iff_of_false (fun same => ?_) (fun same => ?_)
    · have number := congrArg UInt8.toNat same
      rw [UInt8.toNat_add] at number
      simp at number bounds
      omega
    · subst same
      simp at bounds
  · rfl

/-- As many bytes as a string has are compared whole, and nothing is read behind them. -/
theorem strncasecmp_chars (noNul : 0 ∉ s) (length : t.length = s.length) :
    ∃ r, strncasecmp (s ++ p) (t ++ q) s.length = some r ∧ (r = 0 ↔ fold t = fold s) := by
  induction s generalizing t with
  | nil =>
    rw [List.length_eq_zero_iff.1 length]
    exact ⟨0, by unfold strncasecmp; rfl, iff_of_true rfl rfl⟩
  | cons c s ih =>
    obtain ⟨d, t, rfl⟩ := List.exists_cons_of_length_eq_add_one length
    rw [List.mem_cons, not_or] at noNul
    by_cases same : tolower c = tolower d
    · obtain ⟨r, run, zero⟩ := ih noNul.2 (Nat.succ.inj length)
      refine ⟨r, ?_, zero.trans ?_⟩
      · rw [List.cons_append, List.cons_append, List.length_cons, strncasecmp,
          if_neg (not_not_intro same), if_neg (Ne.symm noNul.1), run]
      · rw [fold, fold, fold, fold, List.map_cons, List.map_cons, same, List.cons_inj_right]
    · refine ⟨_, by rw [List.cons_append, List.cons_append, List.length_cons, strncasecmp,
        if_pos same], iff_of_false (fun zero => same ?_) fun folded => same ?_⟩
      · exact UInt8.toNat_inj.1 (by omega)
      · exact (List.cons.inj folded).1.symm

/-- `compare`, on as many bytes as the constraint has. -/
theorem compare_chars {base : Asn1Ia5String} (noNul : 0 ∉ base.chars)
    (length : t.length = base.length) :
    ∃ verdict, compare base (t ++ q) = some verdict ∧
      ((verdict = .ok ∧ fold t = fold base.chars) ∨
        (verdict = .permittedViolation ∧ fold t ≠ fold base.chars)) := by
  obtain ⟨r, run, zero⟩ := strncasecmp_chars (p := [0]) (q := q) noNul length
  refine ⟨_, by rw [compare, Asn1Ia5String.data, Asn1Ia5String.length, run]; rfl, ?_⟩
  by_cases same : r = 0
  · exact .inl ⟨if_neg (not_not_intro same), zero.1 same⟩
  · exact .inr ⟨if_pos same, fun folded => same (zero.2 folded)⟩

/-! ## The verdict -/

/-- `memchr(s->data, '\0', s->length)` -/
theorem memchr_nul (s : Asn1Ia5String) :
    (0 ∈ s.chars ∧ ∃ i, memchr s.data 0 s.length = some (some i)) ∨
      (0 ∉ s.chars ∧ memchr s.data 0 s.length = some none) := by
  by_cases nul : 0 ∈ s.chars
  · obtain ⟨before, after, split, first⟩ := List.eq_append_cons_of_mem nul
    refine .inl ⟨nul, before.length, ?_⟩
    rw [Asn1Ia5String.data, Asn1Ia5String.length, split, List.append_assoc, List.cons_append]
    exact memchr_found first (by simp)
  · refine .inr ⟨nul, memchr_absent (by simp [Asn1Ia5String.data, Asn1Ia5String.length]) ?_⟩
    rwa [Asn1Ia5String.data, Asn1Ia5String.length, List.take_left]

/-- What `nc_dns` says of a name and a constraint. -/
structure Checked (dns base : Asn1Ia5String) (verdict : Verdict) : Prop where
  constraint : verdict = .unsupportedConstraintSyntax ↔ 0 ∈ base.chars
  name : verdict = .unsupportedNameSyntax ↔ 0 ∉ base.chars ∧ 0 ∈ dns.chars
  ok : verdict = .ok ↔ 0 ∉ base.chars ∧ 0 ∉ dns.chars ∧ Within (fold dns.chars) (fold base.chars)

variable {dns base ca : Asn1Ia5String}

/-- Behind the tests for NULs and for an empty constraint. -/
theorem ncDns_nonempty {chars : List UInt8} (noNul : 0 ∉ c :: tree) (noNul' : 0 ∉ chars) :
    ncDns ⟨chars⟩ ⟨c :: tree⟩ =
      if (c :: tree).length < chars.length then do
        let before ← deref ((chars ++ [0]).drop (chars.length - (c :: tree).length - 1))
        if c ≠ dot ∧ before ≠ dot then return .permittedViolation
        else compare ⟨c :: tree⟩ ((chars ++ [0]).drop (chars.length - (c :: tree).length))
      else if chars.length < (c :: tree).length then return .permittedViolation
      else compare ⟨c :: tree⟩ (chars ++ [0]) := by
  have baseClean := (memchr_nul ⟨c :: tree⟩).resolve_left fun found => noNul found.1
  have dnsClean := (memchr_nul ⟨chars⟩).resolve_left fun found => noNul' found.1
  rw [ncDns, baseClean.2, Option.bind_eq_bind, Option.bind_some]
  dsimp only
  rw [dnsClean.2]
  rfl

theorem split_longer {chars : List UInt8} {n : Nat} (longer : n < chars.length) :
    ∃ left x t, chars = left ++ x :: t ∧ t.length = n := by
  have short : chars.length - n - 1 < chars.length := by omega
  refine ⟨chars.take (chars.length - n - 1), chars[chars.length - n - 1],
    chars.drop (chars.length - n - 1 + 1), ?_, ?_⟩
  · rw [← List.drop_eq_getElem_cons short, List.take_append_drop]
  · rw [List.length_drop]
    omega

/-- Without NULs the verdict is about the subtree. -/
theorem ncDns_clean (noNul : 0 ∉ base.chars) (noNul' : 0 ∉ dns.chars) :
    ∃ verdict, ncDns dns base = some verdict ∧
      ((verdict = .ok ∧ Within (fold dns.chars) (fold base.chars)) ∨
        (verdict = .permittedViolation ∧ ¬ Within (fold dns.chars) (fold base.chars))) := by
  have folded : ∀ chars, (fold chars).length = chars.length := fun _ => List.length_map _
  obtain ⟨_ | ⟨c, tree⟩⟩ := base
  case nil =>
    have dnsClean := (memchr_nul dns).resolve_left fun found => noNul' found.1
    exact ⟨.ok, by rw [ncDns, dnsClean.2]; rfl, .inl ⟨rfl, trivial⟩⟩
  obtain ⟨chars⟩ := dns
  rw [ncDns_nonempty noNul noNul']
  dsimp only
  rcases lt_trichotomy (c :: tree).length chars.length with longer | same | shorter
  · obtain ⟨left, x, t, rfl, length⟩ := split_longer longer
    have place : (left ++ x :: t).length - (c :: tree).length - 1 = left.length := by
      rw [List.length_append, List.length_cons, length]
      omega
    have cut : (left ++ x :: t).length - (c :: tree).length = (left ++ [x]).length := by
      rw [List.length_append, List.length_cons, length, List.length_append, List.length_singleton]
      omega
    have before : (left ++ x :: t ++ [0]).drop left.length = x :: (t ++ [0]) := by
      rw [List.append_assoc, List.drop_left, List.cons_append]
    have behind : (left ++ x :: t ++ [0]).drop (left ++ [x]).length = t ++ [0] := by
      rw [List.append_cons left x t, List.append_assoc, List.drop_left]
    have within : Within (fold (left ++ x :: t)) (fold (c :: tree)) ↔
        (c = dot ∨ x = dot) ∧ fold t = fold (c :: tree) := by
      rw [← @tolower_dot c, ← @tolower_dot x, fold, List.map_append, List.map_cons]
      exact within_longer (by rw [← fold, folded, length, List.length_cons, List.length_cons, ← fold, folded])
    rw [if_pos longer, place, cut, before, behind]
    by_cases labels : c ≠ dot ∧ x ≠ dot
    · refine ⟨.permittedViolation, if_pos labels, .inr ⟨rfl, fun inside => ?_⟩⟩
      exact (within.1 inside).1.elim labels.1 labels.2
    · obtain ⟨verdict, run, which⟩ := compare_chars (q := [0]) noNul length
      rw [not_and_or, not_not, not_not] at labels
      refine ⟨verdict, (if_neg (by tauto)).trans run, which.imp ?_ ?_⟩
      · exact fun ⟨ok, equal⟩ => ⟨ok, within.2 ⟨labels, equal⟩⟩
      · exact fun ⟨violation, apart⟩ => ⟨violation, fun inside => apart (within.1 inside).2⟩
  · have within : Within (fold chars) (fold (c :: tree)) ↔ fold chars = fold (c :: tree) :=
      within_sameLength (by rw [folded, ← same, List.length_cons, List.length_cons, ← fold, folded])
    obtain ⟨verdict, run, which⟩ := compare_chars (q := [0]) noNul same.symm
    rw [within]
    exact ⟨verdict, (if_neg same.not_lt).trans ((if_neg same.not_gt).trans run), which⟩
  · have outside : ¬ Within (fold chars) (fold (c :: tree)) :=
      not_within_shorter (by rw [folded, folded]; exact shorter)
    exact ⟨.permittedViolation, (if_neg shorter.not_gt).trans (if_pos shorter), .inr ⟨rfl, outside⟩⟩

theorem ncDns_checked (dns base : Asn1Ia5String) :
    ∃ verdict, ncDns dns base = some verdict ∧ Checked dns base verdict := by
  rcases memchr_nul base with ⟨nul, i, found⟩ | ⟨noNul, absent⟩
  · refine ⟨.unsupportedConstraintSyntax, by rw [ncDns, found]; rfl, iff_of_true rfl nul, ?_, ?_⟩
    · exact iff_of_false (by simp) fun clean => clean.1 nul
    · exact iff_of_false (by simp) fun clean => clean.1 nul
  · rcases memchr_nul dns with ⟨nul, i, found⟩ | ⟨noNul', -⟩
    · refine ⟨.unsupportedNameSyntax, ?_, iff_of_false (by simp) noNul, iff_of_true rfl ⟨noNul, nul⟩, ?_⟩
      · rw [ncDns, absent, Option.bind_eq_bind, Option.bind_some]
        dsimp only
        rw [found]
        rfl
      · exact iff_of_false (by simp) fun clean => clean.2.1 nul
    · obtain ⟨verdict, run, ⟨rfl, within⟩ | ⟨rfl, outside⟩⟩ := ncDns_clean noNul noNul'
      · exact ⟨.ok, run, iff_of_false (by simp) noNul, iff_of_false (by simp) fun found => noNul' found.2,
          iff_of_true rfl ⟨noNul, noNul', within⟩⟩
      · exact ⟨.permittedViolation, run, iff_of_false (by simp) noNul,
          iff_of_false (by simp) fun found => noNul' found.2,
          iff_of_false (by simp) fun clean => outside clean.2.2⟩

/-- The verdict is `X509_V_OK` exactly for the names in the subtree. -/
theorem ncDns_ok_iff : ncDns dns base = some .ok ↔
    0 ∉ base.chars ∧ 0 ∉ dns.chars ∧ Within (fold dns.chars) (fold base.chars) := by
  obtain ⟨verdict, run, checked⟩ := ncDns_checked dns base
  rw [run, Option.some.injEq]
  exact checked.ok

/-- **A DNS name is permitted for its labels.** `nc_dns` reads no byte that is not of the two strings,
refuses a NUL in either, and else accepts exactly the names in the subtree, whatever their case. So a CA
in a chain can permit no name that is not permitted to the CA above it. -/
theorem ncDns_subtree (dns base ca : Asn1Ia5String) :
    (∃ verdict, ncDns dns base = some verdict ∧ Checked dns base verdict) ∧
      (ncDns dns ca = some .ok → ncDns ca base = some .ok → ncDns dns base = some .ok) := by
  refine ⟨ncDns_checked dns base, fun inner outer => ?_⟩
  obtain ⟨-, clean, inner⟩ := ncDns_ok_iff.1 inner
  obtain ⟨clean', -, outer⟩ := ncDns_ok_iff.1 outer
  exact ncDns_ok_iff.2 ⟨clean', clean, inner.trans outer⟩

end SecurityAudits.Libressl.NcDns
