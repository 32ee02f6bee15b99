import Mathlib.Algebra.Order.Ring.Nat
import Mathlib.Algebra.BigOperators.Group.List.Basic
import Mathlib.Data.List.Infix

/-!
# The lifetime of a security association in bytes

`esp_input` (`netinet/ip_esp.c`) and `ah_input` (`netinet/ip_ah.c`) have the same block that charges a
packet to the byte lifetime of its security association, tells the key daemon when the soft lifetime
ends, and deletes the association when the hard one does. The patches move it behind the checks of the
authenticator and the replay window, whose answer comes with the packet here.

Packets of any associations, authentic and forged, come in any order, one after another. `input_outcome`
says what they leave of each association: only its own authentic packets count.
-/

namespace SecurityAudits.OpenbsdKernel.ByteLifetime
set_option autoImplicit false

variable {Sa : Type}

/-! ## The block -/

/-- `struct tdb`, as far as the lifetime in bytes goes. -/
structure Tdb where
  /-- `TDBF_BYTES` -/
  flagBytes : Bool
  /-- `TDBF_SOFT_BYTES` -/
  flagSoftBytes : Bool
  curBytes : Nat
  expBytes : Nat
  softBytes : Nat
  deriving DecidableEq, Repr

/-- `SADB_EXT_LIFETIME_HARD` and `SADB_EXT_LIFETIME_SOFT` -/
inductive Lifetime where
  | hard
  | soft
  deriving DecidableEq, Repr

/-- From the update of the counters to `mtx_leave`: the association, none where `tdb_delete` is called
and the packet dropped, and the call of `pfkeyv2_expire`. -/
def charge (tdb : Tdb) (ibytes : Nat) : Option Tdb × List Lifetime :=
  let tdb := { tdb with curBytes := (tdb.curBytes + ibytes) % 2 ^ 64 }
  if tdb.flagBytes = true ∧ tdb.curBytes ≥ tdb.expBytes then (none, [.hard])
  else if tdb.flagSoftBytes = true ∧ tdb.curBytes ≥ tdb.softBytes then
    (some { tdb with flagSoftBytes := false }, [.soft])
  else (some tdb, [])

structure Packet (Sa : Type) where
  /-- What the association is found by. -/
  sa : Sa
  /-- `plen` of `esp_input`, `ibytes` of `ah_input` -/
  ibytes : Nat
  /-- The authenticator is right and the sequence number new. -/
  authentic : Bool
  deriving DecidableEq, Repr

structure State (Sa : Type) where
  sadb : Sa → Option Tdb
  /-- What the key daemon has been told. -/
  expired : List (Sa × Lifetime)
  /-- The packets that have got past the block. -/
  accepted : List (Packet Sa)

variable [DecidableEq Sa]

/-- `esp_input` or `ah_input` -/
def input (s : State Sa) (p : Packet Sa) : State Sa :=
  match s.sadb p.sa, p.authentic with
  | some tdb, true =>
    let charged := charge tdb p.ibytes
    { sadb := Function.update s.sadb p.sa charged.1
      expired := s.expired ++ charged.2.map (p.sa, ·)
      accepted := s.accepted ++ if charged.1.isSome then [p] else [] }
  | _, _ => s

omit [DecidableEq Sa] in
/-- The associations, before any packet. -/
def start (sadb : Sa → Option Tdb) : State Sa := ⟨sadb, [], []⟩

/-! ## One association -/

/-- What there is of one association. -/
structure View (Sa : Type) where
  tdb : Option Tdb
  expired : List Lifetime
  accepted : List (Packet Sa)

def State.view (s : State Sa) (sa : Sa) : View Sa where
  tdb := s.sadb sa
  expired := (s.expired.filter (·.1 = sa)).map Prod.snd
  accepted := s.accepted.filter (·.sa = sa)

/-- The packets that count for an association. -/
def own (sa : Sa) (ps : List (Packet Sa)) : List (Packet Sa) :=
  ps.filter fun p => p.authentic && p.sa = sa

section

omit [DecidableEq Sa]

def total (ps : List (Packet Sa)) : Nat := (ps.map Packet.ibytes).sum

/-- The hard lifetime has ended with one of the packets. -/
def Spent (tdb : Tdb) (ps : List (Packet Sa)) : Prop :=
  tdb.flagBytes = true ∧ ps ≠ [] ∧ tdb.expBytes ≤ tdb.curBytes + total ps

/-- The soft lifetime has ended with one of the packets. -/
def SoftSpent (tdb : Tdb) (ps : List (Packet Sa)) : Prop :=
  tdb.flagSoftBytes = true ∧ ps ≠ [] ∧ tdb.softBytes ≤ tdb.curBytes + total ps

instance (tdb : Tdb) (ps : List (Packet Sa)) : Decidable (Spent tdb ps) :=
  inferInstanceAs (Decidable (_ ∧ _ ∧ _))

instance (tdb : Tdb) (ps : List (Packet Sa)) : Decidable (SoftSpent tdb ps) :=
  inferInstanceAs (Decidable (_ ∧ _ ∧ _))

/-- What the key daemon is told for the packets. -/
def notices (tdb : Tdb) (ps : List (Packet Sa)) : List Lifetime :=
  if SoftSpent tdb ps then [.soft] else []

/-- The association when all of the packets are accepted. -/
def Tdb.after (tdb : Tdb) (ps : List (Packet Sa)) : Tdb :=
  { tdb with
    curBytes := tdb.curBytes + total ps
    flagSoftBytes := tdb.flagSoftBytes && !decide (SoftSpent tdb ps) }

/-- What becomes of an association with its packets. -/
inductive Outcome (tdb : Tdb) (ps : List (Packet Sa)) : View Sa → Prop where
  | alive (unspent : ¬ Spent tdb ps) : Outcome tdb ps ⟨some (tdb.after ps), notices tdb ps, ps⟩
  /-- It is deleted with the first packet that ends the hard lifetime, the only one charged to it that
  is dropped. -/
  | gone {served : List (Packet Sa)} {p : Packet Sa} (first : served ++ [p] <+: ps)
      (unspent : ¬ Spent tdb served) (spent : Spent tdb (served ++ [p])) :
      Outcome tdb ps ⟨none, notices tdb served ++ [.hard], served⟩

variable {tdb : Tdb} {ps qs : List (Packet Sa)} {p : Packet Sa} {v : View Sa}

theorem total_append : total (ps ++ qs) = total ps + total qs := by
  rw [total, List.map_append, List.sum_append]
  rfl

theorem total_concat : total (ps ++ [p]) = total ps + p.ibytes := total_append

theorem SoftSpent.append (spent : SoftSpent tdb ps) : SoftSpent tdb (ps ++ qs) := by
  obtain ⟨flag, some, reached⟩ := spent
  refine ⟨flag, List.append_ne_nil_of_left_ne_nil some qs, reached.trans ?_⟩
  rw [total_append]
  exact Nat.add_le_add_left (Nat.le_add_right ..) _

theorem Spent.of_prefix (spent : Spent tdb ps) (start : ps <+: qs) : Spent tdb qs := by
  obtain ⟨rest, rfl⟩ := start
  obtain ⟨flag, some, reached⟩ := spent
  refine ⟨flag, List.append_ne_nil_of_left_ne_nil some rest, reached.trans ?_⟩
  rw [total_append]
  exact Nat.add_le_add_left (Nat.le_add_right ..) _

theorem spent_concat :
    Spent tdb (ps ++ [p]) ↔ tdb.flagBytes = true ∧ tdb.expBytes ≤ tdb.curBytes + total (ps ++ [p]) :=
  and_congr_right fun _ => and_iff_right (List.concat_ne_nil p ps)

theorem softSpent_concat :
    SoftSpent tdb (ps ++ [p]) ↔
      tdb.flagSoftBytes = true ∧ tdb.softBytes ≤ tdb.curBytes + total (ps ++ [p]) :=
  and_congr_right fun _ => and_iff_right (List.concat_ne_nil p ps)

theorem after_flagSoftBytes :
    (tdb.after ps).flagSoftBytes = true ↔ tdb.flagSoftBytes = true ∧ ¬ SoftSpent tdb ps := by
  rw [Tdb.after, Bool.and_eq_true, Bool.not_eq_true', decide_eq_false_iff_not]

/-- What is told for a packet when `ps` were before it. -/
def newNotices (tdb : Tdb) (ps : List (Packet Sa)) (p : Packet Sa) : List Lifetime :=
  if SoftSpent tdb ps then [] else notices tdb (ps ++ [p])

theorem notices_concat : notices tdb ps ++ newNotices tdb ps p = notices tdb (ps ++ [p]) := by
  by_cases before : SoftSpent tdb ps
  · rw [newNotices, if_pos before, notices, if_pos before, notices, if_pos before.append,
      List.append_nil]
  · rw [newNotices, if_neg before, notices, if_neg before, List.nil_append]

theorem charge_after (fits : tdb.curBytes + total (ps ++ [p]) < 2 ^ 64) :
    charge (tdb.after ps) p.ibytes =
      if Spent tdb (ps ++ [p]) then (none, [.hard])
      else (some (tdb.after (ps ++ [p])), newNotices tdb ps p) := by
  have sum : ((tdb.after ps).curBytes + p.ibytes) % 2 ^ 64 = tdb.curBytes + total (ps ++ [p]) := by
    rw [← Nat.mod_eq_of_lt fits, total_concat, ← Nat.add_assoc]
    rfl
  have soft : ((tdb.after ps).flagSoftBytes = true ∧
      tdb.softBytes ≤ tdb.curBytes + total (ps ++ [p])) ↔
      ¬ SoftSpent tdb ps ∧ SoftSpent tdb (ps ++ [p]) := by
    rw [after_flagSoftBytes, softSpent_concat]
    tauto
  simp only [charge, sum]
  by_cases spent : Spent tdb (ps ++ [p])
  · rw [if_pos spent]
    exact if_pos (spent_concat.1 spent)
  rw [if_neg spent]
  refine (if_neg (spent_concat.not.1 spent)).trans ?_
  by_cases now : ¬ SoftSpent tdb ps ∧ SoftSpent tdb (ps ++ [p])
  · refine (if_pos (soft.2 now)).trans ?_
    have off : tdb.after (ps ++ [p]) =
        { tdb with curBytes := tdb.curBytes + total (ps ++ [p]), flagSoftBytes := false } := by
      rw [Tdb.after, decide_eq_true now.2, Bool.not_true, Bool.and_false]
    rw [newNotices, if_neg now.1, notices, if_pos now.2, off]
    rfl
  · refine (if_neg (soft.not.2 now)).trans ?_
    have same : SoftSpent tdb ps ↔ SoftSpent tdb (ps ++ [p]) :=
      ⟨SoftSpent.append, fun after => by_contra fun before => now ⟨before, after⟩⟩
    have nothing : newNotices tdb ps p = [] := by
      by_cases before : SoftSpent tdb ps
      · rw [newNotices, if_pos before]
      · rw [newNotices, if_neg before, notices, if_neg (same.not.1 before)]
    rw [nothing, Tdb.after, Tdb.after, decide_eq_decide.2 same]

/-- The packet `p` at one association. -/
def View.account (v : View Sa) (p : Packet Sa) : View Sa :=
  match v.tdb with
  | none => v
  | some tdb =>
    { tdb := (charge tdb p.ibytes).1
      expired := v.expired ++ (charge tdb p.ibytes).2
      accepted := v.accepted ++ if (charge tdb p.ibytes).1.isSome then [p] else [] }

theorem Outcome.account (before : Outcome tdb ps v)
    (fits : tdb.curBytes + total (ps ++ [p]) < 2 ^ 64) : Outcome tdb (ps ++ [p]) (v.account p) := by
  cases before with
  | alive unspent =>
    simp only [View.account, charge_after fits]
    by_cases spent : Spent tdb (ps ++ [p])
    · rw [if_pos spent]
      show Outcome tdb (ps ++ [p]) ⟨none, notices tdb ps ++ [.hard], ps ++ []⟩
      rw [List.append_nil]
      exact .gone List.prefix_rfl unspent spent
    · rw [if_neg spent, notices_concat]
      exact .alive spent
  | gone first unspent spent => exact .gone (first.trans (List.prefix_append _ _)) unspent spent

theorem Outcome.deleted_iff (outcome : Outcome tdb ps v) : v.tdb = none ↔ Spent tdb ps := by
  cases outcome with
  | alive unspent => exact iff_of_false nofun unspent
  | gone first _ spent => exact iff_of_true rfl (spent.of_prefix first)

theorem outcome_nil : Outcome tdb [] (⟨some tdb, [], []⟩ : View Sa) := by
  have soft : ¬ SoftSpent tdb ([] : List (Packet Sa)) := fun spent => spent.2.1 rfl
  have same : tdb.after ([] : List (Packet Sa)) = tdb := by
    rw [Tdb.after, decide_eq_false soft, Bool.not_false, Bool.and_true]
    rfl
  have unspent : ¬ Spent tdb ([] : List (Packet Sa)) := fun spent => spent.2.1 rfl
  have outcome := Outcome.alive unspent
  rwa [same, notices, if_neg soft] at outcome

theorem foldl_account (ps : List (Packet Sa)) (fits : tdb.curBytes + total ps < 2 ^ 64) :
    Outcome tdb ps (ps.foldl View.account ⟨some tdb, [], []⟩) := by
  induction ps using List.reverseRecOn with
  | nil => exact outcome_nil
  | append_singleton ps p ih =>
    rw [List.foldl_concat]
    have less : tdb.curBytes + total ps < 2 ^ 64 := by
      rw [total_concat] at fits
      omega
    exact (ih less).account fits

end

/-! ## All of them -/

variable {s : State Sa} {sa : Sa} {p : Packet Sa} {ps : List (Packet Sa)} {tdb : Tdb}

theorem own_cons_of_pos (mine : p.authentic = true ∧ p.sa = sa) :
    own sa (p :: ps) = p :: own sa ps :=
  List.filter_cons_of_pos (by rw [mine.1, mine.2, decide_eq_true rfl, Bool.and_true])

theorem own_cons_of_neg (other : ¬ (p.authentic = true ∧ p.sa = sa)) :
    own sa (p :: ps) = own sa ps :=
  List.filter_cons_of_neg (by rwa [Bool.and_eq_true, decide_eq_true_iff])

theorem filter_kept (kept : Bool) :
    (if kept then [p] else []).filter (·.sa = sa) = if kept ∧ p.sa = sa then [p] else [] := by
  cases kept <;> simp [List.filter_singleton]

theorem filter_told (told : List Lifetime) :
    (((told.map (p.sa, ·)).filter (·.1 = sa)).map Prod.snd) = if p.sa = sa then told else [] := by
  by_cases same : p.sa = sa <;> simp [List.filter_map, Function.comp_def, same]

theorem view_input_other (other : ¬ (p.authentic = true ∧ p.sa = sa)) :
    (input s p).view sa = s.view sa := by
  cases authentic : p.authentic with
  | false =>
    rw [input, authentic]
    cases s.sadb p.sa <;> rfl
  | true =>
    have differs : p.sa ≠ sa := fun same => other ⟨authentic, same⟩
    rw [input, authentic]
    cases s.sadb p.sa with
    | none => rfl
    | some tdb =>
      simp only [State.view, List.filter_append, List.map_append, filter_told, filter_kept,
        differs, and_false, if_false, List.append_nil,
        Function.update_of_ne differs.symm]

theorem view_input_own (authentic : p.authentic = true) :
    (input s p).view p.sa = (s.view p.sa).account p := by
  rw [input, authentic]
  cases found : s.sadb p.sa with
  | none => simp only [View.account, State.view, found]
  | some tdb =>
    simp only [View.account, State.view, found, List.filter_append, List.map_append, filter_told,
      filter_kept, if_true, and_true, Function.update_self]

theorem view_foldl (ps : List (Packet Sa)) (s : State Sa) (sa : Sa) :
    (ps.foldl input s).view sa = (own sa ps).foldl View.account (s.view sa) := by
  induction ps generalizing s with
  | nil => rfl
  | cons p ps ih =>
    rw [List.foldl_cons, ih]
    by_cases mine : p.authentic = true ∧ p.sa = sa
    · rw [own_cons_of_pos mine, List.foldl_cons]
      obtain ⟨authentic, rfl⟩ := mine
      rw [view_input_own authentic]
    · rw [own_cons_of_neg mine, view_input_other mine]

/-- **Only authentic packets wear an association out.** Whatever packets come, and in whatever order: an
association is deleted exactly when its own authentic packets spend its hard lifetime, and what the key
daemon is told and which packets are accepted depends on these alone. -/
theorem input_outcome (sadb : Sa → Option Tdb) (ps : List (Packet Sa)) (sa : Sa)
    (known : sadb sa = some tdb) (fits : tdb.curBytes + total (own sa ps) < 2 ^ 64) :
    Outcome tdb (own sa ps) ((ps.foldl input (start sadb)).view sa) ∧
      ((ps.foldl input (start sadb)).sadb sa = none ↔ Spent tdb (own sa ps)) := by
  have fresh : (start sadb).view sa = ⟨some tdb, [], []⟩ := by
    rw [← known]
    rfl
  have outcome : Outcome tdb (own sa ps) ((ps.foldl input (start sadb)).view sa) := by
    rw [view_foldl, fresh]
    exact foldl_account _ fits
  exact ⟨outcome, outcome.deleted_iff⟩

/-- Forged packets before, between and after those of an association that has 100 bytes. -/
def traffic : List (Packet Nat) :=
  [⟨1, 90, false⟩, ⟨1, 60, true⟩, ⟨1, 90, false⟩, ⟨2, 70, true⟩, ⟨1, 30, true⟩, ⟨1, 20, true⟩,
    ⟨1, 90, false⟩, ⟨1, 1, true⟩]

theorem input_outcome_traffic :
    let view := (traffic.foldl input (start fun _ => some ⟨true, true, 0, 100, 80⟩)).view 1
    view = ⟨none, [.soft, .hard], [⟨1, 60, true⟩, ⟨1, 30, true⟩]⟩ ∧
      Outcome ⟨true, true, 0, 100, 80⟩ (own 1 traffic) view :=
  ⟨rfl, (@input_outcome Nat _ ⟨true, true, 0, 100, 80⟩ (fun _ => some ⟨true, true, 0, 100, 80⟩)
    traffic 1 rfl (by decide)).1⟩

end SecurityAudits.OpenbsdKernel.ByteLifetime
