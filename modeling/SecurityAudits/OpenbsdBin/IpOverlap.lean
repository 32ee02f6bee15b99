import Mathlib.Order.Interval.Set.Basic
import Mathlib.Order.Lattice.Nat
import SecurityAudits.Lib.CString
import SecurityAudits.Lib.Selection

/-!
# Overlapping address ranges in rpki-client

`ip_addr_check_overlap` of `usr.sbin/rpki-client/ip.c` compares a range of addresses with every range
of a certificate so far, and `append_ip` adds it when none overlaps. The ranges of both families are
in one array, and an address is compared by `memcmp` over the bytes that its family uses.

What a range stands for is a closed interval of numbers, `addresses`. The check accepts a range
exactly when its interval is disjoint from that of every range of its family (`check_apart`), so the
array is what `Selection.select` keeps of the ranges presented (`appendAll_eq`).
-/

open SecurityAudits.CString SecurityAudits.Selection

namespace SecurityAudits.OpenbsdBin.IpOverlap
set_option autoImplicit false

inductive Afi where
  | ipv4
  | ipv6
  deriving DecidableEq, Repr

/-- The `sz` bytes that an address of the family has. -/
def Afi.size : Afi → Nat
  | .ipv4 => 4
  | .ipv6 => 16

/-- A `struct cert_ip` that is a range; the arrays have room for either family. -/
structure CertIp where
  afi : Afi
  min : Vector UInt8 16
  max : Vector UInt8 16

/-- A range whose `min` is at most its `max`, bytewise over the size of the family. -/
structure Range extends CertIp where
  ordered : ∃ order, memcmp min.toList max.toList afi.size = some order ∧ order ≤ 0

/-- `ip_addr_check_overlap`: 1 when `ip` overlaps none of `ips`. -/
def ipAddrCheckOverlap (ip : CertIp) : List CertIp → Option Int
  | [] => some 1
  | other :: ips =>
    if other.afi ≠ ip.afi then ipAddrCheckOverlap ip ips
    else do
      let maxOrder ← memcmp other.max.toList ip.min.toList ip.afi.size
      if maxOrder < 0 then ipAddrCheckOverlap ip ips
      else do
        let minOrder ← memcmp other.min.toList ip.max.toList ip.afi.size
        if minOrder > 0 then ipAddrCheckOverlap ip ips else return 0

/-- `append_ip`: the array with the range when the check accepts it. -/
def appendIp (ips : List Range) (ip : Range) : Option (List Range) := do
  let accepted ← ipAddrCheckOverlap ip.toCertIp (ips.map Range.toCertIp)
  return if accepted = 0 then ips else ips ++ [ip]

/-- The array after the ranges were presented one after another. -/
def appendAll (presented : List Range) : Option (List Range) := presented.foldlM appendIp []

/-! ## Ranges as intervals -/

/-- The number of an address of the family. -/
def Afi.number (afi : Afi) (address : Vector UInt8 16) : Nat :=
  bigEndian (address.toList.take afi.size)

/-- The addresses of a range. -/
def CertIp.addresses (ip : CertIp) : Set Nat := Set.Icc (ip.afi.number ip.min) (ip.afi.number ip.max)

/-- No address in common; addresses of two families are never the same. -/
def Apart (a b : Range) : Prop := a.afi = b.afi → a.addresses ∩ b.addresses = ∅

theorem Afi.size_le (afi : Afi) (address : Vector UInt8 16) : afi.size ≤ address.toList.length := by
  rw [Vector.length_toList]
  cases afi <;> decide

/-- A comparison of addresses reads inside both arrays and orders their numbers. -/
theorem memcmp_number (afi : Afi) (a b : Vector UInt8 16) :
    ∃ order, memcmp a.toList b.toList afi.size = some order ∧
      (order < 0 ↔ afi.number a < afi.number b) ∧ (0 < order ↔ afi.number b < afi.number a) :=
  memcmp_order (afi.size_le a) (afi.size_le b)

theorem Range.number_le (ip : Range) : ip.afi.number ip.min ≤ ip.afi.number ip.max := by
  obtain ⟨order, compared, atMost⟩ := ip.ordered
  obtain ⟨order', compared', -, above⟩ := memcmp_number ip.afi ip.min ip.max
  rw [compared] at compared'
  cases compared'
  by_contra reversed
  exact absurd (above.2 (Nat.lt_of_not_le reversed)) (Int.not_lt.2 atMost)

/-- Two intervals are disjoint when one ends before the other begins: touching is overlapping. -/
theorem disjoint_addresses (a b : Range) :
    a.addresses ∩ b.addresses = ∅ ↔
      a.afi.number a.max < b.afi.number b.min ∨ b.afi.number b.max < a.afi.number a.min := by
  have order := a.number_le
  have order' := b.number_le
  rw [CertIp.addresses, CertIp.addresses, Set.Icc_inter_Icc, Set.Icc_eq_empty_iff, sup_le_iff,
    le_inf_iff, le_inf_iff]
  omega

instance : DecidableRel Apart := fun a b =>
  decidable_of_iff _ (imp_congr_right fun _ => (disjoint_addresses a b).symm)

/-! ## The check and the array -/

/-- **The check accepts a range exactly when it has no address in common with any of its family.** -/
theorem check_apart (ip : Range) (ips : List Range) :
    ipAddrCheckOverlap ip.toCertIp (ips.map Range.toCertIp) =
      some (if ∀ other ∈ ips, Apart other ip then 1 else 0) := by
  induction ips with
  | nil => simp [ipAddrCheckOverlap]
  | cons other ips ih =>
    rw [List.map_cons, ipAddrCheckOverlap]
    simp only [List.forall_mem_cons]
    by_cases family : other.afi = ip.afi
    · rw [if_neg (not_not_intro family)]
      obtain ⟨maxOrder, maxCompared, maxBelow, -⟩ := memcmp_number ip.afi other.max ip.min
      obtain ⟨minOrder, minCompared, -, minAbove⟩ := memcmp_number ip.afi other.min ip.max
      have apart : Apart other ip ↔ maxOrder < 0 ∨ 0 < minOrder := by
        rw [maxBelow, minAbove, Apart, disjoint_addresses, family]
        exact ⟨fun apart => apart rfl, fun ends _ => ends⟩
      rw [maxCompared, minCompared, ih]
      simp only [apart]
      by_cases below : maxOrder < 0
      · simp [below]
      · by_cases above : 0 < minOrder
        · simp [below, above]
        · simp [below, above]
    · have apart : Apart other ip := fun same => absurd same family
      rw [if_pos family, ih]
      simp [apart]

theorem appendIp_eq (ips : List Range) (ip : Range) : appendIp ips ip = some (add Apart ips ip) := by
  rw [appendIp, check_apart, add]
  by_cases accepted : ∀ other ∈ ips, Apart other ip
  · rw [if_pos accepted, if_pos accepted]
    rfl
  · rw [if_neg accepted, if_neg accepted]
    rfl

theorem appendAll_eq (presented : List Range) :
    appendAll presented = some (select Apart presented) := by
  have pure' : appendIp = fun ips ip => pure (add Apart ips ip) := by
    funext ips ip
    exact appendIp_eq ips ip
  rw [appendAll, pure', List.foldlM_pure]
  rfl

end SecurityAudits.OpenbsdBin.IpOverlap
