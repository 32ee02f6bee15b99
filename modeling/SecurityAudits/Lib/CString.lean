import Mathlib.Algebra.Order.Ring.Nat
import Mathlib.Data.List.TakeWhile

/-!
# C strings

A pointer into an object is the list of the bytes from where it points to the end of the object,
and a function that reads at the end of the object has no result. So that a program of these
functions has a result says that it reads only bytes of its objects.

The rules give the result of a function from what its pointers point at: a string and its NUL, or
for `memchr` and `memcmp` a buffer that is long enough. `memcmp` orders buffers as numbers.
-/

namespace SecurityAudits.CString
set_option autoImplicit false

/-- The bytes of a string without its NUL. -/
structure CStr where
  chars : List UInt8
  noNul : 0 ∉ chars

/-- The object that holds a string: nothing follows the NUL. -/
def CStr.memory (s : CStr) : List UInt8 := s.chars ++ [0]

/-- `*p` -/
def deref (p : List UInt8) : Option UInt8 := p.head?

/-- `while (pass(*p)) p++;` -/
def skip (pass : UInt8 → Bool) : List UInt8 → Option (List UInt8)
  | [] => none
  | c :: p => if pass c then skip pass p else some (c :: p)

/-- `strncmp(p, q, n)` -/
def strncmp : List UInt8 → List UInt8 → Nat → Option Int
  | _, _, 0 => some 0
  | c :: p, d :: q, n + 1 =>
    if c ≠ d then some (c.toNat - d.toNat) else if c = 0 then some 0 else strncmp p q n
  | _, _, _ + 1 => none

/-- `memchr(p, c, n)`, as an offset from `p`; the inner `none` is the null pointer. -/
def memchr : List UInt8 → UInt8 → Nat → Option (Option Nat)
  | _, _, 0 => some none
  | [], _, _ + 1 => none
  | b :: p, c, n + 1 => if b = c then some (some 0) else (memchr p c n).map (Option.map (· + 1))

/-- `memcmp(p, q, n)` -/
def memcmp : List UInt8 → List UInt8 → Nat → Option Int
  | _, _, 0 => some 0
  | c :: p, d :: q, n + 1 => if c ≠ d then some (c.toNat - d.toNat) else memcmp p q n
  | _, _, _ + 1 => none

/-- Bytes as a number, highest byte first. -/
def bigEndian : List UInt8 → Nat
  | [] => 0
  | c :: p => c.toNat * 256 ^ p.length + bigEndian p

/-- `strdup(p)`: the bytes that are copied, without the NUL. -/
def strdup : List UInt8 → Option (List UInt8)
  | [] => none
  | b :: p => if b = 0 then some [] else (strdup p).map (b :: ·)

variable {p q s t : List UInt8} {c : UInt8} {n : Nat} {pass : UInt8 → Bool}

theorem skip_cons_of_pos (passes : pass c = true) : skip pass (c :: p) = skip pass p :=
  if_pos passes

theorem skip_cons_of_neg (stops : pass c = false) : skip pass (c :: p) = some (c :: p) :=
  if_neg (ne_true_of_eq_false stops)

theorem strncmp_zero : strncmp p q 0 = some 0 := by
  unfold strncmp
  rfl

theorem strncmp_same (nonzero : c ≠ 0) :
    strncmp (c :: p) (c :: q) (n + 1) = strncmp p q n := by
  rw [strncmp, if_neg (not_not_intro rfl), if_neg nonzero]

theorem strncmp_differ {d : UInt8} (differ : c ≠ d) :
    ∃ r, strncmp (c :: p) (d :: q) (n + 1) = some r ∧ r ≠ 0 := by
  refine ⟨c.toNat - d.toNat, by rw [strncmp, if_pos differ], fun zero => differ ?_⟩
  exact UInt8.toNat_inj.1 (by omega)

/-- Comparing `n` bytes of two strings reads neither beyond its NUL, and gives zero when the
strings agree up to there. -/
theorem strncmp_terminated (noNul : 0 ∉ s) (noNul' : 0 ∉ t) :
    ∃ r, strncmp (s ++ 0 :: p) (t ++ 0 :: q) n = some r ∧ (r = 0 ↔ s.take n = t.take n) := by
  induction n generalizing s t with
  | zero => exact ⟨0, strncmp_zero, iff_of_true rfl rfl⟩
  | succ n ih =>
    cases s with
    | nil =>
      cases t with
      | nil => exact ⟨0, rfl, iff_of_true rfl rfl⟩
      | cons d t =>
        have differ : 0 ≠ d := fun zero => noNul' (zero ▸ List.mem_cons_self)
        obtain ⟨r, result, nonzero⟩ := strncmp_differ (p := p) (q := t ++ 0 :: q) (n := n) differ
        refine ⟨r, result, iff_of_false nonzero (List.cons_ne_nil _ _).symm⟩
    | cons c s =>
      have nonzero : c ≠ 0 := fun zero => noNul (zero ▸ List.mem_cons_self)
      cases t with
      | nil =>
        obtain ⟨r, result, nonzero⟩ := strncmp_differ (p := s ++ 0 :: p) (q := q) (n := n) nonzero
        refine ⟨r, result, iff_of_false nonzero (List.cons_ne_nil _ _)⟩
      | cons d t =>
        by_cases same : c = d
        · subst same
          obtain ⟨r, result, zero⟩ := ih (fun mem => noNul (List.mem_cons_of_mem c mem))
            (fun mem => noNul' (List.mem_cons_of_mem c mem))
          refine ⟨r, (strncmp_same nonzero).trans result, zero.trans ?_⟩
          rw [List.take_succ_cons, List.take_succ_cons, List.cons_inj_right]
        · obtain ⟨r, result, nonzero⟩ :=
            strncmp_differ (p := s ++ 0 :: p) (q := t ++ 0 :: q) (n := n) same
          refine ⟨r, result, iff_of_false nonzero fun takes => same ?_⟩
          exact (List.cons.inj takes).1

/-- `memchr` finds the first `c` when it is among the `n` bytes. -/
theorem memchr_found (first : c ∉ s) (within : s.length < n) :
    memchr (s ++ c :: p) c n = some (some s.length) := by
  induction n generalizing s with
  | zero => exact absurd within (Nat.not_lt_zero _)
  | succ n ih =>
    cases s with
    | nil => rw [List.nil_append, memchr, if_pos rfl]; rfl
    | cons b s =>
      have other : b ≠ c := fun same => first (same ▸ List.mem_cons_self)
      rw [List.cons_append, memchr, if_neg other,
        ih (fun mem => first (List.mem_cons_of_mem b mem)) (Nat.lt_of_succ_lt_succ within)]
      rfl

/-- `memchr` answers the null pointer when the object has `n` bytes, none of which is `c`. -/
theorem memchr_absent (le : n ≤ p.length) (absent : c ∉ p.take n) : memchr p c n = some none := by
  induction n generalizing p with
  | zero => unfold memchr; rfl
  | succ n ih =>
    cases p with
    | nil => cases le
    | cons b p =>
      rw [List.take_succ_cons, List.mem_cons, not_or] at absent
      rw [memchr, if_neg (Ne.symm absent.1), ih (Nat.le_of_succ_le_succ le) absent.2]
      rfl

theorem bigEndian_lt (p : List UInt8) : bigEndian p < 256 ^ p.length := by
  induction p with
  | nil => exact Nat.one_pos
  | cons c p ih =>
    have digit : (c.toNat + 1) * 256 ^ p.length ≤ 256 * 256 ^ p.length :=
      Nat.mul_le_mul_right _ c.toNat_lt
    rw [bigEndian, List.length_cons, pow_succ']
    rw [Nat.succ_mul] at digit
    omega

/-- The first byte decides between two numbers of one length. -/
theorem bigEndian_cons_lt {d : UInt8} (same : p.length = q.length) (less : c < d) :
    bigEndian (c :: p) < bigEndian (d :: q) := by
  have digit : (c.toNat + 1) * 256 ^ q.length ≤ d.toNat * 256 ^ q.length :=
    Nat.mul_le_mul_right _ (UInt8.lt_iff_toNat_lt.1 less)
  have rest := bigEndian_lt p
  rw [Nat.succ_mul] at digit
  rw [same] at rest
  rw [bigEndian, bigEndian, same]
  omega

/-- `memcmp` of two buffers with `n` bytes has the sign of the difference of the numbers there. -/
theorem memcmp_order (le : n ≤ p.length) (le' : n ≤ q.length) :
    ∃ r, memcmp p q n = some r ∧ (r < 0 ↔ bigEndian (p.take n) < bigEndian (q.take n)) ∧
      (0 < r ↔ bigEndian (q.take n) < bigEndian (p.take n)) := by
  induction n generalizing p q with
  | zero => exact ⟨0, by unfold memcmp; rfl, by simp, by simp⟩
  | succ n ih =>
    cases p with
    | nil => cases le
    | cons c p =>
      cases q with
      | nil => cases le'
      | cons d q =>
        have le := Nat.le_of_succ_le_succ le
        have le' := Nat.le_of_succ_le_succ le'
        have same : (p.take n).length = (q.take n).length := by
          rw [List.length_take_of_le le, List.length_take_of_le le']
        rw [List.take_succ_cons, List.take_succ_cons, memcmp]
        split
        case isTrue differ =>
          refine ⟨_, rfl, ?_⟩
          rcases UInt8.lt_or_lt_of_ne differ with less | more
          · have below := bigEndian_cons_lt same less
            have bytes := UInt8.lt_iff_toNat_lt.1 less
            exact ⟨by omega, by omega⟩
          · have above := bigEndian_cons_lt same.symm more
            have bytes := UInt8.lt_iff_toNat_lt.1 more
            exact ⟨by omega, by omega⟩
        case isFalse equal =>
          obtain ⟨r, result, below, above⟩ := ih le le'
          rw [not_not] at equal
          refine ⟨r, result, ?_⟩
          rw [equal, bigEndian, bigEndian, same, Nat.add_lt_add_iff_left, Nat.add_lt_add_iff_left]
          exact ⟨below, above⟩

/-- The copy ends before the first NUL, when there is one. -/
theorem strdup_terminated (noNul : 0 ∉ s) : strdup (s ++ 0 :: p) = some s := by
  induction s with
  | nil => rfl
  | cons c s ih =>
    have nonzero : c ≠ 0 := fun zero => noNul (zero ▸ List.mem_cons_self)
    rw [List.cons_append, strdup, if_neg nonzero, ih fun mem => noNul (List.mem_cons_of_mem c mem)]
    rfl

/-- Bytes with a `c` among them, split at the first. -/
theorem exists_first (mem : c ∈ p) : ∃ s behind, p = s ++ c :: behind ∧ c ∉ s := by
  induction p with
  | nil => cases mem
  | cons b p ih =>
    by_cases here : b = c
    · exact ⟨[], p, by rw [here]; rfl, List.not_mem_nil⟩
    · obtain ⟨s, behind, split, first⟩ := ih ((List.mem_cons.1 mem).resolve_left (Ne.symm here))
      refine ⟨b :: s, behind, by rw [split]; rfl, fun mem => ?_⟩
      exact (List.mem_cons.1 mem).elim (Ne.symm here) first

/-- The first `c` is at one place only. -/
theorem first_unique (first : c ∉ s) (first' : c ∉ t) (same : s ++ c :: p = t ++ c :: q) :
    s = t ∧ p = q := by
  induction s generalizing t with
  | nil =>
    cases t with
    | nil => exact ⟨rfl, (List.cons.inj same).2⟩
    | cons d t => exact absurd ((List.cons.inj same).1 ▸ List.mem_cons_self) first'
  | cons b s ih =>
    cases t with
    | nil => exact absurd ((List.cons.inj same).1 ▸ List.mem_cons_self) first
    | cons d t =>
      obtain ⟨front, behind⟩ := List.cons.inj same
      obtain ⟨names, rests⟩ := ih (fun mem => first (List.mem_cons_of_mem b mem))
        (fun mem => first' (List.mem_cons_of_mem d mem)) behind
      exact ⟨by rw [front, names], rests⟩

end SecurityAudits.CString
