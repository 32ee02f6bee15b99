import Mathlib.Data.List.Basic
import Mathlib.Algebra.Order.Ring.Nat

/-!
# Copying a message out to a receiver

`msg_copyout` (`kern/sysv_msg.c`) copies a message, which is a chain of mbufs, to the buffer of a
receiver, and no more of it than the receiver asks for. `copyout` is a call that may fail, and then
may have copied a part; which calls fail is a parameter.

`Copies` says what the loop does from any segment on. `ubuf` and `xfer` move together, so the rest
of the loop copies the rest of the bytes behind those that are there (`copyoutLoop_copies`).
-/

namespace SecurityAudits.OpenbsdKernel.MsgCopyout
set_option autoImplicit false

/-! ## The function -/

/-- A segment of a message; `m_len` is an `unsigned int`. -/
structure Mbuf where
  data : List UInt8
  small : data.length < 2 ^ 32

/-- `struct msg`: `msg_len` is the length of the whole chain. -/
structure Msg where
  msgData : List Mbuf
  msgLen : Nat
  whole : msgLen = (msgData.flatMap Mbuf.data).length

/-- The segments, concatenated. -/
def Msg.bytes (msg : Msg) : List UInt8 := msg.msgData.flatMap Mbuf.data

/-- A call of `copyout` that fails: how many bytes it has copied all the same, and the error. -/
structure Fault where
  copied : Nat
  error : Nat

/-- The memory of the receiver, and how often `copyout` has been called. -/
structure User where
  memory : Nat → UInt8
  calls : Nat

/-- `bytes` at `addr`. -/
def write (memory : Nat → UInt8) (addr : Nat) (bytes : List UInt8) (a : Nat) : UInt8 :=
  if addr ≤ a then (bytes[a - addr]?).getD (memory a) else memory a

/-- `copyout`, which returns an error or none. -/
def copyout (fault : Nat → Option Fault) (bytes : List UInt8) (ubuf : Nat) (u : User) :
    Option Nat × User :=
  match fault u.calls with
  | none => (none, ⟨write u.memory ubuf bytes, u.calls + 1⟩)
  | some f => (some f.error, ⟨write u.memory ubuf (bytes.take f.copied), u.calls + 1⟩)

/-- `min` of the kernel library, which takes and returns an `unsigned int`. -/
def umin (a b : Nat) : Nat := min (a % 2 ^ 32) (b % 2 ^ 32)

/-- `for (m = msg->msg_data; m && xfer > 0; m = m->m_next)` -/
def copyoutLoop (fault : Nat → Option Fault) :
    List Mbuf → (ubuf xfer : Nat) → User → Option Nat × User
  | [], _, _, u => (none, u)
  | m :: chain, ubuf, xfer, u =>
    if xfer > 0 then
      let mlen := umin xfer m.data.length
      match copyout fault (m.data.take mlen) ubuf u with
      | (some error, u) => (some error, u)
      | (none, u) => copyoutLoop fault chain (ubuf + mlen) (xfer - mlen) u
    else (none, u)

/-- `msg_copyout` from `ubuf += sizeof(long)` on: the error, and what is left in `*len`. -/
def msgCopyout (fault : Nat → Option Fault) (sizeofLong : Nat) (msg : Msg) (ubuf len : Nat)
    (u : User) : Option Nat × Nat × User :=
  let xfer := umin len msg.msgLen
  let (error, u) := copyoutLoop fault msg.msgData (ubuf + sizeofLong) xfer u
  (error, xfer, u)

/-! ## Writing -/

variable {memory : Nat → UInt8} {addr a n : Nat} {xs ys : List UInt8}

theorem write_nil : write memory addr [] = memory := by
  funext a
  unfold write
  rw [List.getElem?_nil, Option.getD_none]
  exact ite_self _

theorem write_outside (outside : a < addr ∨ addr + xs.length ≤ a) :
    write memory addr xs a = memory a := by
  unfold write
  by_cases before : addr ≤ a
  · rw [if_pos before, List.getElem?_eq_none (by omega), Option.getD_none]
  · rw [if_neg before]

/-- Two writes, one right behind the other, are one. -/
theorem write_append :
    write (write memory addr xs) (addr + xs.length) ys = write memory addr (xs ++ ys) := by
  funext a
  by_cases behind : addr + xs.length ≤ a
  · have inside : write memory addr xs a = memory a := write_outside (.inr behind)
    have index : a - (addr + xs.length) = a - addr - xs.length := Nat.sub_add_eq a addr xs.length
    rw [write, if_pos behind, inside, write, if_pos (by omega),
      List.getElem?_append_right (by omega), index]
  · rw [write, if_neg behind]
    unfold write
    by_cases before : addr ≤ a
    · rw [if_pos before, if_pos before, List.getElem?_append_left (by omega)]
    · rw [if_neg before, if_neg before]

/-! ## The loop -/

variable {fault : Nat → Option Fault} {u u' u'' : User} {error : Option Nat}

/-- What calls of `copyout` make of `u` that are to write `bytes` at `base`, one after the other. -/
structure Copies (fault : Nat → Option Fault) (base : Nat) (bytes : List UInt8) (u : User)
    (error : Option Nat) (u' : User) : Prop where
  calls : u.calls ≤ u'.calls
  done : error = none → u'.memory = write u.memory base bytes ∧
    ∀ k, u.calls ≤ k → k < u'.calls → fault k = none
  /-- The call that fails is the first one that does, and the last one. -/
  failed : ∀ e, error = some e → ∃ last f, u.calls ≤ last ∧ u'.calls = last + 1 ∧
    fault last = some f ∧ f.error = e ∧ ∀ k, u.calls ≤ k → k < last → fault k = none
  outside : ∀ a, a < base ∨ base + bytes.length ≤ a → u'.memory a = u.memory a

theorem copies_nil (base : Nat) (u : User) : Copies fault base [] u none u where
  calls := Nat.le_refl _
  done _ := ⟨write_nil.symm, fun _ first last => absurd first (Nat.not_le_of_lt last)⟩
  failed _ failed := by cases failed
  outside _ _ := rfl

theorem copyout_copies (fault : Nat → Option Fault) (xs : List UInt8) (ubuf : Nat) (u : User) :
    Copies fault ubuf xs u (copyout fault xs ubuf u).1 (copyout fault xs ubuf u).2 := by
  unfold copyout
  cases faulty : fault u.calls with
  | none =>
    refine ⟨Nat.le_succ _, fun _ => ⟨rfl, fun k first last => ?_⟩, fun e failed => (by cases failed),
      fun a outside => write_outside outside⟩
    rw [Nat.le_antisymm (Nat.le_of_lt_succ last) first]
    exact faulty
  | some f =>
    refine ⟨Nat.le_succ _, fun done => (by cases done), fun e failed => ?_, fun a outside => ?_⟩
    · exact ⟨u.calls, f, Nat.le_refl _, rfl, faulty, Option.some.inj failed,
        fun k first last => absurd first (Nat.not_le_of_lt last)⟩
    · refine write_outside (outside.imp_right fun behind => ?_)
      have part : (xs.take f.copied).length ≤ xs.length := List.length_take_le' _ _
      omega

/-- Calls that go on behind those that have succeeded. -/
theorem Copies.append (first : Copies fault addr xs u none u')
    (rest : Copies fault (addr + xs.length) ys u' error u'') :
    Copies fault addr (xs ++ ys) u error u'' := by
  obtain ⟨written, succeed⟩ := first.done rfl
  refine ⟨first.calls.trans rest.calls, fun done => ?_, fun e failed => ?_, fun a outside => ?_⟩
  · obtain ⟨memory, more⟩ := rest.done done
    refine ⟨?_, fun k from' last => ?_⟩
    · rw [memory, written, write_append]
    · by_cases early : k < u'.calls
      · exact succeed k from' early
      · exact more k (Nat.le_of_not_lt early) last
  · obtain ⟨last, f, behind, end', faulty, same, more⟩ := rest.failed e failed
    refine ⟨last, f, first.calls.trans behind, end', faulty, same, fun k from' before => ?_⟩
    by_cases early : k < u'.calls
    · exact succeed k from' early
    · exact more k (Nat.le_of_not_lt early) before
  · rw [List.length_append] at outside
    rw [rest.outside a (by omega), first.outside a (by omega)]

/-- Calls that are not made after one that has failed. -/
theorem Copies.stops (first : Copies fault addr xs u (some n) u') :
    Copies fault addr (xs ++ ys) u (some n) u' := by
  refine ⟨first.calls, fun done => (by cases done), first.failed, fun a outside => ?_⟩
  rw [List.length_append] at outside
  exact first.outside a (by omega)

theorem umin_eq (small : a < 2 ^ 32) (small' : n < 2 ^ 32) : umin a n = min a n := by
  rw [umin, Nat.mod_eq_of_lt small, Nat.mod_eq_of_lt small']

/-- From any segment on the loop is to copy the first `xfer` bytes of the segments that are left. -/
theorem copyoutLoop_copies (fault : Nat → Option Fault) (chain : List Mbuf) (ubuf : Nat)
    {xfer : Nat} (small : xfer < 2 ^ 32) (u : User) :
    Copies fault ubuf ((chain.flatMap Mbuf.data).take xfer) u
      (copyoutLoop fault chain ubuf xfer u).1 (copyoutLoop fault chain ubuf xfer u).2 := by
  induction chain generalizing ubuf xfer u with
  | nil =>
    rw [List.flatMap_nil, List.take_nil]
    exact copies_nil ubuf u
  | cons m chain ih =>
    rw [copyoutLoop]
    by_cases more : xfer > 0
    · have mlen : umin xfer m.data.length = min xfer m.data.length := umin_eq small m.small
      have split : ((m :: chain).flatMap Mbuf.data).take xfer =
          m.data.take (min xfer m.data.length) ++
            (chain.flatMap Mbuf.data).take (xfer - min xfer m.data.length) := by
        rw [List.flatMap_cons, List.take_append]
        congr 1
        · exact List.take_eq_take_min
        · congr 1
          omega
      have length : (m.data.take (min xfer m.data.length)).length = min xfer m.data.length := by
        rw [List.length_take]
        omega
      rw [if_pos more, split, mlen]
      dsimp only
      have first := copyout_copies fault (m.data.take (min xfer m.data.length)) ubuf u
      generalize copyout fault (m.data.take (min xfer m.data.length)) ubuf u = r at first ⊢
      obtain ⟨_ | e, u'⟩ := r
      · have rest := @ih (ubuf + min xfer m.data.length) (xfer - min xfer m.data.length) (by omega) u'
        refine first.append ?_
        rw [length]
        exact rest
      · exact first.stops
    · have none' : xfer = 0 := Nat.eq_zero_of_not_pos more
      rw [if_neg more, none', List.take_zero]
      exact copies_nil ubuf u

/-- **What the receiver gets.** Of every message, in segments of any lengths, and for every length
that is asked for, `xfer` bytes are reported. When no copy fails, the first `xfer` bytes of the
message are in the buffer behind the `long`, and no other byte has changed. The first copy that fails
is the last one, its error is returned, and no byte behind those `xfer` has changed either. -/
theorem msgCopyout_copies (fault : Nat → Option Fault) (sizeofLong : Nat) (msg : Msg)
    (ubuf len : Nat) (u : User) :
    ∃ error u' xfer, msgCopyout fault sizeofLong msg ubuf len u = (error, xfer, u') ∧
      xfer = umin len msg.msgLen ∧ (msg.bytes.take xfer).length = xfer ∧
      ((∀ k, fault k = none) → error = none) ∧
      (error = none → u'.memory = write u.memory (ubuf + sizeofLong) (msg.bytes.take xfer)) ∧
      (∀ e, error = some e → ∃ last f, u.calls ≤ last ∧ u'.calls = last + 1 ∧ fault last = some f ∧
        f.error = e ∧ ∀ k, u.calls ≤ k → k < last → fault k = none) ∧
      ∀ a, a < ubuf + sizeofLong ∨ ubuf + sizeofLong + xfer ≤ a → u'.memory a = u.memory a := by
  have small : umin len msg.msgLen < 2 ^ 32 :=
    Nat.lt_of_le_of_lt (Nat.min_le_left _ _) (Nat.mod_lt _ (Nat.two_pow_pos 32))
  have stored : umin len msg.msgLen ≤ msg.bytes.length :=
    (Nat.min_le_right _ _).trans ((Nat.mod_le _ _).trans msg.whole.le)
  have length : (msg.bytes.take (umin len msg.msgLen)).length = umin len msg.msgLen :=
    List.length_take_of_le stored
  have copies : Copies fault (ubuf + sizeofLong) (msg.bytes.take (umin len msg.msgLen)) u _ _ :=
    copyoutLoop_copies fault msg.msgData (ubuf + sizeofLong) small u
  refine ⟨_, _, _, rfl, rfl, length, fun never => ?_, fun done => (copies.done done).1,
    copies.failed, fun a outside => copies.outside a (by rwa [length])⟩
  refine Option.eq_none_iff_forall_ne_some.2 fun e failed => ?_
  obtain ⟨last, f, -, -, faulty, -⟩ := copies.failed e failed
  rw [never last] at faulty
  cases faulty

end SecurityAudits.OpenbsdKernel.MsgCopyout
