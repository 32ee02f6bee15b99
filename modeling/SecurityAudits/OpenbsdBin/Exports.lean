import Mathlib.Data.List.Basic
import Mathlib.Data.List.Forall2
import Mathlib.Algebra.Order.Ring.Int

/-!
# The exports list of the automounter

`xdr_exports` (`usr.sbin/amd/rpcx/mount_xdr.c`) decodes a list by recursion: `xdr_pointer` has
`xdr_exportnode` decode the node that a pointer leads to, and that calls `xdr_exports` for the next
one. The patch counts the calls in the static `exports_depth` and refuses to go on at `MAX_EXPORTS`.

Both decoders are recursions in the state of a stream that the RPC library reads; `fuel` bounds the
depth of the recursion, and they have no result where it does not suffice. The calls of the patched
decoder are logged. `Decoded` says what a call does from any value of `exports_depth`, in terms of
the decoder without a bound, and `xdrExports_decoded` is by induction on how often `exports_depth`
can still be incremented.
-/

namespace SecurityAudits.OpenbsdBin.Exports
set_option autoImplicit false

/-! ## The decoder -/

/-- `enum xdr_op` -/
inductive Op where
  | encode
  | decode
  | free
  deriving DecidableEq, Repr

/-- `struct exportnode` without `ex_next`: a list of exports is that of its nodes. -/
structure ExportNode (δ γ : Type) where
  exDir : δ
  exGroups : γ
  deriving DecidableEq, Repr

/-- What the RPC library and the functions for the other members of a node make of a stream with the
`x_op` at hand: `none` where they return `FALSE`, and `false` where `mem_alloc` finds no memory. -/
structure Library (τ δ γ : Type) where
  xdrBool : τ → Option Bool × τ
  memAlloc : τ → Bool × τ
  xdrDirpath : τ → Option δ × τ
  xdrGroups : τ → Option γ × τ

variable {σ τ δ γ : Type}

/-- `xdr_pointer`: a boolean says whether there is an object, which `proc` decodes into memory that
is allocated for it. -/
def xdrPointer (lib : Library τ δ γ) (proc : τ → Option (Option (List (ExportNode δ γ)) × τ))
    (s : τ) : Option (Option (List (ExportNode δ γ)) × τ) :=
  match lib.xdrBool s with
  | (none, s) => some (none, s)
  | (some false, s) => some (some [], s)
  | (some true, s) =>
    match lib.memAlloc s with
    | (false, s) => some (none, s)
    | (true, s) => proc s

/-- `xdr_exportnode`, where `next` is the call for `ex_next`. -/
def xdrExportnode (lib : Library τ δ γ) (next : τ → Option (Option (List (ExportNode δ γ)) × τ))
    (s : τ) : Option (Option (List (ExportNode δ γ)) × τ) :=
  match lib.xdrDirpath s with
  | (none, s) => some (none, s)
  | (some dir, s) =>
    match lib.xdrGroups s with
    | (none, s) => some (none, s)
    | (some groups, s) => (next s).map fun (rv, s) => (rv.map (⟨dir, groups⟩ :: ·), s)

/-- `xdr_exports` before the patch. -/
def unbounded (lib : Library σ δ γ) :
    (fuel : Nat) → σ → Option (Option (List (ExportNode δ γ)) × σ)
  | 0, _ => none
  | fuel + 1, s => xdrPointer lib (xdrExportnode lib (unbounded lib fuel)) s

/-- A call of `xdr_exports`: how many calls are active with it, and whether it is refused. -/
structure Call where
  nesting : Nat
  refused : Bool
  deriving DecidableEq, Repr

structure State (σ : Type) where
  stream : σ
  exportsDepth : Int
  calls : List Call
  deriving DecidableEq, Repr

/-- The library does not touch `exports_depth`. -/
def Library.lift (lib : Library σ δ γ) : Library (State σ) δ γ where
  xdrBool s := ((lib.xdrBool s.stream).1, { s with stream := (lib.xdrBool s.stream).2 })
  memAlloc s := ((lib.memAlloc s.stream).1, { s with stream := (lib.memAlloc s.stream).2 })
  xdrDirpath s := ((lib.xdrDirpath s.stream).1, { s with stream := (lib.xdrDirpath s.stream).2 })
  xdrGroups s := ((lib.xdrGroups s.stream).1, { s with stream := (lib.xdrGroups s.stream).2 })

/-- `exports_depth--` -/
def State.decrement (s : State σ) : State σ := { s with exportsDepth := s.exportsDepth - 1 }

/-- `xdrs->x_op == XDR_DECODE && exports_depth++ >= MAX_EXPORTS`: the second operand is evaluated
only when the first one holds. -/
def test (limit : Nat) (op : Op) (nesting : Nat) (s : State σ) : Bool × State σ :=
  match op with
  | .decode =>
    let refused := decide ((limit : Int) ≤ s.exportsDepth)
    (refused, ⟨s.stream, s.exportsDepth + 1, s.calls ++ [⟨nesting, refused⟩]⟩)
  | _ => (false, { s with calls := s.calls ++ [⟨nesting, false⟩] })

/-- `xdr_exports` with the patch; `limit` is `MAX_EXPORTS` and `nesting` counts the active calls. -/
def xdrExports (lib : Library σ δ γ) (limit : Nat) (op : Op) :
    (fuel nesting : Nat) → State σ → Option (Option (List (ExportNode δ γ)) × State σ)
  | 0, _, _ => none
  | fuel + 1, nesting, s =>
    match test limit op nesting s with
    | (true, s) => some (none, s.decrement)
    | (false, s) =>
      (xdrPointer lib.lift
          (xdrExportnode lib.lift (xdrExports lib limit op fuel (nesting + 1))) s).map
        fun (rv, s) => (rv, if op = .decode then s.decrement else s)

/-- `MAX_EXPORTS` -/
def maxExports : Nat := 1024

/-- Replies that are decoded one after the other, with `exports_depth` as the last one leaves it. -/
def replies (lib : Library σ δ γ) (limit fuel : Nat) :
    Int → List σ → Option (List (Option (List (ExportNode δ γ))) × Int)
  | depth, [] => some ([], depth)
  | depth, stream :: streams =>
    (xdrExports lib limit .decode fuel 1 ⟨stream, depth, []⟩).bind fun (rv, s) =>
      (replies lib limit fuel s.exportsDepth streams).map fun (rvs, depth) => (rv :: rvs, depth)

/-! ## Up to the next node -/

/-- What comes before the call for `ex_next`: it fails, there is no node, or there is this one. -/
def ahead (lib : Library τ δ γ) (s : τ) : Option (Option (ExportNode δ γ)) × τ :=
  match lib.xdrBool s with
  | (none, s) => (none, s)
  | (some false, s) => (some none, s)
  | (some true, s) =>
    match lib.memAlloc s with
    | (false, s) => (none, s)
    | (true, s) =>
      match lib.xdrDirpath s with
      | (none, s) => (none, s)
      | (some dir, s) =>
        match lib.xdrGroups s with
        | (none, s) => (none, s)
        | (some groups, s) => (some (some ⟨dir, groups⟩), s)

/-- The recursion with everything between two calls in one step. -/
theorem xdrPointer_eq (lib : Library τ δ γ)
    (next : τ → Option (Option (List (ExportNode δ γ)) × τ)) (s : τ) :
    xdrPointer lib (xdrExportnode lib next) s =
      match ahead lib s with
      | (none, s) => some (none, s)
      | (some none, s) => some (some [], s)
      | (some (some node), s) => (next s).map fun (rv, s) => (rv.map (node :: ·), s) := by
  unfold xdrPointer ahead xdrExportnode
  rcases lib.xdrBool s with ⟨_ | _ | _, s⟩
  · rfl
  · rfl
  dsimp only
  rcases lib.memAlloc s with ⟨_ | _, s⟩
  · rfl
  dsimp only
  rcases lib.xdrDirpath s with ⟨_ | dir, s⟩
  · rfl
  dsimp only
  rcases lib.xdrGroups s with ⟨_ | groups, s⟩
  · rfl
  · rfl

theorem ahead_lift (lib : Library σ δ γ) (s : State σ) :
    ahead lib.lift s = ((ahead lib s.stream).1, { s with stream := (ahead lib s.stream).2 }) := by
  unfold ahead Library.lift
  dsimp only
  rcases lib.xdrBool s.stream with ⟨_ | _ | _, t⟩
  · rfl
  · rfl
  dsimp only
  rcases lib.memAlloc t with ⟨_ | _, t⟩
  · rfl
  dsimp only
  rcases lib.xdrDirpath t with ⟨_ | dir, t⟩
  · rfl
  dsimp only
  rcases lib.xdrGroups t with ⟨_ | groups, t⟩
  · rfl
  · rfl

/-! ## The decoder without a bound -/

variable {lib : Library σ δ γ} {limit nesting n : Nat} {node : ExportNode δ γ}
  {xs : List (ExportNode δ γ)} {a t u : σ} {s s' : State σ}

/-- The decoder without a bound succeeds, however deep it has to go. -/
def Yields (lib : Library σ δ γ) (a : σ) (xs : List (ExportNode δ γ)) (t : σ) : Prop :=
  ∃ n, unbounded lib n a = some (some xs, t)

theorem unbounded_succ (lib : Library σ δ γ) (n : Nat) (a : σ) :
    unbounded lib (n + 1) a =
      match ahead lib a with
      | (none, t) => some (none, t)
      | (some none, t) => some (some [], t)
      | (some (some node), t) => (unbounded lib n t).map fun (rv, t) => (rv.map (node :: ·), t) :=
  xdrPointer_eq lib (unbounded lib n) a

/-- A result takes one call at least. -/
theorem Yields.succ (yields : Yields lib a xs t) :
    ∃ n, unbounded lib (n + 1) a = some (some xs, t) := by
  obtain ⟨_ | n, result⟩ := yields
  · cases result
  · exact ⟨n, result⟩

theorem not_yields (fails : ahead lib a = (none, u)) : ¬ Yields lib a xs t := by
  intro yields
  obtain ⟨n, result⟩ := yields.succ
  rw [unbounded_succ, fails] at result
  cases result

theorem yields_nil (last : ahead lib a = (some none, u)) : Yields lib a xs t ↔ [] = xs ∧ u = t := by
  constructor
  · intro yields
    obtain ⟨n, result⟩ := yields.succ
    rw [unbounded_succ, last] at result
    cases result
    exact ⟨rfl, rfl⟩
  · rintro ⟨rfl, rfl⟩
    refine ⟨1, ?_⟩
    rw [unbounded_succ, last]

theorem yields_cons (more : ahead lib a = (some (some node), u)) :
    Yields lib a xs t ↔ ∃ ys, node :: ys = xs ∧ Yields lib u ys t := by
  constructor
  · intro yields
    obtain ⟨n, result⟩ := yields.succ
    rw [unbounded_succ, more] at result
    obtain ⟨⟨rv, v⟩, rest, same⟩ := Option.map_eq_some_iff.1 result
    obtain ⟨found, rfl⟩ := Prod.mk.inj same
    obtain ⟨ys, rfl, cons⟩ := Option.map_eq_some_iff.1 found
    exact ⟨ys, cons, n, rest⟩
  · rintro ⟨ys, rfl, n, rest⟩
    refine ⟨n + 1, ?_⟩
    rw [unbounded_succ, more]
    dsimp only
    rw [rest]
    rfl

/-! ## The patched decoder -/

/-- How often `exports_depth` can still be incremented. -/
def State.room (limit : Nat) (s : State σ) : Nat := ((limit : Int) - s.exportsDepth).toNat

theorem room_eq_zero : s.room limit = 0 ↔ (limit : Int) ≤ s.exportsDepth := by
  unfold State.room
  omega

theorem room_increment (some' : s.room limit = n + 1) (t : σ) (calls : List Call) :
    State.room limit ⟨t, s.exportsDepth + 1, calls⟩ = n := by
  unfold State.room at some' ⊢
  dsimp only
  omega

/-- What a call with `nesting` active calls makes of `s`, when it returns `rv` and leaves `s'`. -/
structure Decoded (lib : Library σ δ γ) (limit nesting : Nat) (s : State σ)
    (rv : Option (List (ExportNode δ γ))) (s' : State σ) : Prop where
  restored : s'.exportsDepth = s.exportsDepth
  /-- It returns the list, and leaves the stream, that the decoder without a bound does, when the
  nodes are fewer than the increments that are left. -/
  succeeds : ∀ xs t,
    rv = some xs ∧ s'.stream = t ↔ Yields lib s.stream xs t ∧ xs.length < s.room limit
  /-- The calls it makes, itself included. Only one that has all the increments around it is
  refused, and there is one when the list is too long. -/
  calls : ∃ made, s'.calls = s.calls ++ made ∧
    (∀ c ∈ made, c.nesting ≤ nesting + s.room limit ∧
      (c.refused = true ↔ c.nesting = nesting + s.room limit)) ∧
    ∀ xs t, Yields lib s.stream xs t → s.room limit ≤ xs.length → ∃ c ∈ made, c.refused = true

theorem xdrExports_refused (none' : s.room limit = 0) (n : Nat) :
    xdrExports lib limit .decode (n + 1) nesting s =
      some (none, ⟨s.stream, s.exportsDepth, s.calls ++ [⟨nesting, true⟩]⟩) := by
  have refused : decide ((limit : Int) ≤ s.exportsDepth) = true :=
    decide_eq_true (room_eq_zero.1 none')
  rw [xdrExports, test, refused]
  dsimp only [State.decrement]
  rw [Int.add_sub_cancel]

theorem xdrExports_goes_on (some' : s.room limit = n + 1) (fuel : Nat) :
    xdrExports lib limit .decode (fuel + 1) nesting s =
      match ahead lib s.stream with
      | (none, t) => some (none, ⟨t, s.exportsDepth, s.calls ++ [⟨nesting, false⟩]⟩)
      | (some none, t) => some (some [], ⟨t, s.exportsDepth, s.calls ++ [⟨nesting, false⟩]⟩)
      | (some (some node), t) =>
        (xdrExports lib limit .decode fuel (nesting + 1)
          ⟨t, s.exportsDepth + 1, s.calls ++ [⟨nesting, false⟩]⟩).map
          fun (rv, s) => (rv.map (node :: ·), s.decrement) := by
  have goesOn : decide ((limit : Int) ≤ s.exportsDepth) = false := by
    refine decide_eq_false fun reached => ?_
    rw [room_eq_zero.2 reached] at some'
    cases some'
  rw [xdrExports, test, goesOn]
  dsimp only
  rw [xdrPointer_eq, ahead_lift]
  dsimp only
  rcases ahead lib s.stream with ⟨_ | _ | node, t⟩
  · dsimp only [Option.map_some, State.decrement]
    rw [if_pos rfl, Int.add_sub_cancel]
  · dsimp only [Option.map_some, State.decrement]
    rw [if_pos rfl, Int.add_sub_cancel]
  · dsimp only
    rw [Option.map_map]
    rfl

theorem decoded_refused (none' : s.room limit = 0) :
    Decoded lib limit nesting s none
      ⟨s.stream, s.exportsDepth, s.calls ++ [⟨nesting, true⟩]⟩ := by
  refine ⟨rfl, fun xs t => ⟨fun both => (by cases both.1), fun both => ?_⟩, [⟨nesting, true⟩], rfl,
    ?_, fun xs t yields long => ⟨_, List.mem_singleton_self _, rfl⟩⟩
  · have fewer := both.2
    omega
  · rw [none']
    exact List.forall_mem_singleton.2 ⟨Nat.le_refl _, fun _ => rfl, fun _ => rfl⟩

/-- A call that calls no other: `rv` is what the decoder without a bound returns. -/
theorem decoded_last {rv : Option (List (ExportNode δ γ))} (some' : s.room limit = n + 1)
    (yields : ∀ xs t, Yields lib s.stream xs t ↔ rv = some xs ∧ u = t)
    (short : ∀ xs, rv = some xs → xs.length = 0) :
    Decoded lib limit nesting s rv ⟨u, s.exportsDepth, s.calls ++ [⟨nesting, false⟩]⟩ := by
  refine ⟨rfl, fun xs t => ?_, [⟨nesting, false⟩], rfl, ?_, fun xs t found long => ?_⟩
  · rw [yields, some']
    refine ⟨fun both => ⟨both, ?_⟩, fun both => both.1⟩
    have empty := short xs both.1
    omega
  · refine List.forall_mem_singleton.2 ⟨Nat.le_add_right _ _, fun refused => (by cases refused), ?_⟩
    intro same
    rw [some'] at same
    dsimp only at same
    omega
  · have empty := short xs ((yields xs t).1 found).1
    omega

/-- The call for `ex_next` gives the rest of the list. -/
theorem Decoded.cons {rv : Option (List (ExportNode δ γ))} (some' : s.room limit = n + 1)
    (more : ahead lib s.stream = (some (some node), u))
    (rest : Decoded lib limit (nesting + 1)
      ⟨u, s.exportsDepth + 1, s.calls ++ [⟨nesting, false⟩]⟩ rv s') :
    Decoded lib limit nesting s (rv.map (node :: ·)) s'.decrement := by
  obtain ⟨restored, succeeds, made, calls, nested, exceeded⟩ := rest
  rw [room_increment some'] at succeeds nested exceeded
  refine ⟨?_, fun xs t => ?_, ⟨nesting, false⟩ :: made, ?_, ?_, fun xs t yields long => ?_⟩
  · show s'.exportsDepth - 1 = s.exportsDepth
    rw [restored]
    exact Int.add_sub_cancel _ _
  · rw [yields_cons more, some']
    constructor
    · rintro ⟨found, stream⟩
      obtain ⟨ys, rfl, cons⟩ := Option.map_eq_some_iff.1 found
      obtain ⟨yields, fewer⟩ := (succeeds ys t).1 ⟨rfl, stream⟩
      refine ⟨⟨ys, cons, yields⟩, ?_⟩
      rw [← cons]
      exact Nat.succ_lt_succ fewer
    · rintro ⟨⟨ys, rfl, yields⟩, fewer⟩
      obtain ⟨found, stream⟩ := (succeeds ys t).2 ⟨yields, Nat.lt_of_succ_lt_succ fewer⟩
      exact ⟨by rw [found]; rfl, stream⟩
  · show s'.calls = _
    rw [calls, List.append_assoc]
    rfl
  · have deeper : nesting + 1 + n = nesting + s.room limit := by omega
    rw [deeper] at nested
    refine List.forall_mem_cons.2
      ⟨⟨Nat.le_add_right _ _, fun refused => (by cases refused), ?_⟩, nested⟩
    intro same
    dsimp only at same
    omega
  · obtain ⟨ys, rfl, found⟩ := (yields_cons more).1 yields
    rw [some'] at long
    obtain ⟨c, mem, refused⟩ := exceeded ys t found (Nat.le_of_succ_le_succ long)
    exact ⟨c, List.mem_cons_of_mem _ mem, refused⟩

/-- The step and run lemma of the recursion. -/
theorem xdrExports_decoded (lib : Library σ δ γ) (limit nesting : Nat) (s : State σ)
    (extra : Nat) : ∃ rv s',
      xdrExports lib limit .decode (s.room limit + 1 + extra) nesting s = some (rv, s') ∧
        Decoded lib limit nesting s rv s' := by
  induction room : s.room limit generalizing nesting s with
  | zero =>
    rw [Nat.zero_add, Nat.add_comm 1 extra]
    exact ⟨_, _, xdrExports_refused room extra, decoded_refused room⟩
  | succ n ih =>
    rw [show n + 1 + 1 + extra = n + 1 + extra + 1 by omega, xdrExports_goes_on room]
    rcases next : ahead lib s.stream with ⟨_ | _ | node, u⟩
    · refine ⟨_, _, rfl, decoded_last room (fun xs t => ?_) (fun xs none' => by cases none')⟩
      exact ⟨fun yields => absurd yields (not_yields next), fun both => (by cases both.1)⟩
    · refine ⟨_, _, rfl, decoded_last room (fun xs t => ?_) (fun xs same => ?_)⟩
      · rw [yields_nil next, Option.some_inj]
      · cases same
        rfl
    · obtain ⟨rv, s', rest, decoded⟩ := ih (nesting + 1)
        ⟨u, s.exportsDepth + 1, s.calls ++ [⟨nesting, false⟩]⟩ (room_increment room u _)
      refine ⟨_, _, ?_, decoded.cons room next⟩
      dsimp only
      rw [rest]
      rfl

/-- **Only decoding is bounded**: with any other `x_op` the patched function is the one before the
patch, and `exports_depth` is not touched at any depth. -/
theorem xdrExports_other {op : Op} (other : op ≠ .decode) (fuel nesting : Nat) (s : State σ) :
    (xdrExports lib limit op fuel nesting s).map (fun (rv, s) => (rv, s.stream, s.exportsDepth)) =
      (unbounded lib fuel s.stream).map fun (rv, t) => (rv, t, s.exportsDepth) := by
  induction fuel generalizing nesting s with
  | zero => rfl
  | succ fuel ih =>
    have skipped : test limit op nesting s =
        (false, { s with calls := s.calls ++ [⟨nesting, false⟩] }) := by
      cases op with
      | decode => exact absurd rfl other
      | encode => rfl
      | free => rfl
    rw [xdrExports, skipped, unbounded_succ]
    dsimp only
    rw [xdrPointer_eq, ahead_lift]
    dsimp only
    rcases ahead lib s.stream with ⟨_ | _ | node, t⟩
    · dsimp only [Option.map_some]
      rw [if_neg other]
    · dsimp only [Option.map_some]
      rw [if_neg other]
    · have rest := ih (nesting + 1) ⟨t, s.exportsDepth, s.calls ++ [⟨nesting, false⟩]⟩
      have cons := congrArg (Option.map fun x => (x.1.map (node :: ·), x.2)) rest
      simp only [Option.map_map, if_neg other] at cons ⊢
      exact cons

/-! ## Replies -/

theorem room_start (limit : Nat) (a : σ) : State.room limit ⟨a, 0, []⟩ = limit := by
  unfold State.room
  dsimp only
  omega

/-- One reply after the other is decoded as if it were the first. -/
theorem replies_eq (lib : Library σ δ γ) (limit extra : Nat) (streams : List σ) :
    ∃ rvs, replies lib limit (limit + 1 + extra) 0 streams = some (rvs, 0) ∧
      List.Forall₂ (fun a rv => (xdrExports lib limit .decode (limit + 1 + extra) 1 ⟨a, 0, []⟩).map
        Prod.fst = some rv) streams rvs := by
  induction streams with
  | nil => exact ⟨[], rfl, .nil⟩
  | cons a streams ih =>
    obtain ⟨rvs, rest, each⟩ := ih
    obtain ⟨rv, s, result, decoded⟩ := xdrExports_decoded lib limit 1 ⟨a, 0, []⟩ extra
    rw [room_start] at result
    have restored : s.exportsDepth = 0 := decoded.restored
    refine ⟨rv :: rvs, ?_, .cons ?_ each⟩
    · rw [replies, result]
      dsimp only [Option.bind_some]
      rw [restored, rest]
      rfl
    · rw [result]
      rfl

/-- **The bound on the exports list.** A call gives `exports_depth` back as it was, whatever it is
and whatever the library returns. From zero it succeeds where the decoder without a bound does and
the nodes are fewer than `MAX_EXPORTS`, with the same list and at the same place in the stream. No
more than `MAX_EXPORTS` calls that decode are active at a time, and one more call only when it is
refused. So every reply is decoded as if there had been none before. -/
theorem xdrExports_bounded (lib : Library σ δ γ) (extra : Nat) :
    (∀ (s : State σ) (nesting : Nat), ∃ rv s',
      xdrExports lib maxExports .decode (s.room maxExports + 1 + extra) nesting s = some (rv, s') ∧
        s'.exportsDepth = s.exportsDepth) ∧
      (∀ a : σ, ∃ rv s',
        xdrExports lib maxExports .decode (maxExports + 1 + extra) 1 ⟨a, 0, []⟩ = some (rv, s') ∧
          (∀ xs t, rv = some xs ∧ s'.stream = t ↔ Yields lib a xs t ∧ xs.length < maxExports) ∧
          ∀ c ∈ s'.calls, c.nesting ≤ maxExports ∨ c.nesting = maxExports + 1 ∧ c.refused = true) ∧
      ∀ streams : List σ, ∃ rvs,
        replies lib maxExports (maxExports + 1 + extra) 0 streams = some (rvs, 0) ∧
          List.Forall₂ (fun a rv =>
            (xdrExports lib maxExports .decode (maxExports + 1 + extra) 1 ⟨a, 0, []⟩).map Prod.fst =
              some rv) streams rvs := by
  refine ⟨fun s nesting => ?_, fun a => ?_, replies_eq lib maxExports extra⟩
  · obtain ⟨rv, s', result, decoded⟩ := xdrExports_decoded lib maxExports nesting s extra
    exact ⟨rv, s', result, decoded.restored⟩
  · obtain ⟨rv, s', result, decoded⟩ := xdrExports_decoded lib maxExports 1 ⟨a, 0, []⟩ extra
    have succeeds := decoded.succeeds
    obtain ⟨made, calls, nested, -⟩ := decoded.calls
    rw [room_start] at result succeeds nested
    refine ⟨rv, s', result, succeeds, fun c mem => ?_⟩
    rw [calls] at mem
    obtain ⟨bound, refused⟩ := nested c mem
    by_cases deepest : c.nesting = 1 + maxExports
    · exact .inr ⟨deepest.trans (Nat.add_comm _ _), refused.2 deepest⟩
    · exact .inl (by omega)

/-! ## The call that is refused -/

/-- Replies of as many nodes as the stream says. -/
def counting : Library Nat Unit Unit where
  xdrBool left := (some (decide (0 < left)), left)
  memAlloc left := (true, left)
  xdrDirpath left := (some (), left)
  xdrGroups left := (some (), left - 1)

theorem counting_yields (n : Nat) : Yields counting n (List.replicate n ⟨(), ()⟩) 0 := by
  induction n with
  | zero => exact (yields_nil rfl).2 ⟨rfl, rfl⟩
  | succ n ih => exact (yields_cons rfl).2 ⟨_, rfl, ih⟩

/-- A reply of `MAX_EXPORTS` nodes has more calls than that active at a time. -/
theorem refused_deeper : ∃ rv s' c,
    xdrExports counting maxExports .decode (maxExports + 1) 1 ⟨1024, 0, []⟩ = some (rv, s') ∧
      c ∈ s'.calls ∧ ¬ c.nesting ≤ maxExports := by
  obtain ⟨rv, s', result, decoded⟩ := xdrExports_decoded counting maxExports 1 ⟨1024, 0, []⟩ 0
  obtain ⟨made, calls, nested, exceeded⟩ := decoded.calls
  rw [room_start] at result nested exceeded
  obtain ⟨c, mem, refused⟩ := exceeded _ _ (counting_yields 1024) List.length_replicate.ge
  have deepest := (nested c mem).2.1 refused
  refine ⟨rv, s', c, result, ?_, ?_⟩
  · rw [calls]
    exact mem
  · omega

end SecurityAudits.OpenbsdBin.Exports
