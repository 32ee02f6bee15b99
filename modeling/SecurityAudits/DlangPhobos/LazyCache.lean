import Mathlib.Data.Option.Basic
import SecurityAudits.Lib.Run

/-!
# `LazyCache`

`front` and `back` of the wrapped range are read when they are first asked for and kept in
`caches`, each with a flag. Both patched pop methods drop both flags, since popping at one end
may change the other: the ends meet, or the range is one whose elements depend on both.

`popFront` and `popBack` are as patched. `front`, `back` and `empty` are not in the patches; they
are parameters, described by `Accessors.Lazy`. The methods refuse an empty range under
`version (assert)`, so `asserts` says which build it is. A source that is asked while it is empty
has no result: a run that gets to its end has never done so.
-/

namespace SecurityAudits.DlangPhobos.LazyCache
set_option autoImplicit false
open SecurityAudits.Run

/-- A bidirectional range with pure elements: what it gives in each of its states. -/
structure Source (S E : Type) where
  empty : S → Bool
  front : S → E
  back : S → E
  popFront : S → S
  popBack : S → S

variable {S E α : Type}

/-- The source is asked for an element, or to pop one. -/
def Source.ask (src : Source S E) (read : S → α) (s : S) : Option α :=
  if src.empty s then none else some (read s)

/-- `struct LazyCache(R, true)`. -/
structure Cache (S E : Type) where
  source : S
  caches : E × E
  frontCached : Bool
  backCached : Bool
  deriving DecidableEq

inductive Outcome (E : Type) where
  | value (e : E)
  | popped
  | isEmpty (b : Bool)
  | rangeError
  deriving DecidableEq

inductive Call where
  | front
  | back
  | popFront
  | popBack
  | empty
  deriving DecidableEq

/-- The methods that the patches leave alone. -/
structure Accessors (S E : Type) where
  front : Cache S E → Option (Cache S E × Outcome E)
  back : Cache S E → Option (Cache S E × Outcome E)
  empty : Cache S E → Bool

/-- `version (assert) if (empty) throw new RangeError();` -/
def throwIfEmpty (asserts : Bool) (a : Accessors S E) (c : Cache S E)
    (rest : Option (Cache S E × Outcome E)) : Option (Cache S E × Outcome E) :=
  if asserts && a.empty c then some (c, .rangeError) else rest

def popFront (src : Source S E) (asserts : Bool) (a : Accessors S E) (c : Cache S E) :
    Option (Cache S E × Outcome E) :=
  throwIfEmpty asserts a c <| (src.ask src.popFront c.source).map fun source =>
    ({ c with source, frontCached := false, backCached := false }, .popped)

/-- `init` is `UE.init`. -/
def popBack (src : Source S E) (init : E) (asserts : Bool) (a : Accessors S E) (c : Cache S E) :
    Option (Cache S E × Outcome E) :=
  throwIfEmpty asserts a c <| (src.ask src.popBack c.source).map fun source =>
    if src.empty source then (⟨source, (init, init), false, false⟩, .popped)
    else ({ c with source, frontCached := false, backCached := false }, .popped)

def call (src : Source S E) (init : E) (asserts : Bool) (a : Accessors S E) (c : Cache S E) :
    Call → Option (Cache S E × Outcome E)
  | .front => a.front c
  | .back => a.back c
  | .popFront => popFront src asserts a c
  | .popBack => popBack src init asserts a c
  | .empty => some (c, .isEmpty (a.empty c))

/-- What the uncached source answers to a call, behind the check for an empty range that the
build makes. -/
def uncached (src : Source S E) (asserts : Bool) (s : S) : Call → Option (S × Outcome E)
  | .empty => some (s, .isEmpty (src.empty s))
  | .front => check fun s => (s, .value (src.front s))
  | .back => check fun s => (s, .value (src.back s))
  | .popFront => check fun s => (src.popFront s, .popped)
  | .popBack => check fun s => (src.popBack s, .popped)
where
  check (read : S → S × Outcome E) : Option (S × Outcome E) :=
    if asserts && src.empty s then some (s, .rangeError) else src.ask read s

/-- A step of either, with the outcomes of the calls so far. -/
def record {σ : Type} (answer : σ → Call → Option (σ × Outcome E)) (s : σ × List (Outcome E))
    (call : Call) : Option (σ × List (Outcome E)) :=
  (answer s.1 call).map fun (t, outcome) => (t, s.2 ++ [outcome])

def Cache.storedFront (c : Cache S E) : Option E := if c.frontCached then some c.caches.1 else none

def Cache.storedBack (c : Cache S E) : Option E := if c.backCached then some c.caches.2 else none

def Cache.storeFront (c : Cache S E) (e : E) : Cache S E :=
  { c with caches := (e, c.caches.2), frontCached := true }

def Cache.storeBack (c : Cache S E) (e : E) : Cache S E :=
  { c with caches := (c.caches.1, e), backCached := true }

/-- What is known of `front` and of `back`: it makes the check that the pop methods make, a
stored value is returned, and otherwise the value of the source is stored and returned. -/
structure ReadsLazily (src : Source S E) (asserts : Bool) (stored : Cache S E → Option E)
    (read : S → E) (store : Cache S E → E → Cache S E)
    (get : Cache S E → Option (Cache S E × Outcome E)) : Prop where
  throws : ∀ c, (asserts && src.empty c.source) = true → get c = some (c, .rangeError)
  returns : ∀ c e, (asserts && src.empty c.source) = false → stored c = some e →
    get c = some (c, .value e)
  reads : ∀ c, (asserts && src.empty c.source) = false → stored c = none →
    get c = (src.ask read c.source).map fun e => (store c e, .value e)

/-- What is known of the methods that the patches leave alone. -/
structure Accessors.Lazy (src : Source S E) (asserts : Bool) (a : Accessors S E) : Prop where
  front : ReadsLazily src asserts Cache.storedFront src.front Cache.storeFront a.front
  back : ReadsLazily src asserts Cache.storedBack src.back Cache.storeBack a.back
  empty : ∀ c, a.empty c = src.empty c.source

/-- A stored value is the one the source has now. -/
structure Consistent (src : Source S E) (c : Cache S E) : Prop where
  front : ∀ e, c.storedFront = some e → src.empty c.source = false ∧ e = src.front c.source
  back : ∀ e, c.storedBack = some e → src.empty c.source = false ∧ e = src.back c.source

/-- The cache is left consistent, and what it shows is what the source answers. -/
structure Agrees (src : Source S E) (result : Option (Cache S E × Outcome E))
    (answer : Option (S × Outcome E)) : Prop where
  consistent : ∀ c outcome, result = some (c, outcome) → Consistent src c
  answer : result.map (fun r => (r.1.source, r.2)) = answer

variable {src : Source S E} {init : E} {asserts : Bool} {a : Accessors S E} {c : Cache S E}

theorem Consistent.dropped {source : S} {caches : E × E} :
    Consistent src ⟨source, caches, false, false⟩ where
  front e stored := by cases stored
  back e stored := by cases stored

theorem Consistent.storeFront (consistent : Consistent src c)
    (nonempty : src.empty c.source = false) :
    Consistent src (c.storeFront (src.front c.source)) where
  front _ stored := ⟨nonempty, (Option.some.inj stored).symm⟩
  back := consistent.back

theorem Consistent.storeBack (consistent : Consistent src c)
    (nonempty : src.empty c.source = false) :
    Consistent src (c.storeBack (src.back c.source)) where
  front := consistent.front
  back _ stored := ⟨nonempty, (Option.some.inj stored).symm⟩

theorem ask_eq_some {read : S → α} {s : S} {x : α} :
    src.ask read s = some x ↔ src.empty s = false ∧ read s = x := by
  cases empty : src.empty s with
  | true => simp [Source.ask, empty]
  | false => simp [Source.ask, empty]

theorem ask_of_empty {read : S → α} {s : S} (empty : src.empty s = true) :
    src.ask read s = none :=
  if_pos empty

theorem Agrees.unchanged {outcome : Outcome E} (consistent : Consistent src c) :
    Agrees src (some (c, outcome)) (some (c.source, outcome)) where
  consistent c' outcome' result := by
    cases result
    exact consistent
  answer := rfl

theorem Agrees.stuck : Agrees src (none : Option (Cache S E × Outcome E)) none where
  consistent c outcome result := (by cases result)
  answer := rfl

/-- The source is asked, and what it answers is kept. -/
theorem Agrees.ask {read : S → α} {keep : α → Cache S E} {outcome : α → Outcome E}
    {answer : S → S × Outcome E}
    (kept : src.empty c.source = false → Consistent src (keep (read c.source)))
    (same : ((keep (read c.source)).source, outcome (read c.source)) = answer c.source) :
    Agrees src ((src.ask read c.source).map fun x => (keep x, outcome x))
      (src.ask answer c.source) := by
  cases empty : src.empty c.source with
  | true =>
    rw [ask_of_empty empty, ask_of_empty empty]
    exact .stuck
  | false =>
    rw [ask_eq_some.2 ⟨empty, rfl⟩, ask_eq_some.2 ⟨empty, rfl⟩]
    refine ⟨fun c' outcome' result => ?_, congrArg some same⟩
    cases result
    exact kept empty

/-- One lazily read end. -/
theorem ReadsLazily.agrees {stored : Cache S E → Option E} {read : S → E}
    {store : Cache S E → E → Cache S E} {get : Cache S E → Option (Cache S E × Outcome E)}
    (known : ReadsLazily src asserts stored read store get) (consistent : Consistent src c)
    (current : ∀ e, stored c = some e → src.empty c.source = false ∧ e = read c.source)
    (source : ∀ e, (store c e).source = c.source)
    (kept : src.empty c.source = false → Consistent src (store c (read c.source))) :
    Agrees src (get c) (uncached.check src asserts c.source fun s => (s, .value (read s))) := by
  cases throws : asserts && src.empty c.source with
  | true =>
    rw [known.throws c throws, uncached.check, if_pos throws]
    exact .unchanged consistent
  | false =>
    rw [uncached.check, if_neg (Bool.eq_false_iff.1 throws)]
    cases holds : stored c with
    | some e =>
      obtain ⟨nonempty, rfl⟩ := current e holds
      rw [known.returns c _ throws holds, ask_eq_some.2 ⟨nonempty, rfl⟩]
      exact .unchanged consistent
    | none =>
      rw [known.reads c throws holds]
      exact .ask kept (by rw [source])

/-- A pop method, whatever it leaves in the caches as long as it drops both flags. -/
theorem pop_agrees {pop : S → S} {next : S → Cache S E} (empties : a.empty c = src.empty c.source)
    (consistent : Consistent src c) (source : ∀ s, (next s).source = s)
    (dropped : ∀ s, Consistent src (next s)) :
    Agrees src
      (throwIfEmpty asserts a c ((src.ask pop c.source).map fun s => (next s, .popped)))
      (uncached.check src asserts c.source fun s => (pop s, .popped)) := by
  rw [throwIfEmpty, uncached.check, empties]
  cases throws : asserts && src.empty c.source with
  | true => exact .unchanged consistent
  | false =>
    simp only [Bool.false_eq_true, if_false]
    exact .ask (fun _ => dropped _) (by rw [source])

theorem popBack_eq : popBack src init asserts a c
    = throwIfEmpty asserts a c ((src.ask src.popBack c.source).map fun s =>
        (if src.empty s then ⟨s, (init, init), false, false⟩
          else ⟨s, c.caches, false, false⟩, .popped)) := by
  unfold popBack
  congr 2
  funext s
  split
  · rfl
  · rfl

/-- The step lemma: each call agrees with the uncached source. -/
theorem call_agrees (known : a.Lazy src asserts) (consistent : Consistent src c) (request : Call)
    (init : E) :
    Agrees src (call src init asserts a c request) (uncached src asserts c.source request) := by
  cases request with
  | front =>
    exact known.front.agrees consistent consistent.front (fun _ => rfl) consistent.storeFront
  | back =>
    exact known.back.agrees consistent consistent.back (fun _ => rfl) consistent.storeBack
  | popFront =>
    exact pop_agrees (known.empty c) consistent (fun _ => rfl) fun _ => .dropped
  | popBack =>
    rw [call, popBack_eq]
    refine pop_agrees (known.empty c) consistent (fun s => ?_) fun s => ?_
    · split
      · rfl
      · rfl
    · split
      · exact .dropped
      · exact .dropped
  | empty =>
    refine ⟨fun c' outcome result => ?_, ?_⟩
    · cases result
      exact consistent
    · exact congrArg (fun b => some (c.source, Outcome.isEmpty b)) (known.empty c)

/-- A call that does not ask an empty source. -/
def Allowed (src : Source S E) (asserts : Bool) (s : S × List (Outcome E)) (request : Call) :
    Prop :=
  asserts = true ∨ request = .empty ∨ src.empty s.1 = false

theorem uncached_isSome_iff (s : S × List (Outcome E)) (request : Call) :
    (record (uncached src asserts) s request).isSome = true ↔ Allowed src asserts s request := by
  have checked (read : S → S × Outcome E) :
      (uncached.check src asserts s.1 read).isSome = true
        ↔ asserts = true ∨ src.empty s.1 = false := by
    cases asserts with
    | true => cases empty : src.empty s.1 <;> simp [uncached.check, Source.ask, empty]
    | false => cases empty : src.empty s.1 <;> simp [uncached.check, Source.ask, empty]
  rw [record, Option.isSome_map]
  cases request with
  | empty => simp [uncached, Allowed]
  | front | back | popFront | popBack => simp [uncached, Allowed, checked]

/-- **The cached range is the source.** From a cache that holds nothing, a run of calls has the
outcomes of the uncached source, and leaves the source where they leave it. It never asks an
empty source if and only if the build has assertions, which turn such a call into a `RangeError`,
or the caller does not make one. -/
theorem lazyCache_transparent (src : Source S E) (init : E) (asserts : Bool) (a : Accessors S E)
    (known : a.Lazy src asserts) (c : Cache S E) (noFront : c.frontCached = false)
    (noBack : c.backCached = false) (calls : List Call) :
    (exec (record (call src init asserts a)) (c, []) calls).map (fun t => (t.1.source, t.2))
        = exec (record (uncached src asserts)) (c.source, []) calls
      ∧ ((exec (record (call src init asserts a)) (c, []) calls).isSome = true
        ↔ Obeys (record (uncached src asserts)) (Allowed src asserts) (c.source, []) calls) := by
  have preserved (s : Cache S E × List (Outcome E)) (request : Call)
      (t : Cache S E × List (Outcome E)) (consistent : Consistent src s.1)
      (taken : record (call src init asserts a) s request = some t) : Consistent src t.1 := by
    obtain ⟨⟨c', outcome⟩, answered, rfl⟩ := Option.map_eq_some_iff.1 taken
    exact (call_agrees known consistent request init).consistent c' outcome answered
  have simulation : (exec (record (call src init asserts a)) (c, []) calls).map
      (fun t => (t.1.source, t.2)) = exec (record (uncached src asserts)) (c.source, []) calls := by
    refine exec_simulation (f := fun t : Cache S E × List (Outcome E) => (t.1.source, t.2))
      preserved (fun s request consistent => ?_) ?_
    · have agrees := call_agrees known consistent request
      rw [record, record, ← (agrees init).answer, Option.map_map, Option.map_map]
      rfl
    · obtain ⟨source, caches, frontCached, backCached⟩ := c
      cases noFront
      cases noBack
      exact .dropped
  refine ⟨simulation, ?_⟩
  have ends := congrArg Option.isSome simulation
  rw [Option.isSome_map] at ends
  rw [ends, exec_isSome_iff]
  simp only [uncached_isSome_iff]

/-- An accessor that does what is known of it. -/
def readLazily (src : Source S E) (asserts : Bool) (stored : Cache S E → Option E) (read : S → E)
    (store : Cache S E → E → Cache S E) (c : Cache S E) : Option (Cache S E × Outcome E) :=
  if asserts && src.empty c.source then some (c, .rangeError)
  else match stored c with
    | some e => some (c, .value e)
    | none => (src.ask read c.source).map fun e => (store c e, .value e)

theorem readLazily_readsLazily (src : Source S E) (asserts : Bool)
    (stored : Cache S E → Option E) (read : S → E) (store : Cache S E → E → Cache S E) :
    ReadsLazily src asserts stored read store (readLazily src asserts stored read store) where
  throws c refused := if_pos refused
  returns c e served holds := by
    rw [readLazily, if_neg (Bool.eq_false_iff.1 served), holds]
  reads c served holds := by
    rw [readLazily, if_neg (Bool.eq_false_iff.1 served), holds]

def lazily (src : Source S E) (asserts : Bool) : Accessors S E where
  front := readLazily src asserts Cache.storedFront src.front Cache.storeFront
  back := readLazily src asserts Cache.storedBack src.back Cache.storeBack
  empty c := src.empty c.source

theorem lazily_lazy (src : Source S E) (asserts : Bool) :
    (lazily src asserts).Lazy src asserts where
  front := readLazily_readsLazily src asserts _ _ _
  back := readLazily_readsLazily src asserts _ _ _
  empty _ := rfl

/-- A slice of numbers. -/
def slice : Source (List Nat) Nat where
  empty := List.isEmpty
  front s := s.headD 0
  back s := s.getLastD 0
  popFront := List.tail
  popBack := List.dropLast

/-- One element left, reached from both ends, in a build without assertions. -/
theorem lazyCache_transparent_last :
    (exec (record (call slice 0 false (lazily slice false))) (⟨[6, 7], (0, 0), false, false⟩, [])
        [.back, .popFront, .front, .back, .popBack, .empty]).map (fun t => (t.1.source, t.2))
      = some ([], [.value 7, .popped, .value 7, .value 7, .popped, .isEmpty true]) :=
  (lazyCache_transparent slice 0 false (lazily slice false) (lazily_lazy slice false)
    ⟨[6, 7], (0, 0), false, false⟩ rfl rfl
    [.back, .popFront, .front, .back, .popBack, .empty]).1.trans (by decide)

/-- A build without assertions asks an empty source: to pop, and for its front. -/
theorem release_asks_empty :
    exec (record (call slice 0 false (lazily slice false))) (⟨[], (0, 0), false, false⟩, [])
        [.popFront] = none
      ∧ exec (record (call slice 0 false (lazily slice false))) (⟨[], (0, 0), false, false⟩, [])
        [.front] = none := by
  decide

end SecurityAudits.DlangPhobos.LazyCache
