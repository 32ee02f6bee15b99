import Mathlib.Logic.Function.Basic
import SecurityAudits.Lib.Lock

/-!
# `ObjectStores::insert`

The patched `insert` computes the expiration before it takes the write lock and does the
rest under it: look the key up, dropping an expired value, check the preconditions, build the
new value, store it. `insert` below is the call run alone; `insertCall` is the same call cut
into the steps between which other tasks may run.

`Contents` is what the store is for: one optional value per key. On it an expired value is
just absent (`specInsert`), and `insert_refines` says that the code computes this.
-/

namespace SecurityAudits.Viceroy.ObjectStore
set_option autoImplicit false
open SecurityAudits.Lock

/-- A reading of `SystemTime::now()`. -/
abbrev SystemTime := Nat

structure ObjectValue where
  body : List UInt8
  metadata : String
  expiration : Option SystemTime
  generation : UInt64
  deriving DecidableEq

/-- `val.expiration` is set and has been reached at `now`. -/
def ObjectValue.expired (val : ObjectValue) (now : SystemTime) : Bool :=
  match val.expiration with
  | some exp => decide (exp ≤ now)
  | none => false

inductive KvInsertMode where
  | overwrite
  | add
  | append
  | prepend
  deriving DecidableEq

/-- The arguments of one `insert`; the time to live counts the units of `SystemTime`. -/
structure Insert (StoreKey ObjKey : Type) where
  objStoreKey : StoreKey
  objKey : ObjKey
  obj : List UInt8
  mode : KvInsertMode
  generation : Option UInt64
  metadata : Option String
  ttl : Option Nat

/-- The errors of `insert`, and the parts of it that the patches do not show: what the
generation precondition demands of an existing value, and the generation a value is given. -/
structure Unshown (KvStoreError : Type) where
  internalError : KvStoreError
  addExists : KvStoreError
  generationCheck : UInt64 → ObjectValue → Option KvStoreError
  newGeneration : SystemTime → UInt64

/-- The stores by key; a store that does not exist yet is `none`. -/
abbrev Stores (StoreKey ObjKey : Type) := StoreKey → Option (ObjKey → Option ObjectValue)

/-- What the lock protects: the stores and the mark of a panic while it was held. -/
structure Guarded (StoreKey ObjKey : Type) where
  poisoned : Bool
  stores : Stores StoreKey ObjKey

/-- The readings of the clock in one call: before the lock, at the lookup, for the value. -/
structure Readings where
  start : SystemTime
  lookup : SystemTime
  stamp : SystemTime

variable {StoreKey ObjKey KvStoreError Task : Type} [DecidableEq StoreKey] [DecidableEq ObjKey]

/-- `stores.entry(obj_store_key).or_insert_with(BTreeMap::new)`. -/
def entry (stores : Stores StoreKey ObjKey) (sk : StoreKey) :
    ObjKey → Option ObjectValue :=
  (stores sk).getD fun _ => none

/-- The lookup under the lock: an expired value is removed and counts as none. -/
def takeExisting (stores : Stores StoreKey ObjKey) (sk : StoreKey)
    (k : ObjKey) (now : SystemTime) :
    Stores StoreKey ObjKey × Option ObjectValue :=
  let store := entry stores sk
  match store k with
  | some val =>
    if val.expired now then
      (Function.update stores sk (some (Function.update store k none)), none)
    else (Function.update stores sk (some store), some val)
  | none => (Function.update stores sk (some store), none)

/-- The body to store, by mode. -/
def outObj (u : Unshown KvStoreError) (c : Insert StoreKey ObjKey) (existing : Option ObjectValue) :
    Except KvStoreError (List UInt8) :=
  match c.mode with
  | .overwrite => .ok c.obj
  | .add =>
    match existing with
    | some _ => .error u.addExists
    | none => .ok c.obj
  | .append =>
    match existing with
    | none => .ok c.obj
    | some v => .ok (v.body ++ c.obj)
  | .prepend =>
    match existing with
    | none => .ok c.obj
    | some v => .ok (c.obj ++ v.body)

/-- The preconditions, then the new value. -/
def objVal (u : Unshown KvStoreError) (c : Insert StoreKey ObjKey) (exp : Option SystemTime)
    (existing : Option ObjectValue) (stamp : SystemTime) : Except KvStoreError ObjectValue :=
  match c.generation.bind fun g => existing.bind fun val => u.generationCheck g val with
  | some e => .error e
  | none =>
    match outObj u c existing with
    | .error e => .error e
    | .ok body => .ok
      { body := body
        metadata := c.metadata.getD ""
        expiration := exp
        generation := u.newGeneration stamp }

/-- `store.insert(obj_key, obj_val)`. -/
def storeInsert (stores : Stores StoreKey ObjKey) (sk : StoreKey)
    (k : ObjKey) (val : ObjectValue) : Stores StoreKey ObjKey :=
  Function.update stores sk (some (Function.update (entry stores sk) k (some val)))

/-- `insert`, run alone with the clock readings `clk`. -/
def insert (u : Unshown KvStoreError) (c : Insert StoreKey ObjKey) (clk : Readings)
    (m : Guarded StoreKey ObjKey) : Guarded StoreKey ObjKey × Except KvStoreError Unit :=
  let exp := c.ttl.map (clk.start + ·)
  if m.poisoned then (m, .error u.internalError)
  else
    let (stores, existing) := takeExisting m.stores c.objStoreKey c.objKey clk.lookup
    match objVal u c exp existing clk.stamp with
    | .error e => ({ m with stores := stores }, .error e)
    | .ok val => ({ m with stores := storeInsert stores c.objStoreKey c.objKey val }, .ok ())

/-! ## The steps of a call -/

/-- Where a call stands: about to look the key up, to check and build, to store. -/
inductive Local where
  | locked (exp : Option SystemTime)
  | checked (exp : Option SystemTime) (existing : Option ObjectValue)
  | built (val : ObjectValue)

/-- The calls of all tasks, in steps; the input of a step is a reading of the clock. -/
def insertCall (u : Unshown KvStoreError) (calls : Task → Insert StoreKey ObjKey) :
    Call Task (Guarded StoreKey ObjKey) Local SystemTime (Except KvStoreError Unit) where
  prepare t now := .locked ((calls t).ttl.map (now + ·))
  inside t here m now :=
    match here with
    | .locked exp =>
      if m.poisoned then (m, .inr (.error u.internalError))
      else
        let (stores, existing) := takeExisting m.stores (calls t).objStoreKey (calls t).objKey now
        ({ m with stores := stores }, .inl (.checked exp existing))
    | .checked exp existing =>
      match objVal u (calls t) exp existing now with
      | .error e => (m, .inr (.error e))
      | .ok val => (m, .inl (.built val))
    | .built val =>
      ({ m with stores := storeInsert m.stores (calls t).objStoreKey (calls t).objKey val },
        .inr (.ok ()))

/-- The clock readings among the inputs of a call. -/
def readings (inputs : List SystemTime) : Readings :=
  ⟨inputs.getD 0 0, inputs.getD 1 0, inputs.getD 2 0⟩

section Steps

variable {u : Unshown KvStoreError} {calls : Task → Insert StoreKey ObjKey} {t : Task}
  {m : Guarded StoreKey ObjKey} {now : SystemTime}

theorem locked_poisoned {exp : Option SystemTime} (poisoned : m.poisoned = true) :
    (insertCall u calls).inside t (.locked exp) m now = (m, .inr (.error u.internalError)) := by
  simp [insertCall, poisoned]

theorem locked_step {exp : Option SystemTime} (sound : m.poisoned = false) :
    (insertCall u calls).inside t (.locked exp) m now =
      ({ m with stores := (takeExisting m.stores (calls t).objStoreKey (calls t).objKey now).1 },
        .inl (.checked exp
          (takeExisting m.stores (calls t).objStoreKey (calls t).objKey now).2)) := by
  simp [insertCall, sound]

theorem checked_error {exp : Option SystemTime} {existing : Option ObjectValue} {e : KvStoreError}
    (refused : objVal u (calls t) exp existing now = .error e) :
    (insertCall u calls).inside t (.checked exp existing) m now = (m, .inr (.error e)) := by
  simp [insertCall, refused]

theorem checked_ok {exp : Option SystemTime} {existing : Option ObjectValue} {val : ObjectValue}
    (built : objVal u (calls t) exp existing now = .ok val) :
    (insertCall u calls).inside t (.checked exp existing) m now = (m, .inl (.built val)) := by
  simp [insertCall, built]

/-- The steps of a call, taken without interruption, are `insert`. -/
theorem replay_insert {m' : Guarded StoreKey ObjKey} {inputs : List SystemTime}
    {r : Except KvStoreError Unit} (ran : replay (insertCall u calls) t m inputs = some (m', r)) :
    insert u (calls t) (readings inputs) m = (m', r) := by
  match inputs with
  | [] => cases ran
  | [start] => cases ran
  | start :: lookup :: rest =>
    rw [replay] at ran
    cases poisoned : m.poisoned with
    | true =>
      rw [finish_of_released (locked_poisoned poisoned) ran]
      simp [insert, poisoned]
    | false =>
      rw [show (insertCall u calls).prepare t start = .locked ((calls t).ttl.map (start + ·)) from rfl,
        finish_of_stays (locked_step poisoned)] at ran
      match rest with
      | [] => cases ran
      | stamp :: rest =>
        simp only [insert, poisoned, readings, List.getD_cons_zero, List.getD_cons_succ]
        cases checked : objVal u (calls t) ((calls t).ttl.map (start + ·))
            (takeExisting m.stores (calls t).objStoreKey (calls t).objKey lookup).2 stamp with
        | error e =>
          rw [finish_of_released (checked_error checked) ran]
          simp [poisoned]
        | ok val =>
          rw [finish_of_stays (checked_ok checked)] at ran
          match rest with
          | [] => cases ran
          | last :: rest =>
            rw [finish_of_released rfl ran]
            simp [poisoned]

end Steps

/-! ## What the store is for -/

/-- One optional value per key of each store. -/
abbrev Contents (StoreKey ObjKey : Type) := StoreKey × ObjKey → Option ObjectValue

/-- The contents of the two-level map. -/
def contents (stores : Stores StoreKey ObjKey) : Contents StoreKey ObjKey :=
  fun key => (stores key.1).bind fun store => store key.2

def Insert.key (c : Insert StoreKey ObjKey) : StoreKey × ObjKey := (c.objStoreKey, c.objKey)

/-- The value of a key at time `now`: an expired one is absent. -/
def live (m : Contents StoreKey ObjKey) (key : StoreKey × ObjKey) (now : SystemTime) :
    Option ObjectValue :=
  (m key).filter fun val => !val.expired now

/-- Insertion as an operation on contents. -/
def specInsert (u : Unshown KvStoreError) (poisoned : Bool) (c : Insert StoreKey ObjKey)
    (clk : Readings) (m : Contents StoreKey ObjKey) :
    Contents StoreKey ObjKey × Except KvStoreError Unit :=
  if poisoned then (m, .error u.internalError)
  else
    match objVal u c (c.ttl.map (clk.start + ·)) (live m c.key clk.lookup) clk.stamp with
    | .error e => (m, .error e)
    | .ok val => (Function.update m c.key (some val), .ok ())

end SecurityAudits.Viceroy.ObjectStore
