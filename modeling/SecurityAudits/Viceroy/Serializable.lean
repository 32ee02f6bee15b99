import SecurityAudits.Viceroy.ObjectStore

/-!
# Concurrent `insert` calls are serialisable

Refinement first (`insert_refines`): one `insert` on the two-level map is one `specInsert` on
its contents, because a call that drops an expired value always goes on to store another one.
With `Lock.serial_of_run` this gives the state and the results of any interleaving as those of
`specInsert` run in lock order (`insert_serializable`).
-/

namespace SecurityAudits.Viceroy.ObjectStore
set_option autoImplicit false
open SecurityAudits.Run SecurityAudits.Lock

variable {StoreKey ObjKey KvStoreError Task : Type} [DecidableEq StoreKey] [DecidableEq ObjKey]

section Refinement

variable {stores : Stores StoreKey ObjKey} {sk : StoreKey} {k : ObjKey} {now : SystemTime}

omit [DecidableEq StoreKey] [DecidableEq ObjKey] in
theorem entry_contents : entry stores sk k = contents stores (sk, k) := by
  cases found : stores sk <;> simp [entry, contents, found]

/-- Writing one key's slot through `entry` is a point update of the contents. -/
theorem contents_update (value : Option ObjectValue) :
    contents (Function.update stores sk (some (Function.update (entry stores sk) k value))) =
      Function.update (contents stores) (sk, k) value := by
  funext ⟨sk', k'⟩
  by_cases store : sk' = sk
  · subst store
    by_cases key : k' = k
    · subst key; simp [contents]
    · have other : (sk', k') ≠ (sk', k) := by simp [key]
      rw [Function.update_of_ne other]
      cases found : stores sk' <;> simp [contents, entry, found, Function.update_of_ne key]
  · have other : (sk', k') ≠ (sk, k) := by simp [store]
    rw [Function.update_of_ne other]
    simp [contents, Function.update_of_ne store]

theorem contents_storeInsert (val : ObjectValue) :
    contents (storeInsert stores sk k val) = Function.update (contents stores) (sk, k) (some val) :=
  contents_update (some val)

/-- The lookup finds the live value. -/
theorem takeExisting_found : (takeExisting stores sk k now).2 = live (contents stores) (sk, k) now := by
  rw [live, ← entry_contents]
  cases found : entry stores sk k with
  | none => simp [takeExisting, found]
  | some val => cases old : val.expired now <;> simp [takeExisting, found, old, Option.filter]

/-- The lookup leaves the live value in place of the one it found. -/
theorem contents_takeExisting :
    contents (takeExisting stores sk k now).1 =
      Function.update (contents stores) (sk, k) (live (contents stores) (sk, k) now) := by
  rw [← contents_update, live, ← entry_contents]
  cases found : entry stores sk k with
  | none =>
    have same : Function.update (entry stores sk) k none = entry stores sk := by
      rw [← found, Function.update_eq_self]
    simp [takeExisting, found, same]
  | some val =>
    cases old : val.expired now with
    | true => simp [takeExisting, found, old, Option.filter]
    | false =>
      have same : Function.update (entry stores sk) k (some val) = entry stores sk := by
        rw [← found, Function.update_eq_self]
      simp [takeExisting, found, old, same, Option.filter]

omit [DecidableEq StoreKey] [DecidableEq ObjKey] in
/-- Nothing is refused when the key is absent. -/
theorem objVal_absent (u : Unshown KvStoreError) (c : Insert StoreKey ObjKey)
    (exp : Option SystemTime) (stamp : SystemTime) : ∃ val, objVal u c exp none stamp = .ok val := by
  unfold objVal outObj
  cases c.generation <;> cases c.mode <;> simp

/-- `insert` on the map is `specInsert` on its contents. -/
theorem insert_refines (u : Unshown KvStoreError) (c : Insert StoreKey ObjKey) (clk : Readings)
    (m : Guarded StoreKey ObjKey) :
    specInsert u m.poisoned c clk (contents m.stores) =
      (contents (insert u c clk m).1.stores, (insert u c clk m).2) := by
  cases poisoned : m.poisoned with
  | true => simp [insert, specInsert, poisoned]
  | false =>
    simp only [insert, specInsert, poisoned, Bool.false_eq_true, if_false, takeExisting_found, Insert.key]
    cases built : objVal u c (c.ttl.map (clk.start + ·))
        (live (contents m.stores) (c.objStoreKey, c.objKey) clk.lookup) clk.stamp with
    | ok val => simp only [contents_storeInsert, contents_takeExisting, Function.update_idem]
    | error e =>
      cases found : live (contents m.stores) (c.objStoreKey, c.objKey) clk.lookup with
      | none =>
        obtain ⟨val, stored⟩ := objVal_absent u c (c.ttl.map (clk.start + ·)) clk.stamp
        rw [found, stored] at built
        cases built
      | some val =>
        have here := (Option.filter_eq_some_iff.1 found).1
        simp only [contents_takeExisting, found, ← here, Function.update_eq_self]

/-- No call touches the poison mark. -/
theorem insert_poisoned (u : Unshown KvStoreError) (c : Insert StoreKey ObjKey) (clk : Readings)
    (m : Guarded StoreKey ObjKey) : (insert u c clk m).1.poisoned = m.poisoned := by
  cases poisoned : m.poisoned with
  | true => simp [insert, poisoned]
  | false =>
    simp only [insert, poisoned, Bool.false_eq_true, if_false]
    split <;> rfl

end Refinement

/-! ## Whole runs -/

section Runs

/-- What a finished call asked for, and the clock it read. -/
def asked (calls : Task → Insert StoreKey ObjKey)
    (e : Entry Task SystemTime (Except KvStoreError Unit)) : Insert StoreKey ObjKey × Readings :=
  (calls e.task, readings e.inputs)

/-- The contents after the calls `log`, run one after another by `specInsert`. -/
def contentsAfter (u : Unshown KvStoreError) (calls : Task → Insert StoreKey ObjKey)
    (start : Guarded StoreKey ObjKey) (log : List (Entry Task SystemTime (Except KvStoreError Unit))) :
    Contents StoreKey ObjKey :=
  (serially (fun q => specInsert u start.poisoned q.1 q.2) (contents start.stores)
    (log.map (asked calls))).1

/-- A successful call of mode `mode` on `key`. -/
def Wrote (calls : Task → Insert StoreKey ObjKey) (key : StoreKey × ObjKey) (mode : KvInsertMode)
    (e : Entry Task SystemTime (Except KvStoreError Unit)) : Bool :=
  decide ((calls e.task).key = key) && decide ((calls e.task).mode = mode) && e.result.isOk

/-- The chunks written to `key` in mode `mode`, in lock order. -/
def chunks (calls : Task → Insert StoreKey ObjKey) (key : StoreKey × ObjKey) (mode : KvInsertMode)
    (log : List (Entry Task SystemTime (Except KvStoreError Unit))) : List (List UInt8) :=
  (log.filter (Wrote calls key mode)).map fun e => (calls e.task).obj

/-- Every call on `key` finds a value that has not expired. -/
def NeverExpired (u : Unshown KvStoreError) (calls : Task → Insert StoreKey ObjKey)
    (start : Guarded StoreKey ObjKey) (key : StoreKey × ObjKey)
    (log : List (Entry Task SystemTime (Except KvStoreError Unit))) : Prop :=
  ∀ pre e post, log = pre ++ e :: post → (calls e.task).key = key →
    ∀ val, contentsAfter u calls start pre key = some val →
      val.expired (readings e.inputs).lookup = false

variable {u : Unshown KvStoreError} {calls : Task → Insert StoreKey ObjKey}
  {start : Guarded StoreKey ObjKey} {key : StoreKey × ObjKey}
  {log : List (Entry Task SystemTime (Except KvStoreError Unit))}
  {e : Entry Task SystemTime (Except KvStoreError Unit)}

theorem contentsAfter_snoc :
    contentsAfter u calls start (log ++ [e]) =
      (specInsert u start.poisoned (calls e.task) (readings e.inputs)
        (contentsAfter u calls start log)).1 := by
  simp only [contentsAfter, List.map_append, List.map_cons, List.map_nil, serially_snoc, asked]

/-- A refused insertion changes nothing, whatever has expired. -/
theorem specInsert_error {poisoned : Bool} {c : Insert StoreKey ObjKey} {clk : Readings}
    {m : Contents StoreKey ObjKey} {err : KvStoreError}
    (refused : (specInsert u poisoned c clk m).2 = .error err) :
    (specInsert u poisoned c clk m).1 = m := by
  unfold specInsert at refused ⊢
  split
  · rfl
  · rename_i sound
    rw [if_neg sound] at refused
    split
    · rfl
    · rename_i val built
      rw [built] at refused
      cases refused

/-- An insertion on another key leaves this one alone. -/
theorem specInsert_other {poisoned : Bool} {c : Insert StoreKey ObjKey} {clk : Readings}
    {m : Contents StoreKey ObjKey} (other : c.key ≠ key) :
    (specInsert u poisoned c clk m).1 key = m key := by
  unfold specInsert
  split
  · rfl
  · split
    · rfl
    · simp [Function.update_of_ne (Ne.symm other)]

/-- A successful insertion on a key with a live value writes by its mode, and `Add` cannot be
one. -/
theorem specInsert_live {poisoned : Bool} {c : Insert StoreKey ObjKey} {clk : Readings}
    {m : Contents StoreKey ObjKey} {old : ObjectValue} (here : m c.key = some old)
    (fresh : old.expired clk.lookup = false) (stored : (specInsert u poisoned c clk m).2 = .ok ()) :
    ∃ val, (specInsert u poisoned c clk m).1 c.key = some val ∧
      outObj u c (some old) = .ok val.body := by
  have found : live m c.key clk.lookup = some old := by
    simp [live, here, Option.filter, fresh]
  unfold specInsert at stored ⊢
  split
  · rename_i poisoned
    rw [if_pos poisoned] at stored
    cases stored
  · rename_i sound
    rw [if_neg sound, found] at stored
    rw [found]
    cases built : objVal u c (c.ttl.map (clk.start + ·)) (some old) clk.stamp with
    | error err => rw [built] at stored; cases stored
    | ok val =>
      refine ⟨val, by simp, ?_⟩
      unfold objVal at built
      split at built
      · cases built
      · split at built <;> cases built
        assumption

/-- The chunk of one call, if it wrote one. -/
def chunk (calls : Task → Insert StoreKey ObjKey) (key : StoreKey × ObjKey) (mode : KvInsertMode)
    (e : Entry Task SystemTime (Except KvStoreError Unit)) : List UInt8 :=
  if Wrote calls key mode e then (calls e.task).obj else []

theorem chunks_snoc_flatten (mode : KvInsertMode) :
    (chunks calls key mode (log ++ [e])).flatten =
      (chunks calls key mode log).flatten ++ chunk calls key mode e := by
  simp only [chunks, chunk, List.filter_append, List.map_append, List.filter_cons,
    List.filter_nil, List.flatten_append]
  split <;> simp

theorem chunks_snoc_reverse_flatten (mode : KvInsertMode) :
    (chunks calls key mode (log ++ [e])).reverse.flatten =
      chunk calls key mode e ++ (chunks calls key mode log).reverse.flatten := by
  simp only [chunks, chunk, List.filter_append, List.map_append, List.filter_cons,
    List.filter_nil, List.reverse_append, List.flatten_append]
  split <;> simp

theorem chunk_of_wrote {mode : KvInsertMode} (wrote : Wrote calls key mode e = true) :
    chunk calls key mode e = (calls e.task).obj := if_pos wrote

theorem chunk_of_not_wrote {mode : KvInsertMode} (silent : Wrote calls key mode e = false) :
    chunk calls key mode e = [] := by
  rw [chunk, silent]
  rfl

/-- A call on a key with a live value that does not overwrite it puts its chunk on its side. -/
theorem body_after_call {m : Contents StoreKey ObjKey} {v : ObjectValue} (before : m key = some v)
    (result : e.result = (specInsert u start.poisoned (calls e.task) (readings e.inputs) m).2)
    (unexpired : (calls e.task).key = key → v.expired (readings e.inputs).lookup = false)
    (kept : Wrote calls key .overwrite e = false) :
    ∃ v', (specInsert u start.poisoned (calls e.task) (readings e.inputs) m).1 key = some v' ∧
      v'.body = chunk calls key .prepend e ++ v.body ++ chunk calls key .append e := by
  have untouched : (∀ mode, Wrote calls key mode e = false) →
      v.body = chunk calls key .prepend e ++ v.body ++ chunk calls key .append e := by
    intro silent
    rw [chunk_of_not_wrote (silent .prepend), chunk_of_not_wrote (silent .append)]
    simp
  by_cases same : (calls e.task).key = key
  · subst same
    cases outcome : e.result with
    | error err =>
      rw [specInsert_error (result.symm.trans outcome)]
      refine ⟨v, before, untouched fun mode => ?_⟩
      simp [Wrote, outcome, Except.isOk, Except.toBool]
    | ok done =>
      obtain ⟨val, stored, written⟩ :=
        specInsert_live before (unexpired rfl) (result.symm.trans outcome)
      refine ⟨val, stored, ?_⟩
      have wrote : ∀ mode, Wrote calls (calls e.task).key mode e =
          decide ((calls e.task).mode = mode) := by
        intro mode
        simp [Wrote, outcome, Except.isOk, Except.toBool]
      rw [wrote] at kept
      unfold outObj at written
      cases mode : (calls e.task).mode with
      | overwrite => rw [mode] at kept; cases kept
      | add => rw [mode] at written; cases written
      | append =>
        rw [mode] at written
        rw [chunk_of_not_wrote (by rw [wrote, mode]; rfl), chunk_of_wrote (by rw [wrote, mode]; rfl),
          ← Except.ok.inj written, List.nil_append]
      | prepend =>
        rw [mode] at written
        rw [chunk_of_wrote (by rw [wrote, mode]; rfl), chunk_of_not_wrote (by rw [wrote, mode]; rfl),
          ← Except.ok.inj written, List.append_nil]
  · rw [specInsert_other same]
    exact ⟨v, before, untouched fun mode => by simp [Wrote, same]⟩

/-- The body of a key that nobody overwrites and that never expires: what was there, between
the prepended chunks, last first, and the appended ones. -/
theorem body_after {v₀ : ObjectValue} (here : contents start.stores key = some v₀)
    (results : ∀ pre e post, log = pre ++ e :: post →
      e.result = (specInsert u start.poisoned (calls e.task) (readings e.inputs)
        (contentsAfter u calls start pre)).2)
    (unexpired : NeverExpired u calls start key log)
    (kept : ∀ e ∈ log, Wrote calls key .overwrite e = false) :
    ∃ v, contentsAfter u calls start log key = some v ∧
      v.body = (chunks calls key .prepend log).reverse.flatten ++ v₀.body ++
        (chunks calls key .append log).flatten := by
  induction log using List.reverseRecOn with
  | nil => exact ⟨v₀, here, by simp [chunks]⟩
  | append_singleton log e ih =>
    obtain ⟨v, before, body⟩ := ih
      (fun pre e' post split => results pre e' (post ++ [e]) (by rw [split]; simp))
      (fun pre e' post split => unexpired pre e' (post ++ [e]) (by rw [split]; simp))
      (fun e' old => kept e' (List.mem_append_left _ old))
    obtain ⟨v', after, body'⟩ := body_after_call before (results log e [] rfl)
      (fun same => unexpired log e [] rfl same v before) (kept e (by simp))
    rw [contentsAfter_snoc, chunks_snoc_reverse_flatten, chunks_snoc_flatten]
    refine ⟨v', after, ?_⟩
    rw [body', body]
    simp only [List.append_assoc]

variable [DecidableEq Task] {c : Config Task (Guarded StoreKey ObjKey) Local SystemTime
  (Except KvStoreError Unit)} {acts : List (Lock.Action Task SystemTime)}

/-- **Concurrent inserts are serialisable.** Whatever the interleaving, once the lock is free:
the calls that took it have finished in that order; the map and the results are those of
`insert` run one call at a time in that order, and the contents those of `specInsert`, for
which an expired value is absent; a refused call leaves the contents as they were; and a key
that never expires and is never overwritten holds each successful chunk once, on its side and
in lock order. -/
theorem insert_serializable (u : Unshown KvStoreError) (calls : Task → Insert StoreKey ObjKey)
    (start : Guarded StoreKey ObjKey)
    (run : exec (Lock.step (insertCall u calls)) (initial start) acts = some c)
    (free : c.holder = none) :
    c.order = c.log.map Entry.task ∧
    (∀ t r, c.phase t = .done r ↔ ∃ e ∈ c.log, e.task = t ∧ e.result = r) ∧
    serially (fun q => insert u q.1 q.2) start (c.log.map (asked calls)) =
      (c.shared, c.log.map Entry.result) ∧
    serially (fun q => specInsert u start.poisoned q.1 q.2) (contents start.stores)
      (c.log.map (asked calls)) = (contents c.shared.stores, c.log.map Entry.result) ∧
    (∀ pre e post err, c.log = pre ++ e :: post → e.result = .error err →
      contentsAfter u calls start (pre ++ [e]) = contentsAfter u calls start pre) ∧
    ∀ key v₀, contents start.stores key = some v₀ → NeverExpired u calls start key c.log →
      (∀ e ∈ c.log, Wrote calls key .overwrite e = false) →
      ∃ v, contents c.shared.stores key = some v ∧
        v.body = (chunks calls key .prepend c.log).reverse.flatten ++ v₀.body ++
          (chunks calls key .append c.log).flatten := by
  obtain ⟨ran, order, finished⟩ := serial_of_run run free
  have alone : serially (fun q => insert u q.1 q.2) start (c.log.map (asked calls)) =
      (c.shared, c.log.map Entry.result) := by
    apply ran.serially
    intro e s m replayed
    show insert u (calls e.task) (readings e.inputs) s = (m, e.result)
    exact replay_insert replayed
  have spec := serially_refines (f := fun q => insert u q.1 q.2)
    (g := fun q => specInsert u start.poisoned q.1 q.2) (fun m => contents m.stores)
    (fun m => m.poisoned = start.poisoned)
    (fun q m same => (insert_poisoned u q.1 q.2 m).trans same)
    (fun q m same => by rw [← same]; exact insert_refines u q.1 q.2 m)
    rfl (c.log.map (asked calls))
  simp only [alone] at spec
  have results : ∀ pre e post, c.log = pre ++ e :: post →
      e.result = (specInsert u start.poisoned (calls e.task) (readings e.inputs)
        (contentsAfter u calls start pre)).2 := by
    intro pre e post split
    have cut := spec
    rw [split, List.map_append, List.map_cons] at cut
    have here := serially_result cut
    rw [List.length_map, List.map_append, List.getElem?_append_right (by simp)] at here
    simpa [contentsAfter, asked] using here
  refine ⟨order, finished, alone, spec, ?_, ?_⟩
  · intro pre e post err split refused
    rw [contentsAfter_snoc]
    exact specInsert_error ((results pre e post split).symm.trans refused)
  · intro key v₀ here unexpired kept
    have after := body_after here results unexpired kept
    rwa [show contentsAfter u calls start c.log = contents c.shared.stores by
      rw [contentsAfter, spec]] at after

end Runs

/-! ## Two writers -/

/-- An appender and a prepender of one key. -/
def twoWriters (t : Bool) : Insert Unit Unit where
  objStoreKey := ()
  objKey := ()
  obj := if t then [1] else [2]
  mode := if t then .append else .prepend
  generation := none
  metadata := none
  ttl := none

/-- A store with one value under one key. -/
def oneValue : Guarded Unit Unit where
  poisoned := false
  stores := fun _ => some fun _ => some ⟨[0], "", none, 7⟩

def noChecks : Unshown String := ⟨"internal", "exists", fun _ _ => none, fun now => now.toUInt64⟩

/-- Both are past their first step when the prepender takes the lock. -/
def twoWritersRun : List (Lock.Action Bool SystemTime) :=
  [.prepare true 10, .prepare false 11, .lock false, .inside false 12, .inside false 13,
    .inside false 14, .lock true, .inside true 15, .inside true 16, .inside true 17]

def twoWritersLog : List (Entry Bool SystemTime (Except String Unit)) :=
  [⟨false, [11, 12, 13, 14], .ok ()⟩, ⟨true, [10, 15, 16, 17], .ok ()⟩]

theorem insert_serializable_two_writers :
    ∃ c, exec (Lock.step (insertCall noChecks twoWriters)) (initial oneValue) twoWritersRun = some c ∧
      ∃ v, contents c.shared.stores ((), ()) = some v ∧ v.body = [2, 0, 1] := by
  obtain ⟨c, run, free, log⟩ :
      ∃ c, exec (Lock.step (insertCall noChecks twoWriters)) (initial oneValue) twoWritersRun =
        some c ∧ c.holder = none ∧ c.log = twoWritersLog := ⟨_, rfl, rfl, rfl⟩
  obtain ⟨-, -, -, -, -, bodies⟩ := insert_serializable noChecks twoWriters oneValue run free
  rw [log] at bodies
  obtain ⟨v, here, body⟩ := bodies ((), ()) _ rfl
    (by
      intro pre e post split _ val found
      rcases pre with _ | ⟨first, _ | ⟨second, pre⟩⟩
      · cases found; rfl
      · cases split; cases found; rfl
      · have := congrArg List.length split
        simp [twoWritersLog] at this)
    (by decide)
  exact ⟨c, run, v, here, body.trans (by decide)⟩

end SecurityAudits.Viceroy.ObjectStore
