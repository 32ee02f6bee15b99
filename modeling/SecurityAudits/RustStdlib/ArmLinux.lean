import SecurityAudits.Lib.Linearize
import Mathlib.Logic.Function.Basic

/-!
# Atomic operations on ARM Linux

`atomic_rmw` and `atomic_cmpxchg` of 4-byte objects read the word and retry
`__kuser_cmpxchg` until it finds the word unchanged. Those of 1- and 2-byte objects take
`SUBWORD_LOCK`, a spin lock built on the same helper, and then read and write the object
itself. `subword_atomics` says that any threads may mix them: the lock excludes, every
operation takes effect at one step, and no step writes outside the object it works on.
-/

namespace SecurityAudits.RustStdlib.ArmLinux
set_option autoImplicit false
open SecurityAudits.Run SecurityAudits.Linearize

abbrev Mem := Nat → UInt8

/-- `size_of::<T>()`. -/
inductive Size
  | one | two | four
  deriving DecidableEq

def Size.bytes : Size → Nat
  | one => 1
  | two => 2
  | four => 4

structure Object where
  ptr : Nat
  size : Size
  deriving DecidableEq

def Object.Holds (o : Object) (a : Nat) : Prop := o.ptr ≤ a ∧ a < o.ptr + o.size.bytes

instance (o : Object) (a : Nat) : Decidable (o.Holds a) :=
  inferInstanceAs (Decidable (_ ∧ _))

def Apart (o p : Object) : Prop := ∀ a, o.Holds a → ¬ p.Holds a

/-- One load of the object, the first byte the lowest. -/
def load (m : Mem) (o : Object) : UInt32 :=
  match o.size with
  | .one => (m o.ptr).toUInt32
  | .two => (m o.ptr).toUInt32 ||| (m (o.ptr + 1)).toUInt32 <<< 8
  | .four => (m o.ptr).toUInt32 ||| (m (o.ptr + 1)).toUInt32 <<< 8 |||
      (m (o.ptr + 2)).toUInt32 <<< 16 ||| (m (o.ptr + 3)).toUInt32 <<< 24

/-- One store to the object, which keeps the low bytes of `val`. -/
def store (m : Mem) (o : Object) (val : UInt32) : Mem := fun a =>
  if o.Holds a then (val >>> UInt32.ofNat (8 * (a - o.ptr))).toUInt8 else m a

/-- The objects that operations may work on: aligned, and objects of different size do not
overlap. -/
structure Layout where
  objects : Object → Bool
  aligned : ∀ o, objects o = true → o.size.bytes ∣ o.ptr
  apart : ∀ o p, objects o = true → objects p = true → o.size ≠ p.size → Apart o p

/-- The helpers of the word path that the patch does not show, with what they do to an object
that is a word. -/
structure Helpers where
  alignPtr : Object → Nat
  getShiftMask : Object → UInt32 × UInt32
  extractAligned : UInt32 → UInt32 → UInt32 → UInt32
  insertAligned : UInt32 → UInt32 → UInt32 → UInt32 → UInt32
  align_word : ∀ o, o.size = .four → 4 ∣ o.ptr → alignPtr o = o.ptr
  extract_word : ∀ o w, o.size = .four → 4 ∣ o.ptr →
    extractAligned w (getShiftMask o).1 (getShiftMask o).2 = w
  insert_word : ∀ o w v, o.size = .four → 4 ∣ o.ptr →
    insertAligned w v (getShiftMask o).1 (getShiftMask o).2 = v

inductive Op
  | rmw (object : Object) (f : UInt32 → UInt32) (g : UInt32 → UInt32 → UInt32)
  | cmpxchg (object : Object) (oldval newval : UInt32)

def Op.object : Op → Object
  | .rmw object _ _ => object
  | .cmpxchg object _ _ => object

/-- What an operation does at once: the memory it leaves and the value it returns. -/
def Op.run (m : Mem) : Op → Mem × UInt32
  | .rmw o f g => (store m o (f (load m o)), g (load m o) (f (load m o)))
  | .cmpxchg o oldval newval =>
    if load m o = oldval then (store m o newval, oldval) else (m, load m o)

structure Call where
  op : Op
  ret : UInt32

/-- Where a thread stands. Of a word operation: before the load, and before the
`__kuser_cmpxchg` from one word to another, with the value returned when it succeeds. Of a
sub-word operation: before the `__kuser_cmpxchg` of `subword_lock`, in its inner loop, before
the load and the store, and before `subword_unlock`. -/
inductive Pc
  | idle
  | wordLoad (op : Op)
  | wordExchange (op : Op) (curval newval ret : UInt32)
  | lock (op : Op)
  | spin (op : Op)
  | subwordLoad (op : Op)
  | subwordStore (op : Op) (newval ret : UInt32)
  | unlock (op : Op) (ret : UInt32)
  | done (op : Op) (ret : UInt32)

/-- The thread is between `subword_lock` and `subword_unlock`. -/
def Pc.Critical : Pc → Prop
  | .subwordLoad _ | .subwordStore .. | .unlock .. => True
  | _ => False

def Pc.op : Pc → Option Op
  | .idle => none
  | .wordLoad op | .wordExchange op .. | .lock op | .spin op | .subwordLoad op
  | .subwordStore op .. | .unlock op _ | .done op _ => some op

/-- The operation whose returned value is decided. -/
def Pc.decided : Pc → Option Call
  | .unlock op ret | .done op ret => some ⟨op, ret⟩
  | _ => none

/-- The memory, the word of `SUBWORD_LOCK`, the threads, and what each has returned. -/
structure Config (Thread : Type) where
  mem : Mem
  subwordLock : UInt32
  pc : Thread → Pc
  returned : Thread → List Call

inductive Action (Thread : Type)
  | call (t : Thread) (op : Op)
  | move (t : Thread)

def Action.thread {Thread : Type} : Action Thread → Thread
  | .call t _ | .move t => t

variable {Thread : Type} [DecidableEq Thread]

def Config.goto (c : Config Thread) (t : Thread) (pc : Pc) : Config Thread :=
  { c with pc := Function.update c.pc t pc }

/-- The word path after its load. -/
def afterWordLoad (h : Helpers) (op : Op) (curvalAligned : UInt32) : Pc :=
  let (shift, mask) := h.getShiftMask op.object
  let curval := h.extractAligned curvalAligned shift mask
  match op with
  | .rmw _ f g =>
    let newval := f curval
    .wordExchange op curvalAligned (h.insertAligned curvalAligned newval shift mask)
      (g curval newval)
  | .cmpxchg _ oldval newval =>
    if curval ≠ oldval then .done op curval
    else .wordExchange op curvalAligned (h.insertAligned curvalAligned newval shift mask) oldval

/-- The sub-word path after its load. -/
def afterSubwordLoad (op : Op) (curval : UInt32) : Pc :=
  match op with
  | .rmw _ f g =>
    let newval := f curval
    .subwordStore op newval (g curval newval)
  | .cmpxchg _ oldval newval =>
    if curval = oldval then .subwordStore op newval curval else .unlock op curval

/-- The word that a word operation loads and exchanges. -/
def alignedWord (h : Helpers) (op : Op) : Object := ⟨h.alignPtr op.object, .four⟩

/-- One load, store or `__kuser_cmpxchg` of a thread. -/
def move (h : Helpers) (c : Config Thread) (t : Thread) : Option (Config Thread) :=
  match c.pc t with
  | .idle => none
  | .wordLoad op => some (c.goto t (afterWordLoad h op (load c.mem (alignedWord h op))))
  | .wordExchange op curval newval ret =>
    if load c.mem (alignedWord h op) = curval then
      some { c.goto t (.done op ret) with mem := store c.mem (alignedWord h op) newval }
    else some (c.goto t (.wordLoad op))
  | .lock op =>
    if c.subwordLock = 0 then some { c.goto t (.subwordLoad op) with subwordLock := 1 }
    else some (c.goto t (.spin op))
  | .spin op => some (c.goto t (if c.subwordLock ≠ 0 then .spin op else .lock op))
  | .subwordLoad op => some (c.goto t (afterSubwordLoad op (load c.mem op.object)))
  | .subwordStore op newval ret =>
    some { c.goto t (.unlock op ret) with mem := store c.mem op.object newval }
  | .unlock op ret =>
    if c.subwordLock = 1 then some { c.goto t (.done op ret) with subwordLock := 0 }
    else some (c.goto t (.unlock op ret))
  | .done op ret =>
    some { c.goto t .idle with
      returned := Function.update c.returned t (c.returned t ++ [⟨op, ret⟩]) }

def step (layout : Layout) (h : Helpers) (c : Config Thread) :
    Action Thread → Option (Config Thread)
  | .call t op =>
    match c.pc t with
    | .idle =>
      if layout.objects op.object then
        some (c.goto t (if op.object.size = .four then .wordLoad op else .lock op))
      else none
    | _ => none
  | .move t => move h c t

def initial (m : Mem) : Config Thread := ⟨m, 0, fun _ => .idle, fun _ => []⟩

/-- An operation takes effect in the step that decides what it returns. -/
def effect (layout : Layout) (h : Helpers) (c : Config Thread) (a : Action Thread) :
    List (Thread × Call) :=
  match step layout h c a with
  | none => []
  | some d =>
    match (c.pc a.thread).decided, (d.pc a.thread).decided with
    | none, some call => [(a.thread, call)]
    | _, _ => []

/-- What a call does to the memory when it happens at once and returns its value. -/
def spec (entry : Thread × Call) (m : Mem) : Option Mem :=
  if (entry.2.op.run m).2 = entry.2.ret then some (entry.2.op.run m).1 else none

/-! ## Objects in memory -/

section Memory

variable {layout : Layout} {m m' : Mem} {o p : Object} {op : Op} {a : Nat}

/-- Two objects of a layout are the same or share no byte. -/
theorem Layout.same_or_apart (first : layout.objects o = true) (second : layout.objects p = true) :
    o = p ∨ Apart o p := by
  by_cases sizes : o.size = p.size
  · have mine := layout.aligned o first
    have theirs := layout.aligned p second
    obtain ⟨o, size⟩ := o
    obtain ⟨p, size'⟩ := p
    cases sizes
    by_cases ptrs : o = p
    · exact Or.inl (by rw [ptrs])
    · refine Or.inr fun a inFirst inSecond => ptrs ?_
      cases size <;> simp only [Object.Holds, Size.bytes] at * <;> omega
  · exact Or.inr (layout.apart o p first second sizes)

theorem store_elsewhere {val : UInt32} (outside : ¬ o.Holds a) : store m o val a = m a :=
  if_neg outside

/-- A load reads the bytes of its object. -/
theorem load_congr (same : ∀ a, o.Holds a → m a = m' a) : load m o = load m' o := by
  obtain ⟨ptr, size⟩ := o
  have read : ∀ i, i < size.bytes → m (ptr + i) = m' (ptr + i) := fun i less =>
    same (ptr + i) ⟨Nat.le_add_right .., Nat.add_lt_add_left less ptr⟩
  cases size with
  | one => simp only [load, show m ptr = m' ptr from read 0 (by decide)]
  | two => simp only [load, show m ptr = m' ptr from read 0 (by decide), read 1 (by decide)]
  | four =>
    simp only [load, show m ptr = m' ptr from read 0 (by decide), read 1 (by decide),
      read 2 (by decide), read 3 (by decide)]

theorem Op.run_elsewhere (outside : ¬ op.object.Holds a) : (op.run m).1 a = m a := by
  cases op with
  | rmw o f g => exact store_elsewhere outside
  | cmpxchg o oldval newval =>
    rw [Op.run]
    split
    · exact store_elsewhere outside
    · rfl

/-- An operation does not change what an object apart from its own holds. -/
theorem load_run_apart (apart : Apart op.object p) : load (op.run m).1 p = load m p :=
  load_congr fun _ held => Op.run_elsewhere fun inFirst => apart _ inFirst held

end Memory

/-! ## What a thread knows between its steps -/

/-- Wherever the object holds `curval`, the operation stores `newval` and returns `ret`. -/
def Settles (op : Op) (curval newval ret : UInt32) : Prop :=
  ∀ m, load m op.object = curval → op.run m = (store m op.object newval, ret)

def Layout.Word (layout : Layout) (op : Op) : Prop :=
  layout.objects op.object = true ∧ op.object.size = .four

def Layout.Subword (layout : Layout) (op : Op) : Prop :=
  layout.objects op.object = true ∧ op.object.size ≠ .four

/-- A thread is where its operation's size takes it, and the value it is about to store is the
one that belongs to the value it loaded. The word path stores only if it finds that value
again; the sub-word path stores without a look, so its object must still hold it. -/
def Pc.Sound (layout : Layout) (m : Mem) : Pc → Prop
  | .wordLoad op => layout.Word op
  | .wordExchange op curval newval ret => layout.Word op ∧ Settles op curval newval ret
  | .lock op | .spin op | .subwordLoad op => layout.Subword op
  | .subwordStore op newval ret => layout.Subword op ∧ Settles op (load m op.object) newval ret
  | .idle | .unlock .. | .done .. => True

structure Inv (layout : Layout) (c : Config Thread) : Prop where
  sound : ∀ t, (c.pc t).Sound layout c.mem
  exclusive : ∀ t u, (c.pc t).Critical → (c.pc u).Critical → t = u
  held : ∀ t, (c.pc t).Critical → c.subwordLock = 1

namespace Config

variable {c : Config Thread} {t : Thread} {pc : Pc}

@[simp] theorem goto_self : (c.goto t pc).pc t = pc := Function.update_self ..

end Config

section Words

variable {layout : Layout} {h : Helpers} {op : Op}

theorem alignedWord_of_word (word : layout.Word op) : alignedWord h op = op.object := by
  obtain ⟨allowed, four⟩ := word
  have aligned := layout.aligned _ allowed
  rw [four] at aligned
  rw [alignedWord, h.align_word _ four aligned, ← four]

/-- After its load, a word operation either has failed, at once, or knows what it stores. -/
theorem afterWordLoad_cases (h : Helpers) (w : UInt32) (word : layout.Word op) :
    (∃ newval ret, afterWordLoad h op w = .wordExchange op w newval ret ∧
      Settles op w newval ret) ∨
    (afterWordLoad h op w = .done op w ∧ ∀ m, load m op.object = w → op.run m = (m, w)) := by
  obtain ⟨allowed, four⟩ := word
  have aligned := layout.aligned _ allowed
  rw [four] at aligned
  have extract := h.extract_word op.object w four aligned
  cases op with
  | rmw o f g =>
    refine Or.inl ⟨f w, g w (f w), ?_, ?_⟩
    · simp only [afterWordLoad, extract, h.insert_word _ _ _ four aligned]
    · rintro m rfl; rfl
  | cmpxchg o oldval newval =>
    by_cases equal : w = oldval
    · subst equal
      refine Or.inl ⟨newval, w, ?_, fun m equal => if_pos equal⟩
      simp only [afterWordLoad, extract, h.insert_word _ _ _ four aligned, ne_eq, not_true,
        if_false]
    · refine Or.inr ⟨?_, ?_⟩
      · simp only [afterWordLoad, extract, ne_eq, equal, not_false_iff, if_true]
      · rintro m rfl; exact if_neg equal

theorem afterSubwordLoad_cases (op : Op) (w : UInt32) :
    (∃ newval ret, afterSubwordLoad op w = .subwordStore op newval ret ∧
      Settles op w newval ret) ∨
    (afterSubwordLoad op w = .unlock op w ∧ ∀ m, load m op.object = w → op.run m = (m, w)) := by
  cases op with
  | rmw o f g =>
    refine Or.inl ⟨f w, g w (f w), rfl, ?_⟩
    rintro m rfl; rfl
  | cmpxchg o oldval newval =>
    by_cases equal : w = oldval
    · refine Or.inl ⟨newval, w, if_pos equal, ?_⟩
      rintro m rfl
      exact (if_pos equal).trans (by rw [← equal]; rfl)
    · refine Or.inr ⟨if_neg equal, ?_⟩
      rintro m rfl; exact if_neg equal

end Words

/-! ## The steps -/

/-- What a step of `t` can do: go on, decide what its operation returns and do it to the
memory, take the lock, give it back, return. -/
inductive Turn (layout : Layout) (c : Config Thread) (t : Thread) (d : Config Thread) : Prop
  | inner (pc : Pc) (moved : d = c.goto t pc) (sound : pc.Sound layout c.mem)
      (undecided : (c.pc t).decided = none) (still : pc.decided = none)
      (critical : pc.Critical → (c.pc t).Critical)
  | decide (call : Call) (pc : Pc)
      (moved : d = { c.goto t pc with mem := (call.op.run c.mem).1 })
      (op : (c.pc t).op = some call.op) (returns : (call.op.run c.mem).2 = call.ret)
      (allowed : layout.objects call.op.object = true)
      (alone : call.op.object.size ≠ .four → (c.pc t).Critical)
      (undecided : (c.pc t).decided = none) (decided : pc.decided = some call)
      (sound : ∀ m, pc.Sound layout m) (critical : pc.Critical → (c.pc t).Critical)
  | take (op : Op) (here : c.pc t = .lock op) (free : c.subwordLock = 0)
      (moved : d = { c.goto t (.subwordLoad op) with subwordLock := 1 })
      (subword : layout.Subword op)
  | release (op : Op) (ret : UInt32) (here : c.pc t = .unlock op ret)
      (moved : d = { c.goto t (.done op ret) with subwordLock := 0 })
  | back (op : Op) (ret : UInt32) (here : c.pc t = .done op ret)
      (moved : d = { c.goto t .idle with
        returned := Function.update c.returned t (c.returned t ++ [⟨op, ret⟩]) })

section Steps

variable {layout : Layout} {h : Helpers} {c d : Config Thread} {t u : Thread}
  {a : Action Thread} {m : Mem}

theorem turn_of_call {op : Op} (taken : step layout h c (.call t op) = some d) :
    Turn layout c t d := by
  simp only [step] at taken
  split at taken
  · rename_i here
    split at taken
    · rename_i allowed
      cases taken
      by_cases four : op.object.size = .four
      · rw [if_pos four]
        exact .inner (.wordLoad op) rfl ⟨allowed, four⟩ (by rw [here]; rfl) rfl False.elim
      · rw [if_neg four]
        exact .inner (.lock op) rfl ⟨allowed, four⟩ (by rw [here]; rfl) rfl False.elim
    · cases taken
  · cases taken

theorem turn_of_wordLoad {op : Op} (here : c.pc t = .wordLoad op)
    (sound : (Pc.wordLoad op).Sound layout c.mem) (taken : move h c t = some d) :
    Turn layout c t d := by
  simp only [move, here, alignedWord_of_word sound] at taken
  cases taken
  rcases afterWordLoad_cases h (load c.mem op.object) sound with
    ⟨newval, ret, next, settles⟩ | ⟨next, fails⟩
  · rw [next]
    exact .inner _ rfl ⟨sound, settles⟩ (by rw [here]; rfl) rfl False.elim
  · rw [next]
    have now := fails c.mem rfl
    refine .decide ⟨op, load c.mem op.object⟩ (.done op (load c.mem op.object)) ?_
      (by rw [here]; rfl) ?_ sound.1
      (fun subword => absurd sound.2 subword) (by rw [here]; rfl) rfl (fun _ => trivial) False.elim
    · rw [now]; rfl
    · rw [now]

theorem turn_of_wordExchange {op : Op} {curval newval ret : UInt32}
    (here : c.pc t = .wordExchange op curval newval ret)
    (sound : (Pc.wordExchange op curval newval ret).Sound layout c.mem)
    (taken : move h c t = some d) : Turn layout c t d := by
  obtain ⟨word, settles⟩ := sound
  simp only [move, here, alignedWord_of_word word] at taken
  split at taken
  · rename_i unchanged
    cases taken
    have now := settles c.mem unchanged
    refine .decide ⟨op, ret⟩ (.done op ret) ?_ (by rw [here]; rfl) ?_ word.1
      (fun subword => absurd word.2 subword) (by rw [here]; rfl) rfl (fun _ => trivial) False.elim
    · rw [now]
    · rw [now]
  · cases taken
    exact .inner _ rfl word (by rw [here]; rfl) rfl False.elim

theorem turn_of_subwordLoad {op : Op} (here : c.pc t = .subwordLoad op)
    (sound : (Pc.subwordLoad op).Sound layout c.mem) (taken : move h c t = some d) :
    Turn layout c t d := by
  simp only [move, here] at taken
  cases taken
  rcases afterSubwordLoad_cases op (load c.mem op.object) with
    ⟨newval, ret, next, settles⟩ | ⟨next, fails⟩
  · rw [next]
    exact .inner _ rfl ⟨sound, settles⟩ (by rw [here]; rfl) rfl (fun _ => by rw [here]; trivial)
  · rw [next]
    have now := fails c.mem rfl
    refine .decide ⟨op, load c.mem op.object⟩ (.unlock op (load c.mem op.object)) ?_
      (by rw [here]; rfl) ?_ sound.1
      (fun _ => by rw [here]; trivial) (by rw [here]; rfl) rfl (fun _ => trivial)
      (fun _ => by rw [here]; trivial)
    · rw [now]; rfl
    · rw [now]

theorem turn_of_subwordStore {op : Op} {newval ret : UInt32}
    (here : c.pc t = .subwordStore op newval ret)
    (sound : (Pc.subwordStore op newval ret).Sound layout c.mem)
    (taken : move h c t = some d) : Turn layout c t d := by
  obtain ⟨subword, settles⟩ := sound
  simp only [move, here] at taken
  cases taken
  have now := settles c.mem rfl
  refine .decide ⟨op, ret⟩ (.unlock op ret) ?_ (by rw [here]; rfl) ?_ subword.1
    (fun _ => by rw [here]; trivial) (by rw [here]; rfl) rfl (fun _ => trivial)
    (fun _ => by rw [here]; trivial)
  · rw [now]
  · rw [now]

theorem turn_of_step (inv : Inv layout c) (taken : step layout h c a = some d) :
    Turn layout c a.thread d := by
  cases a with
  | call t op => exact turn_of_call taken
  | move t =>
    replace taken : move h c t = some d := taken
    have sound := inv.sound t
    cases here : c.pc t with
    | idle => simp only [move, here] at taken; cases taken
    | wordLoad op => exact turn_of_wordLoad here (here ▸ sound) taken
    | wordExchange op curval newval ret => exact turn_of_wordExchange here (here ▸ sound) taken
    | lock op =>
      rw [here] at sound
      simp only [move, here] at taken
      split at taken <;> cases taken
      · rename_i free
        exact .take op here free rfl sound
      · exact .inner _ rfl sound (congrArg Pc.decided here) rfl False.elim
    | spin op =>
      rw [here] at sound
      simp only [move, here] at taken
      cases taken
      split
      · exact .inner _ rfl sound (congrArg Pc.decided here) rfl False.elim
      · exact .inner _ rfl sound (congrArg Pc.decided here) rfl False.elim
    | subwordLoad op => exact turn_of_subwordLoad here (here ▸ sound) taken
    | subwordStore op newval ret => exact turn_of_subwordStore here (here ▸ sound) taken
    | unlock op ret =>
      have held := inv.held t (by rw [here]; trivial)
      simp only [move, here, held, if_true] at taken
      cases taken
      exact .release op ret here rfl
    | done op ret =>
      simp only [move, here] at taken
      cases taken
      exact .back op ret here rfl

omit [DecidableEq Thread] in
theorem inv_initial : Inv layout (initial m : Config Thread) where
  sound _ := trivial
  exclusive _ _ critical := critical.elim
  held _ critical := critical.elim

/-- What holds of each thread after `t` has gone to `pc`, from what holds of `pc` and of the
others. -/
theorem forall_goto (P : Thread → Pc → Prop) {pc : Pc} (mine : P t pc)
    (others : ∀ u, u ≠ t → P u (c.pc u)) : ∀ u, P u ((c.goto t pc).pc u) :=
  (Function.forall_update_iff c.pc P).2 ⟨mine, others⟩

end Steps

section Invariant

variable {layout : Layout} {h : Helpers} {c d : Config Thread} {t : Thread}
  {a : Action Thread} {m m' : Mem}

theorem Pc.Sound.frame {pc : Pc} (sound : pc.Sound layout m)
    (same : ∀ op newval ret, pc = .subwordStore op newval ret →
      load m' op.object = load m op.object) : pc.Sound layout m' := by
  cases pc with
  | subwordStore op newval ret =>
    obtain ⟨subword, settles⟩ := sound
    exact ⟨subword, (same op newval ret rfl).symm ▸ settles⟩
  | _ => exact sound

omit [DecidableEq Thread] in
theorem Inv.of_fewer_critical (inv : Inv layout c) (sound : ∀ t, (d.pc t).Sound layout d.mem)
    (fewer : ∀ t, (d.pc t).Critical → (c.pc t).Critical)
    (lock : d.subwordLock = c.subwordLock) : Inv layout d where
  sound := sound
  exclusive t u mine theirs := inv.exclusive t u (fewer t mine) (fewer u theirs)
  held t critical := lock.trans (inv.held t (fewer t critical))

omit [DecidableEq Thread] in
/-- Another thread's pending store keeps its value: a word operation cannot reach its object,
and no sub-word operation is decided outside the lock. -/
theorem Inv.frame (inv : Inv layout c) {op : Op} (allowed : layout.objects op.object = true)
    (alone : op.object.size ≠ .four → (c.pc t).Critical) {u : Thread} (other : u ≠ t) :
    (c.pc u).Sound layout (op.run c.mem).1 := by
  refine (inv.sound u).frame fun op' newval ret there => ?_
  have sound := inv.sound u
  rw [there] at sound
  rcases layout.same_or_apart allowed sound.1.1 with same | apart
  · have mine := alone (same ▸ sound.1.2)
    exact absurd (inv.exclusive u t (by rw [there]; trivial) mine) other
  · exact load_run_apart apart

theorem Inv.turn (inv : Inv layout c) (turn : Turn layout c t d) : Inv layout d := by
  cases turn with
  | inner pc moved sound undecided still critical =>
    subst moved
    exact inv.of_fewer_critical
      (forall_goto (fun _ pc => pc.Sound layout c.mem) sound fun u _ => inv.sound u)
      (forall_goto (fun u pc => pc.Critical → (c.pc u).Critical) critical fun _ _ => id) rfl
  | decide call pc moved op returns allowed alone undecided decided sound critical =>
    subst moved
    exact inv.of_fewer_critical
      (forall_goto (fun _ pc => pc.Sound layout (call.op.run c.mem).1) (sound _)
        fun u other => inv.frame allowed alone other)
      (forall_goto (fun u pc => pc.Critical → (c.pc u).Critical) critical fun _ _ => id) rfl
  | take op here free moved subword =>
    subst moved
    have alone : ∀ u, ((c.goto t (.subwordLoad op)).pc u).Critical → u = t := by
      refine forall_goto (fun u pc => pc.Critical → u = t) (fun _ => rfl)
        fun u _ critical => ?_
      have held := inv.held u critical
      rw [free] at held
      cases held
    exact ⟨forall_goto (fun _ pc => pc.Sound layout c.mem) subword fun u _ => inv.sound u,
      fun u v mine theirs => (alone u mine).trans (alone v theirs).symm, fun _ _ => rfl⟩
  | release op ret here moved =>
    subst moved
    have nobody : ∀ u, ¬ ((c.goto t (.done op ret)).pc u).Critical := by
      refine forall_goto (fun _ pc => ¬ pc.Critical) id fun u other critical => ?_
      exact other (inv.exclusive u t critical (by rw [here]; trivial))
    exact ⟨forall_goto (fun _ pc => pc.Sound layout c.mem) trivial fun u _ => inv.sound u,
      fun u _ mine _ => absurd mine (nobody u), fun u mine => absurd mine (nobody u)⟩
  | back op ret here moved =>
    subst moved
    exact inv.of_fewer_critical
      (forall_goto (fun _ pc => pc.Sound layout c.mem) trivial fun u _ => inv.sound u)
      (forall_goto (fun u pc => pc.Critical → (c.pc u).Critical) False.elim
        fun _ _ => id) rfl

theorem Inv.step (inv : Inv layout c) (taken : ArmLinux.step layout h c a = some d) :
    Inv layout d :=
  inv.turn (turn_of_step inv taken)

/-- The calls of `t` whose value is decided. -/
def Config.account (c : Config Thread) (t : Thread) : List Call :=
  c.returned t ++ (c.pc t).decided.toList

/-- A thread decides nothing by going on, taking the lock or giving it back. -/
theorem account_goto (pc : Pc) (same : pc.decided = (c.pc t).decided) :
    ∀ u, (c.goto t pc).account u = c.account u :=
  forall_goto (fun u pc => c.returned u ++ pc.decided.toList = c.account u)
    (by rw [same]; rfl) fun _ _ => rfl

/-- The call of an entry of the serial order, if `t` made it. -/
def callOf (t : Thread) (entry : Thread × Call) : Option Call :=
  if entry.1 = t then some entry.2 else none

theorem effect_of_step (taken : ArmLinux.step layout h c a = some d) :
    effect layout h c a = match (c.pc a.thread).decided, (d.pc a.thread).decided with
      | none, some call => [(a.thread, call)]
      | _, _ => [] := by
  rw [effect, taken]

/-- What takes effect at a step, and that it is all that the step does to the memory and to
what any thread has decided. -/
theorem effect_cases (inv : Inv layout c) (taken : ArmLinux.step layout h c a = some d) :
    (effect layout h c a = [] ∧ d.mem = c.mem ∧ ∀ u, d.account u = c.account u) ∨
    (∃ call, effect layout h c a = [(a.thread, call)] ∧ call.op.run c.mem = (d.mem, call.ret) ∧
      (c.pc a.thread).op = some call.op ∧
      ∀ u, d.account u = c.account u ++ if a.thread = u then [call] else []) := by
  rw [effect_of_step taken]
  cases turn_of_step inv taken with
  | inner pc moved sound undecided still critical =>
    subst moved
    exact Or.inl ⟨by rw [undecided, Config.goto_self, still], rfl,
      account_goto pc (still.trans undecided.symm)⟩
  | decide call pc moved op returns allowed alone undecided decided sound critical =>
    subst moved
    refine Or.inr ⟨call, ?_, Prod.ext rfl returns, op, ?_⟩
    · simp only [undecided, Config.goto_self, decided]
    · refine forall_goto (fun u pc => c.returned u ++ pc.decided.toList =
        c.account u ++ if a.thread = u then [call] else []) ?_ fun u other => ?_
      · rw [Config.account, undecided, decided, if_pos rfl, Option.toList_none, List.append_nil,
          Option.toList_some]
      · rw [if_neg (Ne.symm other), List.append_nil]; rfl
  | take op here free moved subword =>
    subst moved
    exact Or.inl ⟨by simp only [here, Config.goto_self, Pc.decided], rfl,
      account_goto (.subwordLoad op) (by rw [here]; rfl)⟩
  | release op ret here moved =>
    subst moved
    exact Or.inl ⟨by simp only [here, Pc.decided], rfl,
      account_goto (.done op ret) (by rw [here]; rfl)⟩
  | back op ret here moved =>
    subst moved
    refine Or.inl ⟨by simp only [here, Pc.decided], rfl, fun u => ?_⟩
    by_cases same : u = a.thread
    · subst same
      simp only [Config.account, Config.goto, Function.update_self, here, Pc.decided,
        Option.toList_some, Option.toList_none, List.append_nil]
    · simp only [Config.account, Config.goto, Function.update_of_ne same]

end Invariant

/-- **Mixed atomic operations are atomic.** In every run, by any number of threads, of the
individual loads, stores and `__kuser_cmpxchg` of operations on objects of any layout: the
sub-word lock excludes; the operations, one after another in the order in which they take
effect, return the values that the threads have returned or are about to return, and leave
the memory that the run leaves; and a step changes no byte outside the object of the
operation that takes it. -/
theorem subword_atomics (layout : Layout) (h : Helpers) (m : Mem) (actions : List (Action Thread))
    (c : Config Thread) (run : exec (step layout h) (initial m) actions = some c) :
    (∀ t u, (c.pc t).Critical → (c.pc u).Critical → t = u) ∧
    replay spec m (order (step layout h) (effect layout h) (initial m) actions) = some c.mem ∧
    (∀ t, (order (step layout h) (effect layout h) (initial m) actions).filterMap (callOf t) =
      c.returned t ++ (c.pc t).decided.toList) ∧
    ∀ a d, step layout h c a = some d → ∀ i, d.mem i ≠ c.mem i →
      ∃ op, (c.pc a.thread).op = some op ∧ op.object.Holds i := by
  have kept : ∀ (c : Config Thread) a d, Inv layout c → step layout h c a = some d →
      Inv layout d := fun _ _ _ inv taken => inv.step taken
  have inv : Inv layout c := exec_invariant kept inv_initial run
  refine ⟨inv.exclusive, ?_, fun t => ?_, fun a d taken i changed => ?_⟩
  · refine replay_of_run Config.mem kept (fun c a d inv taken => ?_) inv_initial run
    rcases effect_cases inv taken with ⟨none, same, _⟩ | ⟨call, one, does, _⟩
    · rw [none, same]; rfl
    · simp only [one, replay, spec, does, if_true, Option.bind_some]
  · refine (account_of_run (fun c => c.account t) kept
      (fun c a d inv taken => ?_) inv_initial run).symm
    rcases effect_cases inv taken with ⟨none, _, same⟩ | ⟨call, one, _, _, grows⟩
    · rw [none, same t]; exact (List.append_nil _).symm
    · rw [one, grows t, List.filterMap_cons, callOf]
      split <;> rfl
  · rcases effect_cases inv taken with ⟨_, same, _⟩ | ⟨call, _, does, mine, _⟩
    · exact absurd (congrFun same i) changed
    · refine ⟨call.op, mine, by_contra fun outside => changed ?_⟩
      have elsewhere := Op.run_elsewhere (m := c.mem) outside
      rwa [does] at elsewhere

/-- Two bytes next to each other and a word apart from them. -/
def neighbours : Layout where
  objects o := decide (o = ⟨0, .one⟩ ∨ o = ⟨1, .one⟩ ∨ o = ⟨4, .four⟩)
  aligned o allowed := by
    rcases of_decide_eq_true allowed with rfl | rfl | rfl <;> decide
  apart o p first second sizes := by
    rcases of_decide_eq_true first with rfl | rfl | rfl <;>
      rcases of_decide_eq_true second with rfl | rfl | rfl <;>
        first
        | exact absurd rfl sizes
        | intro a inFirst inSecond
          simp only [Object.Holds, Size.bytes] at inFirst inSecond
          omega

/-- The helpers on a little-endian machine. -/
def littleEndian : Helpers where
  alignPtr o := o.ptr - o.ptr % 4
  getShiftMask o :=
    (UInt32.ofNat (o.ptr % 4 * 8), match o.size with | .one => 0xff | .two => 0xffff | .four => -1)
  extractAligned aligned shift mask := aligned >>> shift &&& mask
  insertAligned aligned val shift mask :=
    aligned &&& ~~~(mask <<< shift) ||| (val &&& mask) <<< shift
  align_word o _ aligned := by rw [Nat.mod_eq_zero_of_dvd aligned, Nat.sub_zero]
  extract_word o w four aligned := by
    simp [four, Nat.mod_eq_zero_of_dvd aligned]
  insert_word o w v four aligned := by
    simp [four, Nat.mod_eq_zero_of_dvd aligned]

/-- One thread adds to a byte while another one, which waits for the lock, sets the byte next
to it, and the first one then does a word operation. -/
def mixedRun : List (Action Bool) :=
  [.call false (.rmw ⟨0, .one⟩ (· + 7) fun curval _ => curval), .move false,
    .call true (.cmpxchg ⟨1, .one⟩ 0 9), .move true, .move false, .move true, .move false,
    .move false, .move true, .move true, .move false, .move true, .move true,
    .call false (.rmw ⟨4, .four⟩ (· + 1) fun _ newval => newval), .move true, .move false,
    .move true, .move false, .move false]

theorem subword_atomics_mixedRun : ∃ c : Config Bool,
    exec (step neighbours littleEndian) (initial fun _ => 0) mixedRun = some c ∧
    c.mem 0 = 7 ∧ c.mem 1 = 9 ∧ c.mem 4 = 1 ∧ (c.returned true).map Call.ret = [0] ∧
    replay spec (fun _ => 0) (order (step neighbours littleEndian)
      (effect neighbours littleEndian) (initial fun _ => 0) mixedRun) = some c.mem :=
  ⟨_, rfl, rfl, rfl, rfl, rfl, (subword_atomics _ _ _ _ _ rfl).2.1⟩

end SecurityAudits.RustStdlib.ArmLinux
