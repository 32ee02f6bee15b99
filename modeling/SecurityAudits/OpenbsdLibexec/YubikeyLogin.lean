import Mathlib.Data.List.TakeWhile
import Mathlib.Logic.Function.Basic
import SecurityAudits.Lib.Run

/-!
# `yubikey_login` and the counter file

A login reads the last accepted counter from the user's file, and accepts a token only if its
counter is larger. The patch takes an exclusive `flock` before the file is read and keeps it
until `fclose`, so that the check and the update are one for the other logins.

They are not one for a failure: the file is empty from `ftruncate` until the buffered digits
are written, which happens in `fclose`, whose result is not looked at. `replayed` is a token
accepted twice; `counters_increase` says that nothing else goes wrong.
-/

namespace SecurityAudits.OpenbsdLibexec.YubikeyLogin
set_option autoImplicit false
open SecurityAudits.Run

/-- What `fprintf(f, "%u", ctr)` puts into the buffer. -/
def printU (ctr : UInt32) : List Char := Nat.toDigits 10 ctr.toNat

/-- `strtoumax` on the digits of a `%u` conversion: it saturates, and a sign negates. -/
def strtoumax (negative : Bool) (digits : List Char) : Nat :=
  let n := Nat.ofDigitChars 10 digits 0
  if UInt64.size ≤ n then UInt64.size - 1
  else if negative then (UInt64.size - n) % UInt64.size
  else n

def isspace (c : Char) : Bool := c ∈ [' ', '\t', '\n', '\x0b', '\x0c', '\r']

/-- `fscanf(f, "%u", ..)`: white space, a sign, digits; `none` when there is no digit. -/
def scanU (text : List Char) : Option UInt32 :=
  let text := text.dropWhile isspace
  let (negative, text) := match text with
    | '-' :: rest => (true, rest)
    | '+' :: rest => (false, rest)
    | text => (false, text)
  let digits := text.takeWhile Char.isDigit
  if digits.isEmpty then none else some (UInt32.ofNat (strtoumax negative digits))

/-- The counter file; `none` when it does not exist. -/
abbrev CounterFile := Option (List Char)

/-- `last_ctr` of a login that reads the file. -/
def lastCtr (file : CounterFile) : UInt32 := (scanU (file.getD [])).getD 0

inductive Answer where
  | authOk
  | authFailed
  deriving DecidableEq

/-- Where a login is. Its token has been decrypted when it starts; between `locked` and
`printed` it holds the lock. -/
inductive Phase where
  | decrypted
  | opened
  | locked
  | compared (last : UInt32)
  | truncated
  | printed (buffer : List Char)
  | returned (answer : Answer)
  | stopped
  deriving DecidableEq

/-- What a login does next, with what the system answers. `written` counts the characters that
reach the file before the stream is gone, in `fclose` or because the process stopped. -/
inductive Event where
  | fopen (succeeds : Bool)
  | flock (succeeds : Bool)
  | fscanf
  | ftruncate (succeeds : Bool)
  | fprintf
  | fprintfFails (written : Nat)
  | fclose (written : Nat)
  | stop (written : Nat)

/-- All logins of one user. `accepted` is the history: the counters answered with `AUTH_OK`,
in the order in which their logins held the lock. -/
structure Config (Login : Type) where
  file : CounterFile
  holder : Option Login
  phase : Login → Phase
  accepted : List UInt32

variable {Login : Type} [DecidableEq Login]

def initial (file : CounterFile) : Config Login := ⟨file, none, fun _ => .decrypted, []⟩

def Config.goTo (c : Config Login) (p : Login) (ph : Phase) : Config Login :=
  { c with phase := Function.update c.phase p ph }

/-- The file is closed, which drops the lock. -/
def Config.close (c : Config Login) (p : Login) (ph : Phase) : Config Login :=
  { c with holder := none, phase := Function.update c.phase p ph }

/-- The file is opened with `O_APPEND`. -/
def append (file : CounterFile) (text : List Char) : CounterFile := file.map (· ++ text)

/-- One step of the login `p`, whose token has the counter `ctr p`. -/
def step (ctr : Login → UInt32) (c : Config Login) (a : Login × Event) : Option (Config Login) :=
  let p := a.1
  match c.phase p, a.2 with
  | .decrypted, .fopen true => some ({ c with file := some (c.file.getD []) }.goTo p .opened)
  | .decrypted, .fopen false => some (c.goTo p (.returned .authFailed))
  | .decrypted, .stop _ => some (c.goTo p .stopped)
  | .opened, .flock true =>
    if c.holder.isNone then some ({ c with holder := some p }.goTo p .locked) else none
  | .opened, .flock false => some (c.goTo p (.returned .authFailed))
  | .opened, .stop _ => some (c.goTo p .stopped)
  | .locked, .fscanf =>
    if ctr p ≤ lastCtr c.file then some (c.close p (.returned .authFailed))
    else some (c.goTo p (.compared (lastCtr c.file)))
  | .locked, .stop _ => some (c.close p .stopped)
  | .compared _, .ftruncate true => some ({ c with file := some [] }.goTo p .truncated)
  | .compared _, .ftruncate false => some (c.close p (.returned .authFailed))
  | .compared _, .stop _ => some (c.close p .stopped)
  | .truncated, .fprintf => some (c.goTo p (.printed (printU (ctr p))))
  | .truncated, .fprintfFails written => some
      ({ c with file := append c.file ((printU (ctr p)).take written) }.close p
        (.returned .authFailed))
  | .truncated, .stop _ => some (c.close p .stopped)
  | .printed buffer, .fclose written => some
      ({ c with
          file := append c.file (buffer.take written)
          accepted := c.accepted ++ [ctr p] }.close p (.returned .authOk))
  | .printed buffer, .stop written => some
      ({ c with file := append c.file (buffer.take written) }.close p .stopped)
  | _, _ => none

/-- What the counter file is for: no counter is accepted after one that is not smaller, and
whoever reads the file, or has read it, sees no smaller counter than those accepted. -/
structure ReplaySafe (c : Config Login) : Prop where
  increasing : c.accepted.Pairwise (· < ·)
  nextRead : c.holder = none → ∀ n ∈ c.accepted, n ≤ lastCtr c.file
  read : ∀ p last, c.phase p = .compared last → ∀ n ∈ c.accepted, n ≤ last

/-- The condition on a step: a login that leaves the file after `ftruncate` has written its
whole counter. -/
def WritesWhole (ctr : Login → UInt32) (c : Config Login) (a : Login × Event) : Prop :=
  match c.phase a.1, a.2 with
  | .truncated, .fprintfFails written => (printU (ctr a.1)).length ≤ written
  | .truncated, .stop _ => False
  | .printed buffer, .fclose written => buffer.length ≤ written
  | .printed buffer, .stop written => buffer.length ≤ written
  | _, _ => True

theorem not_isspace_of_isDigit {d : Char} (digit : d.isDigit = true) : isspace d = false := by
  rw [isspace, decide_eq_false_iff_not]
  intro space
  simp only [List.mem_cons, List.not_mem_nil, or_false] at space
  rcases space with rfl | rfl | rfl | rfl | rfl | rfl <;> cases digit

/-- Text that consists of digits is scanned whole. -/
theorem scanU_digits {ds : List Char} (ne : ds ≠ []) (digits : ∀ d ∈ ds, d.isDigit = true) :
    scanU ds = some (UInt32.ofNat (strtoumax false ds)) := by
  obtain ⟨d, rest, rfl⟩ := List.exists_cons_of_ne_nil ne
  have first : d.isDigit = true := digits d List.mem_cons_self
  have noMinus : d ≠ '-' := by rintro rfl; cases first
  have noPlus : d ≠ '+' := by rintro rfl; cases first
  have all : (d :: rest).takeWhile Char.isDigit = d :: rest := List.takeWhile_eq_self_iff.2 digits
  simp [scanU, not_isspace_of_isDigit first, noMinus, noPlus, all]

/-- What is printed is read back. -/
theorem scanU_printU (ctr : UInt32) : scanU (printU ctr) = some ctr := by
  have small : ctr.toNat < 2 ^ 32 := ctr.toNat_lt
  have digits : ∀ d ∈ printU ctr, d.isDigit = true := fun d mem =>
    Nat.isDigit_of_mem_toDigits (by decide) (by decide) mem
  have ne : printU ctr ≠ [] := Nat.toDigits_ne_nil
  rw [scanU_digits ne digits, strtoumax, printU, Nat.ofDigitChars_ten_toDigits]
  have fits : ¬ UInt64.size ≤ ctr.toNat := by
    rw [UInt64.size]
    omega
  rw [if_neg fits, if_neg (by decide), UInt32.ofNat_toNat]

/-- The login has the lock. -/
def Phase.holds : Phase → Bool
  | .locked | .compared _ | .truncated | .printed _ => true
  | _ => false

/-- The login has emptied the file and not yet written it. -/
def Phase.cleared : Phase → Bool
  | .truncated | .printed _ => true
  | _ => false

/-- What a login that holds the lock knows. -/
def Knows (n : UInt32) (file : CounterFile) (accepted : List UInt32) : Phase → Prop
  | .compared last => last < n ∧ ∀ m ∈ accepted, m ≤ last
  | .truncated => file = some [] ∧ ∀ m ∈ accepted, m < n
  | .printed buffer => buffer = printU n ∧ file = some [] ∧ ∀ m ∈ accepted, m < n
  | _ => True

theorem knows_of_not_holds {n : UInt32} {file : CounterFile} {accepted : List UInt32} {ph : Phase}
    (free : ph.holds = false) : Knows n file accepted ph := by
  cases ph <;> trivial

/-- The invariant: one login at most holds the lock, and unless it has emptied the file, the
file is not behind the accepted counters. -/
structure Inv (ctr : Login → UInt32) (c : Config Login) : Prop where
  increasing : c.accepted.Pairwise (· < ·)
  exclusive : ∀ p, (c.phase p).holds = true → c.holder = some p
  knows : ∀ p, Knows (ctr p) c.file c.accepted (c.phase p)
  upToDate : (∀ p, (c.phase p).cleared = false) → ∀ n ∈ c.accepted, n ≤ lastCtr c.file

variable {ctr : Login → UInt32} {c c' : Config Login} {p : Login}

omit [DecidableEq Login] in
theorem Inv.others_free (inv : Inv ctr c) (holds : (c.phase p).holds = true) :
    ∀ q, q ≠ p → (c.phase q).holds = false := by
  intro q ne
  by_contra held
  have both := (inv.exclusive q (by simpa using held)).symm.trans (inv.exclusive p holds)
  exact ne (Option.some.inj both)

omit [DecidableEq Login] in
theorem Inv.all_free (inv : Inv ctr c) (free : c.holder = none) (q : Login) :
    (c.phase q).holds = false := by
  by_contra held
  rw [inv.exclusive q (by simpa using held)] at free
  cases free

omit [DecidableEq Login] in
theorem Inv.replaySafe (inv : Inv ctr c) : ReplaySafe c where
  increasing := inv.increasing
  nextRead free := by
    refine inv.upToDate fun q => ?_
    have := inv.all_free free q
    cases ph : c.phase q <;> first | rfl | (rw [ph] at this; cases this)
  read q last compared := by
    have := inv.knows q
    rw [compared] at this
    exact this.2

/-- The rule for a move of the login that holds the lock, or takes it: nothing is known of the
other logins, so only `p`'s own knowledge and the file matter. -/
theorem Inv.moved {ph : Phase} (others : ∀ q, q ≠ p → (c.phase q).holds = false)
    (phase : c'.phase = Function.update c.phase p ph)
    (holder : ph.holds = true → c'.holder = some p)
    (knows : Knows (ctr p) c'.file c'.accepted ph)
    (increasing : c'.accepted.Pairwise (· < ·))
    (upToDate : ph.cleared = false → ∀ n ∈ c'.accepted, n ≤ lastCtr c'.file) : Inv ctr c' where
  increasing := increasing
  exclusive q held := by
    by_cases eq : q = p
    · subst eq
      rw [phase, Function.update_self] at held
      exact holder held
    · rw [phase, Function.update_of_ne eq, others q eq] at held
      cases held
  knows q := by
    by_cases eq : q = p
    · subst eq
      rw [phase, Function.update_self]
      exact knows
    · rw [phase, Function.update_of_ne eq]
      exact knows_of_not_holds (others q eq)
  upToDate none := by
    have := none p
    rw [phase, Function.update_self] at this
    exact upToDate this

/-- The steps of a login, by what they mean for the invariant. -/
inductive Move (ctr : Login → UInt32) (c : Config Login) (a : Login × Event) :
    Config Login → Prop
  | outside (ph : Phase) (file : CounterFile) (before : (c.phase a.1).holds = false)
      (after : ph.holds = false) (file_eq : file = c.file ∨ file = some (c.file.getD [])) :
      Move ctr c a ({ c with file := file }.goTo a.1 ph)
  | lock (free : c.holder = none) :
      Move ctr c a ({ c with holder := some a.1 }.goTo a.1 .locked)
  | compare (at' : c.phase a.1 = .locked) (larger : lastCtr c.file < ctr a.1) :
      Move ctr c a (c.goTo a.1 (.compared (lastCtr c.file)))
  | leave (ph : Phase) (before : (c.phase a.1).holds = true)
      (intact : (c.phase a.1).cleared = false) (after : ph.holds = false) :
      Move ctr c a (c.close a.1 ph)
  | truncate (last : UInt32) (at' : c.phase a.1 = .compared last) :
      Move ctr c a ({ c with file := some [] }.goTo a.1 .truncated)
  | print (at' : c.phase a.1 = .truncated) :
      Move ctr c a (c.goTo a.1 (.printed (printU (ctr a.1))))
  | abandon (ph : Phase) (text : List Char) (written : Nat) (file : CounterFile)
      (file_eq : file = append c.file (text.take written))
      (before : (c.phase a.1).cleared = true)
      (text_eq : c.phase a.1 = .printed text ∨ text = printU (ctr a.1))
      (after : ph.holds = false) (whole : WritesWhole ctr c a → text.length ≤ written) :
      Move ctr c a ({ c with file := file }.close a.1 ph)
  | accept (buffer : List Char) (written : Nat) (at' : c.phase a.1 = .printed buffer)
      (whole : WritesWhole ctr c a → buffer.length ≤ written) :
      Move ctr c a ({ c with
          file := append c.file (buffer.take written)
          accepted := c.accepted ++ [ctr a.1] }.close a.1 (.returned .authOk))

theorem append_nil (file : CounterFile) : append file [] = file := by
  cases file with
  | none => rfl
  | some text => exact congrArg some (List.append_nil text)

theorem move_of_step {a : Login × Event} (taken : step ctr c a = some c') : Move ctr c a c' := by
  obtain ⟨p, e⟩ := a
  cases at' : c.phase p with
  | decrypted =>
    have before : (c.phase p).holds = false := by rw [at']; rfl
    cases e with
    | fopen succeeds =>
      cases succeeds <;> simp only [step, at', Option.some.injEq] at taken <;> subst taken
      · exact .outside (.returned .authFailed) c.file before rfl (.inl rfl)
      · exact .outside .opened _ before rfl (.inr rfl)
    | stop _ =>
      simp only [step, at', Option.some.injEq] at taken
      subst taken
      exact .outside .stopped c.file before rfl (.inl rfl)
    | _ => simp [step, at'] at taken
  | opened =>
    have before : (c.phase p).holds = false := by rw [at']; rfl
    cases e with
    | flock succeeds =>
      cases succeeds <;> simp only [step, at', Option.some.injEq] at taken
      · subst taken
        exact .outside (.returned .authFailed) c.file before rfl (.inl rfl)
      · by_cases free : c.holder.isNone = true
        · rw [if_pos free, Option.some.injEq] at taken
          subst taken
          exact .lock (Option.isNone_iff_eq_none.1 free)
        · rw [if_neg free] at taken
          cases taken
    | stop _ =>
      simp only [step, at', Option.some.injEq] at taken
      subst taken
      exact .outside .stopped c.file before rfl (.inl rfl)
    | _ => simp [step, at'] at taken
  | locked =>
    have before : (c.phase p).holds = true := by rw [at']; rfl
    have intact : (c.phase p).cleared = false := by rw [at']; rfl
    cases e with
    | fscanf =>
      simp only [step, at'] at taken
      by_cases replay : ctr p ≤ lastCtr c.file
      · rw [if_pos replay, Option.some.injEq] at taken
        subst taken
        exact .leave _ before intact rfl
      · rw [if_neg replay, Option.some.injEq] at taken
        subst taken
        exact .compare at' (UInt32.not_le.1 replay)
    | stop _ =>
      simp only [step, at', Option.some.injEq] at taken
      subst taken
      exact .leave _ before intact rfl
    | _ => simp [step, at'] at taken
  | compared last =>
    have before : (c.phase p).holds = true := by rw [at']; rfl
    have intact : (c.phase p).cleared = false := by rw [at']; rfl
    cases e with
    | ftruncate succeeds =>
      cases succeeds <;> simp only [step, at', Option.some.injEq] at taken <;> subst taken
      · exact .leave _ before intact rfl
      · exact .truncate last at'
    | stop _ =>
      simp only [step, at', Option.some.injEq] at taken
      subst taken
      exact .leave _ before intact rfl
    | _ => simp [step, at'] at taken
  | truncated =>
    have before : (c.phase p).cleared = true := by rw [at']; rfl
    cases e with
    | fprintf =>
      simp only [step, at', Option.some.injEq] at taken
      subst taken
      exact .print at'
    | fprintfFails written =>
      simp only [step, at', Option.some.injEq] at taken
      subst taken
      refine .abandon _ _ written _ rfl before (.inr rfl) rfl fun whole => ?_
      simpa only [WritesWhole, at'] using whole
    | stop _ =>
      simp only [step, at', Option.some.injEq] at taken
      subst taken
      refine .abandon .stopped (printU (ctr p)) 0 c.file ?_ before (.inr rfl) rfl fun whole => ?_
      · rw [List.take_zero, append_nil]
      · simp only [WritesWhole, at'] at whole
    | _ => simp [step, at'] at taken
  | printed buffer =>
    have before : (c.phase p).cleared = true := by rw [at']; rfl
    cases e with
    | fclose written =>
      simp only [step, at', Option.some.injEq] at taken
      subst taken
      refine .accept buffer written at' fun whole => ?_
      simpa only [WritesWhole, at'] using whole
    | stop written =>
      simp only [step, at', Option.some.injEq] at taken
      subst taken
      refine .abandon _ buffer written _ rfl before (.inl at') rfl fun whole => ?_
      simpa only [WritesWhole, at'] using whole
    | _ => simp [step, at'] at taken
  | returned answer => cases e <;> simp [step, at'] at taken
  | stopped => cases e <;> simp [step, at'] at taken

/-- A file that was emptied and then written whole holds the counter. -/
theorem lastCtr_written {n : UInt32} {file : CounterFile} {written : Nat} (empty : file = some [])
    (whole : (printU n).length ≤ written) :
    lastCtr (append file ((printU n).take written)) = n := by
  subst empty
  rw [List.take_of_length_le whole]
  show (scanU ([] ++ printU n)).getD 0 = n
  rw [List.nil_append, scanU_printU]
  rfl

theorem Knows.created {n : UInt32} {file : CounterFile} {accepted : List UInt32} {ph : Phase}
    (knows : Knows n file accepted ph) : Knows n (some (file.getD [])) accepted ph := by
  cases ph with
  | truncated => exact ⟨by rw [knows.1]; rfl, knows.2⟩
  | printed buffer => exact ⟨knows.1, by rw [knows.2.1]; rfl, knows.2.2⟩
  | compared last => exact knows
  | _ => trivial

omit [DecidableEq Login] in
/-- What the login that has emptied the file knows. -/
theorem Inv.cleared (inv : Inv ctr c) (cleared : (c.phase p).cleared = true) :
    c.file = some [] ∧ ∀ n ∈ c.accepted, n < ctr p := by
  have knows := inv.knows p
  cases at' : c.phase p with
  | truncated =>
    rw [at'] at knows
    exact knows
  | printed buffer =>
    rw [at'] at knows
    exact knows.2
  | _ =>
    rw [at'] at cleared
    cases cleared

theorem cleared_of_not_holds {ph : Phase} (free : ph.holds = false) : ph.cleared = false := by
  cases ph <;> first | rfl | cases free

theorem holds_of_cleared {ph : Phase} (cleared : ph.cleared = true) : ph.holds = true := by
  cases ph <;> first | rfl | cases cleared

theorem Inv.intact (inv : Inv ctr c) (holds : (c.phase p).holds = true)
    (intact : (c.phase p).cleared = false) : ∀ n ∈ c.accepted, n ≤ lastCtr c.file := by
  refine inv.upToDate fun q => ?_
  by_cases eq : q = p
  · rw [eq]
    exact intact
  · by_contra cleared
    have held := holds_of_cleared (by simpa using cleared)
    rw [inv.others_free holds q eq] at held
    cases held

theorem pairwise_snoc {n : UInt32} {accepted : List UInt32} (increasing : accepted.Pairwise (· < ·))
    (larger : ∀ m ∈ accepted, m < n) : (accepted ++ [n]).Pairwise (· < ·) := by
  refine List.pairwise_append.2 ⟨increasing, List.pairwise_singleton _ _, fun m mem k eq => ?_⟩
  rw [List.mem_singleton.1 eq]
  exact larger m mem

/-- A login without the lock knows nothing, and at most creates the file. -/
theorem Inv.outside {ph : Phase} {file : CounterFile} (inv : Inv ctr c)
    (before : (c.phase p).holds = false) (after : ph.holds = false)
    (file_eq : file = c.file ∨ file = some (c.file.getD [])) :
    Inv ctr ({ c with file := file }.goTo p ph) := by
  have same : lastCtr file = lastCtr c.file := by
    rcases file_eq with rfl | rfl <;> rfl
  refine ⟨inv.increasing, fun q held => ?_, fun q => ?_, fun none n mem => ?_⟩
  · have held : (Function.update c.phase p ph q).holds = true := held
    by_cases eq : q = p
    · rw [eq, Function.update_self, after] at held
      cases held
    · rw [Function.update_of_ne eq] at held
      exact inv.exclusive q held
  · show Knows (ctr q) file c.accepted (Function.update c.phase p ph q)
    by_cases eq : q = p
    · rw [eq, Function.update_self]
      exact knows_of_not_holds after
    · rw [Function.update_of_ne eq]
      rcases file_eq with rfl | rfl
      · exact inv.knows q
      · exact (inv.knows q).created
  · show n ≤ lastCtr file
    rw [same]
    refine inv.upToDate (fun q => ?_) n mem
    have intact : (Function.update c.phase p ph q).cleared = false := none q
    by_cases eq : q = p
    · rw [eq]
      exact cleared_of_not_holds before
    · rwa [Function.update_of_ne eq] at intact

omit [DecidableEq Login] in
theorem inv_initial (ctr : Login → UInt32) (file : CounterFile) : Inv ctr (initial file) where
  increasing := List.Pairwise.nil
  exclusive _ held := by cases held
  knows _ := trivial
  upToDate _ _ mem := by cases mem

/-- A login keeps the invariant with every step that does not leave the file half written. -/
theorem Inv.step {a : Login × Event} (inv : Inv ctr c) (whole : WritesWhole ctr c a)
    (taken : YubikeyLogin.step ctr c a = some c') : Inv ctr c' := by
  obtain ⟨p, e⟩ := a
  cases move_of_step taken with
  | outside ph file before after file_eq => exact inv.outside before after file_eq
  | lock free =>
    exact .moved (fun q _ => inv.all_free free q) rfl (fun _ => rfl) trivial inv.increasing
      fun _ => inv.upToDate fun q => cleared_of_not_holds (inv.all_free free q)
  | compare at' larger =>
    have holds : (c.phase p).holds = true := by rw [at']; rfl
    have bound := inv.intact holds (by rw [at']; rfl)
    exact .moved (inv.others_free holds) rfl (fun _ => inv.exclusive p holds) ⟨larger, bound⟩
      inv.increasing fun _ => bound
  | leave ph before intact after =>
    refine .moved (inv.others_free before) rfl (fun held => ?_) (knows_of_not_holds after)
      inv.increasing fun _ => inv.intact before intact
    rw [after] at held
    cases held
  | truncate last at' =>
    have holds : (c.phase p).holds = true := by rw [at']; rfl
    have knows := inv.knows p
    rw [at'] at knows
    refine .moved (inv.others_free holds) rfl (fun _ => inv.exclusive p holds) ⟨rfl, ?_⟩
      inv.increasing fun intact => by cases intact
    exact fun n mem => UInt32.lt_of_le_of_lt (knows.2 n mem) knows.1
  | print at' =>
    have cleared : (c.phase p).cleared = true := by rw [at']; rfl
    have holds := holds_of_cleared cleared
    exact .moved (inv.others_free holds) rfl (fun _ => inv.exclusive p holds)
      ⟨rfl, inv.cleared cleared⟩ inv.increasing fun intact => by cases intact
  | abandon ph text written file file_eq before text_eq after wholeText =>
    obtain ⟨empty, bound⟩ := inv.cleared before
    have text : text = printU (ctr p) := by
      rcases text_eq with at' | eq
      · have knows := inv.knows p
        rw [at'] at knows
        exact knows.1
      · exact eq
    subst text file_eq
    refine .moved (inv.others_free (holds_of_cleared before)) rfl (fun held => ?_)
      (knows_of_not_holds after) inv.increasing fun _ n mem => ?_
    · rw [after] at held
      cases held
    · show n ≤ lastCtr (append c.file _)
      rw [lastCtr_written empty (wholeText whole)]
      exact UInt32.le_of_lt (bound n mem)
  | accept buffer written at' wholeText =>
    have cleared : (c.phase p).cleared = true := by rw [at']; rfl
    obtain ⟨empty, bound⟩ := inv.cleared cleared
    have knows := inv.knows p
    rw [at'] at knows
    obtain ⟨rfl, -⟩ := knows
    refine .moved (inv.others_free (holds_of_cleared cleared)) rfl (fun held => by cases held)
      trivial (pairwise_snoc inv.increasing bound) fun _ n mem => ?_
    show n ≤ lastCtr (append c.file _)
    rw [lastCtr_written empty (wholeText whole)]
    rcases List.mem_append.1 mem with old | new
    · exact UInt32.le_of_lt (bound n old)
    · rw [List.mem_singleton.1 new]
      exact UInt32.le_refl _

/-- **Replay safety**: in a run in which every login that empties the file writes its whole
counter before it leaves, the accepted counters increase, and whoever reads the file reads a
counter that is not behind them. -/
theorem counters_increase (ctr : Login → UInt32) (file : CounterFile)
    (run : List (Login × Event)) (c : Config Login)
    (whole : Along (step ctr) (WritesWhole ctr) (initial file) run)
    (reached : exec (step ctr) (initial file) run = some c) : ReplaySafe c :=
  (exec_invariant_along (fun _ _ _ inv ok taken => inv.step ok taken) (inv_initial ctr file)
    whole reached).replaySafe

/-- A login that works, and the next one, which finds its counter in the file. -/
def loginTwice : List (Bool × Event) :=
  [(true, .fopen true), (true, .flock true), (true, .fscanf), (true, .ftruncate true),
    (true, .fprintf), (true, .fclose 2), (false, .fopen true), (false, .flock true),
    (false, .fscanf)]

theorem counters_increase_login_twice :
    ∃ c, exec (step fun _ => 12) (initial (some ['7'])) loginTwice = some c ∧
      c.accepted = [12] ∧ c.file = some ['1', '2'] ∧ ReplaySafe c := by
  have whole : Along (step fun _ => 12) (WritesWhole fun _ => 12)
      (initial (some ['7'])) loginTwice := by
    iterate 5 refine (along_cons rfl).2 ⟨trivial, ?_⟩
    refine (along_cons rfl).2 ⟨Nat.le_refl 2, ?_⟩
    iterate 3 refine (along_cons rfl).2 ⟨trivial, ?_⟩
    trivial
  obtain ⟨c, reached, accepted, file⟩ : ∃ c,
      exec (step fun _ => 12) (initial (some ['7'])) loginTwice = some c ∧
        c.accepted = [12] ∧ c.file = some ['1', '2'] := ⟨_, rfl, rfl, rfl⟩
  exact ⟨c, reached, accepted, file, counters_increase _ _ _ c whole reached⟩

/-- The disk is full when the first login closes the file: it answers `AUTH_OK` all the same,
and a second login with the same token finds the file empty. -/
def diskFull : List (Bool × Event) :=
  [(true, .fopen true), (true, .flock true), (true, .fscanf), (true, .ftruncate true),
    (true, .fprintf), (true, .fclose 0), (false, .fopen true), (false, .flock true),
    (false, .fscanf), (false, .ftruncate true), (false, .fprintf), (false, .fclose 0)]

theorem replayed :
    ∃ c, exec (step fun _ => 12) (initial (some ['7'])) diskFull = some c ∧
      c.accepted = [12, 12] ∧ ¬ ReplaySafe c := by
  refine ⟨_, rfl, rfl, fun safe => ?_⟩
  have increasing := safe.increasing
  revert increasing
  decide

end SecurityAudits.OpenbsdLibexec.YubikeyLogin
