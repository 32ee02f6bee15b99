import SecurityAudits.Lib.Framing

/-!
# The DHCP option loop of vmd

`dhcp_request` of `usr.sbin/vmd/dhcp.c` walks over the options of a request that a guest sent. The
loop is transcribed with pointers as offsets from `opts`. It has no result where the source would
read outside `[opts, opts + optslen)`, or compare a length with a negative difference of pointers,
so that it has one says that it does neither.

The options of a buffer are stated by `Item`, without the loop: a buffer is the bytes of some items
and a rest that no item begins (`Stops`). The loop visits exactly the options among these items
(`optionLoop_visits`), and no longer list of items is at the front of the buffer.
-/

namespace SecurityAudits.OpenbsdBin.DhcpOptions
set_option autoImplicit false

/-- The constants of `dhcp.h`. -/
structure Constants where
  /-- `DHCP_OPTIONS_COOKIE_LEN` -/
  cookieLen : Nat
  /-- `DHO_PAD` -/
  pad : UInt8
  /-- `DHO_END` -/
  stop : UInt8
  distinct : pad ≠ stop

/-- What the rest of the loop body looks at: the option at `op`, with all its data. -/
structure Visit where
  op : Nat
  code : UInt8
  data : List UInt8
  deriving DecidableEq, Repr

/-- `opts[start .. start + count)`, when it is inside the buffer. -/
def slice (opts : List UInt8) (start count : Nat) : Option (List UInt8) :=
  if start + count ≤ opts.length then some ((opts.drop start).take count) else none

/-- `oe - op - 2`, when it is not negative. -/
def room (oe op : Nat) : Option Nat := if op + 2 ≤ oe then some (oe - op - 2) else none

/-- The loop from `op` on, for at most `fuel` evaluations of its condition. -/
def optionLoop (k : Constants) (opts : List UInt8) : Nat → Nat → Option (List Visit)
  | 0, _ => none
  | fuel + 1, op =>
    if op < opts.length then do
      let code ← opts[op]?
      if code = k.stop then return []
      else if code = k.pad then optionLoop k opts fuel (op + 1)
      else if op + 1 ≥ opts.length then return []
      else do
        let len ← opts[op + 1]?
        let left ← room opts.length op
        if len.toNat > left then return []
        else do
          let data ← slice opts (op + 2) len.toNat
          let later ← optionLoop k opts fuel (op + (2 + len.toNat))
          return ⟨op, code, data⟩ :: later
    else return []

/-- What a buffer of options consists of. -/
inductive Item (k : Constants) where
  | pad
  | option (code : UInt8) (data : List UInt8) (notPad : code ≠ k.pad) (notStop : code ≠ k.stop)
      (short : data.length < 256)

namespace Item

variable {k : Constants}

def bytes : Item k → List UInt8
  | .pad => [k.pad]
  | .option code data _ _ _ => code :: UInt8.ofNat data.length :: data

end Item

/-- The options among the items, where the first item is at `op`. -/
def visits {k : Constants} : Nat → List (Item k) → List Visit
  | _, [] => []
  | op, .pad :: items => visits (op + 1) items
  | op, .option code data _ _ _ :: items =>
    ⟨op, code, data⟩ :: visits (op + (2 + data.length)) items

/-- No item begins here: the end of the buffer, the end option, or a truncated option. -/
def Stops (k : Constants) (rest : List UInt8) : Prop :=
  rest = [] ∨ ∃ code tail, rest = code :: tail ∧ (code = k.stop ∨ code ≠ k.pad ∧
    (tail = [] ∨ ∃ len data, tail = len :: data ∧ data.length < len.toNat))

variable {k : Constants} {opts rest rest' : List UInt8} {items items' : List (Item k)}
variable {fuel op : Nat}

/-- Items can be told from what follows them. -/
theorem reads_item : Framing.Reads (Item.bytes (k := k)) id := by
  rintro (_ | ⟨code, data, notPad, notStop, short⟩) (_ | ⟨code', data', notPad', _, short'⟩)
    rest rest' same
  · exact ⟨rfl, (List.cons.inj same).2⟩
  · exact absurd (List.cons.inj same).1.symm notPad'
  · exact absurd (List.cons.inj same).1 notPad
  · obtain ⟨codes, behindCode⟩ := List.cons.inj same
    obtain ⟨lengths, behindLength⟩ := List.cons.inj behindCode
    have length : data.length = data'.length := by
      have := congrArg UInt8.toNat lengths
      rwa [UInt8.toNat_ofNat_of_lt' short, UInt8.toNat_ofNat_of_lt' short'] at this
    obtain ⟨datas, rests⟩ := List.append_inj behindLength length
    subst codes datas
    exact ⟨rfl, rests⟩

theorem not_stops_item (i : Item k) (tail : List UInt8) : ¬ Stops k (i.bytes ++ tail) := by
  rintro (nil | ⟨code, data, split, ends⟩)
  · cases i <;> cases nil
  · cases i with
    | pad =>
      obtain ⟨rfl, rfl⟩ := List.cons.inj split
      rcases ends with stop | ⟨notPad, -⟩
      · exact k.distinct stop
      · exact notPad rfl
    | option code' data' notPad notStop short =>
      obtain ⟨rfl, rfl⟩ := List.cons.inj split
      rcases ends with stop | ⟨-, nil | ⟨len, data, split, long⟩⟩
      · exact notStop stop
      · cases nil
      · obtain ⟨lens, datas⟩ := List.cons.inj split
        have more : data'.length + tail.length = data.length :=
          List.length_append.symm.trans (congrArg List.length datas)
        rw [← lens, UInt8.toNat_ofNat_of_lt' short] at long
        omega

/-- Behind items that are followed by no item, no list of items goes further. -/
theorem items_longest (same : items'.flatMap Item.bytes ++ rest' = items.flatMap Item.bytes ++ rest)
    (stops : Stops k rest) : items' <+: items := by
  induction items' generalizing items with
  | nil => exact List.nil_prefix
  | cons i' items' ih =>
    rw [List.flatMap_cons, List.append_assoc] at same
    cases items with
    | nil =>
      have front : i'.bytes ++ _ = rest := same
      exact absurd (front ▸ stops) (not_stops_item i' _)
    | cons i items =>
      rw [List.flatMap_cons, List.append_assoc] at same
      obtain ⟨item, same⟩ := reads_item i' i _ _ same
      exact List.cons_prefix_cons.2 ⟨item, ih same⟩

section Iteration

variable {code len : UInt8} {data later : List UInt8}

theorem optionLoop_end (outside : opts.drop op = []) :
    optionLoop k opts (fuel + 1) op = some [] := by
  rw [optionLoop, if_neg (Nat.not_lt.2 (List.drop_eq_nil_iff.1 outside))]
  rfl

theorem optionLoop_cons (front : opts.drop op = code :: later) :
    op < opts.length ∧ opts[op]? = some code ∧ opts.drop (op + 1) = later := by
  have inside : op < opts.length := by
    by_contra outside
    rw [List.drop_eq_nil_of_le (Nat.le_of_not_lt outside)] at front
    cases front
  rw [List.drop_eq_getElem_cons inside] at front
  obtain ⟨rfl, rfl⟩ := List.cons.inj front
  exact ⟨inside, List.getElem?_eq_getElem inside, rfl⟩

theorem optionLoop_stop (front : opts.drop op = k.stop :: later) :
    optionLoop k opts (fuel + 1) op = some [] := by
  obtain ⟨inside, read, -⟩ := optionLoop_cons front
  rw [optionLoop, if_pos inside, read]
  exact if_pos rfl

theorem optionLoop_pad (front : opts.drop op = k.pad :: later) :
    optionLoop k opts (fuel + 1) op = optionLoop k opts fuel (op + 1) := by
  obtain ⟨inside, read, -⟩ := optionLoop_cons front
  rw [optionLoop, if_pos inside, read]
  exact (if_neg k.distinct).trans (if_pos rfl)

theorem optionLoop_code (front : opts.drop op = [code]) (notPad : code ≠ k.pad)
    (notStop : code ≠ k.stop) : optionLoop k opts (fuel + 1) op = some [] := by
  obtain ⟨inside, read, last⟩ := optionLoop_cons front
  rw [optionLoop, if_pos inside, read]
  show (if code = k.stop then _ else if code = k.pad then _ else _) = _
  rw [if_neg notStop, if_neg notPad, if_pos (List.drop_eq_nil_iff.1 last)]
  rfl

/-- Where the length byte is there, the difference that the length is compared with is what is left
behind it. -/
theorem optionLoop_length (fuel : Nat) (front : opts.drop op = code :: len :: later)
    (notPad : code ≠ k.pad) (notStop : code ≠ k.stop) :
    optionLoop k opts (fuel + 1) op =
      if len.toNat > later.length then some []
      else (optionLoop k opts fuel (op + (2 + len.toNat))).map
        (⟨op, code, later.take len.toNat⟩ :: ·) := by
  obtain ⟨inside, read, behind⟩ := optionLoop_cons front
  obtain ⟨inside', read', behind'⟩ := optionLoop_cons behind
  have left : opts.length = op + 2 + later.length := by
    have := congrArg List.length behind'
    rw [List.length_drop] at this
    omega
  have room : room opts.length op = some later.length := by
    rw [room, if_pos (by omega), left]
    congr 1
    omega
  rw [optionLoop, if_pos inside, read]
  show (if code = k.stop then _ else if code = k.pad then _ else _) = _
  rw [if_neg notStop, if_neg notPad, if_neg (by omega), read', room]
  show (if len.toNat > later.length then _ else _) = _
  by_cases long : len.toNat > later.length
  · rw [if_pos long, if_pos long]
    rfl
  · have data : slice opts (op + 2) len.toNat = some (later.take len.toNat) := by
      rw [slice, if_pos (by omega), ← behind']
    rw [if_neg long, if_neg long, data]
    cases optionLoop k opts fuel (op + (2 + len.toNat)) <;> rfl

end Iteration

/-- What the loop does from `op` on: it visits the options among the items that the buffer has
from there. -/
def Walks (k : Constants) (opts : List UInt8) (fuel op : Nat) : Prop :=
  ∃ (items : List (Item k)) (rest : List UInt8), optionLoop k opts fuel op = some (visits op items) ∧
    opts.drop op = items.flatMap Item.bytes ++ rest ∧ Stops k rest

/-- An iteration that leaves the loop. -/
theorem walks_nil (leaves : optionLoop k opts fuel op = some []) (stops : Stops k (opts.drop op)) :
    Walks k opts fuel op :=
  ⟨[], opts.drop op, leaves, rfl, stops⟩

/-- One iteration: it leaves the loop, or goes on behind a pad byte or an option. -/
theorem walks_iteration (ran : ∀ op' > op, op' ≤ opts.length → Walks k opts fuel op') :
    Walks k opts (fuel + 1) op := by
  rcases front : opts.drop op with _ | ⟨code, tail⟩
  · exact walks_nil (optionLoop_end front) (.inl front)
  have inside := (optionLoop_cons front).1
  by_cases stop : code = k.stop
  · subst stop
    exact walks_nil (optionLoop_stop front) (.inr ⟨_, _, front, .inl rfl⟩)
  by_cases pad : code = k.pad
  · subst pad
    obtain ⟨items, rest, visited, split, stops⟩ := ran (op + 1) (Nat.lt_succ_self op) inside
    refine ⟨.pad :: items, rest, (optionLoop_pad front).trans visited, ?_, stops⟩
    rw [front, ← (optionLoop_cons front).2.2, split]
    rfl
  cases tail with
  | nil =>
    exact walks_nil (optionLoop_code front pad stop) (.inr ⟨_, _, front, .inr ⟨pad, .inl rfl⟩⟩)
  | cons len tail =>
    have iteration := optionLoop_length fuel front pad stop
    by_cases long : len.toNat > tail.length
    · rw [if_pos long] at iteration
      exact walks_nil iteration (.inr ⟨_, _, front, .inr ⟨pad, .inr ⟨_, _, rfl, long⟩⟩⟩)
    · rw [if_neg long] at iteration
      have behind : opts.drop (op + (2 + len.toNat)) = tail.drop len.toNat := by
        rw [← Nat.add_assoc, ← List.drop_drop, ← List.drop_drop, front]
        rfl
      have length : (tail.take len.toNat).length = len.toNat :=
        List.length_take_of_le (Nat.le_of_not_lt long)
      have fits : op + (2 + len.toNat) ≤ opts.length := by
        have := congrArg List.length front
        rw [List.length_drop, List.length_cons, List.length_cons] at this
        omega
      obtain ⟨items, rest, visited, split, stops⟩ := ran _ (by omega) fits
      have short : (tail.take len.toNat).length < 256 := by
        rw [length]
        exact len.toNat_lt
      refine ⟨.option code (tail.take len.toNat) pad stop short :: items, rest, ?_, ?_, stops⟩
      · rw [iteration, visited, visits, length]
        rfl
      · have bytes : len :: tail.take len.toNat ++ tail.drop len.toNat = len :: tail :=
          congrArg _ (List.take_append_drop len.toNat tail)
        rw [front, ← bytes, ← behind, split]
        rw [List.flatMap_cons, Item.bytes, length, UInt8.ofNat_toNat]
        simp only [List.cons_append, List.append_assoc]

/-- The loop from `op` on, with an iteration for each byte that is left and one for the end. -/
theorem optionLoop_walks (some : 0 < fuel) (enough : opts.length < op + fuel) :
    Walks k opts fuel op := by
  induction fuel generalizing op with
  | zero => exact absurd some (Nat.lt_irrefl 0)
  | succ fuel ih => exact walks_iteration fun op' gt le => ih (by omega) (by omega)

/-- **The option loop.** For every buffer the loop ends without having read outside the buffer or
compared with a negative difference. It has visited, with all their data, exactly the options of the
longest list of items at the front of what is behind the cookie. -/
theorem optionLoop_visits (k : Constants) (opts : List UInt8) (extra : Nat) :
    ∃ (items : List (Item k)) (rest : List UInt8),
      optionLoop k opts (opts.length + 1 + extra) k.cookieLen = some (visits k.cookieLen items) ∧
      opts.drop k.cookieLen = items.flatMap Item.bytes ++ rest ∧ Stops k rest ∧
      ∀ items' : List (Item k), items'.flatMap Item.bytes <+: opts.drop k.cookieLen →
        items' <+: items := by
  have walks : Walks k opts (opts.length + 1 + extra) k.cookieLen :=
    optionLoop_walks (by omega) (by omega)
  obtain ⟨items, rest, visited, split, stops⟩ := walks
  refine ⟨items, rest, visited, split, stops, fun items' sub => ?_⟩
  obtain ⟨rest', same⟩ := sub
  exact items_longest (same.trans split) stops

/-- The constants of the protocol. -/
def dhcp : Constants := ⟨4, 0, 255, by decide⟩

/-- The cookie, a message type, a pad, a host name that is cut off. -/
def cutHostName : List UInt8 := [0x63, 0x82, 0x53, 0x63, 53, 1, 3, 0, 12, 4, 97, 98]

theorem optionLoop_visits_cutHostName :
    optionLoop dhcp cutHostName 13 4 = some [⟨4, 53, [3]⟩] ∧
      ∃ items : List (Item dhcp), visits 4 items = [⟨4, 53, [3]⟩] ∧
        ∃ rest, cutHostName.drop 4 = items.flatMap Item.bytes ++ rest ∧ Stops dhcp rest := by
  have visited : optionLoop dhcp cutHostName 13 4 = some [⟨4, 53, [3]⟩] := by decide
  obtain ⟨items, rest, run, split, stops, -⟩ := optionLoop_visits dhcp cutHostName 0
  exact ⟨visited, items, Option.some.inj (run.symm.trans visited), rest, split, stops⟩

end SecurityAudits.OpenbsdBin.DhcpOptions
