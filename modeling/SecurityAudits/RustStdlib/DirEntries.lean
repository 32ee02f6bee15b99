import SecurityAudits.Lib.Window
import SecurityAudits.RustStdlib.DirBuff

/-!
# The names that a directory iteration yields

A driver writes one entry behind the other, and the header of each says where the next one is. What
is in a buffer is then a chain of entries, up to one that has no next one or that does not fit its
place. `collect_entries` says that `DirBuffIter` yields the names of that chain and no others, and
`collect_written` that the chain of a buffer is what a driver has written there.
-/

namespace SecurityAudits.RustStdlib.DirBuff
set_option autoImplicit false
open SecurityAudits.Checked SecurityAudits.Window

/-! ## The chain -/

/-- The entry that the header at `start` describes. -/
def itemAt (l : Layout) (bytes : List UInt8) (start : Nat) : Item where
  entry := start
  entryLen := if field bytes start l.nextEntryOffset = 0 then bytes.length - start
    else field bytes start l.nextEntryOffset
  length := field bytes start l.fileNameLength
  name := (bytes.drop (start + l.fileName)).take (field bytes start l.fileNameLength)
  isDirectory := (field bytes start l.fileAttributes).testBit 4

/-- Where the entry behind the one at `start` is, if there is one. -/
def behind (l : Layout) (bytes : List UInt8) (start : Nat) : Option Nat :=
  if field bytes start l.nextEntryOffset = 0 then none
  else some (start + field bytes start l.nextEntryOffset)

/-- The entries of a slice. -/
inductive Entries (l : Layout) (bytes : List UInt8) : Option Nat → List Item → Prop where
  | ended : Entries l bytes none []
  /-- the numbers of the header do not fit the slice -/
  | refused {start : Nat} (refused : ¬ (itemAt l bytes start).Valid l bytes) :
    Entries l bytes (some start) []
  | entry {start : Nat} {items : List Item} (valid : (itemAt l bytes start).Valid l bytes)
    (later : Entries l bytes (behind l bytes start) items) :
    Entries l bytes (some start) (itemAt l bytes start :: items)

section Chain

variable {l : Layout} {skipped : List UInt8 → Bool} {bytes : List UInt8} {s : Option Nat}
  {start : Nat} {items : List Item}

theorem Entries.unique {items' : List Item} (entries : Entries l bytes s items)
    (entries' : Entries l bytes s items') : items' = items := by
  induction entries generalizing items' with
  | ended =>
    cases entries'
    rfl
  | refused refused =>
    cases entries' with
    | refused => rfl
    | entry valid => exact absurd valid refused
  | entry valid _ ih =>
    cases entries' with
    | refused refused => exact absurd valid refused
    | entry _ later => rw [ih later]

/-- A valid entry has its header, and lies in the slice. -/
theorem Item.Valid.place (valid : (itemAt l bytes start).Valid l bytes) :
    start + l.fileName + field bytes start l.fileNameLength ≤
        start + (itemAt l bytes start).entryLen ∧
      start + (itemAt l bytes start).entryLen ≤ bytes.length := by
  have inEntry : l.fileName + field bytes start l.fileNameLength ≤
    (itemAt l bytes start).entryLen := valid.inEntry
  exact ⟨by omega, valid.entry⟩

theorem behind_slice (valid : (itemAt l bytes start).Valid l bytes) :
    Slice bytes (behind l bytes start) := by
  have inside := valid.place.2
  unfold behind
  split
  · exact slice_none
  · rename_i more
    refine slice_some ?_
    rwa [itemAt, if_neg more] at inside

theorem behind_lt (valid : (itemAt l bytes start).Valid l bytes) :
    left bytes (behind l bytes start) < left bytes (some start) := by
  have place := valid.place
  have header := l.next_before
  refine left_lt (by omega) (behind_slice valid) ?_
  unfold behind
  split
  · exact fun _ same => by cases same
  · rename_i more
    rintro _ ⟨⟩
    omega

theorem exists_entries (slice : Slice bytes s) : ∃ items, Entries l bytes s items := by
  induction rank : left bytes s using Nat.strongRecOn generalizing s with
  | ind n ih =>
    cases s with
    | none => exact ⟨[], .ended⟩
    | some start =>
      by_cases valid : (itemAt l bytes start).Valid l bytes
      · obtain ⟨items, later⟩ := ih _ (rank ▸ behind_lt valid) (behind_slice valid) rfl
        exact ⟨_, .entry valid later⟩
      · exact ⟨[], .refused valid⟩

/-! ## An entry -/

theorem readField_eq {offset : Nat} (inside : start + offset + 4 ≤ bytes.length) :
    readField bytes start offset = .done (field bytes start offset) :=
  bind_eq_done.2 ⟨_, if_pos inside, rfl⟩

theorem advance_eq (slice : Slice bytes (behind l bytes start)) :
    advance bytes start (field bytes start l.nextEntryOffset) = .done (behind l bytes start) := by
  unfold behind at slice ⊢
  unfold advance
  split
  · rfl
  · rename_i more
    rw [if_neg more] at slice
    exact bind_eq_done.2 ⟨_, if_pos (slice _ rfl), rfl⟩

/-- The tests of `next` are whether the entry is valid. -/
theorem nextBody_valid (skipped : List UInt8 → Bool)
    (valid : (itemAt l bytes start).Valid l bytes) :
    nextBody l skipped bytes (some start) = .done
      (if skipped (itemAt l bytes start).name then .inl (behind l bytes start)
        else .inr (some (itemAt l bytes start), behind l bytes start)) := by
  have place := valid.place
  have even : field bytes start l.fileNameLength % 2 = 0 := valid.even
  have nextBefore := l.next_before
  have lengthBefore := l.length_before
  have attributesBefore := l.attributes_before
  have fits : ¬ ((itemAt l bytes start).entryLen > bytes.length - start ∨
      (itemAt l bytes start).entryLen < l.fileName ∨ field bytes start l.fileNameLength % 2 ≠ 0 ∨
      field bytes start l.fileNameLength > (itemAt l bytes start).entryLen - l.fileName) := by
    omega
  unfold nextBody
  dsimp only
  rw [if_neg (by omega)]
  refine bind_eq_done.2 ⟨_, readField_eq (by omega), ?_⟩
  refine bind_eq_done.2 ⟨_, readField_eq (by omega), ?_⟩
  refine (if_neg fits).trans ?_
  refine bind_eq_done.2 ⟨_, readField_eq (by omega), ?_⟩
  refine bind_eq_done.2 ⟨(itemAt l bytes start).name, if_pos (by omega), ?_⟩
  refine bind_eq_done.2 ⟨_, advance_eq (behind_slice valid), ?_⟩
  split
  · rfl
  · rfl

theorem nextBody_refused (inside : start ≤ bytes.length)
    (refused : ¬ (itemAt l bytes start).Valid l bytes) :
    nextBody l skipped bytes (some start) = .done (.inr (none, none)) := by
  have nextBefore := l.next_before
  have lengthBefore := l.length_before
  unfold nextBody
  dsimp only
  by_cases short : bytes.length - start < l.fileName
  · rw [if_pos short]
    rfl
  rw [if_neg short]
  refine bind_eq_done.2 ⟨_, readField_eq (by omega), ?_⟩
  refine bind_eq_done.2 ⟨_, readField_eq (by omega), ?_⟩
  refine if_pos ?_
  by_contra fits
  change ¬ ((itemAt l bytes start).entryLen > bytes.length - start ∨
    (itemAt l bytes start).entryLen < l.fileName ∨ (itemAt l bytes start).length % 2 ≠ 0 ∨
    (itemAt l bytes start).length > (itemAt l bytes start).entryLen - l.fileName) at fits
  have entry : start + (itemAt l bytes start).entryLen ≤ bytes.length := by omega
  exact refused ⟨rfl, rfl, entry, by omega, by omega, rfl⟩

/-! ## The iteration -/

/-- The items that are not passed over. -/
def shown (skipped : List UInt8 → Bool) (items : List Item) : List Item :=
  items.filter fun item => !skipped item.name

theorem shown_cons_skipped {item : Item} (skip : skipped item.name = true) (items : List Item) :
    shown skipped (item :: items) = shown skipped items :=
  List.filter_cons_of_neg (by simp [skip])

theorem shown_cons {item : Item} (keep : ¬ skipped item.name = true) (items : List Item) :
    shown skipped (item :: items) = item :: shown skipped items :=
  List.filter_cons_of_pos (by simpa using keep)

/-- What `next` returns of a slice from which the iteration yields these items. -/
inductive Yields (l : Layout) (skipped : List UInt8 → Bool) (bytes : List UInt8) :
    List Item → Option Item × Option Nat → Prop where
  | none {rest : Option Nat} : Yields l skipped bytes [] (none, rest)
  | some {item : Item} {items : List Item} {rest : Option Nat} (slice : Slice bytes rest)
    (entries : Entries l bytes rest items) :
    Yields l skipped bytes (item :: shown skipped items) (some item, rest)

theorem next_entries (skipped : List UInt8 → Bool) (slice : Slice bytes s)
    (entries : Entries l bytes s items) :
    ∃ r, next l skipped bytes s = .done r ∧ Yields l skipped bytes (shown skipped items) r := by
  suffices ends : ∃ r, Ends (nextBody l skipped bytes) s r ∧
      Yields l skipped bytes (shown skipped items) r by
    obtain ⟨r, ends, yields⟩ := ends
    exact ⟨r, ends.loop (next_safe slice), yields⟩
  induction entries with
  | ended => exact ⟨(none, none), .last rfl, .none⟩
  | refused refused => exact ⟨_, .last (nextBody_refused (slice _ rfl) refused), .none⟩
  | @entry start items valid later ih =>
    have body := nextBody_valid skipped valid
    by_cases skip : skipped (itemAt l bytes start).name = true
    · obtain ⟨r, ends, yields⟩ := ih (behind_slice valid)
      rw [if_pos skip] at body
      rw [shown_cons_skipped skip]
      exact ⟨r, .next body ends, yields⟩
    · rw [if_neg skip] at body
      rw [shown_cons skip]
      exact ⟨_, .last body, .some (behind_slice valid) later⟩

theorem collect_ends (skipped : List UInt8 → Bool) (seen : List Item) (slice : Slice bytes s)
    (entries : Entries l bytes s items) :
    Ends (collectBody l skipped bytes) (seen, s) (seen ++ shown skipped items) := by
  obtain ⟨r, run, yields⟩ := next_entries skipped slice entries
  induction names : shown skipped items generalizing s items seen r with
  | nil =>
    rw [names] at yields
    cases yields
    rw [List.append_nil]
    exact .last (bind_eq_done.2 ⟨_, run, rfl⟩)
  | cons item names' ih =>
    rw [names] at yields
    cases yields with
    | some slice entries =>
      obtain ⟨r, run', yields⟩ := next_entries skipped slice entries
      rw [List.append_cons]
      exact .next (bind_eq_done.2 ⟨_, run, rfl⟩) (ih _ slice entries r run' yields rfl)

theorem collect_of_entries (skipped : List UInt8 → Bool)
    (entries : Entries l bytes (some 0) items) :
    collect l skipped bytes = .done (shown skipped items) := by
  have slice : Slice bytes (some 0) := slice_some (Nat.zero_le _)
  have ends := collect_ends skipped [] slice entries
  rw [List.nil_append] at ends
  have enough := left_le slice
  exact ends.loop (safe_loop (Collected l bytes) (fun c => left bytes c.2)
    (fun c collected => collectBody_safe collected) collected_start enough)

/-- **The iteration yields what is there.** Whatever a driver has written, the entries of the buffer
are one chain. The iteration ends, and yields each of them in its order, apart from those whose
names are passed over. -/
theorem collect_entries (l : Layout) (skipped : List UInt8 → Bool) (bytes : List UInt8) :
    ∃ items, Entries l bytes (some 0) items ∧
      (∀ items', Entries l bytes (some 0) items' → items' = items) ∧
      collect l skipped bytes = .done (shown skipped items) := by
  obtain ⟨items, entries⟩ := exists_entries (slice_some (Nat.zero_le bytes.length))
  exact ⟨items, entries, fun items' entries' => entries.unique entries',
    collect_of_entries skipped entries⟩

end Chain

/-! ## What a driver writes -/

/-- The header of an entry, the name behind it, and what there is up to the next one. -/
structure Record where
  header : List UInt8
  name : List UInt8
  slack : List UInt8

namespace Record

def bytes (r : Record) : List UInt8 := r.header ++ (r.name ++ r.slack)

/-- A number in the header. -/
def number (r : Record) (offset : Nat) : Nat := decode ((r.header.drop offset).take 4)

def isDirectory (l : Layout) (r : Record) : Bool := (r.number l.fileAttributes).testBit 4

/-- The header is that of an entry of the name, and of one that begins `next` bytes later. -/
structure Fits (l : Layout) (next : Nat) (r : Record) : Prop where
  header : r.header.length = l.fileName
  next : r.number l.nextEntryOffset = next
  length : r.number l.fileNameLength = r.name.length
  even : r.name.length % 2 = 0

/-- The item of an entry. -/
def item (l : Layout) (r : Record) (start : Nat) : Item :=
  ⟨start, r.bytes.length, r.name.length, r.name, r.isDirectory l⟩

end Record

/-- Each entry says where the next one is, and the last one that there is none. -/
def Written (l : Layout) : List Record → Prop
  | [] => True
  | r :: records => r.Fits l (if records = [] then 0 else r.bytes.length) ∧ Written l records

/-- The items of entries that begin at `start`. -/
def itemsFrom (l : Layout) (start : Nat) : List Record → List Item
  | [] => []
  | r :: records => r.item l start :: itemsFrom l (start + r.bytes.length) records

variable {l : Layout} {r : Record} {records : List Record} {before more : List UInt8}
  {offset next : Nat}

theorem Record.length_bytes (r : Record) :
    r.bytes.length = r.header.length + r.name.length + r.slack.length := by
  simp only [Record.bytes, List.length_append]
  omega

theorem Record.Fits.length_pos (fits : r.Fits l next) : 0 < r.bytes.length := by
  have header := fits.header
  have before := l.next_before
  have length := r.length_bytes
  omega

theorem field_record (inside : offset + 4 ≤ r.header.length) :
    field (before ++ (r.bytes ++ more)) before.length offset = r.number offset := by
  have header : offset ≤ r.header.length := by omega
  have four : 4 ≤ (r.header.drop offset).length := by
    rw [List.length_drop]
    omega
  rw [field, List.drop_length_add_append, Record.bytes, List.append_assoc,
    List.drop_append_of_le_length header, List.take_append_of_le_length four, Record.number]

/-- The header is read back. -/
theorem itemAt_record (before : List UInt8) (fits : r.Fits l next)
    (extent : next = if more = [] then 0 else r.bytes.length) :
    itemAt l (before ++ (r.bytes ++ more)) before.length = r.item l before.length := by
  have isHeader := fits.header
  have isNext : field (before ++ (r.bytes ++ more)) before.length l.nextEntryOffset = next :=
    (field_record (isHeader ▸ l.next_before)).trans fits.next
  have isLength : field (before ++ (r.bytes ++ more)) before.length l.fileNameLength =
      r.name.length := (field_record (isHeader ▸ l.length_before)).trans fits.length
  have isAttributes : field (before ++ (r.bytes ++ more)) before.length l.fileAttributes =
      r.number l.fileAttributes := field_record (isHeader ▸ l.attributes_before)
  have isName : ((before ++ (r.bytes ++ more)).drop (before.length + l.fileName)).take
      r.name.length = r.name := by
    rw [List.drop_length_add_append, Record.bytes, List.append_assoc, ← isHeader, List.drop_left,
      List.append_assoc, List.take_left]
  have whole : (if next = 0 then (before ++ (r.bytes ++ more)).length - before.length else next) =
      r.bytes.length := by
    by_cases last : more = []
    · rw [extent, if_pos last, if_pos rfl, last, List.append_nil, List.length_append,
        Nat.add_sub_cancel_left]
    · rw [extent, if_neg last, if_neg (Nat.ne_of_gt fits.length_pos)]
  rw [itemAt, isNext, isLength, isName, whole, isAttributes]
  rfl

theorem behind_record (before : List UInt8) (fits : r.Fits l next)
    (extent : next = if more = [] then 0 else r.bytes.length) :
    behind l (before ++ (r.bytes ++ more)) before.length =
      if more = [] then none else some (before.length + r.bytes.length) := by
  have isNext : field (before ++ (r.bytes ++ more)) before.length l.nextEntryOffset = next :=
    (field_record (fits.header ▸ l.next_before)).trans fits.next
  rw [behind, isNext, extent]
  by_cases last : more = []
  · rw [if_pos last, if_pos last, if_pos rfl]
  · rw [if_neg last, if_neg last, if_neg (Nat.ne_of_gt fits.length_pos)]

/-- Behind an entry there are bytes exactly when there are entries. -/
theorem flatMap_eq_nil (written : Written l records) :
    records.flatMap Record.bytes = [] ↔ records = [] := by
  cases records with
  | nil => exact iff_of_true rfl rfl
  | cons r records =>
    have some := written.1.length_pos
    refine iff_of_false (fun none => ?_) (List.cons_ne_nil r records)
    rw [List.flatMap_cons, List.append_eq_nil_iff] at none
    rw [none.1] at some
    exact absurd some (Nat.lt_irrefl 0)

/-- The chain of a buffer is what is written there. -/
theorem entries_written (written : Written l records) (before : List UInt8) :
    Entries l (before ++ records.flatMap Record.bytes) (some before.length)
      (itemsFrom l before.length records) := by
  induction records generalizing before with
  | nil =>
    refine .refused fun valid => ?_
    have place := valid.place
    have header := l.next_before
    rw [List.flatMap_nil, List.append_nil] at place
    omega
  | cons r records ih =>
    obtain ⟨fits, later⟩ := written
    have extent := if_congr (flatMap_eq_nil later).symm (Eq.refl 0) (Eq.refl r.bytes.length)
    have isItem := itemAt_record before fits extent
    have isBehind := behind_record before fits extent
    have length := r.length_bytes
    have isHeader := fits.header
    rw [List.flatMap_cons, itemsFrom, ← isItem]
    refine .entry ⟨rfl, rfl, ?_, ?_, ?_, rfl⟩ ?_
    · rw [isItem, List.length_append, List.length_append]
      show before.length + r.bytes.length ≤ _
      omega
    · rw [isItem]
      show l.fileName + r.name.length ≤ r.bytes.length
      omega
    · rw [isItem]
      exact fits.even
    · rw [isBehind]
      cases records with
      | nil => exact .ended
      | cons r' records =>
        rw [if_neg fun none => List.cons_ne_nil r' records ((flatMap_eq_nil later).1 none)]
        have rest := ih later (before ++ r.bytes)
        rwa [List.append_assoc, List.length_append] at rest

/-- What a name says of an entry is what the record says. -/
theorem shown_itemsFrom (l : Layout) (skipped : List UInt8 → Bool) (start : Nat)
    (records : List Record) :
    (shown skipped (itemsFrom l start records)).map (fun item => (item.name, item.isDirectory)) =
      (records.filter fun r => !skipped r.name).map fun r => (r.name, r.isDirectory l) := by
  induction records generalizing start with
  | nil => rfl
  | cons r records ih =>
    rw [itemsFrom]
    by_cases skip : skipped r.name = true
    · have skipItem : skipped (r.item l start).name = true := skip
      rw [shown_cons_skipped skipItem, List.filter_cons_of_neg (by simp [skip])]
      exact ih _
    · have keepItem : ¬ skipped (r.item l start).name = true := skip
      rw [shown_cons keepItem, List.filter_cons_of_pos (by simpa using skip), List.map_cons,
        List.map_cons, ih]
      rfl

/-- **What is written is read back.** From the entries of a driver that puts one behind the other,
the iteration yields the names and whether they are directories, in the order of the entries. -/
theorem collect_written (skipped : List UInt8 → Bool) (written : Written l records) :
    ∃ items, collect l skipped (records.flatMap Record.bytes) = .done items ∧
      items.map (fun item => (item.name, item.isDirectory)) =
        (records.filter fun r => !skipped r.name).map fun r => (r.name, r.isDirectory l) :=
  ⟨_, collect_of_entries skipped (entries_written written []), shown_itemsFrom l skipped 0 records⟩

/-- `FILE_ID_BOTH_DIR_INFO` -/
def fileIdBothDirInfo : Layout := ⟨0, 60, 56, 104, by decide, by decide, by decide⟩

def header (next attributes length : Nat) : List UInt8 :=
  encode 4 next ++ (List.replicate 52 0 ++
    (encode 4 attributes ++ (encode 4 length ++ List.replicate 40 0)))

/-- A directory with one file in it: `.`, which is a directory, and `a`. -/
def dotAndFile : List Record :=
  [⟨header 112 16 2, [46, 0], List.replicate 6 0⟩, ⟨header 0 32 2, [97, 0], []⟩]

theorem collect_written_dotAndFile :
    ∃ items,
      collect fileIdBothDirInfo (· == [46, 0]) (dotAndFile.flatMap Record.bytes) = .done items ∧
      items.map (fun item => (item.name, item.isDirectory)) = [([97, 0], false)] := by
  have written : Written fileIdBothDirInfo dotAndFile :=
    ⟨⟨rfl, rfl, rfl, rfl⟩, ⟨rfl, rfl, rfl, rfl⟩, trivial⟩
  exact collect_written _ written

end SecurityAudits.RustStdlib.DirBuff
