import SecurityAudits.Lib.Lines
import SecurityAudits.Lib.Writing
import Mathlib.Algebra.Order.Ring.Nat

/-!
# Informational responses over HTTP/1

`finalostream_send_informational` (`lib/http1.c`) counts the bytes of the status line and of the
header fields, allocates that many, and writes them. The reason phrase is copied without its CR and
LF bytes, and a field that has one of these in its name or value is left out, so that the application
cannot end a line.

The stores are checked. `informational_read` says that they are in the allocation, and what any
recipient of the text reads.
-/

namespace SecurityAudits.H2o.Http1Informational
set_option autoImplicit false
open SecurityAudits.Memory SecurityAudits.Lines SecurityAudits.Writing

/-! ## `lib/http1.c` -/

/-- `h2o_header_t` -/
structure Header where
  name : List UInt8
  /-- The name as it was spelled, of the same length as `name`. -/
  origName : Option (List UInt8)
  value : List UInt8
  origLength : ∀ orig ∈ origName, orig.length = name.length

/-- `req->res` -/
structure Response where
  status : Nat
  /-- The bytes before the NUL. -/
  reason : List UInt8
  headers : List Header

def bytes (text : String) : List UInt8 := text.toList.map fun c => UInt8.ofNat c.toNat

/-- What `%d` prints of a number that is not negative. -/
def decimal (n : Nat) : List UInt8 := (Nat.toDigits 10 n).map fun c => UInt8.ofNat c.toNat

/-- `contains_crlf` -/
def containsCrlf : List UInt8 → Bool
  | [] => false
  | s :: rest => if s = CR ∨ s = LF then true else containsCrlf rest

/-- `sanitized_reason_phrase_len` -/
def sanitizedReasonPhraseLen (reason : List UInt8) : Nat :=
  reason.foldl (fun len c => if c ≠ CR ∧ c ≠ LF then len + 1 else len) 0

/-- `emit_sanitized_reason_phrase` -/
def emitSanitizedReasonPhrase (reason : List UInt8) (dst : Cursor) : Option Cursor :=
  reason.foldlM (fun dst c => if c ≠ CR ∧ c ≠ LF then put c dst else some dst) dst

/-- The name that `flatten_res_headers` writes. -/
def Header.shownName (header : Header) : List UInt8 := header.origName.getD header.name

/-- An iteration of `flatten_res_headers` -/
def flattenHeader (dst : Cursor) (header : Header) : Option Cursor :=
  if containsCrlf header.shownName || containsCrlf header.value then some dst
  else do
    let dst ← memcpy header.shownName dst
    let dst ← put 58 dst
    let dst ← put 32 dst
    let dst ← memcpy header.value dst
    let dst ← put CR dst
    put LF dst

/-- `flatten_res_headers` -/
def flattenResHeaders (headers : List Header) (dst : Cursor) : Option Cursor :=
  headers.foldlM flattenHeader dst

/-- `buf.len`, a `size_t` -/
def informationalLen (res : Response) : Nat :=
  res.headers.foldl (fun len header => (len + header.name.length + header.value.length + 4) % 2 ^ 64)
    (((bytes "HTTP/1.1  \r\n\r\n").length + 1 + 3 + sanitizedReasonPhraseLen res.reason - 1) % 2 ^ 64)

/-- `finalostream_send_informational` up to the end of the text: the buffer, with the cursor behind
the text; none when a store is outside of the buffer. -/
def finalostreamSendInformational (res : Response) : Option Cursor := do
  let dst ← sprintf (bytes "HTTP/1.1 " ++ decimal res.status ++ [32])
    ⟨alloc (informationalLen res), 0⟩
  let dst ← emitSanitizedReasonPhrase res.reason dst
  let dst ← put CR dst
  let dst ← put LF dst
  let dst ← flattenResHeaders res.headers dst
  let dst ← put CR dst
  put LF dst

/-! ## What the application meant -/

instance (c : UInt8) : Decidable (c ≠ CR ∧ c ≠ LF) := inferInstanceAs (Decidable (_ ∧ _))

/-- The reason phrase without the bytes that end a line. -/
def sanitized (reason : List UInt8) : List UInt8 := reason.filter fun c => c ≠ CR ∧ c ≠ LF

def statusLine (res : Response) : List UInt8 :=
  bytes "HTTP/1.1 " ++ decimal res.status ++ [32] ++ sanitized res.reason

/-- Neither the name nor the value ends a line. -/
def Header.Whole (header : Header) : Prop := Clean header.shownName ∧ Clean header.value

instance (header : Header) : Decidable header.Whole := inferInstanceAs (Decidable (_ ∧ _))

def Header.field (header : Header) : List UInt8 := header.shownName ++ [58, 32] ++ header.value

def fields (headers : List Header) : List (List UInt8) :=
  (headers.filter fun header => header.Whole).map Header.field

/-- The size of the whole response, with every header field. -/
def size (res : Response) : Nat :=
  17 + (sanitized res.reason).length +
    (res.headers.map fun header => header.name.length + header.value.length + 4).sum

variable {c : UInt8} {header : Header} {headers : List Header} {reason : List UInt8} {res : Response}

theorem containsCrlf_iff {line : List UInt8} : containsCrlf line = true ↔ ¬ Clean line := by
  induction line with
  | nil => simp [containsCrlf, Clean]
  | cons s rest ih =>
    rw [containsCrlf, Clean, List.forall_mem_cons, not_and_or, ← Clean, ← ih, ← not_or, not_not]
    split <;> simp_all

theorem skipped_iff :
    (containsCrlf header.shownName || containsCrlf header.value) = true ↔ ¬ header.Whole := by
  rw [Bool.or_eq_true, containsCrlf_iff, containsCrlf_iff, Header.Whole, not_and_or]

theorem length_shownName (header : Header) : header.shownName.length = header.name.length := by
  unfold Header.shownName
  cases spelled : header.origName with
  | none => rfl
  | some orig => exact header.origLength orig spelled

theorem length_field (header : Header) :
    header.field.length = header.name.length + header.value.length + 2 := by
  simp only [Header.field, List.length_append, length_shownName, List.length_cons, List.length_nil]
  omega

theorem sanitized_cons_pos (plain : c ≠ CR ∧ c ≠ LF) :
    sanitized (c :: reason) = c :: sanitized reason :=
  List.filter_cons_of_pos (decide_eq_true plain)

theorem sanitized_cons_neg (ends : ¬ (c ≠ CR ∧ c ≠ LF)) : sanitized (c :: reason) = sanitized reason :=
  List.filter_cons_of_neg (by simpa using ends)

theorem fields_cons_pos (whole : header.Whole) :
    fields (header :: headers) = header.field :: fields headers := by
  rw [fields, List.filter_cons_of_pos (by simpa using whole)]
  rfl

theorem fields_cons_neg (cut : ¬ header.Whole) : fields (header :: headers) = fields headers := by
  rw [fields, List.filter_cons_of_neg (by simpa using cut)]
  rfl

/-! ## The lines -/

theorem clean_sanitized (reason : List UInt8) : Clean (sanitized reason) := by
  intro c mem
  exact of_decide_eq_true (List.mem_filter.1 mem).2

theorem clean_decimal (n : Nat) : Clean (decimal n) := by
  intro c mem
  obtain ⟨digit, listed, rfl⟩ := List.mem_map.1 mem
  have isDigit : digit.isDigit = true :=
    Nat.isDigit_of_mem_toDigits (by decide) (by decide) listed
  simp only [Char.isDigit, Bool.and_eq_true, decide_eq_true_eq] at isDigit
  have low : 48 ≤ digit.toNat := isDigit.1
  have high : digit.toNat ≤ 57 := isDigit.2
  have value : (UInt8.ofNat digit.toNat).toNat = digit.toNat :=
    UInt8.toNat_ofNat_of_lt' (by show _ < 256; omega)
  constructor
  · intro same
    rw [same] at value
    exact absurd (value.symm.trans rfl : digit.toNat = 13) (by omega)
  · intro same
    rw [same] at value
    exact absurd (value.symm.trans rfl : digit.toNat = 10) (by omega)

theorem clean_statusLine (res : Response) : Clean (statusLine res) := by
  refine clean_append.2 ⟨clean_append.2 ⟨clean_append.2 ⟨by decide, clean_decimal _⟩, by decide⟩, ?_⟩
  exact clean_sanitized res.reason

theorem statusLine_ne_nil (res : Response) : statusLine res ≠ [] := by
  simp [statusLine]

theorem mem_fields {field : List UInt8} (mem : field ∈ fields headers) :
    ∃ header ∈ headers, header.Whole ∧ header.field = field := by
  obtain ⟨header, kept, rfl⟩ := List.mem_map.1 mem
  obtain ⟨listed, whole⟩ := List.mem_filter.1 kept
  exact ⟨header, listed, of_decide_eq_true whole, rfl⟩

theorem clean_fields : ∀ field ∈ fields headers, Clean field := by
  intro field mem
  obtain ⟨header, -, ⟨name, value⟩, rfl⟩ := mem_fields mem
  exact clean_append.2 ⟨clean_append.2 ⟨name, by decide⟩, value⟩

theorem fields_ne_nil : ∀ field ∈ fields headers, field ≠ [] := by
  intro field mem
  obtain ⟨header, -, -, rfl⟩ := mem_fields mem
  simp [Header.field]

/-! ## The writes -/

theorem sanitizedReasonPhraseLen_eq (reason : List UInt8) :
    sanitizedReasonPhraseLen reason = (sanitized reason).length := by
  suffices ∀ len, reason.foldl (fun len c => if c ≠ CR ∧ c ≠ LF then len + 1 else len) len =
      len + (sanitized reason).length by
    rw [sanitizedReasonPhraseLen, this, Nat.zero_add]
  induction reason with
  | nil => exact fun _ => rfl
  | cons c reason ih =>
    intro len
    rw [List.foldl_cons, ih]
    by_cases plain : c ≠ CR ∧ c ≠ LF
    · rw [if_pos plain, sanitized_cons_pos plain, List.length_cons]
      omega
    · rw [if_neg plain, sanitized_cons_neg plain]

theorem writes_emitSanitizedReasonPhrase (reason : List UInt8) :
    Writes (emitSanitizedReasonPhrase reason) (sanitized reason) (sanitized reason).length := by
  have text : sanitized reason = reason.flatMap fun c => if c ≠ CR ∧ c ≠ LF then [c] else [] := by
    induction reason with
    | nil => rfl
    | cons c reason ih =>
      rw [List.flatMap_cons, ← ih]
      by_cases plain : c ≠ CR ∧ c ≠ LF
      · rw [if_pos plain, sanitized_cons_pos plain]
        rfl
      · rw [if_neg plain, sanitized_cons_neg plain]
        rfl
  rw [text]
  refine writes_foldlM (fun c => ?_) reason
  split
  · exact writes_put c
  · exact writes_some

/-- What is written of a header field. -/
def flattened (header : Header) : List UInt8 := if header.Whole then ended header.field else []

theorem writes_flattenHeader (header : Header) :
    Writes (fun dst => flattenHeader dst header) (flattened header) (flattened header).length := by
  unfold flattenHeader flattened
  split
  case isTrue skipped =>
    rw [if_neg (skipped_iff.1 skipped)]
    exact writes_some
  case isFalse kept =>
    rw [if_pos (not_not.1 fun cut => kept (skipped_iff.2 cut))]
    have value := (writes_memcpy header.value).bind
      ((writes_put CR).bind (writes_put LF) (by decide)) (Nat.le_add_right _ _)
    have separated := (writes_put 58).bind ((writes_put 32).bind value (Nat.le_add_right _ _))
      (Nat.le_add_right _ _)
    have whole := (writes_memcpy header.shownName).bind separated (Nat.le_add_right _ _)
    refine whole.widen ?_ ?_
    · simp [ended, Header.field]
    · simp only [length_ended, length_field, length_shownName, List.length_cons, List.length_nil]
      omega

theorem flatMap_flattened (headers : List Header) :
    headers.flatMap flattened = (fields headers).flatMap ended := by
  induction headers with
  | nil => rfl
  | cons header headers ih =>
    rw [List.flatMap_cons, ih, flattened]
    by_cases whole : header.Whole
    · rw [if_pos whole, fields_cons_pos whole, List.flatMap_cons]
    · rw [if_neg whole, fields_cons_neg whole, List.nil_append]

/-- The text of the response. -/
def text (res : Response) : List UInt8 := document (statusLine res :: fields res.headers)

theorem text_eq (res : Response) :
    text res = bytes "HTTP/1.1 " ++ decimal res.status ++ [32] ++ (sanitized res.reason ++
      (CR :: LF :: (res.headers.flatMap flattened ++ [CR, LF]))) := by
  simp [text, document, statusLine, flatMap_flattened, ended]

theorem writes_text (res : Response) :
    Writes (fun dst => (sprintf (bytes "HTTP/1.1 " ++ decimal res.status ++ [32]) dst).bind fun dst =>
      (emitSanitizedReasonPhrase res.reason dst).bind fun dst => (put CR dst).bind fun dst =>
      (put LF dst).bind fun dst => (flattenResHeaders res.headers dst).bind fun dst =>
      (put CR dst).bind (put LF)) (text res) (text res).length := by
  have ends := (writes_put CR).bind (writes_put LF) (by decide)
  have headers := (writes_foldlM writes_flattenHeader res.headers).bind ends (Nat.le_add_right _ _)
  have line := (writes_put CR).bind ((writes_put LF).bind headers (Nat.le_add_right _ _))
    (Nat.le_add_right _ _)
  have reason := (writes_emitSanitizedReasonPhrase res.reason).bind line (Nat.le_add_right _ _)
  have whole := (writes_sprintf (bytes "HTTP/1.1 " ++ decimal res.status ++ [32])).bind reason
    (by simp only [List.length_cons, List.length_nil]; omega)
  refine whole.widen ?_ ?_
  · rw [text_eq]
    simp
  · rw [text_eq]
    simp only [List.length_append, List.length_cons, List.length_nil]
    omega

/-! ## The allocation -/

theorem informationalLen_eq (memory : size res < 2 ^ 64) : informationalLen res = size res := by
  suffices ∀ (headers : List Header) (len : Nat),
      len + (headers.map fun header => header.name.length + header.value.length + 4).sum < 2 ^ 64 →
      headers.foldl (fun len header =>
        (len + header.name.length + header.value.length + 4) % 2 ^ 64) len =
      len + (headers.map fun header => header.name.length + header.value.length + 4).sum by
    have start : (bytes "HTTP/1.1  \r\n\r\n").length + 1 + 3 + sanitizedReasonPhraseLen res.reason - 1
        = 17 + (sanitized res.reason).length := by
      rw [sanitizedReasonPhraseLen_eq, show (bytes "HTTP/1.1  \r\n\r\n").length = 14 from rfl]
      omega
    have fits : 17 + (sanitized res.reason).length < 2 ^ 64 :=
      Nat.lt_of_le_of_lt (Nat.le_add_right _ _) memory
    rw [informationalLen, start, Nat.mod_eq_of_lt fits, this res.headers _ memory]
    rfl
  intro headers
  induction headers with
  | nil => exact fun _ _ => rfl
  | cons header headers ih =>
    intro len fits
    rw [List.map_cons, List.sum_cons] at fits ⊢
    rw [List.foldl_cons, Nat.mod_eq_of_lt (by omega), ih _ (by omega)]
    omega

theorem length_decimal (status : res.status ≤ 999) :
    (decimal res.status).length ≤ 3 ∧ (3 ≤ (decimal res.status).length ↔ 100 ≤ res.status) := by
  have three := Nat.length_toDigits_le_iff (n := res.status) (k := 3) (b := 10) (by decide) (by decide)
  have two := Nat.length_toDigits_le_iff (n := res.status) (k := 2) (b := 10) (by decide) (by decide)
  rw [decimal, List.length_map]
  constructor <;> omega

/-- The fields that are written take at most what is counted for all of them, and just that when none
is left out. -/
theorem length_flattened (headers : List Header) :
    (headers.flatMap flattened).length ≤
        (headers.map fun header => header.name.length + header.value.length + 4).sum ∧
      ((headers.map fun header => header.name.length + header.value.length + 4).sum ≤
        (headers.flatMap flattened).length ↔ ∀ header ∈ headers, header.Whole) := by
  induction headers with
  | nil => exact ⟨Nat.le_refl 0, fun _ => List.forall_mem_nil _, fun _ => Nat.le_refl 0⟩
  | cons header headers ih =>
    obtain ⟨short, exact_⟩ := ih
    rw [List.flatMap_cons, List.length_append, List.map_cons, List.sum_cons, List.forall_mem_cons,
      ← exact_, flattened]
    by_cases whole : header.Whole
    · rw [if_pos whole, length_ended, length_field, iff_of_true whole trivial]
      constructor
      · omega
      · simp only [true_and]
        omega
    · rw [if_neg whole, List.length_nil, iff_of_false whole (fun h => h)]
      constructor
      · omega
      · simp only [false_and, iff_false]
        omega

theorem length_text (status : res.status ≤ 999) :
    (text res).length ≤ size res ∧
      ((text res).length = size res ↔ 100 ≤ res.status ∧ ∀ header ∈ res.headers, header.Whole) := by
  obtain ⟨digits, three⟩ := length_decimal status
  obtain ⟨short, all⟩ := length_flattened res.headers
  rw [← three, ← all, text_eq, size]
  simp only [List.length_append, List.length_cons, List.length_nil,
    show (bytes "HTTP/1.1 ").length = 9 from rfl]
  constructor <;> omega

/-- **An informational response is what the application meant.** All stores are in the allocation, as
many bytes of which are used as are counted when the status has three digits and no field is left out.
Whatever follows the text, any recipient reads the status line, with the reason phrase less its CR and
LF bytes, and the fields that have none of these, in order, and then what follows. -/
theorem informational_read (res : Response) (status : res.status ≤ 999) (memory : size res < 2 ^ 64) :
    ∃ dst out, finalostreamSendInformational res = some dst ∧ dst.base.length = size res ∧
      dst.dst = out.length ∧ Holds dst.base out ∧
      (out.length = size res ↔ 100 ≤ res.status ∧ ∀ header ∈ res.headers, header.Whole) ∧
      ∀ (r : Recipient) rest,
        r.head out.length (out ++ rest) = some (statusLine res :: fields res.headers, rest) := by
  obtain ⟨short, exact_⟩ := length_text status
  obtain ⟨dst, done, behind⟩ := (writes_text res).run_alloc (n := informationalLen res)
    (by rw [informationalLen_eq memory]; exact short)
  refine ⟨dst, text res, done, behind.size.trans (informationalLen_eq memory), behind.dst,
    behind.holds, exact_, fun r rest => ?_⟩
  refine head_document r ?_ ?_ rest ?_
  · exact List.forall_mem_cons.2 ⟨clean_statusLine res, clean_fields⟩
  · exact List.forall_mem_cons.2 ⟨statusLine_ne_nil res, fields_ne_nil⟩
  · exact length_lt_document _

theorem informational_read_earlyHints :
    ∃ dst out, finalostreamSendInformational ⟨103, bytes "Early\r\nHints",
        [⟨bytes "link", some (bytes "Link"), bytes "</a.css>", by decide⟩,
          ⟨bytes "x", none, bytes "y\nz: 1", by decide⟩]⟩ = some dst ∧
      dst.base.length = 54 ∧ dst.dst = out.length ∧ Holds dst.base out ∧
      strict.head out.length (out ++ [1]) =
        some ([bytes "HTTP/1.1 103 EarlyHints", bytes "Link: </a.css>"], [1]) := by
  obtain ⟨dst, out, done, room, end_, holds, -, reads⟩ :=
    informational_read ⟨103, bytes "Early\r\nHints",
      [⟨bytes "link", some (bytes "Link"), bytes "</a.css>", by decide⟩,
        ⟨bytes "x", none, bytes "y\nz: 1", by decide⟩]⟩ (by decide) (by decide +kernel)
  refine ⟨dst, out, done, room.trans (by decide +kernel), end_, holds, ?_⟩
  rw [reads strict [1]]
  decide +kernel

end SecurityAudits.H2o.Http1Informational
