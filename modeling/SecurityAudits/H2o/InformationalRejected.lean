import SecurityAudits.H2o.Http1Informational

/-!
# Informational responses that are not sent

Another version of `finalostream_send_informational` changes nothing in a response. It returns before
it has sent anything when the reason phrase, or the name or value of a header field, has a CR or LF in
it, and writes all of the others as they are.

The name that it checks is `name`, and the one that is written is `orig_name`, where there is one.
`rejected_agrees` says when the two versions come to the same.
-/

namespace SecurityAudits.H2o.InformationalRejected
set_option autoImplicit false
open SecurityAudits.Memory SecurityAudits.Lines SecurityAudits.Writing
open SecurityAudits.H2o.Http1Informational

/-- An iteration of the `flatten_res_headers` of this version -/
def flattenHeader (dst : Cursor) (header : Header) : Option Cursor := do
  let dst ← memcpy header.shownName dst
  let dst ← put 58 dst
  let dst ← put 32 dst
  let dst ← memcpy header.value dst
  let dst ← put CR dst
  put LF dst

/-- An iteration that counts a header field; none for the `return`. -/
def countHeader (len : Nat) (header : Header) : Option Nat :=
  if containsCrlf header.name || containsCrlf header.value then none
  else some ((len + header.name.length + header.value.length + 4) % 2 ^ 64)

/-- `buf.len`, where the function comes to the allocation -/
def bufLen (res : Response) : Option Nat :=
  if containsCrlf res.reason then none
  else res.headers.foldlM countHeader
    (((bytes "HTTP/1.1  \r\n\r\n").length + 1 + 3 + res.reason.length - 1) % 2 ^ 64)

/-- `finalostream_send_informational` up to the end of the text: none when nothing is sent, and else the
buffer, which is none when a store is outside of it. -/
def finalostreamSendInformational (res : Response) : Option (Option Cursor) :=
  (bufLen res).map fun len => do
    let dst ← sprintf (bytes "HTTP/1.1 " ++ decimal res.status ++ [32] ++ res.reason ++ [CR, LF])
      ⟨alloc len, 0⟩
    let dst ← res.headers.foldlM flattenHeader dst
    let dst ← put CR dst
    put LF dst

/-! ## What is checked -/

/-- Nothing that is checked ends a line. -/
def Accepted (res : Response) : Prop :=
  Clean res.reason ∧ ∀ header ∈ res.headers, Clean header.name ∧ Clean header.value

variable {header : Header} {headers : List Header} {reason : List UInt8} {res : Response}

theorem countHeader_cases (len : Nat) (header : Header) :
    (¬ (Clean header.name ∧ Clean header.value) ∧ countHeader len header = none) ∨
      ((Clean header.name ∧ Clean header.value) ∧ countHeader len header =
        some ((len + header.name.length + header.value.length + 4) % 2 ^ 64)) := by
  have checked : (containsCrlf header.name || containsCrlf header.value) = true ↔
      ¬ (Clean header.name ∧ Clean header.value) := by
    rw [Bool.or_eq_true, containsCrlf_iff, containsCrlf_iff, not_and_or]
  unfold countHeader
  by_cases clean : Clean header.name ∧ Clean header.value
  · exact .inr ⟨clean, if_neg fun found => checked.1 found clean⟩
  · exact .inl ⟨clean, if_pos (checked.2 clean)⟩

theorem countHeaders_eq_none (len : Nat) (headers : List Header) :
    headers.foldlM countHeader len = none ↔
      ¬ ∀ header ∈ headers, Clean header.name ∧ Clean header.value := by
  induction headers generalizing len with
  | nil => exact iff_of_false (fun same => by cases same) (not_not_intro (List.forall_mem_nil _))
  | cons header headers ih =>
    rw [List.foldlM_cons, List.forall_mem_cons]
    rcases countHeader_cases len header with ⟨dirty, run⟩ | ⟨clean, run⟩
    · rw [run]
      exact iff_of_true rfl fun all => dirty all.1
    · rw [run]
      exact (ih _).trans (not_congr ⟨fun all => ⟨clean, all⟩, And.right⟩)

theorem bufLen_eq_none : bufLen res = none ↔ ¬ Accepted res := by
  unfold bufLen Accepted
  by_cases clean : Clean res.reason
  · rw [if_neg fun found => containsCrlf_iff.1 found clean, countHeaders_eq_none]
    exact not_congr ⟨fun all => ⟨clean, all⟩, And.right⟩
  · rw [if_pos (containsCrlf_iff.2 clean)]
    exact iff_of_true rfl fun all => clean all.1

theorem sanitized_of_clean (clean : Clean reason) : sanitized reason = reason :=
  List.filter_eq_self.2 fun c mem => decide_eq_true (clean c mem)

/-- What is counted is the size of the response. -/
theorem bufLen_eq (accepted : Accepted res) (memory : size res < 2 ^ 64) :
    bufLen res = some (size res) := by
  obtain ⟨clean, checked⟩ := accepted
  have counts : ∀ (headers : List Header) (len : Nat),
      (∀ header ∈ headers, Clean header.name ∧ Clean header.value) →
      len + (headers.map fun header => header.name.length + header.value.length + 4).sum < 2 ^ 64 →
      headers.foldlM countHeader len =
        some (len + (headers.map fun header => header.name.length + header.value.length + 4).sum) := by
    intro headers
    induction headers with
    | nil => exact fun _ _ _ => rfl
    | cons header headers ih =>
      intro len all fits
      obtain ⟨first, later⟩ := List.forall_mem_cons.1 all
      rw [List.map_cons, List.sum_cons] at fits ⊢
      obtain ⟨-, run⟩ := (countHeader_cases len header).resolve_left fun dirty => dirty.1 first
      rw [List.foldlM_cons, run]
      refine (ih _ later ?_).trans (congrArg some ?_)
      · rw [Nat.mod_eq_of_lt (by omega)]
        omega
      · rw [Nat.mod_eq_of_lt (by omega)]
        omega
  unfold size at memory ⊢
  rw [sanitized_of_clean clean] at memory ⊢
  have start : (bytes "HTTP/1.1  \r\n\r\n").length + 1 + 3 + res.reason.length - 1 =
      17 + res.reason.length := by
    rw [show (bytes "HTTP/1.1  \r\n\r\n").length = 14 from rfl]
    omega
  rw [bufLen, if_neg fun found => containsCrlf_iff.1 found clean, start,
    Nat.mod_eq_of_lt (Nat.lt_of_le_of_lt (Nat.le_add_right _ _) memory)]
  exact counts _ _ checked memory

/-! ## What is written -/

theorem flattenHeader_eq (whole : header.Whole) (dst : Cursor) :
    Http1Informational.flattenHeader dst header = flattenHeader dst header :=
  if_neg fun skipped => skipped_iff.1 skipped whole

theorem flattenHeaders_eq (whole : ∀ header ∈ headers, header.Whole) (dst : Cursor) :
    headers.foldlM flattenHeader dst = flattenResHeaders headers dst := by
  induction headers generalizing dst with
  | nil => rfl
  | cons header headers ih =>
    obtain ⟨first, later⟩ := List.forall_mem_cons.1 whole
    rw [flattenResHeaders, List.foldlM_cons, List.foldlM_cons, flattenHeader_eq first]
    exact congrArg (_ >>= ·) (funext fun dst => ih later dst)

theorem fields_of_whole (whole : ∀ header ∈ headers, header.Whole) :
    fields headers = headers.map Header.field := by
  rw [fields, List.filter_eq_self.2 fun header listed => decide_eq_true (whole header listed)]

theorem writes_text (clean : Clean res.reason) (whole : ∀ header ∈ res.headers, header.Whole) :
    Writes (fun dst => (sprintf (bytes "HTTP/1.1 " ++ decimal res.status ++ [32] ++ res.reason ++
      [CR, LF]) dst).bind fun dst => (res.headers.foldlM flattenHeader dst).bind fun dst =>
      (put CR dst).bind (put LF)) (text res) (text res).length := by
  have ends := (writes_put CR).bind (writes_put LF) (by decide)
  have fields := (writes_foldlM writes_flattenHeader res.headers).bind ends (Nat.le_add_right _ _)
  have same : (fun dst => (res.headers.foldlM flattenHeader dst).bind fun dst =>
      (put CR dst).bind (put LF)) = fun dst => (flattenResHeaders res.headers dst).bind fun dst =>
      (put CR dst).bind (put LF) :=
    funext fun dst => by rw [flattenHeaders_eq whole]
  rw [same]
  have all := (writes_sprintf (bytes "HTTP/1.1 " ++ decimal res.status ++ [32] ++ res.reason ++
    [CR, LF])).bind fields (by simp only [List.length_cons, List.length_nil]; omega)
  refine all.widen ?_ ?_
  · rw [text_eq, sanitized_of_clean clean]
    simp
  · rw [text_eq, sanitized_of_clean clean]
    simp only [List.length_append, List.length_cons, List.length_nil]
    omega

/-- **Sent as it is, or not at all.** Nothing is sent exactly when something that is checked ends a line.
Else, as long as the names that are written end none either, the two versions leave one text in buffers
of one size, from which any recipient reads the reason phrase and all header fields as the application
gave them. -/
theorem rejected_agrees (res : Response) (status : res.status ≤ 999) (memory : size res < 2 ^ 64) :
    (finalostreamSendInformational res = none ↔ ¬ Accepted res) ∧
      (Accepted res → (∀ header ∈ res.headers, Clean header.shownName) → ∃ dst dst' out,
        finalostreamSendInformational res = some (some dst) ∧
        Http1Informational.finalostreamSendInformational res = some dst' ∧
        Behind (size res) out dst ∧ Behind (size res) out dst' ∧
        ∀ (r : Recipient) rest, r.head out.length (out ++ rest) =
          some ((bytes "HTTP/1.1 " ++ decimal res.status ++ [32] ++ res.reason) ::
            res.headers.map Header.field, rest)) := by
  constructor
  · rw [finalostreamSendInformational, Option.map_eq_none_iff, bufLen_eq_none]
  intro accepted shown
  have whole : ∀ header ∈ res.headers, header.Whole := fun header listed =>
    ⟨shown header listed, (accepted.2 header listed).2⟩
  have line : statusLine res = bytes "HTTP/1.1 " ++ decimal res.status ++ [32] ++ res.reason := by
    rw [statusLine, sanitized_of_clean accepted.1]
  obtain ⟨short, -⟩ := length_text status
  obtain ⟨dst, done, behind⟩ := (writes_text accepted.1 whole).run_alloc short
  obtain ⟨dst', done', behind'⟩ :=
    (Http1Informational.writes_text res).run_alloc (n := informationalLen res)
      (by rw [informationalLen_eq memory]; exact short)
  rw [informationalLen_eq memory] at behind'
  refine ⟨dst, dst', text res, ?_, done', behind, behind', fun r rest => ?_⟩
  · rw [finalostreamSendInformational, bufLen_eq accepted memory]
    exact congrArg some done
  · rw [← line, ← fields_of_whole whole]
    refine head_document r ?_ ?_ rest (length_lt_document _)
    · exact List.forall_mem_cons.2 ⟨clean_statusLine res, clean_fields⟩
    · exact List.forall_mem_cons.2 ⟨statusLine_ne_nil res, fields_ne_nil⟩

def earlyHints : Response :=
  ⟨103, bytes "Early Hints", [⟨bytes "link", some (bytes "Link"), bytes "</a.css>", by decide⟩]⟩

theorem rejected_agrees_earlyHints :
    ∃ dst dst' out, finalostreamSendInformational earlyHints = some (some dst) ∧
      Http1Informational.finalostreamSendInformational earlyHints = some dst' ∧
      Behind 44 out dst ∧ Behind 44 out dst' := by
  have accepted : Accepted earlyHints := ⟨by decide +kernel, by decide +kernel⟩
  have shown : ∀ header ∈ earlyHints.headers, Clean header.shownName := by decide +kernel
  obtain ⟨dst, dst', out, done, done', behind, behind', -⟩ :=
    (rejected_agrees earlyHints (by decide) (by decide +kernel)).2 accepted shown
  have bytes : size earlyHints = 44 := by decide +kernel
  rw [bytes] at behind behind'
  exact ⟨dst, dst', out, done, done', behind, behind'⟩

end SecurityAudits.H2o.InformationalRejected
