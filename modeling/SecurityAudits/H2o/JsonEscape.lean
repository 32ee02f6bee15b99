import SecurityAudits.Lib.JsonString
import SecurityAudits.Lib.Memory

/-!
# Header fields in a JSON document

`append_json_escaped` (`lib/http2/http2_debug_state.c`) writes the bytes of a header name or value as
the inside of a JSON string. A byte is written as it is, behind a backslash, or as an escape with four
hexadecimal digits; the buffer has room for the last of these for every byte.

The stores are checked, so that a result says that all of them are inside the buffer.
`jsonEscaped` is the text, and `appendJsonEscaped_spec` what a JSON reader makes of it.
-/

namespace SecurityAudits.H2o.JsonEscape
set_option autoImplicit false
open SecurityAudits.Memory SecurityAudits.JsonString

/-- `h2o_iovec_t` -/
structure Iovec where
  base : Buffer UInt8
  len : Nat

/-- A character constant of the source. -/
def chr (c : Char) : UInt8 := UInt8.ofNat c.toNat

/-- `hex[n]` -/
def hex (n : UInt8) : UInt8 := chr ("0123456789abcdef".toList.getD n.toNat '0')

/-- What is stored for a byte, in the order of the stores. -/
def escapeByte (s : UInt8) : List UInt8 :=
  if chr ' ' ≤ s ∧ s < 0x7f then
    if s = chr '"' ∨ s = chr '\\' then [chr '\\', s] else [s]
  else [chr '\\', chr 'u', chr '0', chr '0', hex ((s >>> 4) &&& 0xf), hex (s &&& 0xf)]

/-- `*dst++ = c`, where `dst` is at the given position. -/
def put (d : Buffer UInt8 × Nat) (c : UInt8) : Option (Buffer UInt8 × Nat) :=
  (store d.1 d.2 c).map fun base => (base, d.2 + 1)

/-- `append_json_escaped`; none when a store is outside the buffer. -/
def appendJsonEscaped (chunks : List Iovec) (src : List UInt8) : Option (List Iovec) :=
  (src.foldlM (fun d s => (escapeByte s).foldlM put d) (alloc (src.length * 6 + 1), 0)).bind
    fun dst => (store dst.1 dst.2 0).map fun base => chunks ++ [⟨base, dst.2⟩]

/-- The text that is written. -/
def jsonEscaped (src : List UInt8) : List UInt8 := src.flatMap escapeByte

/-- Bytes below 0x80 as the characters of a text. -/
def text (bytes : List UInt8) : List Char := bytes.map fun c => Char.ofNat c.toNat

/-! ## The text -/

variable {s : UInt8} {rest : List Char}

theorem text_append (xs ys : List UInt8) : text (xs ++ ys) = text xs ++ text ys := List.map_append

/-- A byte that is written to the document. -/
def Printable (x : UInt8) : Prop := chr ' ' ≤ x ∧ x < 0x7f

instance (x : UInt8) : Decidable (Printable x) := inferInstanceAs (Decidable (_ ∧ _))

/-- The three ways to write a byte: as it is, behind a backslash, or as the code of four digits, which
are no quotes or backslashes. -/
inductive Written (s : UInt8) : List UInt8 → Prop where
  | plain (printable : Printable s) (isPlain : Plain (Char.ofNat s.toNat))
      (same : (Char.ofNat s.toNat).toNat = s.toNat) : Written s [s]
  | quoted (special : s = chr '"' ∨ s = chr '\\') : Written s [chr '\\', s]
  | coded (a b c d : UInt8)
      (code : hex4 (Char.ofNat a.toNat) (Char.ofNat b.toNat) (Char.ofNat c.toNat)
        (Char.ofNat d.toNat) = some s.toNat)
      (digits : ∀ x ∈ [a, b, c, d], Printable x ∧ Plain (Char.ofNat x.toNat)) :
      Written s [chr '\\', chr 'u', a, b, c, d]

theorem plain_byte : ∀ n : Fin 256, Printable (UInt8.ofFin n) →
    ¬ (UInt8.ofFin n = chr '"' ∨ UInt8.ofFin n = chr '\\') →
    Plain (Char.ofNat n.val) ∧ (Char.ofNat n.val).toNat = n.val := by
  decide +kernel

theorem coded_byte : ∀ n : Fin 256,
    hex4 '0' '0' (Char.ofNat (hex ((UInt8.ofFin n >>> 4) &&& 0xf)).toNat)
      (Char.ofNat (hex (UInt8.ofFin n &&& 0xf)).toNat) = some n.val := by
  decide +kernel

/-- The characters of the code stand for themselves. -/
theorem code_digit : ∀ n : Fin 256,
    (Printable (hex ((UInt8.ofFin n >>> 4) &&& 0xf)) ∧
      Plain (Char.ofNat (hex ((UInt8.ofFin n >>> 4) &&& 0xf)).toNat)) ∧
    Printable (hex (UInt8.ofFin n &&& 0xf)) ∧
      Plain (Char.ofNat (hex (UInt8.ofFin n &&& 0xf)).toNat) := by
  decide +kernel

theorem code_zero : Printable (chr '0') ∧ Plain (Char.ofNat (chr '0').toNat) := by decide

theorem written (s : UInt8) : Written s (escapeByte s) := by
  unfold escapeByte
  split
  · rename_i printable
    split
    · rename_i special
      exact .quoted special
    · rename_i ordinary
      obtain ⟨isPlain, same⟩ := plain_byte s.toFin printable ordinary
      exact .plain printable isPlain same
  · obtain ⟨high, low⟩ := code_digit s.toFin
    have digits : ∀ x ∈ [chr '0', chr '0', hex ((s >>> 4) &&& 0xf), hex (s &&& 0xf)],
        Printable x ∧ Plain (Char.ofNat x.toNat) := by
      intro x member
      simp only [List.mem_cons, List.not_mem_nil, or_false] at member
      rcases member with rfl | rfl | rfl | rfl
      · exact code_zero
      · exact code_zero
      · exact high
      · exact low
    exact .coded _ _ _ _ (coded_byte s.toFin) digits

variable {w : List UInt8}

theorem length_written (written : Written s w) : w.length ≤ 6 := by
  cases written with
  | plain => exact (by decide : 1 ≤ 6)
  | quoted => exact (by decide : 2 ≤ 6)
  | coded => exact Nat.le_refl 6

theorem printable_written (written : Written s w) : ∀ x ∈ w, Printable x := by
  cases written with
  | plain printable =>
    intro x member
    rw [List.mem_singleton.1 member]
    exact printable
  | quoted special =>
    intro x member
    simp only [List.mem_cons, List.not_mem_nil, or_false] at member
    rcases member with rfl | rfl
    · decide
    · rcases special with rfl | rfl <;> decide
  | coded a b c d code digits =>
    intro x member
    rcases List.mem_cons.1 member with rfl | member
    · decide
    rcases List.mem_cons.1 member with rfl | member
    · decide
    exact (digits x member).1

/-- A reader takes what is written for the byte. -/
theorem units_written (written : Written s w) :
    units (text w ++ rest) = (units rest).map (s.toNat :: ·) := by
  cases written with
  | plain printable isPlain same =>
    have read : units (Char.ofNat s.toNat :: rest) = _ := units_plain isPlain
    rw [same] at read
    exact read
  | quoted special => rcases special with rfl | rfl <;> exact units_simple (by decide) (by decide)
  | coded a b c d code digits => exact units_hex code

/-- What is written for the byte outside of an escape stands for itself. -/
theorem unescaped_written (written : Written s w) {c : Char}
    (member : c ∈ unescaped (text w ++ rest)) : Plain c ∨ c ∈ unescaped rest := by
  cases written with
  | plain printable isPlain same =>
    have shown : unescaped (Char.ofNat s.toNat :: rest) = _ := unescaped_plain isPlain
    rw [text, List.map_singleton, List.singleton_append, shown] at member
    rcases List.mem_cons.1 member with rfl | later
    · exact .inl isPlain
    · exact .inr later
  | quoted special => exact .inr member
  | coded a b d e code digits =>
    have plain : ∀ x ∈ [a, b, d, e], Plain (Char.ofNat x.toNat) := fun x inside =>
      (digits x inside).2
    have shown : unescaped (text [chr '\\', chr 'u', a, b, d, e] ++ rest) =
        text [a, b, d, e] ++ unescaped rest := by
      show unescaped ('\\' :: 'u' :: Char.ofNat a.toNat :: Char.ofNat b.toNat ::
        Char.ofNat d.toNat :: Char.ofNat e.toNat :: rest) = _
      rw [unescaped_escape, unescaped_plain (plain a (by simp)), unescaped_plain (plain b (by simp)),
        unescaped_plain (plain d (by simp)), unescaped_plain (plain e (by simp))]
      rfl
    rw [shown] at member
    rcases List.mem_append.1 member with digit | later
    · obtain ⟨x, inside, rfl⟩ := List.mem_map.1 digit
      exact .inl (plain x inside)
    · exact .inr later

theorem jsonEscaped_cons (s : UInt8) (src : List UInt8) :
    jsonEscaped (s :: src) = escapeByte s ++ jsonEscaped src := List.flatMap_cons

theorem length_jsonEscaped (src : List UInt8) : (jsonEscaped src).length ≤ 6 * src.length := by
  induction src with
  | nil => exact Nat.le_refl 0
  | cons s src ih =>
    have here := length_written (written s)
    rw [jsonEscaped_cons, List.length_append, List.length_cons]
    omega

theorem printable_jsonEscaped (src : List UInt8) : ∀ x ∈ jsonEscaped src, Printable x := by
  intro x member
  obtain ⟨s, -, inWord⟩ := List.mem_flatMap.1 member
  exact printable_written (written s) x inWord

theorem unescaped_jsonEscaped (src : List UInt8) :
    ∀ c ∈ unescaped (text (jsonEscaped src)), Plain c := by
  induction src with
  | nil =>
    intro c member
    cases member
  | cons s src ih =>
    intro c member
    rw [jsonEscaped_cons, text_append] at member
    exact (unescaped_written (written s) member).elim id (ih c)

/-- The text is read back as the bytes. -/
theorem decode_jsonEscaped (src : List UInt8) :
    decode (text (jsonEscaped src)) = some (src.map UInt8.toNat) := by
  have read : units (text (jsonEscaped src)) = some (src.map UInt8.toNat) := by
    induction src with
    | nil => rfl
    | cons s src ih =>
      rw [jsonEscaped_cons, text_append, units_written (written s), ih]
      rfl
  rw [decode, read, Option.bind_some]
  refine codePoints_eq fun n member => ?_
  obtain ⟨s, -, rfl⟩ := List.mem_map.1 member
  exact Nat.lt_of_lt_of_le s.toNat_lt (by decide)

/-! ## The buffer -/

variable {b : Buffer UInt8} {xs : List UInt8}

/-- Stores one behind the other. -/
theorem put_spec (holds : Holds b xs) (ys : List UInt8) (room : xs.length + ys.length ≤ b.length) :
    ∃ b', ys.foldlM put (b, xs.length) = some (b', (xs ++ ys).length) ∧ b'.length = b.length ∧
      Holds b' (xs ++ ys) := by
  induction ys generalizing b xs with
  | nil => exact ⟨b, by rw [List.append_nil]; rfl, rfl, by rw [List.append_nil]; exact holds⟩
  | cons y ys ih =>
    rw [List.length_cons] at room
    obtain ⟨one, stored, size, held⟩ := holds.store y (by omega)
    obtain ⟨b', rest, size', held'⟩ := ih held
      (by rw [size, List.length_append, List.length_singleton]; omega)
    rw [List.append_assoc, List.singleton_append] at rest held'
    refine ⟨b', ?_, size'.trans size, held'⟩
    rw [List.foldlM_cons, put, stored]
    rw [List.length_append, List.length_singleton] at rest
    exact rest

/-- The loop over the bytes. -/
theorem loop_spec (holds : Holds b xs) (src : List UInt8)
    (room : xs.length + (jsonEscaped src).length ≤ b.length) :
    ∃ b', src.foldlM (fun d s => (escapeByte s).foldlM put d) (b, xs.length) =
        some (b', (xs ++ jsonEscaped src).length) ∧ b'.length = b.length ∧
      Holds b' (xs ++ jsonEscaped src) := by
  induction src generalizing b xs with
  | nil =>
    have same : xs ++ jsonEscaped [] = xs := List.append_nil xs
    exact ⟨b, by rw [same]; rfl, rfl, by rw [same]; exact holds⟩
  | cons s src ih =>
    rw [jsonEscaped_cons, List.length_append] at room
    obtain ⟨one, stored, size, held⟩ := put_spec holds (escapeByte s) (by omega)
    obtain ⟨b', rest, size', held'⟩ := ih held (by rw [size, List.length_append]; omega)
    rw [List.append_assoc, ← jsonEscaped_cons] at rest held'
    refine ⟨b', ?_, size'.trans size, held'⟩
    rw [List.foldlM_cons, stored]
    exact rest

/-- **A header field is read back from the document.** For every field all stores are inside the
buffer, at most six for each byte of it besides the terminator. What is written is printable, what of
it is not part of an escape is no quote and no backslash, and a JSON reader decodes it to the bytes of
the field. -/
theorem appendJsonEscaped_spec (chunks : List Iovec) (src : List UInt8) :
    ∃ v out, appendJsonEscaped chunks src = some (chunks ++ [v]) ∧
      v.base.length = src.length * 6 + 1 ∧ v.len = out.length ∧ Holds v.base (out ++ [0]) ∧
      out.length ≤ 6 * src.length ∧ (∀ x ∈ out, Printable x) ∧
      (∀ c ∈ unescaped (text out), Plain c) ∧ decode (text out) = some (src.map UInt8.toNat) := by
  have short := length_jsonEscaped src
  obtain ⟨dst, looped, size, held⟩ :=
    @loop_spec (alloc (src.length * 6 + 1)) [] holds_nil src
      (by rw [length_alloc, List.length_nil]; omega)
  rw [List.nil_append] at looped held
  rw [length_alloc] at size
  obtain ⟨base, stored, sizeLast, heldLast⟩ := held.store 0 (by omega)
  refine ⟨⟨base, (jsonEscaped src).length⟩, jsonEscaped src, ?_, sizeLast.trans size, rfl, heldLast,
    short, printable_jsonEscaped src, unescaped_jsonEscaped src, decode_jsonEscaped src⟩
  rw [appendJsonEscaped]
  rw [List.length_nil] at looped
  rw [looped, Option.bind_some, stored]
  rfl

end SecurityAudits.H2o.JsonEscape
