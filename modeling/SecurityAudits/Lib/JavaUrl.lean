import Mathlib.Data.List.Lex
import Mathlib.Order.Fin.Basic

/-!
# Java strings and the URL codec

A Java string is a list of UTF-16 units, compared unit by unit. `urlEncode` and `urlDecode`
are `URLEncoder.encode` and `URLDecoder.decode` with UTF-8. A unit of a surrogate pair that
stands alone has no UTF-8 form, so a round trip needs a well-formed string; then
`urlDecode_percentEncoded` gives the string back, also with each `+` rewritten as `%20`.
-/

namespace SecurityAudits.JavaUrl
set_option autoImplicit false

abbrev JavaChar := Fin 65536

/-- A Java string; the order of lists is that of `compareTo`. -/
abbrev JavaString := List JavaChar

/-- The UTF-16 form of a character. -/
def utf16Char (c : Char) : JavaString :=
  if c.toNat < 0x10000 then [Fin.ofNat 65536 c.toNat]
  else [Fin.ofNat 65536 (0xD800 + (c.toNat - 0x10000) / 0x400),
    Fin.ofNat 65536 (0xDC00 + (c.toNat - 0x10000) % 0x400)]

def utf16 (text : List Char) : JavaString := text.flatMap utf16Char

def java (s : String) : JavaString := utf16 s.toList

def isHigh (u : JavaChar) : Bool := 0xD800 ≤ u.val && u.val < 0xDC00

def isLow (u : JavaChar) : Bool := 0xDC00 ≤ u.val && u.val < 0xE000

/-- The character of a unit that is not half of a pair, if it is one. -/
def single (u : JavaChar) : Option Char :=
  if isHigh u || isLow u then none else some (Char.ofNat u.val)

def paired (u v : JavaChar) : Char :=
  Char.ofNat (0x10000 + (u.val - 0xD800) * 0x400 + (v.val - 0xDC00))

/-- The characters of a string, `none` for a surrogate that is not paired. -/
def codePoints : JavaString → List (Option Char)
  | [] => []
  | [u] => [single u]
  | u :: v :: rest =>
    if isHigh u && isLow v then some (paired u v) :: codePoints rest
    else single u :: codePoints (v :: rest)

/-- Every surrogate is paired. -/
def WellFormed (s : JavaString) : Prop := none ∉ codePoints s

instance (s : JavaString) : Decidable (WellFormed s) :=
  inferInstanceAs (Decidable (none ∉ codePoints s))

/-! ## UTF-16 -/

variable {c : Char} {u v : JavaChar} {s rest : JavaString} {text : List Char}

theorem char_range (c : Char) :
    c.toNat < 0xD800 ∨ 0xDFFF < c.toNat ∧ c.toNat < 0x110000 := c.valid

theorem toNat_ofNat {n : Nat} (valid : n.isValidChar) : (Char.ofNat n).toNat = n := by
  rw [Char.ofNat, dif_pos valid]
  rfl

theorem single_ofNat (c : Char) (small : c.toNat < 0x10000) :
    single (Fin.ofNat 65536 c.toNat) = some c ∧ isHigh (Fin.ofNat 65536 c.toNat) = false := by
  have value : (Fin.ofNat 65536 c.toNat).val = c.toNat := Nat.mod_eq_of_lt small
  have range := char_range c
  have high : isHigh (Fin.ofNat 65536 c.toNat) = false := by
    simp only [isHigh, value, Bool.and_eq_false_imp, decide_eq_true_eq, decide_eq_false_iff_not]
    omega
  have low : isLow (Fin.ofNat 65536 c.toNat) = false := by
    simp only [isLow, value, Bool.and_eq_false_imp, decide_eq_true_eq, decide_eq_false_iff_not]
    omega
  rw [single, high, low, value, Char.ofNat_toNat]
  exact ⟨rfl, rfl⟩

theorem paired_ofNat (c : Char) (large : ¬ c.toNat < 0x10000) :
    let high := Fin.ofNat 65536 (0xD800 + (c.toNat - 0x10000) / 0x400)
    let low := Fin.ofNat 65536 (0xDC00 + (c.toNat - 0x10000) % 0x400)
    (isHigh high && isLow low) = true ∧ paired high low = c := by
  have range := char_range c
  have high : (Fin.ofNat 65536 (0xD800 + (c.toNat - 0x10000) / 0x400)).val =
      0xD800 + (c.toNat - 0x10000) / 0x400 := Nat.mod_eq_of_lt (by omega)
  have low : (Fin.ofNat 65536 (0xDC00 + (c.toNat - 0x10000) % 0x400)).val =
      0xDC00 + (c.toNat - 0x10000) % 0x400 := Nat.mod_eq_of_lt (by omega)
  dsimp only
  constructor
  · simp only [isHigh, isLow, high, low, Bool.and_eq_true, decide_eq_true_eq]
    omega
  · have value : 0x10000 + (0xD800 + (c.toNat - 0x10000) / 0x400 - 0xD800) * 0x400 +
        (0xDC00 + (c.toNat - 0x10000) % 0x400 - 0xDC00) = c.toNat := by omega
    rw [paired, high, low, value, Char.ofNat_toNat]

theorem codePoints_utf16Char_append (c : Char) (rest : JavaString) :
    codePoints (utf16Char c ++ rest) = some c :: codePoints rest := by
  unfold utf16Char
  split_ifs with small
  · obtain ⟨found, high⟩ := single_ofNat c small
    cases rest with
    | nil => exact congrArg (fun point => [point]) found
    | cons v rest => rw [List.singleton_append, codePoints, high, found]; rfl
  · obtain ⟨pair, found⟩ := paired_ofNat c small
    rw [List.cons_append, List.singleton_append, codePoints, if_pos pair, found]

theorem codePoints_utf16 (text : List Char) : codePoints (utf16 text) = text.map some := by
  induction text with
  | nil => rfl
  | cons c text ih =>
    rw [utf16, List.flatMap_cons, codePoints_utf16Char_append, List.map_cons, ← ih]
    rfl

theorem utf16Char_single (found : single u = some c) : utf16Char c = [u] := by
  unfold single at found
  split_ifs at found with surrogate
  have value : (Char.ofNat u.val).toNat = u.val := by
    apply toNat_ofNat
    simp only [isHigh, isLow, Bool.or_eq_true, Bool.and_eq_true, decide_eq_true_eq, not_or,
      not_and] at surrogate
    unfold Nat.isValidChar
    omega
  obtain rfl := Option.some.inj found
  rw [utf16Char, value, if_pos u.isLt]
  exact congrArg (fun w => [w]) (Fin.ext (Nat.mod_eq_of_lt u.isLt))

theorem utf16Char_paired (high : isHigh u = true) (low : isLow v = true) :
    utf16Char (paired u v) = [u, v] := by
  simp only [isHigh, isLow, Bool.and_eq_true, decide_eq_true_eq] at high low
  have value : (paired u v).toNat =
      0x10000 + (u.val - 0xD800) * 0x400 + (v.val - 0xDC00) := by
    apply toNat_ofNat
    unfold Nat.isValidChar
    omega
  have first : Fin.ofNat 65536 (0xD800 + ((paired u v).toNat - 0x10000) / 0x400) = u := by
    apply Fin.ext
    rw [Fin.val_ofNat, value]
    omega
  have second : Fin.ofNat 65536 (0xDC00 + ((paired u v).toNat - 0x10000) % 0x400) = v := by
    apply Fin.ext
    rw [Fin.val_ofNat, value]
    omega
  rw [utf16Char, if_neg (by omega), first, second]

/-- A well-formed string is the UTF-16 form of a text. -/
theorem WellFormed.eq_utf16 (wellFormed : WellFormed s) : ∃ text, s = utf16 text := by
  unfold WellFormed at wellFormed
  fun_induction codePoints s with
  | case1 => exact ⟨[], rfl⟩
  | case2 u =>
    cases found : single u with
    | none => rw [found] at wellFormed; exact absurd List.mem_cons_self wellFormed
    | some c => exact ⟨[c], by rw [utf16, List.flatMap_singleton, utf16Char_single found]⟩
  | case3 u v rest pair ih =>
    obtain ⟨text, rfl⟩ := ih fun listed => wellFormed (List.mem_cons_of_mem _ listed)
    obtain ⟨high, low⟩ := Bool.and_eq_true_iff.1 pair
    refine ⟨paired u v :: text, ?_⟩
    rw [utf16, utf16, List.flatMap_cons, utf16Char_paired high low]
    rfl
  | case4 u v rest unpaired ih =>
    obtain ⟨text, same⟩ := ih fun listed => wellFormed (List.mem_cons_of_mem _ listed)
    cases found : single u with
    | none => rw [found] at wellFormed; exact absurd List.mem_cons_self wellFormed
    | some c =>
      refine ⟨c :: text, ?_⟩
      rw [same, utf16, utf16, List.flatMap_cons, utf16Char_single found]
      rfl

/-! ## The codec -/

def percentSign : JavaChar := 0x25
def plus : JavaChar := 0x2B
def space : JavaChar := 0x20
def ampersand : JavaChar := 0x26
def equalsSign : JavaChar := 0x3D

/-- The characters `URLEncoder` leaves alone. -/
def isSafe (c : Char) : Bool :=
  'a' ≤ c && c ≤ 'z' || 'A' ≤ c && c ≤ 'Z' || '0' ≤ c && c ≤ '9' ||
    c = '-' || c = '_' || c = '.' || c = '*'

def hexDigit (n : Nat) : JavaChar := Fin.ofNat 65536 (if n < 10 then 0x30 + n else 0x37 + n)

def percentByte (b : UInt8) : JavaString :=
  [percentSign, hexDigit (b.toNat / 16), hexDigit (b.toNat % 16)]

def encodePoint : Option Char → JavaString
  | some c =>
    if isSafe c then utf16Char c
    else if c = ' ' then [plus]
    else (String.utf8EncodeChar c).flatMap percentByte
  | none => percentByte 0x3F

/-- `URLEncoder.encode(s, "UTF-8")`. -/
def urlEncode (s : JavaString) : JavaString := (codePoints s).flatMap encodePoint

/-- `s.replace("+", "%20")`. -/
def replacePlus (s : JavaString) : JavaString :=
  s.flatMap fun u => if u = plus then percentByte 0x20 else [u]

def hexValue (u : JavaChar) : Option Nat :=
  if 0x30 ≤ u.val ∧ u.val ≤ 0x39 then some (u.val - 0x30)
  else if 0x41 ≤ u.val ∧ u.val ≤ 0x46 then some (u.val - 0x37)
  else if 0x61 ≤ u.val ∧ u.val ≤ 0x66 then some (u.val - 0x57)
  else none

def hexByte (high low : JavaChar) : Option UInt8 :=
  (hexValue high).bind fun h => (hexValue low).map fun l => UInt8.ofNat (16 * h + l)

/-- UTF-8 decoding of at most `n` characters. Malformed input is replaced, and
`malformedLength` says how much of it at once. -/
def utf8Decode (malformedLength : List UInt8 → Nat) : Nat → List UInt8 → List Char
  | 0, _ => []
  | _, [] => []
  | n + 1, b :: bytes =>
    match (b :: bytes).toByteArray.utf8DecodeChar? 0 with
    | some c => c :: utf8Decode malformedLength n ((b :: bytes).drop c.utf8Size)
    | none => Char.ofNat 0xFFFD ::
      utf8Decode malformedLength n (bytes.drop (malformedLength (b :: bytes) - 1))

/-- `new String(bytes, "UTF-8")`. -/
def newString (malformedLength : List UInt8 → Nat) (bytes : List UInt8) : JavaString :=
  utf16 (utf8Decode malformedLength bytes.length bytes)

/-- The loop of `URLDecoder.decode`, where `pending` are the bytes of the run of escapes
before the rest; `none` for its `IllegalArgumentException`. -/
def decodeFrom (malformedLength : List UInt8 → Nat) (pending : List UInt8) :
    JavaString → Option JavaString
  | [] => some (newString malformedLength pending)
  | u :: rest =>
    if u = percentSign then
      match rest with
      | high :: low :: rest =>
        (hexByte high low).bind fun b => decodeFrom malformedLength (pending ++ [b]) rest
      | _ => none
    else
      (decodeFrom malformedLength [] rest).map fun tail =>
        newString malformedLength pending ++ (if u = plus then space else u) :: tail

/-- `URLDecoder.decode(s, "UTF-8")`. -/
def urlDecode (malformedLength : List UInt8 → Nat) (s : JavaString) : Option JavaString :=
  decodeFrom malformedLength [] s

variable {malformedLength : List UInt8 → Nat}

theorem hexValue_hexDigit : ∀ n, n < 16 → hexValue (hexDigit n) = some n := by decide

/-- A byte written in hexadecimal reads back. -/
theorem hexByte_hexDigit (b : UInt8) :
    hexByte (hexDigit (b.toNat / 16)) (hexDigit (b.toNat % 16)) = some b := by
  have bound : b.toNat < 256 := b.toNat_lt
  rw [hexByte, hexValue_hexDigit _ (by omega), hexValue_hexDigit _ (by omega), Option.bind_some,
    Option.map_some, Nat.div_add_mod, UInt8.ofNat_toNat]

/-- The code of a safe character is below 128, and none of `%`, `+`, `&` and `=`. -/
theorem isSafe_code (safe : isSafe c = true) :
    c.toNat < 128 ∧ c.toNat ≠ 0x25 ∧ c.toNat ≠ 0x2B ∧ c.toNat ≠ 0x26 ∧ c.toNat ≠ 0x3D := by
  simp only [isSafe, Bool.or_eq_true, Bool.and_eq_true, decide_eq_true_eq, Char.le_def,
    UInt32.le_iff_toNat_le] at safe
  have code : c.toNat = c.val.toNat := rfl
  rcases safe with (((((lower | upper) | digit) | rfl) | rfl) | rfl) | rfl
  · have bounds : 97 ≤ c.val.toNat ∧ c.val.toNat ≤ 122 := lower
    omega
  · have bounds : 65 ≤ c.val.toNat ∧ c.val.toNat ≤ 90 := upper
    omega
  · have bounds : 48 ≤ c.val.toNat ∧ c.val.toNat ≤ 57 := digit
    omega
  all_goals decide

/-- A safe character is one unit, which is no separator and no escape. -/
theorem utf16Char_safe (safe : isSafe c = true) :
    ∃ u, utf16Char c = [u] ∧ u ≠ percentSign ∧ u ≠ plus ∧ u ≠ ampersand ∧ u ≠ equalsSign := by
  obtain ⟨small, notPercent, notPlus, notAmpersand, notEquals⟩ := isSafe_code safe
  have value : (Fin.ofNat 65536 c.toNat).val = c.toNat := Nat.mod_eq_of_lt (by omega)
  refine ⟨Fin.ofNat 65536 c.toNat, if_pos (by omega), ?_, ?_, ?_, ?_⟩
  all_goals
    intro same
    have code := value.symm.trans (congrArg Fin.val same)
    contradiction

theorem hexDigit_ne : ∀ n, n < 16 →
    hexDigit n ≠ ampersand ∧ hexDigit n ≠ equalsSign ∧ hexDigit n ≠ plus := by decide

/-- Escapes hold no separator and no `+`. -/
theorem percentByte_ne {b : UInt8} (listed : u ∈ percentByte b) :
    u ≠ ampersand ∧ u ≠ equalsSign ∧ u ≠ plus := by
  have bound : b.toNat < 256 := b.toNat_lt
  simp only [percentByte, List.mem_cons, List.not_mem_nil, or_false] at listed
  rcases listed with rfl | rfl | rfl
  · decide
  · exact hexDigit_ne _ (by omega)
  · exact hexDigit_ne _ (by omega)

/-- One character, percent-encoded unless it is safe. -/
def percentEncodedChar (c : Char) : JavaString :=
  if isSafe c then utf16Char c else (String.utf8EncodeChar c).flatMap percentByte

/-- A text with every character that is not safe percent-encoded. -/
def percentEncoded (text : List Char) : JavaString := text.flatMap percentEncodedChar

/-- No separator survives the encoding. -/
theorem percentEncoded_ne (listed : u ∈ percentEncoded text) : u ≠ ampersand ∧ u ≠ equalsSign := by
  obtain ⟨c, -, here⟩ := List.mem_flatMap.1 listed
  unfold percentEncodedChar at here
  split_ifs at here with safe
  · obtain ⟨v, unit, -, -, notAmpersand, notEquals⟩ := utf16Char_safe safe
    rw [unit, List.mem_singleton] at here
    subst here
    exact ⟨notAmpersand, notEquals⟩
  · obtain ⟨b, -, escaped⟩ := List.mem_flatMap.1 here
    obtain ⟨notAmpersand, notEquals, -⟩ := percentByte_ne escaped
    exact ⟨notAmpersand, notEquals⟩

theorem replacePlus_append (s rest : JavaString) :
    replacePlus (s ++ rest) = replacePlus s ++ replacePlus rest := List.flatMap_append

theorem replacePlus_eq_self (none : ∀ u ∈ s, u ≠ plus) : replacePlus s = s := by
  induction s with
  | nil => rfl
  | cons u s ih =>
    rw [replacePlus, List.flatMap_cons, if_neg (none u List.mem_cons_self)]
    exact congrArg (u :: ·) (ih fun v listed => none v (List.mem_cons_of_mem _ listed))

theorem replacePlus_encodePoint (c : Char) :
    replacePlus (encodePoint (some c)) = percentEncodedChar c := by
  unfold encodePoint percentEncodedChar
  dsimp only
  split_ifs with safe blank
  · obtain ⟨u, unit, -, notPlus, -⟩ := utf16Char_safe safe
    rw [unit]
    exact replacePlus_eq_self fun v listed => by rwa [List.mem_singleton.1 listed]
  · subst blank
    decide
  · apply replacePlus_eq_self
    intro v listed
    obtain ⟨b, -, escaped⟩ := List.mem_flatMap.1 listed
    exact (percentByte_ne escaped).2.2

/-- `URLEncoder` with `+` rewritten percent-encodes every character that is not safe. -/
theorem replacePlus_urlEncode (text : List Char) :
    replacePlus (urlEncode (utf16 text)) = percentEncoded text := by
  rw [urlEncode, codePoints_utf16]
  induction text with
  | nil => rfl
  | cons c text ih =>
    rw [List.map_cons, List.flatMap_cons, replacePlus_append, ih, replacePlus_encodePoint]
    rfl

theorem drop_utf8EncodeChar (c : Char) (rest : List UInt8) :
    (String.utf8EncodeChar c ++ rest).drop c.utf8Size = rest := by
  rw [← String.length_utf8EncodeChar, List.drop_left]

theorem utf8EncodeChar_eq_cons (c : Char) : ∃ b bs, String.utf8EncodeChar c = b :: bs := by
  apply List.exists_cons_of_length_pos
  rw [String.length_utf8EncodeChar]
  exact c.utf8Size_pos

/-- UTF-8 decodes what it encodes, wherever the decoder stops looking. -/
theorem utf8Decode_encode {n : Nat} (enough : text.length ≤ n) :
    utf8Decode malformedLength n (text.flatMap String.utf8EncodeChar) = text := by
  induction text generalizing n with
  | nil => cases n <;> rfl
  | cons c text ih =>
    cases n with
    | zero => exact absurd enough (Nat.not_succ_le_zero _)
    | succ n =>
      obtain ⟨b, bs, bytes⟩ := utf8EncodeChar_eq_cons c
      have first : ((c :: text).flatMap String.utf8EncodeChar).toByteArray.utf8DecodeChar? 0 =
          some c := by
        rw [List.flatMap_cons, List.toByteArray_append]
        exact ByteArray.utf8DecodeChar?_utf8EncodeChar_append
      have cut : ((c :: text).flatMap String.utf8EncodeChar).drop c.utf8Size =
          text.flatMap String.utf8EncodeChar := by
        rw [List.flatMap_cons, drop_utf8EncodeChar]
      have nonempty : (c :: text).flatMap String.utf8EncodeChar =
          b :: (bs ++ text.flatMap String.utf8EncodeChar) := by
        rw [List.flatMap_cons, bytes, List.cons_append]
      rw [nonempty] at first cut ⊢
      rw [utf8Decode, first]
      dsimp only
      rw [cut, ih (Nat.le_of_succ_le_succ enough)]

theorem length_le_encode (text : List Char) :
    text.length ≤ (text.flatMap String.utf8EncodeChar).length := by
  induction text with
  | nil => exact Nat.le_refl _
  | cons c text ih =>
    have positive := c.utf8Size_pos
    rw [List.flatMap_cons, List.length_append, String.length_utf8EncodeChar, List.length_cons]
    omega

theorem newString_encode (text : List Char) :
    newString malformedLength (text.flatMap String.utf8EncodeChar) = utf16 text := by
  rw [newString, utf8Decode_encode (length_le_encode text)]

/-- A run of escapes leaves its bytes pending. -/
theorem decodeFrom_percentBytes (pending bytes : List UInt8) (rest : JavaString) :
    decodeFrom malformedLength pending (bytes.flatMap percentByte ++ rest) =
      decodeFrom malformedLength (pending ++ bytes) rest := by
  induction bytes generalizing pending with
  | nil => rw [List.append_nil]; rfl
  | cons b bytes ih =>
    have escaped : decodeFrom malformedLength pending
        (percentByte b ++ (bytes.flatMap percentByte ++ rest)) =
          (hexByte (hexDigit (b.toNat / 16)) (hexDigit (b.toNat % 16))).bind fun b =>
            decodeFrom malformedLength (pending ++ [b]) (bytes.flatMap percentByte ++ rest) := rfl
    rw [List.flatMap_cons, List.append_assoc, escaped, hexByte_hexDigit, Option.bind_some, ih,
      List.append_assoc, List.singleton_append]

theorem decodeFrom_cons (pending : List UInt8) (rest : JavaString) (notPercent : u ≠ percentSign) :
    decodeFrom malformedLength pending (u :: rest) =
      (decodeFrom malformedLength [] rest).map fun tail =>
        newString malformedLength pending ++ (if u = plus then space else u) :: tail := by
  conv_lhs => unfold decodeFrom
  exact if_neg notPercent

/-- The decoder, with the text before it still pending. -/
theorem decodeFrom_percentEncoded (before text : List Char) :
    decodeFrom malformedLength (before.flatMap String.utf8EncodeChar) (percentEncoded text) =
      some (utf16 (before ++ text)) := by
  induction text generalizing before with
  | nil =>
    rw [List.append_nil]
    exact congrArg some (newString_encode before)
  | cons c text ih =>
    rw [percentEncoded, List.flatMap_cons, percentEncodedChar]
    split_ifs with safe
    · obtain ⟨u, unit, notPercent, notPlus, -⟩ := utf16Char_safe safe
      have rest : decodeFrom malformedLength [] (text.flatMap percentEncodedChar) =
          some (utf16 text) := ih []
      rw [unit, List.singleton_append, decodeFrom_cons _ _ notPercent, rest, if_neg notPlus,
        newString_encode, Option.map_some, utf16, utf16, utf16, List.flatMap_append,
        List.flatMap_cons, unit, List.singleton_append]
    · rw [decodeFrom_percentBytes]
      have rest := ih (before ++ [c])
      rw [List.flatMap_append, List.flatMap_singleton, List.append_assoc,
        List.singleton_append] at rest
      exact rest

/-- **Decoding what was encoded gives the string back**, with each `+` rewritten as `%20`. -/
theorem urlDecode_urlEncode (text : List Char) :
    urlDecode malformedLength (replacePlus (urlEncode (utf16 text))) = some (utf16 text) := by
  rw [replacePlus_urlEncode]
  exact decodeFrom_percentEncoded [] text

/-- A string without escapes decodes to itself. -/
theorem urlDecode_eq_self (plain : ∀ u ∈ s, u ≠ percentSign ∧ u ≠ plus) :
    urlDecode malformedLength s = some s := by
  unfold urlDecode
  induction s with
  | nil => rfl
  | cons u s ih =>
    obtain ⟨notPercent, notPlus⟩ := plain u List.mem_cons_self
    rw [decodeFrom_cons _ _ notPercent, ih fun v listed => plain v (List.mem_cons_of_mem _ listed),
      if_neg notPlus]
    rfl

end SecurityAudits.JavaUrl
