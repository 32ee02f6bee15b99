import SecurityAudits.Lib.Escape

/-!
# The JUnit formatter's failure message

`library/test/src/formatters/junit.rs` writes the message of a failed test into the `message`
attribute of a `<failure>` element. `str_to_xml_attr` escapes it by five replacements of the
whole string, each over the output of the one before, so what comes out depends on their order
and on what the words of the earlier ones contain.

The five replacements are an instance of `Escape.Table`. A Rust string is the list of its
characters.
-/

namespace SecurityAudits.RustStdlib.JunitXml
set_option autoImplicit false

open Escape (replace)

/-- `str_to_xml_attr`: `str::replace` five times. -/
def strToXmlAttr (s : List Char) : List Char :=
  replace '>' "&gt;".toList <|
    replace '<' "&lt;".toList <|
      replace '\'' "&apos;".toList <|
        replace '"' "&quot;".toList <|
          replace '&' "&amp;".toList s

/-- The characters that are replaced, in that order, with the entities that stand for them. -/
def entities : Escape.Table Char where
  entries :=
    [('&', "&amp;".toList), ('"', "&quot;".toList), ('\'', "&apos;".toList),
      ('<', "&lt;".toList), ('>', "&gt;".toList)]
  marker := '&'
  first := rfl
  distinct := by decide
  begins := by decide
  inner := by decide
  prefixFree := by decide

/-- What the element of a failed test is, before its message. -/
def opening : List Char := "<failure message=\"".toList

/-- The element that `write_run_finish` writes for a test that failed with the message `m`. -/
def failure (m : List Char) : List Char :=
  opening ++ strToXmlAttr m ++ "\" type=\"assert\"/>".toList

theorem strToXmlAttr_eq_escape (s : List Char) : strToXmlAttr s = entities.escape s :=
  entities.replaceAll_eq_escape s

theorem not_mem_strToXmlAttr {c : Char} {s : List Char} (special : c ∈ ['"', '\'', '<', '>']) :
    c ∉ strToXmlAttr s := by
  rw [strToXmlAttr_eq_escape]
  have replaced : ∀ e ∈ entities.entries, e.1 ≠ '&' → e.1 ∉ entities.escape s :=
    fun e mem other => entities.not_mem_escape mem other
  simp only [entities, List.forall_mem_cons] at replaced
  obtain ⟨-, quote, apostrophe, less, greater, -⟩ := replaced
  simp only [List.mem_cons, List.not_mem_nil, or_false] at special
  rcases special with rfl | rfl | rfl | rfl
  · exact quote (by decide)
  · exact apostrophe (by decide)
  · exact less (by decide)
  · exact greater (by decide)

/-- **The failure message.** Read back, the escaped message is the message, and it contains none
of the characters that are special in an attribute but `&`s that begin an entity. -/
theorem strToXmlAttr_faithful (s : List Char) :
    entities.unescape (strToXmlAttr s) = s ∧
      (∀ c ∈ ['"', '\'', '<', '>'], c ∉ strToXmlAttr s) ∧
      ∀ before after, strToXmlAttr s = before ++ '&' :: after →
        ∃ entity ∈ ["&amp;", "&quot;", "&apos;", "&lt;", "&gt;"],
          entity.toList <+: '&' :: after := by
  refine ⟨?_, fun c special => not_mem_strToXmlAttr special, fun before after split => ?_⟩
  · rw [strToXmlAttr_eq_escape]
    exact entities.unescape_escape s
  · rw [strToXmlAttr_eq_escape] at split
    obtain ⟨e, mem, word⟩ := Escape.Table.word_at_marker (t := entities) split
    have named : ∀ e ∈ entities.entries,
        ∃ entity ∈ ["&amp;", "&quot;", "&apos;", "&lt;", "&gt;"], e.2 = entity.toList := by decide
    obtain ⟨entity, listed, same⟩ := named e mem
    exact ⟨entity, listed, same ▸ word⟩

/-- What a parser takes for the message: the characters up to the closing quotation mark. -/
def readMessage (element : List Char) : List Char :=
  entities.unescape ((element.drop opening.length).takeWhile (· ≠ '"'))

/-- A parser of the report gets the message of the test, whatever the message is. -/
theorem readMessage_failure (m : List Char) : readMessage (failure m) = m := by
  have closing : "\" type=\"assert\"/>".toList = '"' :: " type=\"assert\"/>".toList := by decide
  have message : ∀ c ∈ strToXmlAttr m, decide (c ≠ '"') = true := by
    intro c mem
    refine decide_eq_true fun quote => ?_
    exact not_mem_strToXmlAttr List.mem_cons_self (quote ▸ mem)
  rw [readMessage, failure, List.append_assoc, List.drop_left, closing]
  rw [List.takeWhile_append_of_pos message, List.takeWhile_cons_of_neg (by decide),
    List.append_nil, strToXmlAttr_eq_escape]
  exact entities.unescape_escape m

end SecurityAudits.RustStdlib.JunitXml
