import SecurityAudits.Lib.Escape
import Mathlib.Data.List.Nodup

/-!
# Quoted strings

In a quoted string a symbol stands for itself, other than some that are written as a marker and a
letter: the marker and the quote, each with itself for its letter, and whatever else must not occur
in the text. The string ends at the first quote that is not such a letter.

The words of these symbols are no `Escape.Table`, since the letters of the first two are symbols
that are replaced. The order of the replacements keeps the passes apart (`replaceAll_eq_escape`).
-/

namespace SecurityAudits.Quoted
set_option autoImplicit false
open Escape (codeOf replaceAll replaceAll_flatMap replaceAll_singleton)

structure Quoting (α : Type) where
  marker : α
  quote : α
  /-- The other symbols that are replaced, and their letters -/
  others : List (α × α)
  distinct : (marker :: quote :: others.map Prod.fst).Nodup
  letters : (marker :: quote :: others.map Prod.snd).Nodup
  apart : ∀ e ∈ others, ∀ f ∈ others, f.1 ≠ e.2

variable {α : Type} [DecidableEq α]

namespace Quoting

/-- All symbols that are replaced, in order, and their letters. -/
def pairs (q : Quoting α) : List (α × α) :=
  (q.marker, q.marker) :: (q.quote, q.quote) :: q.others

/-- The replacements as the passes of `Escape.replaceAll`. -/
def entries (q : Quoting α) : List (α × List α) := q.pairs.map fun e => (e.1, [q.marker, e.2])

/-- The text between the quotes. -/
def escape (q : Quoting α) (s : List α) : List α := s.flatMap (codeOf q.entries)

def symbolOf (q : Quoting α) (letter : α) : Option α :=
  (q.pairs.find? fun e => e.2 = letter).map Prod.fst

/-- What stands up to the closing quote, and what is behind it. -/
def read (q : Quoting α) : List α → Option (List α × List α)
  | [] => none
  | [x] => if x = q.quote then some ([], []) else none
  | x :: letter :: s =>
    if x = q.quote then some ([], letter :: s)
    else if x = q.marker then do
      let c ← q.symbolOf letter
      let (text, rest) ← q.read s
      return (c :: text, rest)
    else do
      let (text, rest) ← q.read (letter :: s)
      return (x :: text, rest)

variable {q : Quoting α} {s t rest before after : List α} {x c letter : α}

omit [DecidableEq α] in
theorem quote_ne_marker (q : Quoting α) : q.quote ≠ q.marker := fun same =>
  (List.nodup_cons.1 q.distinct).1 (same ▸ List.mem_cons_self)

omit [DecidableEq α] in
theorem letters_nodup (q : Quoting α) : (q.pairs.map Prod.snd).Nodup := q.letters

omit [DecidableEq α] in
/-- A word has no symbol in it that is replaced after it. -/
theorem ordered (q : Quoting α) : q.entries.Pairwise fun e f => f.1 ∉ e.2 := by
  obtain ⟨marker, rest⟩ := List.nodup_cons.1 q.distinct
  obtain ⟨quote, -⟩ := List.nodup_cons.1 rest
  have key : ∀ f ∈ q.others, f.1 ≠ q.marker ∧ f.1 ≠ q.quote := fun f mem =>
    ⟨fun same => marker (same ▸ List.mem_cons_of_mem _ (List.mem_map_of_mem mem)),
      fun same => quote (same ▸ List.mem_map_of_mem mem)⟩
  rw [entries, List.pairwise_map, pairs, List.pairwise_cons, List.pairwise_cons]
  refine ⟨?_, ?_, List.pairwise_of_forall_mem_list fun e memE f memF => ?_⟩
  · refine List.forall_mem_cons.2 ⟨?_, fun f mem => ?_⟩
    · simp [q.quote_ne_marker]
    · simp [(key f mem).1]
  · intro f mem
    simp [key f mem]
  · simp [(key f memF).1, q.apart e memE f memF]

/-- **The passes.** Replacing the symbols one kind after another is one substitution. -/
theorem replaceAll_eq_escape (q : Quoting α) (s : List α) :
    replaceAll q.entries s = q.escape s := by
  have symbols : replaceAll q.entries (s.flatMap fun x => [x]) = q.escape s := by
    rw [replaceAll_flatMap]
    exact List.flatMap_congr fun x _ => replaceAll_singleton q.ordered x
  rwa [List.flatMap_singleton'] at symbols

/-- A symbol is written as a word of two, or else as itself. -/
theorem code_cases (q : Quoting α) (x : α) :
    (∃ letter, (x, letter) ∈ q.pairs ∧ codeOf q.entries x = [q.marker, letter]) ∨
      (∀ e ∈ q.pairs, e.1 ≠ x) ∧ codeOf q.entries x = [x] := by
  rcases Escape.codeOf_cases q.entries x with ⟨e, mem, rfl, code⟩ | ⟨none, code⟩
  · obtain ⟨⟨key, letter⟩, pair, rfl⟩ := List.mem_map.1 mem
    exact .inl ⟨letter, pair, code⟩
  · exact .inr ⟨fun e mem => none _ (List.mem_map_of_mem mem), code⟩

theorem symbolOf_letter (mem : (c, letter) ∈ q.pairs) : q.symbolOf letter = some c := by
  obtain ⟨e, found⟩ : ∃ e, q.pairs.find? (fun e => e.2 = letter) = some e := by
    rw [← Option.isSome_iff_exists, List.find?_isSome]
    exact ⟨_, mem, decide_eq_true rfl⟩
  have same : e.2 = letter := by simpa using List.find?_some found
  have unique : e = (c, letter) :=
    List.inj_on_of_nodup_map q.letters_nodup (List.mem_of_find?_eq_some found) mem same
  rw [symbolOf, found, unique]
  rfl

theorem read_word (mem : (c, letter) ∈ q.pairs) (later : q.read s = some (t, rest)) :
    q.read (q.marker :: letter :: s) = some (c :: t, rest) := by
  rw [read, if_neg q.quote_ne_marker.symm, if_pos rfl, symbolOf_letter mem, later]
  rfl

theorem read_plain (notQuote : x ≠ q.quote) (notMarker : x ≠ q.marker)
    (later : q.read s = some (t, rest)) : q.read (x :: s) = some (x :: t, rest) := by
  cases s with
  | nil => cases later
  | cons y s =>
    rw [read, if_neg notQuote, if_neg notMarker, later]
    rfl

/-- **The round trip.** What was escaped and put before a quote is read as it was. -/
theorem read_escape (q : Quoting α) (s rest : List α) :
    q.read (q.escape s ++ q.quote :: rest) = some (s, rest) := by
  induction s with
  | nil =>
    show q.read (q.quote :: rest) = _
    cases rest <;> rw [read, if_pos rfl]
  | cons x s ih =>
    have split : q.escape (x :: s) ++ q.quote :: rest =
        codeOf q.entries x ++ (q.escape s ++ q.quote :: rest) := by
      simp [escape]
    rw [split]
    rcases q.code_cases x with ⟨letter, mem, code⟩ | ⟨plain, code⟩
    · rw [code]
      exact read_word mem ih
    · have notMarker := plain _ List.mem_cons_self
      have notQuote := plain _ (List.mem_cons_of_mem _ List.mem_cons_self)
      rw [code]
      exact read_plain notQuote.symm notMarker.symm ih

theorem escape_injective (same : q.escape s = q.escape t) : s = t := by
  have left := q.read_escape s []
  rw [same, q.read_escape t []] at left
  exact (Prod.mk.inj (Option.some.inj left)).1.symm

/-- Symbols other than the marker and the quote that are replaced do not occur in escaped text. -/
theorem not_mem_escape (mem : (c, letter) ∈ q.others) : c ∉ q.escape s := by
  intro inText
  obtain ⟨x, -, inCode⟩ := List.mem_flatMap.1 inText
  obtain ⟨marker, rest⟩ := List.nodup_cons.1 q.distinct
  obtain ⟨quote, -⟩ := List.nodup_cons.1 rest
  have key : c ∈ q.others.map Prod.fst := List.mem_map_of_mem mem
  have notMarker : c ≠ q.marker := fun same => marker (same ▸ List.mem_cons_of_mem _ key)
  have notQuote : c ≠ q.quote := fun same => quote (same ▸ key)
  rcases q.code_cases x with ⟨l, memL, code⟩ | ⟨plain, code⟩
  · rw [code] at inCode
    have isLetter : c = l := by simpa [notMarker] using inCode
    rcases List.mem_cons.1 memL with first | memL
    · exact notMarker (isLetter.trans (Prod.mk.inj first).2)
    rcases List.mem_cons.1 memL with second | memL
    · exact notQuote (isLetter.trans (Prod.mk.inj second).2)
    · exact q.apart _ memL _ mem isLetter
  · rw [code, List.mem_singleton] at inCode
    exact plain _ (List.mem_cons_of_mem _ (List.mem_cons_of_mem _ mem)) inCode

/-- In escaped text a quote is a letter. -/
theorem marker_before_quote (split : q.escape s = before ++ q.quote :: after) :
    ∃ front, before = front ++ [q.marker] := by
  induction s generalizing before with
  | nil => cases before <;> cases split
  | cons x s ih =>
    have cons : q.escape (x :: s) = codeOf q.entries x ++ q.escape s := rfl
    rw [cons] at split
    rcases List.append_eq_append_iff.1 split with ⟨between, rfl, rest⟩ | ⟨later, code, rest⟩
    · obtain ⟨front, rfl⟩ := ih rest
      exact ⟨_, (List.append_assoc _ _ _).symm⟩
    · cases later with
      | nil =>
        have atFront : q.escape s = [] ++ q.quote :: after := rest.symm
        obtain ⟨front, none⟩ := ih atFront
        cases front <;> cases none
      | cons y later =>
        obtain rfl : q.quote = y := (List.cons.inj rest).1
        rcases q.code_cases x with ⟨letter, mem, word⟩ | ⟨plain, word⟩
        · rw [word] at code
          match before, code with
          | [], code => exact absurd (List.cons.inj code).1.symm q.quote_ne_marker
          | [y], code =>
            obtain rfl := (List.cons.inj code).1
            exact ⟨[], rfl⟩
          | _ :: _ :: _, code =>
            have length := congrArg List.length code
            simp at length
        · rw [word] at code
          have symbol : q.quote ∈ [x] := code ▸ List.mem_append_right before List.mem_cons_self
          have replaced := plain _ (List.mem_cons_of_mem _ List.mem_cons_self)
          exact absurd (List.mem_singleton.1 symbol) replaced

/-- No quote in an escaped text has something else than the marker before it. -/
theorem no_opening (notMarker : x ≠ q.marker) : q.escape s ≠ before ++ x :: q.quote :: after := by
  intro split
  have split : q.escape s = (before ++ [x]) ++ q.quote :: after := by simp [split]
  obtain ⟨front, same⟩ := marker_before_quote split
  exact notMarker (List.cons.inj (List.append_inj_right' same rfl)).1

/-- A quoted string at the end of a line, and the symbol before it, show where it begins. -/
theorem quoted_unique {a b : List α} (notMarker : x ≠ q.marker) (notQuote : x ≠ q.quote)
    (same : a ++ x :: q.quote :: (q.escape s ++ [q.quote]) =
      b ++ x :: q.quote :: (q.escape t ++ [q.quote])) : a = b ∧ s = t := by
  have inside : ∀ {between s t : List α}, x :: q.quote :: (q.escape s ++ [q.quote]) =
      between ++ x :: q.quote :: (q.escape t ++ [q.quote]) → between = [] ∧ s = t := by
    intro between s t same
    match between, same with
    | [], same =>
      have texts := List.append_cancel_right (List.cons.inj (List.cons.inj same).2).2
      exact ⟨rfl, escape_injective texts⟩
    | [_], same => exact absurd (List.cons.inj (List.cons.inj same).2).1.symm notQuote
    | _ :: _ :: between, same =>
      have tails := (List.cons.inj (List.cons.inj same).2).2
      have texts : q.escape s ++ [q.quote] =
          (between ++ x :: q.quote :: q.escape t) ++ [q.quote] := by simpa using tails
      exact absurd (List.append_cancel_right texts) (no_opening notMarker)
  rcases List.append_eq_append_iff.1 same with ⟨between, rfl, rest⟩ | ⟨between, rfl, rest⟩
  · obtain ⟨rfl, texts⟩ := inside rest
    exact ⟨(List.append_nil _).symm, texts⟩
  · obtain ⟨rfl, texts⟩ := inside rest
    exact ⟨List.append_nil _, texts.symm⟩

end Quoting
end SecurityAudits.Quoted
