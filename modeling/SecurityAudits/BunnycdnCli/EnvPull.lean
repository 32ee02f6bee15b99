import SecurityAudits.Lib.Quoted
import SecurityAudits.Lib.Labels

/-!
# Environment variables in a file

`bunny scripts env pull` and `bunny apps env pull` write the variables that the server knows to a
file, a line for each. The first (`serializeEnvVariable`) quotes the values and refuses names with a
line break; the second refuses line breaks in either and writes both as they are.

A string of JavaScript is the list of its code units, of any kind. The files are the strings that go
to `writeFileSync`, and a reader of them takes empty lines for nothing.
-/

namespace SecurityAudits.BunnycdnCli.EnvPull
set_option autoImplicit false
open Escape (replace)
open Quoted (Quoting)

/-! ## The code -/

/-- A literal of the source, all of it ASCII -/
def text (s : String) : List UInt16 := s.toList.map fun c => c.toNat.toUInt16

structure UserError where
  message : List UInt16
  deriving DecidableEq, Repr

/-- `/[\r\n]/.test(s)` -/
def HasLineBreak (s : List UInt16) : Prop := 13 ∈ s ∨ 10 ∈ s

instance (s : List UInt16) : Decidable (HasLineBreak s) := inferInstanceAs (Decidable (_ ∨ _))

def IsHigh (c : UInt16) : Prop := 0xd800 ≤ c ∧ c < 0xdc00

def IsLow (c : UInt16) : Prop := 0xdc00 ≤ c ∧ c < 0xe000

instance (c : UInt16) : Decidable (IsHigh c) := inferInstanceAs (Decidable (_ ∧ _))

instance (c : UInt16) : Decidable (IsLow c) := inferInstanceAs (Decidable (_ ∧ _))

def hexDigit (n : Nat) : UInt16 := if n < 10 then (48 + n).toUInt16 else (87 + n).toUInt16

/-- `\u` and four digits -/
def unicodeEscape (c : UInt16) : List UInt16 :=
  [92, 117, hexDigit (c.toNat / 4096), hexDigit (c.toNat / 256 % 16), hexDigit (c.toNat / 16 % 16),
    hexDigit (c.toNat % 16)]

/-- A unit in a string of JSON, when it is no half of a pair -/
def jsonUnit (c : UInt16) : List UInt16 :=
  if c = 8 then [92, 98]
  else if c = 9 then [92, 116]
  else if c = 10 then [92, 110]
  else if c = 12 then [92, 102]
  else if c = 13 then [92, 114]
  else if c = 34 then [92, 34]
  else if c = 92 then [92, 92]
  else if c < 32 ∨ IsHigh c ∨ IsLow c then unicodeEscape c
  else [c]

def jsonUnits : List UInt16 → List UInt16
  | [] => []
  | [c] => jsonUnit c
  | c :: d :: s =>
    if IsHigh c ∧ IsLow d then c :: d :: jsonUnits s else jsonUnit c ++ jsonUnits (d :: s)

/-- `JSON.stringify` of a string -/
def jsonStringify (s : List UInt16) : List UInt16 := 34 :: jsonUnits s ++ [34]

structure EdgeScriptVariable where
  name : Option (List UInt16)
  defaultValue : Option (List UInt16)
  deriving DecidableEq, Repr

def invalidName (name : List UInt16) : UserError :=
  ⟨text "Invalid environment variable name: " ++ jsonStringify name⟩

/-- `value` of `serializeEnvVariable`: `\`, `"`, `\n` and `\r` are replaced, in this order. -/
def escapedValue (value : List UInt16) : List UInt16 :=
  replace 13 [92, 114] <| replace 10 [92, 110] <| replace 34 [92, 34] <| replace 92 [92, 92] value

def serializeEnvVariable (v : EdgeScriptVariable) : Except UserError (List UInt16) :=
  let name := v.name.getD []
  if HasLineBreak name then .error (invalidName name)
  else .ok (name ++ [61, 34] ++ escapedValue (v.defaultValue.getD []) ++ [34])

/-- `lines.join("\n")` and a last `\n` -/
def file (lines : List (List UInt16)) : List UInt16 := [10].intercalate lines ++ [10]

/-- `content` of `scriptsEnvPullCommand`, of its `variables` -/
def scriptsContent (vars : List EdgeScriptVariable) : Except UserError (List UInt16) := do
  let lines ← vars.mapM serializeEnvVariable
  return file lines

structure EnvironmentVariable where
  name : List UInt16
  value : Option (List UInt16)
  deriving DecidableEq, Repr

def lineBreaks : UserError :=
  ⟨text "Environment variable names and values must not contain line breaks."⟩

/-- `envContent` of `appsEnvPullCommand`, behind the check of all `vars` -/
def appsContent (vars : List EnvironmentVariable) : Except UserError (List UInt16) :=
  if ∃ v ∈ vars, HasLineBreak v.name ∨ HasLineBreak (v.value.getD []) then .error lineBreaks
  else .ok (file (vars.map fun v => v.name ++ [61] ++ v.value.getD []))

/-! ## Files of lines -/

/-- The lines of a file that are not empty. -/
def lines (content : List UInt16) : List (List UInt16) := (content.splitOn 10).filter (· ≠ [])

theorem splitOn_file {ls : List (List UInt16)} (some_l : ls ≠ []) (single : ∀ l ∈ ls, 10 ∉ l) :
    (file ls).splitOn 10 = ls ++ [[]] := by
  have joined : file ls = [10].intercalate (ls ++ [[]]) := by
    rw [Labels.intercalate_append some_l (List.cons_ne_nil _ _)]
    rfl
  have single' : ∀ l ∈ ls ++ [[]], 10 ∉ l := by
    intro l mem
    rcases List.mem_append.1 mem with mem | mem
    · exact single l mem
    · rw [List.mem_singleton.1 mem]
      exact List.not_mem_nil
  rw [joined, List.splitOn_intercalate 10 single' (by simp)]

theorem lines_file {ls : List (List UInt16)} (single : ∀ l ∈ ls, 10 ∉ l) (full : ∀ l ∈ ls, l ≠ []) :
    lines (file ls) = ls := by
  by_cases none : ls = []
  · rw [none]
    decide
  · have kept : ls.filter (· ≠ []) = ls :=
      List.filter_eq_self.2 fun l mem => decide_eq_true (full l mem)
    rw [lines, splitOn_file none single, List.filter_append, kept]
    exact List.append_nil ls

theorem not_mem_file {ls : List (List UInt16)} (absent : ∀ l ∈ ls, 13 ∉ l) : 13 ∉ file ls := by
  intro mem
  rcases List.mem_append.1 mem with inside | last
  · induction ls with
    | nil => cases inside
    | cons l ls ih =>
      obtain ⟨here, later⟩ := List.forall_mem_cons.1 absent
      by_cases none : ls = []
      · rw [none, List.intercalate_singleton] at inside
        exact here inside
      · rw [List.intercalate_cons_of_ne_nil none] at inside
        rcases List.mem_append.1 inside with first | rest
        · rcases List.mem_append.1 first with first | feed
          · exact here first
          · exact absurd feed (by decide)
        · exact ih later (List.mem_append_left _ rest) rest
  · exact absurd last (by decide)

theorem mapM_read {V W : Type} {line : V → List UInt16} {read : List UInt16 → Option W}
    {texts : V → W} {vs : List V} (reads : ∀ v ∈ vs, read (line v) = some (texts v)) :
    (vs.map line).mapM read = some (vs.map texts) := by
  induction vs with
  | nil => rfl
  | cons v vs ih =>
    obtain ⟨here, later⟩ := List.forall_mem_cons.1 reads
    rw [List.map_cons, List.mapM_cons, here, ih later]
    rfl

/-- A name in front of the first `=` -/
theorem name_of_line {name rest : List UInt16} (noEquals : 61 ∉ name) :
    (name ++ 61 :: rest).takeWhile (· ≠ 61) = name ∧
      (name ++ 61 :: rest).dropWhile (· ≠ 61) = 61 :: rest := by
  have all : ∀ c ∈ name, decide (c ≠ 61) = true := fun c mem =>
    decide_eq_true fun same => noEquals (same ▸ mem)
  constructor
  · rw [List.takeWhile_append_of_pos all, List.takeWhile_cons_of_neg (by decide), List.append_nil]
  · rw [List.dropWhile_append_of_pos all, List.dropWhile_cons_of_neg (by decide)]

/-! ## Messages -/

theorem hexDigit_ne {n : Nat} (small : n < 16) : hexDigit n ≠ 13 ∧ hexDigit n ≠ 10 := by
  have all : ∀ n : Fin 16, hexDigit n ≠ 13 ∧ hexDigit n ≠ 10 := by decide
  exact all ⟨n, small⟩

theorem unicodeEscape_clean (c : UInt16) : ¬ HasLineBreak (unicodeEscape c) := by
  have high : c.toNat / 4096 < 16 := by
    have := c.toNat_lt
    omega
  have d3 := hexDigit_ne high
  have d2 := hexDigit_ne (Nat.mod_lt (c.toNat / 256) (by decide : 0 < 16))
  have d1 := hexDigit_ne (Nat.mod_lt (c.toNat / 16) (by decide : 0 < 16))
  have d0 := hexDigit_ne (Nat.mod_lt c.toNat (by decide : 0 < 16))
  simp [HasLineBreak, unicodeEscape, d3.1.symm, d2.1.symm, d1.1.symm, d0.1.symm, d3.2.symm,
    d2.2.symm, d1.2.symm, d0.2.symm]

theorem jsonUnit_clean (c : UInt16) : ¬ HasLineBreak (jsonUnit c) := by
  unfold jsonUnit
  split_ifs with backspace tab feed form return_ quote backslash escaped
  · decide
  · decide
  · decide
  · decide
  · decide
  · decide
  · decide
  · exact unicodeEscape_clean c
  · simp [HasLineBreak, Ne.symm feed, Ne.symm return_]

theorem hasLineBreak_append {s t : List UInt16} :
    HasLineBreak (s ++ t) ↔ HasLineBreak s ∨ HasLineBreak t := by
  simp only [HasLineBreak, List.mem_append]
  exact or_or_or_comm

theorem surrogate_clean {c : UInt16} (surrogate : 0xd800 ≤ c) : c ≠ 13 ∧ c ≠ 10 := by
  constructor
  · rintro rfl
    exact absurd surrogate (by decide)
  · rintro rfl
    exact absurd surrogate (by decide)

theorem jsonUnits_clean (s : List UInt16) : ¬ HasLineBreak (jsonUnits s) := by
  fun_induction jsonUnits s with
  | case1 => decide
  | case2 c => exact jsonUnit_clean c
  | case3 c d s pair ih =>
    have first := surrogate_clean pair.1.1
    have above : (0xd800 : UInt16) ≤ 0xdc00 := by decide
    have second := surrogate_clean (UInt16.le_trans above pair.2.1)
    have both : ¬ HasLineBreak [c, d] := by
      simp [HasLineBreak, first.1.symm, first.2.symm, second.1.symm, second.2.symm]
    exact fun broken => (hasLineBreak_append (s := [c, d]).1 broken).elim both ih
  | case4 c d s single ih =>
    exact fun broken => (hasLineBreak_append.1 broken).elim (jsonUnit_clean c) ih

theorem invalidName_clean (name : List UInt16) : ¬ HasLineBreak (invalidName name).message := by
  intro broken
  rcases hasLineBreak_append.1 broken with text | shown
  · exact absurd text (by decide)
  · rcases hasLineBreak_append.1 shown with shown | quote
    · rcases hasLineBreak_append (s := [34]).1 shown with quote | units
      · exact absurd quote (by decide)
      · exact jsonUnits_clean name units
    · exact absurd quote (by decide)

/-! ## `bunny scripts env pull` -/

def quoting : Quoting UInt16 where
  marker := 92
  quote := 34
  others := [(10, 110), (13, 114)]
  distinct := by decide
  letters := by decide
  apart := by simp

/-- What a variable says, the name and the value. -/
def EdgeScriptVariable.texts (v : EdgeScriptVariable) : List UInt16 × List UInt16 :=
  (v.name.getD [], v.defaultValue.getD [])

def EdgeScriptVariable.line (v : EdgeScriptVariable) : List UInt16 :=
  v.texts.1 ++ 61 :: 34 :: (quoting.escape v.texts.2 ++ [34])

/-- Reads a line: the name up to the first `=`, and a quoted value that ends the line. -/
def readQuotedLine (l : List UInt16) : Option (List UInt16 × List UInt16) :=
  match l.dropWhile (· ≠ 61) with
  | _ :: 34 :: quoted => do
    let (value, rest) ← quoting.read quoted
    if rest = [] then some (l.takeWhile (· ≠ 61), value) else none
  | _ => none

variable {v : EdgeScriptVariable} {vars : List EdgeScriptVariable}

theorem serializeEnvVariable_eq (v : EdgeScriptVariable) :
    serializeEnvVariable v =
      if HasLineBreak v.texts.1 then .error (invalidName v.texts.1) else .ok v.line := by
  have escaped : escapedValue v.texts.2 = quoting.escape v.texts.2 :=
    quoting.replaceAll_eq_escape v.texts.2
  have written : v.texts.1 ++ [61, 34] ++ escapedValue v.texts.2 ++ [34] = v.line := by
    simp [EdgeScriptVariable.line, escaped]
  rw [← written]
  rfl

/-- The lines, or the error for the first name that has a line break. -/
theorem serialize_cases (vars : List EdgeScriptVariable) :
    ((∀ v ∈ vars, ¬ HasLineBreak v.texts.1) ∧
        vars.mapM serializeEnvVariable = .ok (vars.map EdgeScriptVariable.line)) ∨
      ∃ before v behind, vars = before ++ v :: behind ∧ (∀ u ∈ before, ¬ HasLineBreak u.texts.1) ∧
        HasLineBreak v.texts.1 ∧
        vars.mapM serializeEnvVariable = .error (invalidName v.texts.1) := by
  induction vars with
  | nil => exact .inl ⟨List.forall_mem_nil _, rfl⟩
  | cons v vars ih =>
    rw [List.mapM_cons, serializeEnvVariable_eq]
    by_cases broken : HasLineBreak v.texts.1
    · rw [if_pos broken]
      exact .inr ⟨[], v, vars, rfl, List.forall_mem_nil _, broken, rfl⟩
    · rw [if_neg broken]
      rcases ih with ⟨clean, run⟩ | ⟨before, u, behind, rfl, clean, bad, run⟩
      · exact .inl ⟨List.forall_mem_cons.2 ⟨broken, clean⟩, by rw [run]; rfl⟩
      · refine .inr ⟨v :: before, u, behind, rfl, List.forall_mem_cons.2 ⟨broken, clean⟩, bad, ?_⟩
        rw [run]
        rfl

theorem line_clean (clean : ¬ HasLineBreak v.texts.1) : ¬ HasLineBreak v.line := by
  have feed : 10 ∉ quoting.escape v.texts.2 :=
    Quoting.not_mem_escape (List.mem_cons_self : ((10, 110) : UInt16 × UInt16) ∈ quoting.others)
  have return_ : 13 ∉ quoting.escape v.texts.2 :=
    Quoting.not_mem_escape
      (List.mem_cons_of_mem _ List.mem_cons_self : ((13, 114) : UInt16 × UInt16) ∈ quoting.others)
  intro broken
  rcases hasLineBreak_append.1 broken with name | rest
  · exact clean name
  · simp [HasLineBreak, feed, return_] at rest

theorem line_ne_nil (v : EdgeScriptVariable) : v.line ≠ [] := by simp [EdgeScriptVariable.line]

theorem line_injective {u v : EdgeScriptVariable} (same : u.line = v.line) : u.texts = v.texts := by
  have both := Quoting.quoted_unique (q := quoting) (by decide) (by decide) same
  exact Prod.ext both.1 both.2

theorem readQuotedLine_line (noEquals : 61 ∉ v.texts.1) : readQuotedLine v.line = some v.texts := by
  obtain ⟨front, back⟩ := name_of_line noEquals
  have value := quoting.read_escape v.texts.2 []
  have quoted : quoting.read (quoting.escape v.texts.2 ++ [34]) = some (v.texts.2, []) := value
  rw [readQuotedLine, EdgeScriptVariable.line, back, front]
  show (quoting.read (quoting.escape v.texts.2 ++ [34])).bind _ = _
  rw [quoted]
  rfl

/-- What a file has in it of the variables that it was made from. -/
structure Pulled (vars : List EdgeScriptVariable) (content : List UInt16) : Prop where
  noReturn : 13 ∉ content
  /-- A line for each variable, and what is behind the last `\n` -/
  split : vars ≠ [] → content.splitOn 10 = vars.map EdgeScriptVariable.line ++ [[]]
  read : (∀ v ∈ vars, 61 ∉ v.texts.1) →
    (lines content).mapM readQuotedLine = some (vars.map EdgeScriptVariable.texts)
  /-- Whatever the names, no other variables have this file. -/
  only : ∀ others, scriptsContent others = .ok content →
    others.map EdgeScriptVariable.texts = vars.map EdgeScriptVariable.texts

theorem scriptsContent_lines {content : List UInt16} (pulled : scriptsContent vars = .ok content) :
    content = file (vars.map EdgeScriptVariable.line) ∧
      lines content = vars.map EdgeScriptVariable.line ∧
      ∀ l ∈ vars.map EdgeScriptVariable.line, ¬ HasLineBreak l := by
  rcases serialize_cases vars with ⟨clean, run⟩ | ⟨_, _, _, _, _, _, run⟩
  · rw [scriptsContent, run] at pulled
    obtain rfl : file (vars.map EdgeScriptVariable.line) = content := Except.ok.inj pulled
    have single : ∀ l ∈ vars.map EdgeScriptVariable.line, ¬ HasLineBreak l :=
      List.forall_mem_map.2 fun v mem => line_clean (clean v mem)
    refine ⟨rfl, lines_file (fun l mem feed => single l mem (.inr feed)) ?_, single⟩
    exact List.forall_mem_map.2 fun v _ => line_ne_nil v
  · rw [scriptsContent, run] at pulled
    cases pulled

theorem pulled_of_content {content : List UInt16} (pulled : scriptsContent vars = .ok content) :
    Pulled vars content := by
  obtain ⟨whole, inLines, clean⟩ := scriptsContent_lines pulled
  refine ⟨?_, fun some_v => ?_, fun noEquals => ?_, fun others same => ?_⟩
  · rw [whole]
    exact not_mem_file fun l mem return_ => clean l mem (.inl return_)
  · rw [whole]
    exact splitOn_file (by simpa using some_v) fun l mem feed => clean l mem (.inr feed)
  · rw [inLines]
    exact mapM_read fun v mem => readQuotedLine_line (noEquals v mem)
  · obtain ⟨-, inLines', -⟩ := scriptsContent_lines same
    have lists := inLines'.symm.trans inLines
    clear pulled whole inLines clean same inLines'
    induction others generalizing vars with
    | nil =>
      cases vars with
      | nil => rfl
      | cons v vars => cases lists
    | cons u others ih =>
      cases vars with
      | nil => cases lists
      | cons v vars =>
        obtain ⟨here, later⟩ := List.cons.inj lists
        exact congrArg₂ List.cons (line_injective here) (ih later)

/-- **The pulled file.** It has one line for each variable, from which a reader gets the variables
back, and no other variables have the same file. There is none exactly when a name has a line break;
the error then names the first such one, on one line. -/
theorem scriptsContent_pulled (vars : List EdgeScriptVariable) :
    ((∀ v ∈ vars, ¬ HasLineBreak v.texts.1) ∧
        ∃ content, scriptsContent vars = .ok content ∧ Pulled vars content) ∨
      ∃ before v behind, vars = before ++ v :: behind ∧ (∀ u ∈ before, ¬ HasLineBreak u.texts.1) ∧
        HasLineBreak v.texts.1 ∧ scriptsContent vars = .error (invalidName v.texts.1) ∧
        ¬ HasLineBreak (invalidName v.texts.1).message := by
  rcases serialize_cases vars with ⟨clean, run⟩ | ⟨before, v, behind, place, clean, broken, run⟩
  · have pulled : scriptsContent vars = .ok (file (vars.map EdgeScriptVariable.line)) := by
      rw [scriptsContent, run]
      rfl
    exact .inl ⟨clean, _, pulled, pulled_of_content pulled⟩
  · refine .inr ⟨before, v, behind, place, clean, broken, ?_, invalidName_clean _⟩
    rw [scriptsContent, run]
    rfl

/-! ## `bunny apps env pull` -/

namespace EnvironmentVariable

def texts (v : EnvironmentVariable) : List UInt16 × List UInt16 := (v.name, v.value.getD [])

def line (v : EnvironmentVariable) : List UInt16 := v.texts.1 ++ 61 :: v.texts.2

end EnvironmentVariable

/-- Reads a line: the name up to the first `=`, and the value behind it. -/
def readLine (l : List UInt16) : Option (List UInt16 × List UInt16) :=
  match l.dropWhile (· ≠ 61) with
  | _ :: value => some (l.takeWhile (· ≠ 61), value)
  | [] => none

theorem readLine_line {v : EnvironmentVariable} (noEquals : 61 ∉ v.texts.1) :
    readLine v.line = some v.texts := by
  obtain ⟨front, back⟩ := name_of_line noEquals
  rw [readLine, EnvironmentVariable.line, back, front]

/-- The file of the variables of an app has one line for each, from which a reader gets those back
that have no `=` in their names. There is none exactly when a name or a value has a line break. -/
theorem appsContent_pulled (vars : List EnvironmentVariable) :
    (appsContent vars = .error lineBreaks ↔
        ∃ v ∈ vars, HasLineBreak v.texts.1 ∨ HasLineBreak v.texts.2) ∧
      ∀ content, appsContent vars = .ok content → 13 ∉ content ∧
        (vars ≠ [] → content.splitOn 10 = vars.map EnvironmentVariable.line ++ [[]]) ∧
        ((∀ v ∈ vars, 61 ∉ v.texts.1) →
          (lines content).mapM readLine = some (vars.map EnvironmentVariable.texts)) := by
  by_cases broken : ∃ v ∈ vars, HasLineBreak v.texts.1 ∨ HasLineBreak v.texts.2
  · have refused : appsContent vars = .error lineBreaks := if_pos broken
    rw [refused]
    exact ⟨iff_of_true rfl broken, fun _ none => by cases none⟩
  · have whole : (vars.map fun v => v.name ++ [61] ++ v.value.getD []) =
        vars.map EnvironmentVariable.line :=
      List.map_congr_left fun v _ => List.append_assoc _ _ _
    have written : appsContent vars = .ok (file (vars.map EnvironmentVariable.line)) := by
      rw [appsContent, whole]
      exact if_neg broken
    have clean : ∀ l ∈ vars.map EnvironmentVariable.line, ¬ HasLineBreak l := by
      refine List.forall_mem_map.2 fun v mem bad => broken ⟨v, mem, ?_⟩
      rcases hasLineBreak_append.1 bad with name | rest
      · exact .inl name
      · rcases hasLineBreak_append (s := [61]).1 rest with equals | value
        · exact absurd equals (by decide)
        · exact .inr value
    have single : ∀ l ∈ vars.map EnvironmentVariable.line, 10 ∉ l :=
      fun l mem feed => clean l mem (.inr feed)
    rw [written]
    refine ⟨iff_of_false (fun same => by cases same) broken, ?_⟩
    rintro _ ⟨⟩
    refine ⟨not_mem_file fun l mem return_ => clean l mem (.inl return_), fun some_v => ?_, ?_⟩
    · exact splitOn_file (by simpa using some_v) single
    · intro noEquals
      have full : ∀ l ∈ vars.map EnvironmentVariable.line, l ≠ [] :=
        List.forall_mem_map.2 fun v _ => by simp [EnvironmentVariable.line]
      rw [lines_file single full]
      exact mapM_read fun v mem => readLine_line (noEquals v mem)

end SecurityAudits.BunnycdnCli.EnvPull
