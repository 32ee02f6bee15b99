import SecurityAudits.Lib.SortedMap
import SecurityAudits.Lib.JavaUrl
import Mathlib.Data.List.DropRight

/-!
# The parameters of a signed URL

`TokenSigner` decodes the query into a sorted multimap, adds its own parameters and writes
the result twice: with raw values into the data it signs, and with encoded values into the
URL it returns. Neither text escapes the keys, nor the first one the values, so a separator
inside them is not told from one between them (`separator_in_value`, `separator_in_key`).
Without separators inside, the signed data determines the parameters (`signing_binds`), and
the URL is read back as the parameters that were signed (`url_round_trip`).
-/

namespace SecurityAudits.BunnyCdn.TokenSigner
set_option autoImplicit false
open SecurityAudits.JavaUrl SecurityAudits.Assoc SortedMap

abbrev Params := Multimap JavaString JavaString

/-- What the patch does not show of the loop of step 2: whether a `=` at the start of a pair
splits it, and whether empty pairs are skipped. The third part is the decoder's. -/
structure Parser where
  splitsLeadingEquals : Bool
  skipsEmptyPairs : Bool
  malformedLength : List UInt8 → Nat

/-- `query.split("&")`: the pieces, less the empty ones at the end. -/
def splitPairs (query : JavaString) : List JavaString :=
  (query.splitOn ampersand).rdropWhile List.isEmpty

/-- The key and the value of a pair; `none` where the decoder throws. -/
def parsePair (p : Parser) (pair : JavaString) : Option (JavaString × JavaString) :=
  let idx := pair.idxOf equalsSign
  if idx < pair.length ∧ (p.splitsLeadingEquals ∨ 0 < idx) then
    (urlDecode p.malformedLength (pair.take idx)).bind fun key =>
      (urlDecode p.malformedLength (pair.drop (idx + 1))).map fun value => (key, value)
  else (urlDecode p.malformedLength pair).map fun key => (key, [])

def parsePairs (p : Parser) : List JavaString → Params → Option Params
  | [], queryParams => some queryParams
  | pair :: pairs, queryParams =>
    if p.skipsEmptyPairs && pair.isEmpty then parsePairs p pairs queryParams
    else (parsePair p pair).bind fun (key, value) => parsePairs p pairs (queryParams.add key value)

/-- Step 2, with the empty string for a query that is missing. -/
def parseQuery (p : Parser) (query : JavaString) : Option Params :=
  if query.isEmpty then some empty else parsePairs p (splitPairs query) empty

/-- The other inputs of `signUrl` that become parameters, empty where they are null. -/
structure Settings where
  countriesAllowed : JavaString
  countriesBlocked : JavaString
  speedLimit : Int
  ignoreParams : Bool
  pathAllowed : JavaString

/-- `put`, when there is something to put. -/
def putIf (given : Bool) (key : String) (value : JavaString) (params : Params) : Params :=
  if given then params.put (java key) (.single value) else params

/-- Step 3. -/
def addCountries (s : Settings) (queryParams : Params) : Params :=
  putIf (0 < s.speedLimit) "limit" (java (toString s.speedLimit))
    (putIf (!s.countriesBlocked.isEmpty) "token_countries_blocked" s.countriesBlocked
      (putIf (!s.countriesAllowed.isEmpty) "token_countries" s.countriesAllowed queryParams))

/-- Step 5: the parameters that are signed. -/
def parameters (s : Settings) (queryParams : Params) : Params :=
  putIf (!s.pathAllowed.isEmpty) "token_path" s.pathAllowed
    (if s.ignoreParams then putIf true "token_ignore_params" (java "true") empty
      else addCountries s queryParams)

/-- One turn of the loops of steps 7 and 8. -/
def appendParam (encode : JavaString → JavaString) (key sb value : JavaString) : JavaString :=
  (if 0 < sb.length then sb ++ [ampersand] else sb) ++ key ++ [equalsSign] ++ encode value

def joinParams (encode : JavaString → JavaString) (params : Params) : JavaString :=
  params.entries.foldl
    (fun sb (key, values) => values.1.foldl (fun sb value => appendParam encode key sb value) sb) []

/-- Step 7: the raw values. -/
def signingData (params : Params) : JavaString := joinParams id params

/-- Step 8: the encoded values, with the space as `%20`. -/
def urlData (params : Params) : JavaString :=
  joinParams (fun value => replacePlus (urlEncode value)) params

variable {s : Settings} {p : Parser} {m n q r : Params} {key value : JavaString}
  {encode : JavaString → JavaString} {pairs others : List (JavaString × JavaString)}

def segment (encode : JavaString → JavaString) (pair : JavaString × JavaString) : JavaString :=
  pair.1 ++ equalsSign :: encode pair.2

theorem segment_mk (key value : JavaString) :
    segment encode (key, value) = key ++ equalsSign :: encode value := rfl

theorem segment_ne_nil (pair : JavaString × JavaString) : segment encode pair ≠ [] :=
  List.append_ne_nil_of_right_ne_nil _ (List.cons_ne_nil _ _)

theorem appendParam_eq (key sb value : JavaString) :
    appendParam encode key sb value =
      (if 0 < sb.length then sb ++ [ampersand] else sb) ++ segment encode (key, value) := by
  simp [appendParam, segment]

/-- The pairs as text, each after a separator. -/
def separated (encode : JavaString → JavaString) (pairs : List (JavaString × JavaString)) :
    JavaString :=
  pairs.flatMap fun pair => ampersand :: segment encode pair

/-- What the loops append to a text that is not empty. -/
theorem foldl_appendParam (sb : JavaString) (nonempty : 0 < sb.length) :
    pairs.foldl (fun sb (key, value) => appendParam encode key sb value) sb =
      sb ++ separated encode pairs := by
  induction pairs generalizing sb with
  | nil => exact (List.append_nil sb).symm
  | cons pair pairs ih =>
    obtain ⟨key, value⟩ := pair
    rw [List.foldl_cons]
    dsimp only
    have longer : 0 < (sb ++ [ampersand] ++ segment encode (key, value)).length := by
      rw [List.length_append]
      exact Nat.add_pos_right _ (List.length_pos_of_ne_nil (segment_ne_nil _))
    rw [appendParam_eq, if_pos nonempty, ih _ longer, separated, separated, List.flatMap_cons]
    simp only [List.append_assoc, List.cons_append, List.nil_append]

/-- The nested loops write the pairs one after the other, with separators between them. -/
theorem joinParams_cons {pair : JavaString × JavaString} (split : m.pairs = pair :: pairs) :
    joinParams encode m = segment encode pair ++ separated encode pairs := by
  have nested : joinParams encode m =
      m.pairs.foldl (fun sb (key, value) => appendParam encode key sb value) [] := by
    simp only [joinParams, SortedMap.pairs, List.foldl_flatMap, List.foldl_map]
  obtain ⟨key, value⟩ := pair
  rw [nested, split, List.foldl_cons]
  dsimp only
  rw [appendParam_eq, if_neg (by decide), List.nil_append,
    foldl_appendParam _ (List.length_pos_of_ne_nil (segment_ne_nil _))]

theorem joinParams_nil (none : m.pairs = []) : joinParams encode m = [] := by
  have empty : m = empty := pairs_injective none
  rw [empty]
  rfl

/-- Two maps with the same text have the same text with a separator before each pair. -/
theorem separated_eq_of_joinParams (same : joinParams encode m = joinParams encode n) :
    separated encode m.pairs = separated encode n.pairs := by
  cases left : m.pairs with
  | nil =>
    cases right : n.pairs with
    | nil => rfl
    | cons pair pairs =>
      rw [joinParams_nil left, joinParams_cons right] at same
      exact absurd (List.append_eq_nil_iff.1 same.symm).1 (segment_ne_nil pair)
  | cons pair pairs =>
    cases right : n.pairs with
    | nil =>
      rw [joinParams_cons left, joinParams_nil right] at same
      exact absurd (List.append_eq_nil_iff.1 same).1 (segment_ne_nil pair)
    | cons other others =>
      rw [joinParams_cons left, joinParams_cons right] at same
      exact congrArg (ampersand :: ·) same

/-! ## The signed data -/

/-- A key that holds no separator. -/
def CleanKey (key : JavaString) : Prop := ampersand ∉ key ∧ equalsSign ∉ key

instance (key : JavaString) : Decidable (CleanKey key) :=
  inferInstanceAs (Decidable (_ ∧ _))

/-- No key and no value holds a separator. -/
def Clean (params : Params) : Prop :=
  ∀ pair ∈ params.pairs, CleanKey pair.1 ∧ ampersand ∉ pair.2

instance (params : Params) : Decidable (Clean params) :=
  inferInstanceAs (Decidable (∀ pair ∈ params.pairs, _))

/-- The values of a key are clean in both maps, or one and the same value. -/
def Matched (m n : Params) : Prop :=
  (∀ key value, value ∈ m.values key ∨ value ∈ n.values key → CleanKey key) ∧
  ∀ key, (∃ value, m.values key = [value] ∧ n.values key = [value]) ∨
    ∀ value, value ∈ m.values key ∨ value ∈ n.values key → ampersand ∉ value

theorem Clean.matched (cleanM : Clean m) (cleanN : Clean n) : Matched m n := by
  refine ⟨?_, fun key => .inr ?_⟩
  · rintro key value (listed | listed)
    · exact (cleanM (key, value) (mem_pairs.2 listed)).1
    · exact (cleanN (key, value) (mem_pairs.2 listed)).1
  · rintro value (listed | listed)
    · exact (cleanM (key, value) (mem_pairs.2 listed)).2
    · exact (cleanN (key, value) (mem_pairs.2 listed)).2

theorem Matched.put (h : Matched m n) (clean : CleanKey key) (value : JavaString) :
    Matched (m.put key (.single value)) (n.put key (.single value)) := by
  constructor
  · intro other listed found
    by_cases here : other = key
    · rwa [here]
    · rw [values_put_of_ne here, values_put_of_ne here] at found
      exact h.1 other listed found
  · intro other
    by_cases here : other = key
    · subst here
      exact .inl ⟨value, values_put_self, values_put_self⟩
    · rw [values_put_of_ne here, values_put_of_ne here]
      exact h.2 other

theorem Matched.putIf (h : Matched m n) {name : String} (clean : CleanKey (java name))
    (given : Bool) (value : JavaString) :
    Matched (putIf given name value m) (putIf given name value n) := by
  unfold TokenSigner.putIf
  cases given with
  | false => exact h
  | true => exact h.put clean value

/-- The parameters the signer adds are the same on both sides. -/
theorem Matched.parameters (h : Matched q r) (s : Settings) :
    Matched (parameters s q) (parameters s r) := by
  have nothing : Matched empty empty := by
    constructor
    · intro key value listed
      exact absurd listed (by simp [values_empty])
    · intro key
      right
      intro value listed
      exact absurd listed (by simp [values_empty])
  have countries : Matched (addCountries s q) (addCountries s r) := by
    refine Matched.putIf ?_ (by decide) _ _
    refine Matched.putIf ?_ (by decide) _ _
    exact h.putIf (by decide) _ _
  refine Matched.putIf ?_ (by decide) _ _
  cases s.ignoreParams with
  | false => exact countries
  | true =>
    have clean : CleanKey (java "token_ignore_params") := by decide
    exact nothing.putIf clean true (java "true")

/-- Two texts with the same separator agree on what stands before its first occurrence. -/
theorem first_separator {α : Type} {a : α} {x y z w : List α} (left : a ∉ x) (right : a ∉ y)
    (same : x ++ a :: z = y ++ a :: w) : x = y ∧ z = w := by
  induction x generalizing y with
  | nil =>
    cases y with
    | nil => exact ⟨rfl, (List.cons.inj same).2⟩
    | cons b y => exact absurd ((List.cons.inj same).1 ▸ List.mem_cons_self) right
  | cons b x ih =>
    cases y with
    | nil => exact absurd ((List.cons.inj same).1 ▸ List.mem_cons_self) left
    | cons c y =>
      obtain ⟨rfl, tails⟩ := List.cons.inj same
      obtain ⟨rfl, rest⟩ := ih (fun listed => left (List.mem_cons_of_mem _ listed))
        (fun listed => right (List.mem_cons_of_mem _ listed)) tails
      exact ⟨rfl, rest⟩

/-- A text of pairs is empty or starts with a separator. -/
theorem separated_cases (encode : JavaString → JavaString)
    (pairs : List (JavaString × JavaString)) :
    separated encode pairs = [] ∨ ∃ rest, separated encode pairs = ampersand :: rest := by
  cases pairs with
  | nil => exact .inl rfl
  | cons pair pairs => exact .inr ⟨_, rfl⟩

/-- A value without separator ends at the first one. -/
theorem value_eq_of_separated {value' : JavaString} (clean : ampersand ∉ value)
    (clean' : ampersand ∉ value')
    (same : value ++ separated encode pairs = value' ++ separated encode others) :
    value = value' := by
  rcases separated_cases encode pairs with none | ⟨rest, some⟩ <;>
    rcases separated_cases encode others with none' | ⟨rest', some'⟩
  · rwa [none, none', List.append_nil, List.append_nil] at same
  · rw [none, some', List.append_nil] at same
    exact absurd (same ▸ List.mem_append_right _ List.mem_cons_self) clean
  · rw [some, none', List.append_nil] at same
    exact absurd (same.symm ▸ List.mem_append_right _ List.mem_cons_self) clean'
  · rw [some, some'] at same
    exact (first_separator clean clean' same).1

/-- The raw text determines the pairs. -/
theorem separated_injective
    (keys : ∀ pair, pair ∈ pairs ∨ pair ∈ others → CleanKey pair.1)
    (values : ∀ pair ∈ pairs, ∀ other ∈ others, pair.1 = other.1 →
      pair.2 = other.2 ∨ ampersand ∉ pair.2 ∧ ampersand ∉ other.2)
    (same : separated id pairs = separated id others) : pairs = others := by
  induction pairs generalizing others with
  | nil =>
    cases others with
    | nil => rfl
    | cons other others => cases same
  | cons pair pairs ih =>
    cases others with
    | nil => cases same
    | cons other others =>
      obtain ⟨key, value⟩ := pair
      obtain ⟨key', value'⟩ := other
      have clean := keys _ (.inl List.mem_cons_self)
      have clean' := keys _ (.inr List.mem_cons_self)
      have text : key ++ equalsSign :: (value ++ separated id pairs) =
          key' ++ equalsSign :: (value' ++ separated id others) := by
        simpa [separated, segment] using same
      obtain ⟨rfl, tails⟩ := first_separator clean.2 clean'.2 text
      have first : value = value' := by
        rcases values _ List.mem_cons_self _ List.mem_cons_self rfl with equal | ⟨left, right⟩
        · exact equal
        · exact value_eq_of_separated left right tails
      subst first
      rw [ih (fun pair listed => keys pair (listed.imp (List.mem_cons_of_mem _)
        (List.mem_cons_of_mem _))) (fun pair listed other listedOther =>
        values pair (List.mem_cons_of_mem _ listed) other (List.mem_cons_of_mem _ listedOther))
        (List.append_cancel_left tails)]

/-- The data that is signed determines matched maps. -/
theorem Matched.signingData_injective (h : Matched m n)
    (same : signingData m = signingData n) : m = n := by
  apply pairs_injective
  refine separated_injective ?_ ?_ (separated_eq_of_joinParams same)
  · rintro pair (listed | listed)
    · exact h.1 pair.1 pair.2 (.inl (mem_pairs.1 listed))
    · exact h.1 pair.1 pair.2 (.inr (mem_pairs.1 listed))
  · intro pair listed other listedOther sameKey
    have left := mem_pairs.1 listed
    have right := mem_pairs.1 listedOther
    rw [← sameKey] at right
    rcases h.2 pair.1 with ⟨value, one, oneOther⟩ | clean
    · rw [one, List.mem_singleton] at left
      rw [oneOther, List.mem_singleton] at right
      exact .inl (left.trans right.symm)
    · exact .inr ⟨clean pair.2 (.inl left), clean other.2 (.inr right)⟩

/-- No countries, no limit, no path. -/
def plain : Settings := ⟨[], [], 0, false, []⟩

/-- `a=1%26b%3D2`: one parameter, whose value is `1&b=2`. -/
def oneParam : Params := empty.add (java "a") (java "1&b=2")

/-- `a=1&b=2`. -/
def twoParams : Params := (empty.add (java "a") (java "1")).add (java "b") (java "2")

/-- Two different sets of parameters with the same signed data; and a query's own `limit` is
replaced when the signer sets one. -/
theorem separator_in_value :
    signingData (parameters plain oneParam) = signingData (parameters plain twoParams) ∧
      oneParam ≠ twoParams ∧
    signingData (parameters ⟨[], [], 10, false, []⟩ (empty.add (java "limit") (java "5"))) =
      signingData (parameters ⟨[], [], 10, false, []⟩ empty) ∧
      empty.add (java "limit") (java "5") ≠ (empty : Params) := by
  decide +kernel

/-- **Tokens bind parameters without separators inside.** When no key of two queries holds
`=` or `&` and no value holds `&`, equal signed data means equal parameters, whatever the
other inputs are. -/
theorem signing_binds (s : Settings) (q r : Params) (cleanQ : Clean q) (cleanR : Clean r)
    (same : signingData (parameters s q) = signingData (parameters s r)) :
    parameters s q = parameters s r :=
  ((cleanQ.matched cleanR).parameters s).signingData_injective same

/-- `a=1&b=2&limit=5`. -/
def ownLimit : Params := twoParams.add (java "limit") (java "5")

/-- The signer's limit takes the place of that of the query. -/
theorem signing_binds_ownLimit :
    twoParams ≠ ownLimit ∧
      parameters ⟨[], [], 10, false, []⟩ twoParams
        = parameters ⟨[], [], 10, false, []⟩ ownLimit := by
  have clean : Clean twoParams ∧ Clean ownLimit := by decide +kernel
  exact ⟨by decide +kernel, signing_binds _ _ _ clean.1 clean.2 (by decide +kernel)⟩

/-! ## The URL -/

/-- A key that the decoder leaves as it is and the parser does not split. -/
structure SafeKey (p : Parser) (key : JavaString) : Prop where
  ampersand : ampersand ∉ key
  equalsSign : equalsSign ∉ key
  percentSign : percentSign ∉ key
  plus : plus ∉ key
  splits : p.splitsLeadingEquals = true ∨ key ≠ []

/-- Every key is safe, and every value has a UTF-8 form. -/
def Writable (p : Parser) (params : Params) : Prop :=
  ∀ pair ∈ params.pairs, SafeKey p pair.1 ∧ WellFormed pair.2

/-- The encoding of step 8. -/
def encodeValue (value : JavaString) : JavaString := replacePlus (urlEncode value)

theorem segment_no_ampersand (safe : SafeKey p key) (wellFormed : WellFormed value) :
    ampersand ∉ segment encodeValue (key, value) := by
  obtain ⟨text, rfl⟩ := wellFormed.eq_utf16
  rw [segment, encodeValue, replacePlus_urlEncode]
  intro listed
  rcases List.mem_append.1 listed with inKey | rest
  · exact safe.ampersand inKey
  · rcases List.mem_cons.1 rest with equal | inValue
    · exact absurd equal (by decide)
    · exact (percentEncoded_ne inValue).1 rfl

/-- A pair that step 8 wrote is read back by step 2. -/
theorem parsePair_segment (safe : SafeKey p key) (wellFormed : WellFormed value) :
    parsePair p (segment encodeValue (key, value)) = some (key, value) := by
  obtain ⟨text, rfl⟩ := wellFormed.eq_utf16
  have idx : (segment encodeValue (key, utf16 text)).idxOf equalsSign = key.length := by
    rw [segment_mk, List.idxOf_append, if_neg safe.equalsSign, List.idxOf_cons_self, Nat.zero_add]
  have splits : key.length < (segment encodeValue (key, utf16 text)).length ∧
      (p.splitsLeadingEquals = true ∨ 0 < key.length) := by
    refine ⟨?_, safe.splits.imp_right List.length_pos_of_ne_nil⟩
    rw [segment_mk, List.length_append, List.length_cons]
    omega
  have keyText : (segment encodeValue (key, utf16 text)).take key.length = key :=
    List.take_left
  have valueText : (segment encodeValue (key, utf16 text)).drop (key.length + 1) =
      encodeValue (utf16 text) := by
    rw [segment_mk, ← List.singleton_append, ← List.append_assoc]
    apply List.drop_left'
    rw [List.length_append, List.length_singleton]
  have plainKey : ∀ u ∈ key, u ≠ percentSign ∧ u ≠ plus := by
    intro u listed
    exact ⟨fun same => safe.percentSign (same ▸ listed), fun same => safe.plus (same ▸ listed)⟩
  rw [parsePair]
  simp only [idx]
  rw [if_pos splits, keyText, valueText, urlDecode_eq_self plainKey, encodeValue,
    urlDecode_urlEncode]
  rfl

theorem parsePairs_segments
    (writable : ∀ pair ∈ pairs, SafeKey p pair.1 ∧ WellFormed pair.2) (params : Params) :
    parsePairs p (pairs.map (segment encodeValue)) params = some (params.addAll pairs) := by
  induction pairs generalizing params with
  | nil => rfl
  | cons pair pairs ih =>
    obtain ⟨key, value⟩ := pair
    obtain ⟨safe, wellFormed⟩ := writable _ List.mem_cons_self
    have nonempty : (segment encodeValue (key, value)).isEmpty = false := by
      simp [segment_ne_nil]
    rw [List.map_cons, parsePairs, nonempty, Bool.and_false, if_neg (by decide),
      parsePair_segment safe wellFormed, Option.bind_some]
    exact ih (fun pair listed => writable pair (List.mem_cons_of_mem _ listed)) _

/-- Step 8 writes the pairs separated by `&`. -/
theorem urlData_eq (params : Params) :
    urlData params = [ampersand].intercalate (params.pairs.map (segment encodeValue)) := by
  have cons : ∀ first rest, [ampersand].intercalate (first :: rest) =
      first ++ rest.flatMap (ampersand :: ·) := by
    intro first rest
    induction rest generalizing first with
    | nil => simp
    | cons second rest ih => rw [List.intercalate_cons_cons, ih, List.flatMap_cons]; simp
  cases split : params.pairs with
  | nil => exact joinParams_nil split
  | cons pair pairs =>
    rw [List.map_cons, cons, List.flatMap_map]
    exact joinParams_cons split

/-- What step 8 wrote is split into its pairs. -/
theorem splitPairs_urlData {params : Params} (nonempty : params.pairs ≠ [])
    (writable : Writable p params) :
    splitPairs (urlData params) = params.pairs.map (segment encodeValue) := by
  have pieces : (urlData params).splitOn ampersand = params.pairs.map (segment encodeValue) := by
    rw [urlData_eq]
    apply List.splitOn_intercalate
    · intro piece listed
      obtain ⟨pair, here, rfl⟩ := List.mem_map.1 listed
      exact segment_no_ampersand (writable pair here).1 (writable pair here).2
    · exact mt List.map_eq_nil_iff.1 nonempty
  rw [splitPairs, pieces, List.rdropWhile_eq_self_iff]
  intro _ blank
  obtain ⟨pair, -, last⟩ := List.mem_map.1 (List.getLast_mem (mt List.map_eq_nil_iff.1 nonempty))
  rw [← last] at blank
  exact segment_ne_nil pair (List.isEmpty_iff.1 blank)

/-- A parser that splits each pair at its first `=`. -/
def firstEquals : Parser := ⟨true, false, fun _ => 1⟩

/-- `a%26b=1` is accepted, and its one parameter is written so that two are read back. -/
theorem separator_in_key :
    ∃ q, parseQuery firstEquals (java "a%26b=1") = some q ∧
      urlData (parameters plain q) = java "a&b=1" ∧
      parseQuery firstEquals (urlData (parameters plain q)) ≠ some (parameters plain q) := by
  refine ⟨empty.add (java "a&b") (java "1"), ?_, ?_, ?_⟩
  · decide +kernel
  · decide +kernel
  · decide +kernel

/-- **The URL is read back as it was signed.** For every query, when the keys that are signed
are safe and the values have no unpaired surrogate, step 2 reads step 8's text back as exactly
the parameters that were signed. -/
theorem url_round_trip (p : Parser) (s : Settings) (q : Params)
    (writable : Writable p (parameters s q)) :
    parseQuery p (urlData (parameters s q)) = some (parameters s q) := by
  generalize parameters s q = params at writable ⊢
  cases split : params.pairs with
  | nil =>
    have none : params = empty := pairs_injective split
    rw [none]
    rfl
  | cons pair pairs =>
    have nonempty : params.pairs ≠ [] := split ▸ List.cons_ne_nil _ _
    have text : (urlData params).isEmpty = false := by
      rw [urlData, joinParams_cons split]
      simp [segment_ne_nil]
    rw [parseQuery, text, if_neg (by decide), splitPairs_urlData nonempty writable,
      parsePairs_segments writable, addAll_pairs]

/-- `a=1&b=&a=%20%C3%A9`: a repeated key, an empty value, and characters to encode. -/
theorem url_round_trip_repeated :
    ∃ q, parseQuery firstEquals (java "a=1&b=&a=%20%C3%A9") = some q ∧
      q.pairs = [(java "a", java "1"), (java "a", java " é"), (java "b", [])] ∧
      parseQuery firstEquals (urlData (parameters plain q)) = some (parameters plain q) := by
  have accepted : parseQuery firstEquals (java "a=1&b=&a=%20%C3%A9") =
      some (empty.addAll [(java "a", java "1"), (java "b", []), (java "a", java " é")]) := by
    decide +kernel
  refine ⟨_, accepted, by decide +kernel, url_round_trip firstEquals plain _ ?_⟩
  have pairs : (parameters plain (empty.addAll [(java "a", java "1"), (java "b", []),
      (java "a", java " é")])).pairs =
        [(java "a", java "1"), (java "a", java " é"), (java "b", [])] := by decide +kernel
  intro pair listed
  rw [pairs] at listed
  simp only [List.mem_cons, List.not_mem_nil, or_false] at listed
  rcases listed with rfl | rfl | rfl
  all_goals
    exact ⟨⟨by decide, by decide, by decide, by decide, .inl rfl⟩, by decide⟩

end SecurityAudits.BunnyCdn.TokenSigner
