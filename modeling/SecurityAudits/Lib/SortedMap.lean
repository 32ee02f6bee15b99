import Mathlib.Order.Lattice
import Mathlib.Data.List.Basic

/-!
# Maps in the order of their keys

A sorted map is the list of its entries, its keys in strictly increasing order. There is one
such list for each finite map, so maps with the same values are equal (`SortedMap.ext_get?`).

A map to non-empty lists is a multimap. It can be read as the list of its pairs
(`SortedMap.pairs`), from which adding them one by one gives it back
(`SortedMap.addAll_pairs`).
-/

namespace SecurityAudits.Assoc
set_option autoImplicit false

/-- A finite map as its entries in the order of their keys. -/
structure SortedMap (K V : Type) [LinearOrder K] where
  entries : List (K × V)
  sorted : (entries.map Prod.fst).Pairwise (· < ·)
  deriving DecidableEq

variable {K V : Type} [LinearOrder K] {k l : K} {v : V} {entries rest : List (K × V)}

/-- The value of `k` among entries in any order. -/
def find? (k : K) : List (K × V) → Option V
  | [] => none
  | (l, v) :: rest => if k = l then some v else find? k rest

/-- The entries with the value of `k` replaced by what `f` makes of it. -/
def alterEntries (k : K) (f : Option V → V) : List (K × V) → List (K × V)
  | [] => [(k, f none)]
  | (l, v) :: rest =>
    if k < l then (k, f none) :: (l, v) :: rest
    else if k = l then (l, f (some v)) :: rest
    else (l, v) :: alterEntries k f rest

theorem find?_eq_none (absent : k ∉ entries.map Prod.fst) : find? k entries = none := by
  induction entries with
  | nil => rfl
  | cons entry rest ih =>
    rw [List.map_cons, List.mem_cons, not_or] at absent
    rw [find?, if_neg absent.1]
    exact ih absent.2

theorem find?_of_sorted (sorted : (((l, v) :: rest).map Prod.fst).Pairwise (· < ·))
    (below : k < l) : find? k ((l, v) :: rest) = none := by
  apply find?_eq_none
  intro listed
  rw [List.map_cons, List.pairwise_cons] at sorted
  rcases List.mem_cons.1 listed with rfl | later
  · exact lt_irrefl _ below
  · exact lt_asymm below (sorted.1 k later)

theorem mem_keys_alterEntries {f : Option V → V}
    (listed : l ∈ (alterEntries k f entries).map Prod.fst) :
    l = k ∨ l ∈ entries.map Prod.fst := by
  induction entries with
  | nil => exact .inl (List.mem_singleton.1 listed)
  | cons entry rest ih =>
    obtain ⟨m, v⟩ := entry
    rw [alterEntries] at listed
    split_ifs at listed
    · exact List.mem_cons.1 listed
    · exact .inr listed
    · rcases List.mem_cons.1 listed with rfl | later
      · exact .inr List.mem_cons_self
      · exact (ih later).imp_right (List.mem_cons_of_mem _)

theorem sorted_alterEntries (f : Option V → V) (k : K)
    (sorted : (entries.map Prod.fst).Pairwise (· < ·)) :
    ((alterEntries k f entries).map Prod.fst).Pairwise (· < ·) := by
  induction entries with
  | nil => exact List.pairwise_singleton _ _
  | cons entry rest ih =>
    obtain ⟨l, v⟩ := entry
    obtain ⟨above, tail⟩ := List.pairwise_cons.1 sorted
    rw [alterEntries]
    split_ifs with below same
    · refine List.pairwise_cons.2 ⟨?_, sorted⟩
      intro m listed
      rcases List.mem_cons.1 listed with rfl | later
      · exact below
      · exact lt_trans below (above m later)
    · exact sorted
    · refine List.pairwise_cons.2 ⟨?_, ih tail⟩
      intro m listed
      rcases mem_keys_alterEntries listed with rfl | later
      · exact lt_of_le_of_ne (not_lt.1 below) (Ne.symm same)
      · exact above m later

theorem find?_alterEntries_self (f : Option V → V)
    (sorted : (entries.map Prod.fst).Pairwise (· < ·)) :
    find? k (alterEntries k f entries) = some (f (find? k entries)) := by
  induction entries with
  | nil => simp [alterEntries, find?]
  | cons entry rest ih =>
    obtain ⟨l, v⟩ := entry
    rw [alterEntries]
    split_ifs with below same
    · rw [find?_of_sorted sorted below, find?, if_pos rfl]
    · rw [find?, find?, if_pos same, if_pos same]
    · rw [find?, find?, if_neg same, if_neg same]
      exact ih (List.pairwise_cons.1 sorted).2

theorem find?_alterEntries_of_ne (f : Option V → V) (other : l ≠ k) :
    find? l (alterEntries k f entries) = find? l entries := by
  induction entries with
  | nil => simp [alterEntries, find?, other]
  | cons entry rest ih =>
    obtain ⟨m, v⟩ := entry
    rw [alterEntries]
    split_ifs with below same
    · rw [find?, if_neg other]
    · subst same
      rw [find?, find?, if_neg other, if_neg other]
    · rw [find?, find?, ih]

/-- Sorted entries are determined by the values they give. -/
theorem entries_ext {others : List (K × V)}
    (sorted : (entries.map Prod.fst).Pairwise (· < ·))
    (sortedOthers : (others.map Prod.fst).Pairwise (· < ·))
    (same : ∀ k, find? k entries = find? k others) : entries = others := by
  induction entries generalizing others with
  | nil =>
    cases others with
    | nil => rfl
    | cons entry rest =>
      have found := same entry.1
      rw [find?, find?, if_pos rfl] at found
      cases found
  | cons entry rest ih =>
    obtain ⟨l, v⟩ := entry
    cases others with
    | nil =>
      have found := same l
      rw [find?, find?, if_pos rfl] at found
      cases found
    | cons other rest' =>
      obtain ⟨m, w⟩ := other
      have first : l = m := by
        rcases lt_trichotomy l m with below | equal | above
        · have found := same l
          rw [find?_of_sorted sortedOthers below, find?, if_pos rfl] at found
          cases found
        · exact equal
        · have found := same m
          rw [find?_of_sorted sorted above, find?, if_pos rfl] at found
          cases found
      subst first
      have value := same l
      rw [find?, find?, if_pos rfl, if_pos rfl] at value
      obtain rfl := Option.some.inj value
      rw [ih (List.pairwise_cons.1 sorted).2 (List.pairwise_cons.1 sortedOthers).2]
      intro k
      by_cases head : k = l
      · subst head
        rw [find?_eq_none, find?_eq_none]
        · exact fun listed => lt_irrefl _ ((List.pairwise_cons.1 sortedOthers).1 k listed)
        · exact fun listed => lt_irrefl _ ((List.pairwise_cons.1 sorted).1 k listed)
      · have found := same k
        rwa [find?, find?, if_neg head, if_neg head] at found

namespace SortedMap

def empty : SortedMap K V := ⟨[], List.Pairwise.nil⟩

def get? (m : SortedMap K V) (k : K) : Option V := find? k m.entries

def alter (m : SortedMap K V) (k : K) (f : Option V → V) : SortedMap K V :=
  ⟨alterEntries k f m.entries, sorted_alterEntries f k m.sorted⟩

/-- `put`: the value of `k` is `v`, whatever it was. -/
def put (m : SortedMap K V) (k : K) (v : V) : SortedMap K V := m.alter k fun _ => v

variable {m n : SortedMap K V}

@[simp] theorem get?_alter_self (f : Option V → V) :
    (m.alter k f).get? k = some (f (m.get? k)) :=
  find?_alterEntries_self f m.sorted

theorem get?_alter_of_ne (f : Option V → V) (other : l ≠ k) :
    (m.alter k f).get? l = m.get? l :=
  find?_alterEntries_of_ne f other

@[simp] theorem get?_put_self : (m.put k v).get? k = some v := get?_alter_self _

theorem get?_put_of_ne (other : l ≠ k) : (m.put k v).get? l = m.get? l :=
  get?_alter_of_ne _ other

theorem ext_get? (same : ∀ k, m.get? k = n.get? k) : m = n := by
  obtain ⟨entries, sorted⟩ := m
  obtain ⟨others, sortedOthers⟩ := n
  obtain rfl : entries = others := entries_ext sorted sortedOthers same
  rfl

end SortedMap

/-! ## Multimaps -/

/-- The values of one key, of which there is at least one. -/
abbrev Values (V : Type) := { values : List V // values ≠ [] }

/-- A multimap: to each key the list of its values. -/
abbrev Multimap (K V : Type) [LinearOrder K] := SortedMap K (Values V)

def Values.single (v : V) : Values V := ⟨[v], List.cons_ne_nil _ _⟩

/-- `computeIfAbsent(k, new list).add(v)`. -/
def Values.add (v : V) : Option (Values V) → Values V
  | none => .single v
  | some values => ⟨values.1 ++ [v], List.append_ne_nil_of_right_ne_nil _ (List.cons_ne_nil _ _)⟩

namespace SortedMap
variable {m n : Multimap K V}

def add (m : Multimap K V) (k : K) (v : V) : Multimap K V := m.alter k (Values.add v)

/-- The multimap that the pairs make, added in their order. -/
def addAll (m : Multimap K V) (pairs : List (K × V)) : Multimap K V :=
  pairs.foldl (fun m (k, v) => m.add k v) m

/-- The pairs of a multimap, by key and then in the order of the values. -/
def pairs (m : Multimap K V) : List (K × V) :=
  m.entries.flatMap fun (k, values) => values.1.map fun v => (k, v)

/-- The values of `k`, an empty list when there are none. -/
def values (m : Multimap K V) (k : K) : List V := (m.get? k).elim [] Subtype.val

/-- The values that `pairs` have for `k`. -/
def valuesIn (k : K) (pairs : List (K × V)) : List V :=
  pairs.filterMap fun (l, v) => if k = l then some v else none

theorem values_empty (k : K) : (empty : Multimap K V).values k = [] := rfl

theorem values_add_self : (m.add k v).values k = m.values k ++ [v] := by
  rw [values, add, get?_alter_self, values]
  cases m.get? k <;> rfl

theorem values_add_of_ne (other : l ≠ k) : (m.add k v).values l = m.values l := by
  rw [values, add, get?_alter_of_ne _ other, values]

theorem values_put_self : (m.put k (.single v)).values k = [v] := by
  rw [values, get?_put_self]
  rfl

theorem values_put_of_ne (other : l ≠ k) (new : Values V) : (m.put k new).values l = m.values l := by
  rw [values, get?_put_of_ne other, values]

theorem ext_values (same : ∀ k, m.values k = n.values k) : m = n := by
  apply ext_get?
  intro k
  have equal := same k
  unfold values at equal
  cases left : m.get? k with
  | none =>
    cases right : n.get? k with
    | none => rfl
    | some values =>
      rw [left, right] at equal
      exact absurd equal.symm values.2
  | some values =>
    cases right : n.get? k with
    | none =>
      rw [left, right] at equal
      exact absurd equal values.2
    | some others =>
      rw [left, right] at equal
      exact congrArg some (Subtype.ext equal)

theorem valuesIn_cons_self (k : K) (v : V) (pairs : List (K × V)) :
    valuesIn k ((k, v) :: pairs) = v :: valuesIn k pairs := by
  simp [valuesIn]

theorem valuesIn_cons_of_ne (other : k ≠ l) (v : V) (pairs : List (K × V)) :
    valuesIn k ((l, v) :: pairs) = valuesIn k pairs := by
  simp [valuesIn, other]

theorem values_addAll (k : K) (pairs : List (K × V)) (m : Multimap K V) :
    (m.addAll pairs).values k = m.values k ++ valuesIn k pairs := by
  induction pairs generalizing m with
  | nil => exact (List.append_nil _).symm
  | cons pair rest ih =>
    obtain ⟨l, v⟩ := pair
    have cons : (m.addAll ((l, v) :: rest)) = (m.add l v).addAll rest := rfl
    rw [cons, ih]
    by_cases here : k = l
    · subst here
      rw [values_add_self, valuesIn_cons_self, List.append_assoc]
      rfl
    · rw [values_add_of_ne here, valuesIn_cons_of_ne here]

theorem valuesIn_append (k : K) (before after : List (K × V)) :
    valuesIn k (before ++ after) = valuesIn k before ++ valuesIn k after :=
  List.filterMap_append

theorem valuesIn_same (k : K) (values : List V) :
    valuesIn k (values.map fun v => (k, v)) = values := by
  simp [valuesIn, List.filterMap_map]

theorem valuesIn_other (other : k ≠ l) (values : List V) :
    valuesIn k (values.map fun v => (l, v)) = [] := by
  simp [valuesIn, List.filterMap_map, other]

/-- The pairs have exactly the values of the map. -/
theorem valuesIn_pairs (k : K) (m : Multimap K V) : valuesIn k m.pairs = m.values k := by
  obtain ⟨entries, sorted⟩ := m
  unfold pairs values get?
  dsimp only
  induction entries with
  | nil => rfl
  | cons entry rest ih =>
    obtain ⟨l, values⟩ := entry
    obtain ⟨above, tail⟩ := List.pairwise_cons.1 sorted
    rw [List.flatMap_cons, valuesIn_append, ih tail, find?]
    by_cases here : k = l
    · subst here
      rw [valuesIn_same, if_pos rfl,
        find?_eq_none fun listed => lt_irrefl _ (above k listed)]
      exact List.append_nil _
    · rw [valuesIn_other here, if_neg here]
      rfl

/-- **Reading the pairs back gives the map.** -/
theorem addAll_pairs (m : Multimap K V) : empty.addAll m.pairs = m := by
  apply ext_values
  intro k
  rw [values_addAll, valuesIn_pairs]
  rfl

theorem pairs_injective (same : m.pairs = n.pairs) : m = n := by
  rw [← addAll_pairs m, same, addAll_pairs]

theorem mem_pairs {pair : K × V} : pair ∈ m.pairs ↔ pair.2 ∈ m.values pair.1 := by
  rw [← valuesIn_pairs, valuesIn, List.mem_filterMap]
  constructor
  · intro listed
    exact ⟨pair, listed, if_pos rfl⟩
  · rintro ⟨⟨key, value⟩, listed, found⟩
    dsimp only at found
    split_ifs at found with same
    obtain rfl : pair = (key, value) := Prod.ext same (Option.some.inj found).symm
    exact listed

end SortedMap

end SecurityAudits.Assoc
