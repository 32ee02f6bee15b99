import Mathlib.Data.List.Basic

/-!
# Sensitive headers on a cross-origin redirect

The redirect path of `HTTPClient` (`src/http/lib.rs`) removes the headers of some names from the
request before it follows a redirect to another origin. For each name, an index walks over the
entries, from which `ordered_remove` takes the matching ones, so that the next entry comes under the
index that stays.

An entry matches a name by the length and the hash of its own name; how entries hold their names and
how names are hashed are parameters.
-/

namespace SecurityAudits.BunRust.RedirectHeaders
set_option autoImplicit false

/-- `header_str`, which reads the name of an entry, and `hash_header_name`. -/
structure Names (Entry : Type) where
  headerStr : Entry → List UInt8
  hashHeaderName : List UInt8 → UInt64

/-- An element of `headers_to_remove`. -/
structure ToRemove where
  name : List UInt8
  hash : UInt64

variable {Entry : Type}

/-- `name.len() == to_remove.name.len() && hash_header_name(name) == to_remove.hash` -/
def isMatch (names : Names Entry) (toRemove : ToRemove) (entry : Entry) : Bool :=
  let name := names.headerStr entry
  name.length == toRemove.name.length && names.hashHeaderName name == toRemove.hash

/-- `while i < self.header_entries.len()` -/
def removeFrom (found : Entry → Bool) (headerEntries : List Entry) (i : Nat) : List Entry :=
  if within : i < headerEntries.length then
    if found (headerEntries.get ⟨i, within⟩) then removeFrom found (headerEntries.eraseIdx i) i
    else removeFrom found headerEntries (i + 1)
  else headerEntries
termination_by headerEntries.length - i
decreasing_by
  · rw [List.length_eraseIdx_of_lt within]
    omega
  · omega

/-- `for to_remove in headers_to_remove.iter()` -/
def stripHeaders (names : Names Entry) (headersToRemove : List ToRemove)
    (headerEntries : List Entry) : List Entry :=
  headersToRemove.foldl (fun entries toRemove => removeFrom (isMatch names toRemove) entries 0)
    headerEntries

variable {found : Entry → Bool}

theorem removeFrom_end (entries : List Entry) :
    removeFrom found entries entries.length = entries := by
  rw [removeFrom, dif_neg (Nat.lt_irrefl _)]

/-- At the head of an iteration the entries before the index are to stay. -/
theorem removeFrom_eq (kept rest : List Entry) :
    removeFrom found (kept ++ rest) kept.length = kept ++ rest.filter fun e => !found e := by
  induction rest generalizing kept with
  | nil =>
    rw [List.append_nil, removeFrom_end, List.filter_nil, List.append_nil]
  | cons e rest ih =>
    have within : kept.length < (kept ++ e :: rest).length := by
      rw [List.length_append, List.length_cons]
      omega
    have current : (kept ++ e :: rest).get ⟨kept.length, within⟩ = e := by
      rw [List.get_eq_getElem, List.getElem_append_right (Nat.le_refl _)]
      simp only [Nat.sub_self, List.getElem_cons_zero]
    rw [removeFrom, dif_pos within, current]
    cases removes : found e with
    | true =>
      -- the next entry moves under the index
      have shifted : (kept ++ e :: rest).eraseIdx kept.length = kept ++ rest := by
        rw [List.eraseIdx_append_of_length_le (Nat.le_refl _), Nat.sub_self,
          List.eraseIdx_cons_zero]
      rw [if_pos rfl, shifted, ih,
        List.filter_cons_of_neg (by rw [removes]; exact Bool.false_ne_true)]
    | false =>
      have next := ih (kept ++ [e])
      rw [List.append_assoc, List.singleton_append, List.length_append] at next
      rw [if_neg Bool.false_ne_true, List.filter_cons_of_pos (by rw [removes]; rfl)]
      rw [List.length_singleton, List.append_assoc] at next
      exact next

theorem removeFrom_zero (entries : List Entry) :
    removeFrom found entries 0 = entries.filter fun e => !found e :=
  removeFrom_eq [] entries

/-- **The stripping.** Of every list of entries those stay that match none of the names, all of them
and in their order. -/
theorem stripHeaders_filter (names : Names Entry) (headersToRemove : List ToRemove)
    (headerEntries : List Entry) :
    stripHeaders names headersToRemove headerEntries =
      headerEntries.filter fun e => headersToRemove.all fun toRemove => !isMatch names toRemove e := by
  induction headersToRemove generalizing headerEntries with
  | nil => exact (List.filter_eq_self.2 fun _ _ => rfl).symm
  | cons toRemove others ih =>
    have step : stripHeaders names (toRemove :: others) headerEntries =
        stripHeaders names others (removeFrom (isMatch names toRemove) headerEntries 0) := rfl
    rw [step, ih, removeFrom_zero, List.filter_filter]
    refine List.filter_congr fun e _ => ?_
    rw [List.all_cons, Bool.and_comm]

end SecurityAudits.BunRust.RedirectHeaders
