import Mathlib.Data.List.DropRight
import Mathlib.Data.List.Nodup

/-!
# A bounded cache that forgets its oldest entry

A cache of at most `max` entries, the oldest first. An entry whose key is there already changes
nothing; any other is admitted at the end, and the oldest ones make room for it. So the cache is the
last `max` entries of all that were admitted (`foldl_enter`), whatever was refused between them.
-/

namespace SecurityAudits.Fifo
set_option autoImplicit false

variable {κ β : Type} [DecidableEq κ]

/-- An entry comes to a cache. -/
def enter (max : Nat) (cache : List (κ × β)) (entry : κ × β) : List (κ × β) :=
  if entry.1 ∈ cache.map Prod.fst then cache else (cache ++ [entry]).rtake max

/-- The entries of a sequence that the cache admits. -/
def admitted (max : Nat) : List (κ × β) → List (κ × β) → List (κ × β)
  | _, [] => []
  | cache, entry :: entries =>
    if entry.1 ∈ cache.map Prod.fst then admitted max cache entries
    else entry :: admitted max (enter max cache entry) entries

variable {max : Nat} {cache entries : List (κ × β)} {entry : κ × β}

theorem enter_known (known : entry.1 ∈ cache.map Prod.fst) : enter max cache entry = cache :=
  if_pos known

theorem enter_new (new : entry.1 ∉ cache.map Prod.fst) :
    enter max cache entry = (cache ++ [entry]).rtake max :=
  if_neg new

theorem rtake_append_rtake {α : Type} (l m : List α) (n : Nat) :
    (l.rtake n ++ m).rtake n = (l ++ m).rtake n := by
  have inside : l.length - n ≤ l.length := Nat.sub_le _ _
  simp only [List.rtake, ← List.drop_append_of_le_length inside, List.drop_drop, List.length_drop,
    List.length_append]
  congr 1
  omega

theorem length_rtake {α : Type} (l : List α) (n : Nat) : (l.rtake n).length ≤ n := by
  rw [List.rtake, List.length_drop]
  omega

theorem rtake_of_length_le {α : Type} {l : List α} {n : Nat} (short : l.length ≤ n) :
    l.rtake n = l := by
  rw [List.rtake, Nat.sub_eq_zero_of_le short, List.drop_zero]

theorem enter_length (bounded : cache.length ≤ max) : (enter max cache entry).length ≤ max := by
  unfold enter
  split
  · exact bounded
  · exact length_rtake _ _

/-- The cache is what was there and what was admitted, but for the oldest of it. -/
theorem foldl_enter (bounded : cache.length ≤ max) (entries : List (κ × β)) :
    entries.foldl (enter max) cache = (cache ++ admitted max cache entries).rtake max := by
  induction entries generalizing cache with
  | nil => rw [admitted, List.append_nil, rtake_of_length_le bounded, List.foldl_nil]
  | cons entry entries ih =>
    rw [List.foldl_cons, ih (enter_length bounded), admitted]
    by_cases known : entry.1 ∈ cache.map Prod.fst
    · rw [if_pos known, enter_known known]
    · rw [if_neg known, enter_new known, rtake_append_rtake, List.append_assoc,
        List.singleton_append]

end SecurityAudits.Fifo
