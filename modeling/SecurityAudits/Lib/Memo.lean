import Mathlib.Logic.Function.Basic
import Mathlib.Data.List.Basic

/-!
# Results kept under a key

A memoised function looks its argument's key up in a cache and computes only when there is no
result. Arguments with one key share a result: the answers are a function of the keys
(`answers_of_keys`), and they are the function's own results, whatever the function, exactly when
the key tells the arguments apart (`answers_iff`).
-/

namespace SecurityAudits.Memo
set_option autoImplicit false

variable {α κ β : Type} [DecidableEq κ]

abbrev Cache (κ β : Type) := κ → Option β

def empty : Cache κ β := fun _ => none

/-- One call of the memoised function. -/
def lookup (key : α → κ) (compute : α → β) (cache : Cache κ β) (a : α) : β × Cache κ β :=
  match cache (key a) with
  | some b => (b, cache)
  | none => (compute a, Function.update cache (key a) (some (compute a)))

/-- Calls one after the other: their answers. -/
def answers (key : α → κ) (compute : α → β) : Cache κ β → List α → List β
  | _, [] => []
  | cache, a :: requests =>
    (lookup key compute cache a).1 :: answers key compute (lookup key compute cache a).2 requests

variable {key : α → κ} {compute : α → β} {cache : Cache κ β} {a : α} {b : β} {k : κ}
  {requests : List α}

theorem lookup_found (found : cache (key a) = some b) :
    lookup key compute cache a = (b, cache) := by
  rw [lookup, found]

theorem lookup_missing (missing : cache (key a) = none) :
    lookup key compute cache a =
      (compute a, Function.update cache (key a) (some (compute a))) := by
  rw [lookup, missing]

/-- A call keeps what is cached, and leaves its answer under its key. -/
theorem lookup_caches (key : α → κ) (compute : α → β) (cache : Cache κ β) (a : α) :
    (lookup key compute cache a).2 (key a) = some (lookup key compute cache a).1 ∧
      ∀ k b, cache k = some b → (lookup key compute cache a).2 k = some b := by
  cases cached : cache (key a) with
  | some c =>
    rw [lookup_found cached]
    exact ⟨cached, fun _ _ found => found⟩
  | none =>
    rw [lookup_missing cached]
    refine ⟨Function.update_self _ _ _, fun k b found => ?_⟩
    have other : k ≠ key a := by
      rintro rfl
      rw [cached] at found
      cases found
    exact (Function.update_of_ne other _ _).trans found

/-- The answers are a function of the keys. -/
theorem answers_of_keys (key : α → κ) (compute : α → β) (cache : Cache κ β) (requests : List α) :
    ∃ final : Cache κ β, (∀ k b, cache k = some b → final k = some b) ∧
      (answers key compute cache requests).map some = requests.map fun a => final (key a) := by
  induction requests generalizing cache with
  | nil => exact ⟨cache, fun _ _ found => found, rfl⟩
  | cons a requests ih =>
    obtain ⟨answer, keeps⟩ := lookup_caches key compute cache a
    obtain ⟨final, extends', rest⟩ := ih (lookup key compute cache a).2
    refine ⟨final, fun k b found => extends' k b (keeps k b found), ?_⟩
    rw [answers, List.map_cons, List.map_cons, rest, extends' _ _ answer]

/-- What is cached are results for earlier calls. -/
def Kept (key : α → κ) (compute : α → β) (asked : α → Prop) (cache : Cache κ β) : Prop :=
  ∀ k b, cache k = some b → ∃ a, asked a ∧ key a = k ∧ compute a = b

theorem Kept.lookup {asked : α → Prop} (kept : Kept key compute asked cache)
    (apart : ∀ a a', asked a → asked a' → key a = key a' → a = a') (now : asked a) :
    (lookup key compute cache a).1 = compute a ∧
      Kept key compute asked (Memo.lookup key compute cache a).2 := by
  cases cached : cache (key a) with
  | some c =>
    rw [lookup_found cached]
    obtain ⟨a', before, same, rfl⟩ := kept _ _ cached
    exact ⟨by rw [apart a' a before now same], kept⟩
  | none =>
    rw [lookup_missing cached]
    refine ⟨rfl, fun k b (found : Function.update cache (key a) (some (compute a)) k = some b) => ?_⟩
    by_cases own : k = key a
    · rw [own, Function.update_self] at found
      exact ⟨a, now, own.symm, Option.some.inj found⟩
    · rw [Function.update_of_ne own] at found
      exact kept k b found

theorem answers_of_apart (kept : Kept key compute (· ∈ requests) cache)
    (apart : ∀ a ∈ requests, ∀ a' ∈ requests, key a = key a' → a = a') :
    answers key compute cache requests = requests.map compute := by
  have run : ∀ later : List α, later ⊆ requests → ∀ cache,
      Kept key compute (· ∈ requests) cache → answers key compute cache later = later.map compute := by
    intro later
    induction later with
    | nil => exact fun _ _ _ => rfl
    | cons a later ih =>
      intro within cache kept
      obtain ⟨answer, kept'⟩ := kept.lookup
        (fun a a' asked asked' => apart a asked a' asked') (within List.mem_cons_self)
      rw [answers, answer, List.map_cons,
        ih (fun _ mem => within (List.mem_cons_of_mem _ mem)) _ kept']
  exact run requests (List.Subset.refl _) cache kept

/-- The rule for memoising: from an empty cache, the answers are right for every function exactly
when no two requests share a key. -/
theorem answers_iff [Nontrivial β] :
    (∀ compute : α → β, answers key compute empty requests = requests.map compute) ↔
      ∀ a ∈ requests, ∀ a' ∈ requests, key a = key a' → a = a' := by
  classical
  constructor
  · intro right a mem a' mem' same
    obtain ⟨yes, no, distinct⟩ := exists_pair_ne β
    obtain ⟨final, -, ofKeys⟩ :=
      answers_of_keys key (fun x => if x = a then yes else no) empty requests
    rw [right, List.map_map, List.map_inj_left] at ofKeys
    have shared := (ofKeys a mem).trans ((congrArg final same).trans (ofKeys a' mem').symm)
    rw [Function.comp_apply, Function.comp_apply, if_pos rfl, Option.some_inj] at shared
    by_contra other
    exact distinct (shared.trans (if_neg fun back => other back.symm))
  · intro apart compute
    exact answers_of_apart (fun _ _ found => by cases found) apart

end SecurityAudits.Memo
