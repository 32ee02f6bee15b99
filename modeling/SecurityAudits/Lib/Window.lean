import SecurityAudits.Lib.Checked

/-!
# Texts that are read and rewritten in place

A program that goes over a text reads what stands at a position (`At`) and puts something else of
the same length there (`Replaced`). Both are about a stretch of the text with anything before and
behind it, and both are put together from stretches that lie side by side. The accesses of
`Lib.Checked` are such stretches (`read_eq_done`, `write_eq_done`), and a loop of it that has ended
went from one state to the next (`Ends`).
-/

namespace SecurityAudits.Window
set_option autoImplicit false
open SecurityAudits.Checked

variable {α : Type}

/-- `items` stand at the position `pos`. -/
def At (text : List α) (pos : Nat) (items : List α) : Prop :=
  ∃ before behind, text = before ++ (items ++ behind) ∧ before.length = pos

/-- `text'` has `new` at the position `pos`, where `text` has `old`. -/
def Replaced (text : List α) (pos : Nat) (old new text' : List α) : Prop :=
  ∃ before behind, text = before ++ (old ++ behind) ∧ text' = before ++ (new ++ behind) ∧
    before.length = pos

variable {text text' text'' a b c items old new new' : List α} {pos n : Nat}

/-! ## What stands somewhere -/

theorem at_nil (inside : pos ≤ text.length) : At text pos [] :=
  ⟨text.take pos, text.drop pos, (List.take_append_drop pos text).symm,
    List.length_take_of_le inside⟩

theorem At.inside (here : At text pos items) : pos + items.length ≤ text.length := by
  obtain ⟨before, behind, rfl, rfl⟩ := here
  simp only [List.length_append]
  omega

theorem at_append : At text pos (a ++ b) ↔ At text pos a ∧ At text (pos + a.length) b := by
  constructor
  · rintro ⟨before, behind, rfl, rfl⟩
    exact ⟨⟨before, b ++ behind, by simp, rfl⟩, ⟨before ++ a, behind, by simp, by simp⟩⟩
  · rintro ⟨⟨before, behind, rfl, rfl⟩, ⟨before', behind', same, place⟩⟩
    rw [← List.append_assoc] at same
    obtain ⟨-, rest⟩ := List.append_inj same (by simp [place])
    exact ⟨before, behind', by simp [rest], rfl⟩

/-- Of one length, one thing stands at a position. -/
theorem At.unique (here : At text pos a) (here' : At text pos b) (same : a.length = b.length) :
    a = b := by
  obtain ⟨before, behind, rfl, rfl⟩ := here
  obtain ⟨before', behind', texts, place⟩ := here'
  obtain ⟨-, rest⟩ := List.append_inj texts place.symm
  exact (List.append_inj rest same).1

theorem exists_at (inside : pos + n ≤ text.length) :
    ∃ items, At text pos items ∧ items.length = n := by
  refine ⟨(text.drop pos).take n, ⟨text.take pos, (text.drop pos).drop n, ?_, ?_⟩, ?_⟩
  · rw [List.take_append_drop, List.take_append_drop]
  · exact List.length_take_of_le (by omega)
  · rw [List.length_take, List.length_drop]
    omega

/-! ## What is put there -/

theorem Replaced.at (put : Replaced text pos old new text') : At text pos old := by
  obtain ⟨before, behind, same, -, place⟩ := put
  exact ⟨before, behind, same, place⟩

theorem Replaced.length (put : Replaced text pos old new text') (same : new.length = old.length) :
    text'.length = text.length := by
  obtain ⟨before, behind, rfl, rfl, -⟩ := put
  simp [same]

theorem At.same (here : At text pos items) : Replaced text pos items items text := by
  obtain ⟨before, behind, same, place⟩ := here
  exact ⟨before, behind, same, same, place⟩

theorem Replaced.unique (put : Replaced text pos old new text')
    (put' : Replaced text pos old new text'') : text' = text'' := by
  obtain ⟨before, behind, rfl, rfl, rfl⟩ := put
  obtain ⟨before', behind', texts, rfl, place⟩ := put'
  obtain ⟨rfl, rest⟩ := List.append_inj texts place.symm
  rw [List.append_cancel_left rest]

theorem At.replaced (here : At text pos old) (new : List α) :
    ∃ text', Replaced text pos old new text' := by
  obtain ⟨before, behind, same, place⟩ := here
  exact ⟨_, before, behind, same, rfl, place⟩

/-- What is beside the replaced stretch stays. -/
theorem Replaced.widen (put : Replaced text (pos + a.length) old new text')
    (here : At text pos (a ++ (old ++ c))) :
    Replaced text pos (a ++ (old ++ c)) (a ++ (new ++ c)) text' := by
  obtain ⟨before, behind, rfl, rfl⟩ := here
  refine ⟨before, behind, rfl, ?_, rfl⟩
  have inner : Replaced (before ++ (a ++ (old ++ c) ++ behind)) (before.length + a.length) old new
      (before ++ (a ++ (new ++ c) ++ behind)) :=
    ⟨before ++ a, c ++ behind, by simp, by simp, by simp⟩
  exact put.unique inner

theorem Replaced.append (first : Replaced text pos a b text') (same : b.length = a.length)
    (second : Replaced text' (pos + a.length) old new text'') :
    Replaced text pos (a ++ old) (b ++ new) text'' := by
  obtain ⟨before, behind, rfl, rfl, rfl⟩ := first
  obtain ⟨before', behind', texts, rfl, place⟩ := second
  rw [← List.append_assoc] at texts
  obtain ⟨rfl, rfl⟩ := List.append_inj texts (by simp [place, same])
  exact ⟨before, behind', by simp, by simp, rfl⟩

theorem Replaced.split (put : Replaced text pos (a ++ old) (b ++ new) text'')
    (same : b.length = a.length) :
    ∃ text', Replaced text pos a b text' ∧ Replaced text' (pos + a.length) old new text'' := by
  obtain ⟨before, behind, rfl, rfl, rfl⟩ := put
  exact ⟨before ++ (b ++ (old ++ behind)), ⟨before, old ++ behind, by simp, rfl, rfl⟩,
    ⟨before ++ b, behind, by simp, by simp, by simp [same]⟩⟩

/-! ## Accesses and loops -/

variable {β σ : Type}

theorem bind_eq_done {o : Outcome α} {f : α → Outcome β} {r : β} :
    o >>= f = .done r ↔ ∃ x, o = .done x ∧ f x = .done r := by
  constructor
  · intro done
    cases o with
    | fault => cases done
    | fail => cases done
    | done x => exact ⟨x, rfl, done⟩
  · rintro ⟨x, rfl, done⟩
    exact done

theorem require_eq_done {check : Prop} [Decidable check] {u : Unit} :
    require check = .done u ↔ check := by
  constructor
  · intro done
    by_contra unmet
    rw [require, if_neg unmet] at done
    cases done
  · exact fun met => if_pos met

theorem read_eq_done :
    Checked.read text pos n = .done items ↔ At text pos items ∧ items.length = n := by
  constructor
  · intro done
    by_cases inside : pos + n ≤ text.length
    · obtain ⟨found, here, length⟩ := exists_at inside
      obtain ⟨before, behind, rfl, rfl⟩ := here
      subst length
      rw [Checked.read, if_pos inside, List.drop_left, List.take_left] at done
      obtain rfl := Outcome.done.inj done
      exact ⟨⟨before, behind, rfl, rfl⟩, rfl⟩
    · rw [Checked.read, if_neg inside] at done
      cases done
  · rintro ⟨here, rfl⟩
    rw [Checked.read, if_pos here.inside]
    obtain ⟨before, behind, rfl, rfl⟩ := here
    rw [List.drop_left, List.take_left]

theorem write_eq_done (here : At text pos old) (same : new.length = old.length) :
    write text pos new = .done text' ↔ Replaced text pos old new text' := by
  have done : ∃ text'', write text pos new = .done text'' ∧ Replaced text pos old new text'' := by
    have inside := here.inside
    rw [← same] at inside
    obtain ⟨before, behind, rfl, rfl⟩ := here
    refine ⟨before ++ (new ++ behind), ?_, ⟨before, behind, rfl, rfl, rfl⟩⟩
    have behindOld : (before ++ (old ++ behind)).drop (before.length + new.length) = behind := by
      rw [same, ← List.append_assoc, ← List.length_append, List.drop_left]
    rw [write, if_pos inside, List.take_left, behindOld, List.append_assoc]
  obtain ⟨text'', written, put⟩ := done
  rw [written, Outcome.done.injEq]
  exact ⟨fun same => same ▸ put, fun put' => put.unique put'⟩

/-- The loop goes from the state to the result, if it has the fuel. -/
inductive Ends (body : σ → Outcome (σ ⊕ β)) : σ → β → Prop where
  | last {s : σ} {r : β} (ends : body s = .done (.inr r)) : Ends body s r
  | next {s t : σ} {r : β} (goes : body s = .done (.inl t)) (later : Ends body t r) : Ends body s r

theorem ends_of_loop {body : σ → Outcome (σ ⊕ β)} {fuel : Nat} {s : σ} {r : β}
    (done : loop body fuel s = .done r) : Ends body s r := by
  induction fuel generalizing s with
  | zero => cases done
  | succ fuel ih =>
    obtain ⟨after, here, rest⟩ := bind_eq_done.1 done
    cases after with
    | inl t => exact .next here (ih rest)
    | inr r' =>
      obtain rfl := Outcome.done.inj rest
      exact .last here

theorem Ends.loop {body : σ → Outcome (σ ⊕ β)} {fuel : Nat} {s : σ} {r : β} {P : β → Prop}
    (ends : Ends body s r) (safe : (loop body fuel s).Safe P) : loop body fuel s = .done r := by
  induction ends generalizing fuel with
  | last ends =>
    cases fuel with
    | zero => exact safe.elim
    | succ fuel =>
      rw [Checked.loop, ends]
      rfl
  | next goes _ ih =>
    cases fuel with
    | zero => exact safe.elim
    | succ fuel =>
      rw [Checked.loop, goes] at safe ⊢
      exact ih safe

/-- A loop that does not fault has the fuel. -/
theorem loop_iff {body : σ → Outcome (σ ⊕ β)} {fuel : Nat} {s : σ} {r : β} {P : β → Prop}
    (safe : (loop body fuel s).Safe P) : loop body fuel s = .done r ↔ Ends body s r :=
  ⟨ends_of_loop, fun ends => ends.loop safe⟩

/-! ### Loops that do the same -/

theorem of_safe {o : Outcome α} {P : α → Prop} {r : α} (safe : o.Safe P) (done : o = .done r) :
    P r := by
  rw [done] at safe
  exact safe

theorem loop_congr {body body' : σ → Outcome (σ ⊕ β)} {fuel : Nat} {s : σ} (Inv : σ → Prop)
    (same : ∀ s, Inv s → body s = body' s)
    (kept : ∀ s t, Inv s → body s = .done (.inl t) → Inv t) (start : Inv s) :
    loop body fuel s = loop body' fuel s := by
  induction fuel generalizing s with
  | zero => rfl
  | succ fuel ih =>
    rw [loop, loop, ← same s start]
    cases here : body s with
    | fault => rfl
    | fail => rfl
    | done r =>
      cases r with
      | inl t => exact ih (kept s t start here)
      | inr r => rfl

/-- A check in every iteration, or a test that ends the loop and a check behind it. -/
theorem loop_exit (exit : σ → Prop) [DecidablePred exit] (Inv : σ → Prop)
    {body body' : σ → Outcome (σ ⊕ σ)} {fuel : Nat} {s : σ}
    (checked : ∀ s, Inv s → exit s → body s = .fail)
    (tested : ∀ s, Inv s → body' s = if exit s then .done (.inr s) else body s)
    (passed : ∀ s t, Inv s → body s = .done (.inr t) → ¬ exit t)
    (kept : ∀ s t, Inv s → body s = .done (.inl t) → Inv t) (start : Inv s) :
    (loop body' fuel s >>= fun t => require (¬ exit t) >>= fun _ => pure t) = loop body fuel s := by
  induction fuel generalizing s with
  | zero => rfl
  | succ fuel ih =>
    rw [loop, loop, tested s start]
    by_cases out : exit s
    · rw [if_pos out, checked s start out]
      show (require (¬ exit s) >>= fun _ => pure s) = Outcome.fail
      rw [require, if_neg (not_not_intro out)]
      rfl
    · rw [if_neg out]
      cases here : body s with
      | fault => rfl
      | fail => rfl
      | done r =>
        cases r with
        | inl t => exact ih (kept s t start here)
        | inr t =>
          show (require (¬ exit t) >>= fun _ => pure t) = Outcome.done t
          rw [require, if_pos (passed s t start here)]
          rfl

end SecurityAudits.Window
