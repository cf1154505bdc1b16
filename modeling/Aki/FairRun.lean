import Mathlib.Order.Filter.AtTopBot.Basic

namespace Aki

/-- An infinite run of a system whose labels fire one at a time. At a time without a label nothing happens. -/
structure FairRun {σ ℓ : Type*} (next : σ → ℓ → Option σ) (fair : ℓ → Prop) where
  st : Nat → σ
  lab : Nat → Option ℓ
  idle : ∀ i, lab i = none → st (i + 1) = st i
  fires : ∀ i l, lab i = some l → next (st i) l = some (st (i + 1))
  /-- A fair label that stays enabled fires. -/
  weaklyFair : ∀ l, fair l → ∀ i, (∀ j, i ≤ j → (next (st j) l).isSome = true) → ∃ j, i ≤ j ∧ lab j = some l

namespace FairRun

variable {σ ℓ : Type*} {next : σ → ℓ → Option σ} {fair : ℓ → Prop} (r : FairRun next fair)

theorem step_cases (i : Nat) :
    r.st (i + 1) = r.st i ∨ ∃ l, r.lab i = some l ∧ next (r.st i) l = some (r.st (i + 1)) := by
  cases h : r.lab i with
  | none => exact Or.inl (r.idle i h)
  | some l => exact Or.inr ⟨l, rfl, r.fires i l h⟩

theorem stays {P : σ → Prop} {i : Nat} (hP : ∀ j, i ≤ j → ∀ l, P (r.st j) → next (r.st j) l = some (r.st (j + 1)) → P (r.st (j + 1)))
    (h : P (r.st i)) : ∀ {j}, i ≤ j → P (r.st j) := by
  intro j hij
  induction j, hij using Nat.le_induction with
  | base => exact h
  | succ j hij ih =>
    rcases r.step_cases j with hj | ⟨l, -, hl⟩
    · rw [hj]; exact ih
    · exact hP j hij l ih hl

theorem always {P : σ → Prop} (hP : ∀ s l s', P s → next s l = some s' → P s') (h : P (r.st 0)) (j : Nat) : P (r.st j) :=
  r.stays (fun j _ l hj hl => hP _ l _ hj hl) h (Nat.zero_le j)

theorem eventually_always {P : σ → Prop} {i : Nat}
    (hP : ∀ j, i ≤ j → ∀ l, P (r.st j) → next (r.st j) l = some (r.st (j + 1)) → P (r.st (j + 1))) (h : P (r.st i)) :
    ∀ᶠ j in Filter.atTop, P (r.st j) :=
  Filter.eventually_atTop.mpr ⟨i, fun _ hij => r.stays hP h hij⟩

/-- One helpful label at each state, enabled and fair; firing it lowers the rank, and no other step raises the rank or,
at the same rank, changes the label. Then the goal is reached. -/
theorem reaches (i : Nat) {P Q : σ → Prop} (rank : σ → Nat) (help : σ → ℓ)
    (hP : ∀ j, i ≤ j → P (r.st j))
    (henabled : ∀ s, P s → ¬ Q s → (next s (help s)).isSome = true)
    (hfair : ∀ s, P s → ¬ Q s → fair (help s))
    (hstep : ∀ s l s', P s → ¬ Q s → next s l = some s' → P s' →
      Q s' ∨ rank s' < rank s ∨ (l ≠ help s ∧ rank s' = rank s ∧ help s' = help s)) :
    ∃ j, i ≤ j ∧ Q (r.st j) := by
  -- by induction on the rank: either it drops or the helpful label stays enabled and fires
  generalize hn : rank (r.st i) = n
  induction n using Nat.strong_induction_on generalizing i with
  | _ n ih =>
    by_contra hnever
    have hQ : ∀ j, i ≤ j → ¬ Q (r.st j) := fun j hij hq => hnever ⟨j, hij, hq⟩
    have hdrop : ∀ j, i ≤ j → ¬ rank (r.st j) < n := by
      intro j hij hlt
      obtain ⟨m, hm, hq⟩ := ih _ hlt j (fun m hm => hP m (hij.trans hm)) rfl
      exact hQ m (hij.trans hm) hq
    have hsame : ∀ j, i ≤ j → rank (r.st j) = n ∧ help (r.st j) = help (r.st i) := by
      intro j hij
      induction j, hij using Nat.le_induction with
      | base => exact ⟨hn, rfl⟩
      | succ j hij ihj =>
        rcases r.step_cases j with hj | ⟨l, -, hl⟩
        · rw [hj]; exact ihj
        · rcases hstep _ l _ (hP j hij) (hQ j hij) hl (hP (j + 1) (by omega)) with h | h | ⟨-, hr, hh⟩
          · exact absurd h (hQ _ (by omega))
          · exact absurd (ihj.1 ▸ h) (hdrop _ (by omega))
          · exact ⟨hr.trans ihj.1, hh.trans ihj.2⟩
    obtain ⟨j, hij, hj⟩ := r.weaklyFair (help (r.st i)) (hfair _ (hP i le_rfl) (hQ i le_rfl)) i
      (fun j hij => (hsame j hij).2 ▸ henabled _ (hP j hij) (hQ j hij))
    rcases hstep _ _ _ (hP j hij) (hQ j hij) (r.fires j _ hj) (hP (j + 1) (by omega)) with h | h | ⟨hne, -⟩
    · exact hQ _ (by omega) h
    · exact hdrop (j + 1) (by omega) ((hsame j hij).1 ▸ h)
    · exact hne (hsame j hij).2.symm

/-- A finite run after which no fair label is enabled, idle from its end on. -/
def ofList (s : σ) (ls : List ℓ) {last : σ} (hrun : ls.foldlM next s = some last) (hend : ∀ l, fair l → next last l = none) :
    FairRun next fair where
  st := fun i => ((ls.take i).foldlM next s).getD s
  lab := fun i => ls[i]?
  idle := fun i hi => by
    have hlen := List.getElem?_eq_none_iff.mp hi
    rw [List.take_of_length_le hlen, List.take_of_length_le (by omega)]
  fires := fun i l hl => by
    obtain ⟨hlt, -⟩ := List.getElem?_eq_some_iff.mp hl
    -- the prefixes of a run that succeeds succeed
    have hpre : ∀ j, ∃ m, (ls.take j).foldlM next s = some m := by
      intro j
      rw [← List.take_append_drop j ls, List.foldlM_append] at hrun
      obtain ⟨m, hm, -⟩ := Option.bind_eq_some_iff.mp hrun
      exact ⟨m, hm⟩
    obtain ⟨m, hm⟩ := hpre i
    obtain ⟨m', hm'⟩ := hpre (i + 1)
    rw [hm, hm', Option.getD_some, Option.getD_some]
    rw [List.take_add_one, hl, List.foldlM_append, hm] at hm'
    simpa using hm'
  weaklyFair := fun l hfair i henabled => by
    have h := henabled (max i ls.length) (le_max_left _ _)
    rw [List.take_of_length_le (le_max_right _ _), hrun, Option.getD_some, hend l hfair] at h
    exact absurd h (by simp)

end FairRun

end Aki
