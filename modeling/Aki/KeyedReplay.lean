import Mathlib.Data.List.Basic

-- A log of events, each for one key, where some events (the resets) do not depend on what the key held before. An event that a later
-- reset of its key follows is superseded; replaying only the others gives every key the same state.

namespace KeyedReplay

variable {ε κ σ : Type} [DecidableEq κ]

section Replay

variable (key : ε → κ) (step : ε → σ → σ)

/-- Every key's state after the events, from the states `st`. -/
def replay : List ε → (κ → σ) → κ → σ
  | [], st => st
  | e :: es, st => replay es fun k => if k = key e then step e (st k) else st k

variable {key step}

theorem replay_congr {es : List ε} {st st' : κ → σ} {k : κ} (h : st k = st' k) : replay key step es st k = replay key step es st' k := by
  induction es generalizing st st' with
  | nil => exact h
  | cons e es ih =>
    refine ih ?_
    rw [h]

end Replay

section Keep

variable (key : ε → κ) (reset : ε → Bool)

def resets (k : κ) (es : List ε) : Bool := es.any fun e => reset e && decide (key e = k)

/-- The events no later reset of their key follows. -/
def keep : List ε → List ε
  | [] => []
  | e :: es => if resets key reset (key e) es then keep es else e :: keep es

/-- The position of the last reset of a key, counted from `i`. -/
def lastReset : Nat → List ε → (κ → Option Nat) → κ → Option Nat
  | _, [], last => last
  | i, e :: es, last => lastReset (i + 1) es fun k => if reset e = true ∧ k = key e then some i else last k

variable {key reset}

theorem reset_head {e : ε} {es : List ε} {k : κ} (h : resets key reset k (e :: es) = true) (hl : ¬ resets key reset k es = true) :
    reset e = true ∧ key e = k := by
  rw [resets, List.any_cons, Bool.or_eq_true] at h
  simpa using h.resolve_right hl

/-- The state a reset leaves does not rest on what was there. -/
theorem replay_reset {step : ε → σ → σ} (hreset : ∀ e, reset e = true → ∀ s s', step e s = step e s') {es : List ε} {k : κ}
    (h : resets key reset k es = true) (st st' : κ → σ) : replay key step es st k = replay key step es st' k := by
  induction es generalizing st st' with
  | nil => exact absurd h (by simp [resets])
  | cons e es ih =>
    by_cases hl : resets key reset k es = true
    · exact ih hl _ _
    · obtain ⟨hr, hk⟩ := reset_head h hl
      rw [replay, replay]
      refine replay_congr ?_
      rw [if_pos hk.symm, if_pos hk.symm]
      exact hreset e hr _ _

theorem replay_keep {step : ε → σ → σ} (hreset : ∀ e, reset e = true → ∀ s s', step e s = step e s') (es : List ε) (st : κ → σ) :
    replay key step (keep key reset es) st = replay key step es st := by
  induction es generalizing st with
  | nil => rfl
  | cons e es ih =>
    rw [keep]
    split
    next h =>
      rw [ih]
      funext k
      by_cases hk : k = key e
      · exact replay_reset hreset (hk ▸ h) _ _
      · rw [replay]
        refine replay_congr ?_
        rw [if_neg hk]
    next => exact ih _

theorem resets_keep (k : κ) (es : List ε) : resets key reset k (keep key reset es) = resets key reset k es := by
  induction es with
  | nil => rfl
  | cons e es ih =>
    rw [keep]
    split
    next h =>
      rw [ih]
      by_cases hk : key e = k
      · rw [hk] at h
        simp only [resets, List.any_cons] at h ⊢
        rw [h, Bool.or_true]
      · simp [resets, hk]
    next => exact congrArg (fun b => reset e && decide (key e = k) || b) ih

/-- What was kept once is kept again. -/
theorem keep_keep (es : List ε) : keep key reset (keep key reset es) = keep key reset es := by
  induction es with
  | nil => rfl
  | cons e es ih =>
    rw [keep]
    split
    next => exact ih
    next h => rw [keep, resets_keep, if_neg h, ih]

/-- The last reset seen is the earlier one unless a reset is among the events, and then it is one of them. -/
theorem lastReset_eq (key : ε → κ) (reset : ε → Bool) (i : Nat) (es : List ε) (last : κ → Option Nat) (k : κ) :
    (resets key reset k es = false → lastReset key reset i es last k = last k) ∧
      (resets key reset k es = true → ∃ j, lastReset key reset i es last k = some j ∧ i ≤ j) := by
  induction es generalizing i last with
  | nil => exact ⟨fun _ => rfl, fun h => absurd h (by simp [resets])⟩
  | cons e es ih =>
    obtain ⟨hno, hyes⟩ := ih (i + 1) fun k => if reset e = true ∧ k = key e then some i else last k
    constructor
    · intro h
      simp only [resets, List.any_cons, Bool.or_eq_false_iff, Bool.and_eq_false_imp, decide_eq_false_iff_not] at h
      rw [lastReset, hno h.2, if_neg fun he => h.1 he.1 he.2.symm]
    · intro h
      by_cases hl : resets key reset k es = true
      · obtain ⟨j, hj, hle⟩ := hyes hl
        exact ⟨j, hj, by omega⟩
      · obtain ⟨hr, hk⟩ := reset_head h hl
        refine ⟨i, ?_, Nat.le_refl i⟩
        rw [lastReset, hno (by simpa using hl), if_pos ⟨hr, hk.symm⟩]

theorem lastReset_append (key : ε → κ) (reset : ε → Bool) (i : Nat) (pre es : List ε) (last : κ → Option Nat) :
    lastReset key reset i (pre ++ es) last = lastReset key reset (i + pre.length) es (lastReset key reset i pre last) := by
  induction pre generalizing i last with
  | nil => rfl
  | cons e pre ih =>
    rw [List.cons_append, lastReset, ih, lastReset, List.length_cons, Nat.add_assoc, Nat.add_comm 1]

theorem lastReset_lt {i j : Nat} {es : List ε} {last : κ → Option Nat} {k : κ} (hlast : ∀ j, last k = some j → j < i)
    (h : lastReset key reset i es last k = some j) : j < i + es.length := by
  induction es generalizing i last with
  | nil => exact hlast j h
  | cons e es ih =>
    have hj := ih (fun j hj => ?_) h
    · rw [List.length_cons]
      omega
    · split at hj
      · have := Option.some.inj hj
        omega
      · have := hlast j hj
        omega

/-- An event is superseded exactly when its position is below the last reset of its key over the whole log. -/
theorem superseded_iff (key : ε → κ) (reset : ε → Bool) (pre : List ε) (e : ε) (es : List ε) :
    (∃ j, lastReset key reset 0 (pre ++ e :: es) (fun _ => none) (key e) = some j ∧ pre.length < j) ↔
      resets key reset (key e) es = true := by
  have hstep := lastReset_append key reset 0 pre (e :: es) fun _ => none
  rw [hstep, lastReset, Nat.zero_add]
  obtain ⟨hno, hyes⟩ := lastReset_eq key reset (pre.length + 1) es
    (fun k => if reset e = true ∧ k = key e then some pre.length else lastReset key reset 0 pre (fun _ => none) k) (key e)
  constructor
  · rintro ⟨j, hj, hlt⟩
    by_contra hn
    rw [hno (by simpa using hn)] at hj
    split at hj
    · exact absurd (Option.some.inj hj) (Nat.ne_of_lt hlt)
    · have := lastReset_lt (by simp) hj
      omega
  · intro h
    obtain ⟨j, hj, hle⟩ := hyes h
    exact ⟨j, hj, hle⟩

theorem keep_sublist (es : List ε) : (keep key reset es).Sublist es := by
  induction es with
  | nil => exact List.Sublist.refl []
  | cons e es ih =>
    rw [keep]
    split
    · exact ih.cons e
    · exact ih.cons_cons e

end Keep

section Map

variable {ε' : Type} {key : ε → κ} {key' : ε' → κ} {reset : ε → Bool} {reset' : ε' → Bool} {f : ε → ε'}

theorem replay_map {step : ε → σ → σ} {step' : ε' → σ → σ} (hkey : ∀ e, key' (f e) = key e) (hstep : ∀ e, step' (f e) = step e)
    (es : List ε) (st : κ → σ) : replay key' step' (es.map f) st = replay key step es st := by
  induction es generalizing st with
  | nil => rfl
  | cons e es ih => rw [List.map_cons, replay, replay, ih, hkey, hstep]

theorem resets_map (hkey : ∀ e, key' (f e) = key e) (hreset : ∀ e, reset' (f e) = reset e) (k : κ) (es : List ε) :
    resets key' reset' k (es.map f) = resets key reset k es := by
  rw [resets, resets, List.any_map]
  refine congrArg (es.any ·) (funext fun e => ?_)
  rw [Function.comp_apply, hkey, hreset]

theorem keep_map (hkey : ∀ e, key' (f e) = key e) (hreset : ∀ e, reset' (f e) = reset e) (es : List ε) :
    keep key' reset' (es.map f) = (keep key reset es).map f := by
  induction es with
  | nil => rfl
  | cons e es ih =>
    rw [List.map_cons, keep, keep, resets_map hkey hreset, hkey, ih]
    split <;> rfl

theorem keep_eq_self (key' : ε' → κ) (reset' : ε' → Bool) (hkey : ∀ e, key' (f e) = key e) (hreset : ∀ e, reset' (f e) = reset e) {es ks : List ε}
    (h : es.map f = (keep key reset ks).map f) : keep key reset es = es := by
  refine (keep_sublist es).eq_of_length ?_
  have he := keep_map hkey hreset es
  rw [h, keep_map hkey hreset, keep_keep, ← h] at he
  simpa using (congrArg List.length he).symm

end Map

end KeyedReplay
