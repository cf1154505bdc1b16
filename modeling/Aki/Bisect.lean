import Mathlib.Data.List.Basic

namespace Bisect

/-- Half-open binary search on `[lo, hi)`: moves past every probe that answers `true`. The first
argument bounds the number of probes. -/
def bisect (p : Nat → Bool) : Nat → Nat → Nat → Nat
  | 0, lo, _ => lo
  | fuel + 1, lo, hi =>
    if lo < hi then
      let mid := (lo + hi) / 2
      if p mid then bisect p fuel (mid + 1) hi else bisect p fuel lo mid
    else lo

/-- Doubling steps from `i` as long as the probe answers `true`: where they end and the step that is not taken. -/
def gallop (p : Nat → Bool) : Nat → Nat → Nat → Nat × Nat
  | 0, i, step => (i, step)
  | fuel + 1, i, step => if p (i + step) then gallop p fuel (i + step) (2 * step) else (i, step)

variable {p : Nat → Bool} {c : Nat}

/-- When the probes answer `true` up to a place and `false` from there on, the search finds that place. -/
theorem bisect_eq (hp : ∀ i, p i = decide (i < c)) : ∀ {fuel lo hi : Nat}, lo ≤ c → c ≤ hi → hi ≤ lo + fuel → bisect p fuel lo hi = c := by
  intro fuel
  induction fuel with
  | zero =>
    intro lo hi hlo hhi hfuel
    show lo = c
    omega
  | succ fuel ih =>
    intro lo hi hlo hhi hfuel
    rw [bisect]
    split
    next hlt =>
      dsimp only
      rw [hp]
      by_cases hmid : (lo + hi) / 2 < c
      · rw [if_pos (by simpa using hmid)]
        exact ih (by omega) hhi (by omega)
      · rw [if_neg (by simpa using hmid)]
        exact ih hlo (by omega) (by omega)
    next => omega

theorem gallop_spec (hp : ∀ i, p i = decide (i < c)) : ∀ {fuel i step : Nat}, 0 < step → i < c → c ≤ i + fuel →
    (gallop p fuel i step).1 < c ∧ c ≤ (gallop p fuel i step).1 + (gallop p fuel i step).2 := by
  intro fuel
  induction fuel with
  | zero =>
    intro i step _ hi hfuel
    omega
  | succ fuel ih =>
    intro i step hstep hi hfuel
    rw [gallop, hp]
    by_cases hlt : i + step < c
    · rw [if_pos (by simpa using hlt)]
      exact ih (by omega) hlt (by omega)
    · rw [if_neg (by simpa using hlt)]
      exact ⟨hi, Nat.not_lt.mp hlt⟩

end Bisect
