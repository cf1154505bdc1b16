import Mathlib.Data.List.Basic

namespace CommonSubsequence

variable {α : Type} [DecidableEq α] {a b s : List α} {i j : Nat}

/-- The number is the length of a common subsequence, and of no shorter one than any other. -/
def IsLongest (n : Nat) (a b : List α) : Prop :=
  (∃ s : List α, s.Sublist a ∧ s.Sublist b ∧ s.length = n) ∧ ∀ s : List α, s.Sublist a → s.Sublist b → s.length ≤ n

/-- The length of a longest common subsequence of two prefixes. -/
def best (a b : List α) : Nat → Nat → Nat
  | 0, _ => 0
  | _ + 1, 0 => 0
  | i + 1, j + 1 => if a[i]? = b[j]? then best a b i j + 1 else max (best a b i (j + 1)) (best a b (i + 1) j)

@[simp] theorem best_zero_left (j : Nat) : best a b 0 j = 0 := by rw [best]

@[simp] theorem best_zero_right (i : Nat) : best a b i 0 = 0 := by
  cases i <;> rw [best]

theorem best_match (h : a[i]? = b[j]?) : best a b (i + 1) (j + 1) = best a b i j + 1 := by rw [best, if_pos h]

theorem best_miss (h : a[i]? ≠ b[j]?) : best a b (i + 1) (j + 1) = max (best a b i (j + 1)) (best a b (i + 1) j) := by
  rw [best, if_neg h]

theorem best_le (a b : List α) (i j : Nat) : best a b i j ≤ i := by
  induction i generalizing j with
  | zero => exact Nat.le_of_eq (best_zero_left j)
  | succ i ih =>
    induction j with
    | zero =>
      rw [best_zero_right]
      exact Nat.zero_le _
    | succ j ihj =>
      by_cases h : a[i]? = b[j]?
      · rw [best_match h]
        exact Nat.succ_le_succ (ih j)
      · rw [best_miss h]
        exact Nat.max_le.mpr ⟨Nat.le_succ_of_le (ih (j + 1)), ihj⟩

theorem sublist_concat {l : List α} {x : α} (h : s.Sublist (l ++ [x])) : s.Sublist l ∨ ∃ t, s = t ++ [x] ∧ t.Sublist l := by
  obtain ⟨t, u, rfl, ht, hu⟩ := List.sublist_append_iff.mp h
  rcases List.sublist_singleton.mp hu with rfl | rfl
  · rw [List.append_nil]
    exact .inl ht
  · exact .inr ⟨t, rfl, ht⟩

theorem sublist_le_best (hi : i ≤ a.length) (hj : j ≤ b.length) (ha : s.Sublist (a.take i)) (hb : s.Sublist (b.take j)) :
    s.length ≤ best a b i j := by
  induction i generalizing s j with
  | zero =>
    rw [List.take_zero, List.sublist_nil] at ha
    simp [ha]
  | succ i ih =>
    induction j generalizing s with
    | zero =>
      rw [List.take_zero, List.sublist_nil] at hb
      simp [hb]
    | succ j ihj =>
      have hta : a.take (i + 1) = a.take i ++ [a[i]] := by rw [List.take_add_one, List.getElem?_eq_getElem hi]; rfl
      have htb : b.take (j + 1) = b.take j ++ [b[j]] := by rw [List.take_add_one, List.getElem?_eq_getElem hj]; rfl
      have ha' := sublist_concat (hta ▸ ha)
      have hb' := sublist_concat (htb ▸ hb)
      by_cases h : a[i]? = b[j]?
      · -- without its last element it is common to the shorter prefixes
        rw [best_match h]
        have hdrop {l : List α} {x : α} (hs : s.Sublist l ∨ ∃ t, s = t ++ [x] ∧ t.Sublist l) : s.dropLast.Sublist l := by
          rcases hs with hs | ⟨t, rfl, ht⟩
          · exact (List.dropLast_sublist s).trans hs
          · rw [List.dropLast_concat]
            exact ht
        have := ih (by omega) (by omega) (hdrop ha') (hdrop hb')
        rw [List.length_dropLast] at this
        omega
      · rw [best_miss h]
        rcases ha' with ha' | ⟨t, rfl, -⟩
        · exact Nat.le_trans (ih (by omega) hj ha' hb) (Nat.le_max_left _ _)
        · rcases hb' with hb' | ⟨u, hu, -⟩
          · exact Nat.le_trans (ihj (by omega) ha hb') (Nat.le_max_right _ _)
          · refine absurd ?_ h
            have := List.append_inj_right' hu rfl
            rw [List.getElem?_eq_getElem hi, List.getElem?_eq_getElem hj, List.singleton_inj.mp this]

theorem isLongest_best (hs : s.Sublist a) (hs' : s.Sublist b) (hl : s.length = best a b a.length b.length) :
    IsLongest (best a b a.length b.length) a b := by
  refine ⟨⟨s, hs, hs', hl⟩, fun t ht ht' => sublist_le_best (Nat.le_refl _) (Nat.le_refl _) ?_ ?_⟩
  · rw [List.take_length]
    exact ht
  · rw [List.take_length]
    exact ht'

end CommonSubsequence
