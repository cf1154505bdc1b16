import Mathlib.Tactic.Common

namespace SlotHeap

-- A binary min-heap over anything whose slots carry keys and can be swapped in pairs.

/-- Numbered slots with a key each. A swap exchanges the keys of two slots and leaves the others. -/
structure Slots (σ : Type) where
  size : σ → Nat
  key : σ → Nat → Int
  swap : σ → Nat → Nat → σ
  size_swap : ∀ s i j, size (swap s i j) = size s
  key_swap : ∀ s i j c, i < size s → j < size s →
    key (swap s i j) c = if c = i then key s j else if c = j then key s i else key s c

def parent (i : Nat) : Nat := (i - 1) / 2

variable {σ : Type} (S : Slots σ)

/-- Toward the root while a slot precedes its parent. -/
def up : Nat → σ → Nat → σ
  | 0, s, _ => s
  | fuel + 1, s, i =>
    if i = 0 then s
    else if S.key s (parent i) ≤ S.key s i then s
    else up fuel (S.swap s (parent i) i) (parent i)

def siftUp (s : σ) (i : Nat) : σ := up S i s i

def earlier (s : σ) (i : Nat) : Nat :=
  if 2 * i + 2 < S.size s ∧ S.key s (2 * i + 2) < S.key s (2 * i + 1) then 2 * i + 2 else 2 * i + 1

/-- Toward the leaves while a child precedes the slot; the slot it ends at. -/
def down : Nat → σ → Nat → σ × Nat
  | 0, s, i => (s, i)
  | fuel + 1, s, i =>
    if S.size s ≤ 2 * i + 1 then (s, i)
    else if S.key s i ≤ S.key s (earlier S s i) then (s, i)
    else down fuel (S.swap s i (earlier S s i)) (earlier S s i)

/-- The slots after the walk, and whether it moved. -/
def siftDown (s : σ) (i : Nat) : σ × Bool :=
  let r := down S (S.size s) s i
  (r.1, decide (i < r.2))

/-- No slot precedes its parent. -/
def Heap (s : σ) : Prop := ∀ c, 0 < c → c < S.size s → S.key s (parent c) ≤ S.key s c

/-- The order everywhere but at `i`, over which its parent and its children are in order. -/
structure Near (s : σ) (i : Nat) : Prop where
  away : ∀ c, 0 < c → c < S.size s → c ≠ i → parent c ≠ i → S.key s (parent c) ≤ S.key s c
  across : 0 < i → ∀ c, 0 < c → c < S.size s → parent c = i → S.key s (parent i) ≤ S.key s c

/-- The children of `i` do not precede it. -/
def Above (s : σ) (i : Nat) : Prop := ∀ c, 0 < c → c < S.size s → parent c = i → S.key s i ≤ S.key s c

/-- The parent of `i` does not follow it. -/
def Below (s : σ) (i : Nat) : Prop := 0 < i → S.key s (parent i) ≤ S.key s i

variable {S} {s : σ} {i : Nat}

theorem Near.heap (h : Near S s i) (ha : Above S s i) (hb : Below S s i) : Heap S s := by
  intro c h₀ hc
  by_cases hi : c = i
  · rw [hi]
    exact hb (hi ▸ h₀)
  · by_cases hp : parent c = i
    · rw [hp]
      exact ha c h₀ hc hp
    · exact h.away c h₀ hc hi hp

theorem Heap.near (h : Heap S s) (i : Nat) (hi : i < S.size s) : Near S s i where
  away := fun c h₀ hc _ _ => h c h₀ hc
  across := fun h₀ c hc₀ hc hp => Int.le_trans (h i h₀ hi) (hp ▸ h c hc₀ hc)

theorem siftUp_keeps {P : σ → Prop} (hswap : ∀ s i j, i < S.size s → j < S.size s → i ≠ j → P s → P (S.swap s i j)) (hi : i < S.size s)
    (h : P s) : P (siftUp S s i) := by
  suffices hup : ∀ n s i, i < S.size s → P s → P (up S n s i) from hup i s i hi h
  intro n
  induction n with
  | zero => exact fun _ _ _ h => h
  | succ n ih =>
    intro s i hi h
    rw [up]
    split
    · exact h
    · split
      · exact h
      · have hlt : parent i < i := by rw [parent]; omega
        exact ih _ _ (by rw [S.size_swap]; omega) (hswap _ _ _ (by omega) hi (by omega) h)

theorem earlier_bounds (h : ¬ S.size s ≤ 2 * i + 1) : earlier S s i < S.size s ∧ i < earlier S s i ∧ parent (earlier S s i) = i := by
  rw [earlier]
  split
  · refine ⟨by omega, by omega, by rw [parent]; omega⟩
  · refine ⟨by omega, by omega, by rw [parent]; omega⟩

theorem siftDown_keeps {P : σ → Prop} (hswap : ∀ s i j, i < S.size s → j < S.size s → i ≠ j → P s → P (S.swap s i j)) (h : P s) :
    P (siftDown S s i).1 := by
  suffices hdown : ∀ n s i, P s → P (down S n s i).1 from hdown _ s i h
  intro n
  induction n with
  | zero => exact fun _ _ h => h
  | succ n ih =>
    intro s i h
    rw [down]
    split
    · exact h
    next hsz =>
      split
      · exact h
      · obtain ⟨hlt, hgt, -⟩ := earlier_bounds hsz
        exact ih _ _ (hswap _ _ _ (by omega) hlt (by omega) h)

theorem Near.swap_parent (h : Near S s i) (ha : Above S s i) (hi : i < S.size s) (h₀ : 0 < i) (hlt : S.key s i < S.key s (parent i)) :
    Near S (S.swap s (parent i) i) (parent i) ∧ Above S (S.swap s (parent i) i) (parent i) := by
  have hp : parent i < i := by rw [parent]; omega
  have hkey := fun c => S.key_swap s (parent i) i c (by omega) hi
  have hup : 0 < parent i → S.key s (parent (parent i)) ≤ S.key s (parent i) := fun hpos =>
    h.away (parent i) hpos (by omega) (by omega) (by rw [parent] at hp ⊢; rw [parent]; omega)
  have hsib : ∀ c, 0 < c → c < S.size s → parent c = parent i → c ≠ i → S.key s (parent i) ≤ S.key s c := fun c hc₀ hc hpc hci => by
    rw [← hpc]
    exact h.away c hc₀ hc hci (by rw [hpc]; omega)
  refine ⟨⟨fun c hc₀ hc hci hpc => ?_, fun hpos c hc₀ hc hpc => ?_⟩, fun c hc₀ hc hpc => ?_⟩
  · rw [S.size_swap] at hc
    have hcp : parent c < c := by rw [parent]; omega
    have hne : c ≠ i := fun he => hpc (by rw [he])
    rw [hkey, hkey, if_neg hpc, if_neg hci, if_neg hne]
    by_cases hpi : parent c = i
    · rw [if_pos hpi]
      exact h.across h₀ c hc₀ hc hpi
    · rw [if_neg hpi]
      exact h.away c hc₀ hc hne hpi
  · rw [S.size_swap] at hc
    have hpp : parent (parent i) < parent i := by rw [parent]; omega
    have hcp : parent c < c := by rw [parent]; omega
    rw [hkey, hkey, if_neg (by omega), if_neg (by omega), if_neg (by omega)]
    by_cases hci : c = i
    · rw [if_pos hci]
      exact hup hpos
    · rw [if_neg hci]
      exact Int.le_trans (hup hpos) (hsib c hc₀ hc hpc hci)
  · rw [S.size_swap] at hc
    have hcp : parent c < c := by rw [parent]; omega
    rw [hkey, hkey, if_pos rfl, if_neg (by omega)]
    by_cases hci : c = i
    · rw [if_pos hci]
      omega
    · rw [if_neg hci]
      have := hsib c hc₀ hc hpc hci
      omega

theorem siftUp_heap (h : Near S s i) (ha : Above S s i) (hi : i < S.size s) : Heap S (siftUp S s i) := by
  suffices hup : ∀ n s i, i ≤ n → i < S.size s → Near S s i → Above S s i → Heap S (up S n s i) from hup i s i (Nat.le_refl _) hi h ha
  intro n
  induction n with
  | zero =>
    intro s i hn _ h ha
    exact h.heap ha fun h₀ => absurd h₀ (by omega)
  | succ n ih =>
    intro s i hn hi h ha
    rw [up]
    split
    next h₀ => exact h.heap ha fun hpos => absurd hpos (by omega)
    next h₀ =>
      split
      next hle => exact h.heap ha fun _ => hle
      next hle =>
        have hp : parent i < i := by rw [parent]; omega
        obtain ⟨hn', ha'⟩ := h.swap_parent ha hi (by omega) (by omega)
        exact ih _ _ (by omega) (by rw [S.size_swap]; omega) hn' ha'

theorem earlier_le (c : Nat) (hc₀ : 0 < c) (hc : c < S.size s) (hp : parent c = i) : S.key s (earlier S s i) ≤ S.key s c := by
  have hcases : c = 2 * i + 1 ∨ c = 2 * i + 2 := by rw [parent] at hp; omega
  rw [earlier]
  split
  next h =>
    rcases hcases with rfl | rfl
    · omega
    · exact Int.le_refl _
  next h =>
    rcases hcases with rfl | rfl
    · exact Int.le_refl _
    · have : ¬ S.key s (2 * i + 2) < S.key s (2 * i + 1) := fun hlt => h ⟨hc, hlt⟩
      omega

theorem Near.swap_child (h : Near S s i) (hsz : ¬ S.size s ≤ 2 * i + 1) (hlt : S.key s (earlier S s i) < S.key s i) :
    Near S (S.swap s i (earlier S s i)) (earlier S s i) ∧ Below S (S.swap s i (earlier S s i)) (earlier S s i) := by
  obtain ⟨hm, him, hpm⟩ := earlier_bounds hsz
  have hmin := earlier_le (S := S) (s := s) (i := i)
  generalize earlier S s i = m at *
  have hkey := fun c => S.key_swap s i m c (by omega) hm
  refine ⟨⟨fun c hc₀ hc hcm hpc => ?_, fun _ c hc₀ hc hpc => ?_⟩, fun _ => ?_⟩
  · rw [S.size_swap] at hc
    have hcp : parent c < c := by rw [parent]; omega
    rw [hkey, hkey, if_neg hpc, if_neg hcm]
    by_cases hci : c = i
    · rw [if_neg (by omega), if_pos hci, hci]
      exact h.across (by omega) m (by omega) hm hpm
    · rw [if_neg hci]
      by_cases hpi : parent c = i
      · rw [if_pos hpi]
        exact hmin c hc₀ hc hpi
      · rw [if_neg hpi]
        exact h.away c hc₀ hc hci hpi
  · rw [S.size_swap] at hc
    have hcp : parent c < c := by rw [parent]; omega
    rw [hkey, hkey, hpm, if_pos rfl, if_neg (by omega), if_neg (by omega), ← hpc]
    exact h.away c hc₀ hc (by omega) (by omega)
  · rw [hkey, hkey, hpm, if_pos rfl, if_neg (by omega), if_pos rfl]
    omega

theorem above_of_earlier (hle : S.key s i ≤ S.key s (earlier S s i)) : Above S s i :=
  fun c hc₀ hc hp => Int.le_trans hle (earlier_le c hc₀ hc hp)

theorem above_of_leaf (hsz : S.size s ≤ 2 * i + 1) : Above S s i := fun c hc₀ hc hp => by
  rw [parent] at hp
  omega

theorem down_heap : ∀ (n : Nat) (s : σ) (i : Nat), S.size s ≤ n + i → Near S s i → Below S s i →
    Heap S (down S n s i).1 ∧ i ≤ (down S n s i).2 := by
  intro n
  induction n with
  | zero => exact fun s i hn h hb => ⟨h.heap (above_of_leaf (by omega)) hb, Nat.le_refl _⟩
  | succ n ih =>
    intro s i hn h hb
    rw [down]
    split
    next hsz => exact ⟨h.heap (above_of_leaf hsz) hb, Nat.le_refl _⟩
    next hsz =>
      split
      next hle => exact ⟨h.heap (above_of_earlier hle) hb, Nat.le_refl _⟩
      next hle =>
        obtain ⟨hm, him, -⟩ := earlier_bounds hsz
        obtain ⟨hn', hb'⟩ := h.swap_child hsz (by omega)
        obtain ⟨hh, hge⟩ := ih _ _ (by rw [S.size_swap]; omega) hn' hb'
        exact ⟨hh, by omega⟩

theorem siftDown_heap (h : Near S s i) (hb : Below S s i) : Heap S (siftDown S s i).1 :=
  (down_heap (S.size s) s i (Nat.le_add_right _ _) h hb).1

/-- From a place out of order with both sides: a walk that moves ends in a heap, and one that does not leaves the children in order. -/
theorem siftDown_near (h : Near S s i) : ((siftDown S s i).2 = true → Heap S (siftDown S s i).1) ∧
    ((siftDown S s i).2 = false → (siftDown S s i).1 = s ∧ Above S s i) := by
  rw [siftDown]
  dsimp only
  cases hz : S.size s with
  | zero =>
    rw [down]
    exact ⟨fun hc => absurd (of_decide_eq_true hc) (Nat.lt_irrefl _), fun _ => ⟨rfl, above_of_leaf (by omega)⟩⟩
  | succ n =>
    rw [down]
    split
    next hsz => exact ⟨fun hc => absurd (of_decide_eq_true hc) (Nat.lt_irrefl _), fun _ => ⟨rfl, above_of_leaf hsz⟩⟩
    next hsz =>
      split
      next hle => exact ⟨fun hc => absurd (of_decide_eq_true hc) (Nat.lt_irrefl _), fun _ => ⟨rfl, above_of_earlier hle⟩⟩
      next hle =>
        obtain ⟨hm, him, -⟩ := earlier_bounds hsz
        obtain ⟨hn', hb'⟩ := h.swap_child hsz (by omega)
        obtain ⟨hh, hge⟩ := down_heap n _ _ (by rw [S.size_swap]; omega) hn' hb'
        exact ⟨fun _ => hh, fun hc => absurd (of_decide_eq_false hc) (by omega)⟩

theorem Heap.root_le (h : Heap S s) {c : Nat} (hc : c < S.size s) : S.key s 0 ≤ S.key s c := by
  induction c using Nat.strongRecOn with
  | _ c ih =>
    by_cases h₀ : c = 0
    · subst h₀
      exact Int.le_refl _
    · have hp : parent c < c := by rw [parent]; omega
      exact Int.le_trans (ih (parent c) hp (by omega)) (h c (by omega) hc)

end SlotHeap
