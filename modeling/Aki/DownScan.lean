import Mathlib.Data.List.Basic
import Mathlib.Tactic.SplitIfs

-- A downward cursor over a vector that changes between pages.
-- Positions at or above the cursor have been returned and those below it remain. The vector may grow at its end, and it may lose
-- elements as long as none that stays moves up.

namespace Aki.DownScan

variable {α : Type*} {l m k : List α} {x : α} {cursor count : Nat}

/-- The boundary a page starts from: a fresh scan opens with the whole vector, and a cursor past the end is clamped to it. -/
def boundary (n cursor : Nat) : Nat := if cursor ≠ 0 ∧ cursor < n then cursor else n

/-- The next boundary, 0 at the bottom. -/
def below (b count : Nat) : Nat := if count < b then b - count else 0

/-- The next cursor and the elements examined, from the boundary down. -/
def page (l : List α) (cursor count : Nat) : Nat × List α :=
  if l.length = 0 then (0, [])
  else
    let b := boundary l.length cursor
    (below b count, ((l.take b).drop (below b count)).reverse)

theorem page_map {β : Type*} (f : α → β) (l : List α) (cursor count : Nat) :
    page (l.map f) cursor count = ((page l cursor count).1, (page l cursor count).2.map f) := by
  rw [page, page, List.length_map]
  split
  · rfl
  · rw [List.map_reverse, List.map_drop, List.map_take]

/-- An element that a scan at the cursor has still to examine. -/
def Ahead (l : List α) (cursor : Nat) (x : α) : Prop := cursor = 0 ∧ x ∈ l ∨ ∃ i < cursor, l[i]? = some x

theorem Ahead.mem (h : Ahead l cursor x) : x ∈ l := by
  rcases h with ⟨-, h⟩ | ⟨i, -, h⟩
  · exact h
  · exact List.mem_of_getElem? h

theorem Ahead.below_boundary (h : Ahead l cursor x) : ∃ i < boundary l.length cursor, l[i]? = some x := by
  rcases h with ⟨h0, h⟩ | ⟨i, hi, h⟩
  · obtain ⟨i, hi⟩ := List.mem_iff_getElem?.mp h
    have hlen := (List.getElem?_eq_some_iff.mp hi).1
    refine ⟨i, ?_, hi⟩
    rw [boundary]
    split <;> omega
  · have hlen := (List.getElem?_eq_some_iff.mp h).1
    refine ⟨i, ?_, h⟩
    rw [boundary]
    split <;> omega

theorem boundary_le (n cursor : Nat) : boundary n cursor ≤ n := by
  rw [boundary]
  split <;> omega

theorem Ahead.page (h : Ahead l cursor x) : x ∈ (page l cursor count).2 ∨ ∃ i < (page l cursor count).1, l[i]? = some x := by
  have hne : ¬ l.length = 0 := fun h0 => List.ne_nil_of_mem h.mem (List.eq_nil_of_length_eq_zero h0)
  obtain ⟨i, hi, hx⟩ := h.below_boundary
  rw [DownScan.page, if_neg hne]
  by_cases hlo : below (boundary l.length cursor) count ≤ i
  · left
    obtain ⟨d, rfl⟩ := Nat.exists_eq_add_of_le hlo
    refine List.mem_reverse.mpr (List.mem_of_getElem? (i := d) ?_)
    rw [List.getElem?_drop, List.getElem?_take_of_lt hi, hx]
  · exact .inr ⟨i, Nat.lt_of_not_le hlo, hx⟩

theorem mem_of_mem_page (h : x ∈ (page l cursor count).2) : x ∈ l := by
  rw [page] at h
  split at h
  · exact absurd h List.not_mem_nil
  · exact List.mem_of_mem_take (List.mem_of_mem_drop (List.mem_reverse.mp h))

theorem page_eq_zero (h : l.length ≤ count) : (page l cursor count).1 = 0 := by
  have hle := boundary_le l.length cursor
  rw [page]
  split
  · rfl
  · exact if_neg (by omega)

/-- No element that stays moves up. -/
def Falls (l m : List α) : Prop := ∀ (i : Nat) (x : α), l[i]? = some x → x ∈ m → ∃ j ≤ i, m[j]? = some x

theorem Falls.append (l m : List α) : Falls l (l ++ m) := fun i x h _ =>
  ⟨i, Nat.le_refl i, by rw [List.getElem?_append_left (List.getElem?_eq_some_iff.mp h).1, h]⟩

theorem Falls.of_eq (h : m = l) : Falls l m := fun i x hx _ => ⟨i, Nat.le_refl i, h ▸ hx⟩

theorem Falls.trans (h : Falls l m) (h' : Falls m k) (hsub : ∀ x ∈ k, x ∈ m) : Falls l k := by
  intro i x hi hx
  obtain ⟨j, hj, hm⟩ := h i x hi (hsub x hx)
  obtain ⟨j', hj', hk⟩ := h' j x hm hx
  exact ⟨j', Nat.le_trans hj' hj, hk⟩

theorem Ahead.falls (h : Ahead l cursor x) (hf : Falls l m) (hx : x ∈ m) : Ahead m cursor x := by
  rcases h with ⟨h0, -⟩ | ⟨i, hi, h⟩
  · exact .inl ⟨h0, hx⟩
  · obtain ⟨j, hj, hm⟩ := hf i x h hx
    exact .inr ⟨j, Nat.lt_of_le_of_lt hj hi, hm⟩

end Aki.DownScan
