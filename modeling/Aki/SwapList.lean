import Mathlib.Data.List.Infix
import Mathlib.Data.List.Nodup
import Mathlib.Logic.Function.Basic

namespace SwapList

variable {α : Type} [DecidableEq α] {next : α → Option α} {cells : List α} {pend pend' : α → α → Prop} {a b c t x : α}

/-- Cells appended by swapping the last one in and linking it afterwards: each cell points at the one behind it, or at nothing while
the link between the two is pending. -/
structure Spine (next : α → Option α) (cells : List α) (pend : α → α → Prop) : Prop where
  nodup : cells.Nodup
  last : ∀ t, cells.getLast? = some t → next t = none
  linked : ∀ a b, [a, b] <:+: cells → next a = some b ∨ (next a = none ∧ pend a b)
  pends : ∀ a b, pend a b → [a, b] <:+: cells ∧ next a = none

theorem pair_concat : [a, b] <:+: cells ++ [c] ↔ [a, b] <:+: cells ∨ (cells.getLast? = some a ∧ b = c) := by
  rw [List.infix_concat_iff]
  constructor
  · rintro (⟨xs, hs⟩ | h)
    · right
      have hs' : (xs ++ [a]) ++ [b] = cells ++ [c] := by simpa using hs
      obtain ⟨rfl, hb⟩ := List.append_inj' hs' rfl
      exact ⟨by simp, by simpa using hb⟩
    · exact Or.inl h
  · rintro (h | ⟨ht, rfl⟩)
    · exact Or.inr h
    · left
      obtain ⟨xs, rfl⟩ := List.getLast?_eq_some_iff.mp ht
      exact ⟨xs, by simp⟩

theorem pair_cons : [a, b] <:+: x :: cells ↔ (a = x ∧ cells.head? = some b) ∨ [a, b] <:+: cells := by
  rw [List.infix_cons_iff, List.cons_prefix_cons]
  refine or_congr (and_congr Iff.rfl ?_) Iff.rfl
  cases cells with
  | nil => simp
  | cons y ys => simp [List.cons_prefix_cons, eq_comm]

theorem pair_mem (h : [a, b] <:+: cells) : a ∈ cells ∧ b ∈ cells :=
  ⟨h.subset (by simp), h.subset (by simp)⟩

theorem pair_right (hn : cells.Nodup) (hb : [a, b] <:+: cells) (hc : [a, c] <:+: cells) : b = c := by
  induction cells with
  | nil => simp at hb
  | cons y ys ih =>
    obtain ⟨hy, hn⟩ := List.nodup_cons.mp hn
    rcases pair_cons.mp hb with ⟨rfl, hb'⟩ | hb'
    · rcases pair_cons.mp hc with ⟨-, hc'⟩ | hc'
      · exact Option.some.inj (hb'.symm.trans hc')
      · exact absurd (pair_mem hc').1 hy
    · rcases pair_cons.mp hc with ⟨rfl, -⟩ | hc'
      · exact absurd (pair_mem hb').1 hy
      · exact ih hn hb' hc'

theorem pair_ne_last (hn : cells.Nodup) (h : [a, b] <:+: cells) : cells.getLast? ≠ some a := by
  intro ht
  obtain ⟨xs, ys, rfl⟩ := h
  rw [List.append_assoc, List.getLast?_append] at ht
  have hnd := (List.nodup_append.mp (List.append_assoc xs _ _ ▸ hn)).2.1
  rw [List.cons_append, List.cons_append, List.nil_append, List.getLast?_cons_cons] at ht
  cases hl : (b :: ys).getLast? with
  | none => simp at hl
  | some z =>
    rw [hl, Option.some_or] at ht
    rw [Option.some.inj ht] at hl
    exact (List.nodup_cons.mp hnd).1 (List.mem_of_getLast? hl)

theorem eq_singleton (hn : cells.Nodup) (hh : cells.head? = some a) (ht : cells.getLast? = some a) : cells = [a] := by
  obtain ⟨xs, rfl⟩ := List.head?_eq_some_iff.mp hh
  cases xs with
  | nil => rfl
  | cons b xs => exact absurd ht (pair_ne_last hn (pair_cons.mpr (Or.inl ⟨rfl, rfl⟩)))

theorem Spine.congr (h : Spine next cells pend) (hp : ∀ a b, pend' a b ↔ pend a b) : Spine next cells pend' where
  nodup := h.nodup
  last := h.last
  linked := fun a b hab => by rw [hp]; exact h.linked a b hab
  pends := fun a b hab => h.pends a b ((hp a b).mp hab)

theorem Spine.swapIn (h : Spine next cells pend) (ht : cells.getLast? = some t) (hc : c ∉ cells) (hn : next c = none)
    (hp : ∀ a b, pend' a b ↔ pend a b ∨ (a = t ∧ b = c)) : Spine next (cells ++ [c]) pend' where
  nodup := by
    rw [← List.concat_eq_append]
    exact (List.nodup_concat _ _).mpr ⟨hc, h.nodup⟩
  last := fun t' ht' => by
    rw [List.getLast?_append, List.getLast?_singleton, Option.some_or] at ht'
    rw [← Option.some.inj ht']
    exact hn
  linked := fun a b hab => by
    rw [hp]
    rcases pair_concat.mp hab with hab | ⟨ha, rfl⟩
    · exact (h.linked a b hab).imp id fun hb => ⟨hb.1, Or.inl hb.2⟩
    · exact Or.inr ⟨h.last a ha, Or.inr ⟨Option.some.inj (ha.symm.trans ht), rfl⟩⟩
  pends := fun a b hab => by
    rw [pair_concat]
    rcases (hp a b).mp hab with hab | ⟨rfl, rfl⟩
    · exact ⟨Or.inl (h.pends a b hab).1, (h.pends a b hab).2⟩
    · exact ⟨Or.inr ⟨ht, rfl⟩, h.last a ht⟩

theorem Spine.link (h : Spine next cells pend) (hab : pend a b) (hp : ∀ x y, pend' x y ↔ pend x y ∧ ¬(x = a ∧ y = b)) :
    Spine (Function.update next a (some b)) cells pend' where
  nodup := h.nodup
  last := fun t ht => by
    have hne : t ≠ a := fun he => pair_ne_last h.nodup (h.pends a b hab).1 (he ▸ ht)
    rw [Function.update_of_ne hne]
    exact h.last t ht
  linked := fun x y hxy => by
    by_cases hx : x = a
    · subst hx
      rw [Function.update_self, pair_right h.nodup hxy (h.pends x b hab).1]
      exact Or.inl rfl
    · rw [Function.update_of_ne hx, hp]
      exact (h.linked x y hxy).imp id fun hl => ⟨hl.1, hl.2, fun he => hx he.1⟩
  pends := fun x y hxy => by
    obtain ⟨hxy, hne⟩ := (hp x y).mp hxy
    obtain ⟨hpair, hnone⟩ := h.pends x y hxy
    have hx : x ≠ a := by
      rintro rfl
      exact hne ⟨rfl, pair_right h.nodup hpair (h.pends x b hab).1⟩
    rw [Function.update_of_ne hx]
    exact ⟨hpair, hnone⟩

theorem Spine.advance (h : Spine next (x :: cells) pend) (hx : next x = some a) : cells.head? = some a ∧ Spine next cells pend := by
  have hhead : cells.head? = some a := by
    cases cells with
    | nil =>
      have := h.last x rfl
      rw [hx] at this
      exact absurd this (by simp)
    | cons b ys =>
      rcases h.linked x b (pair_cons.mpr (Or.inl ⟨rfl, rfl⟩)) with hb | ⟨hb, -⟩
      · exact hb.symm.trans hx
      · rw [hx] at hb
        exact absurd hb (by simp)
  obtain ⟨b, ys, rfl⟩ : ∃ b ys, cells = b :: ys := by
    cases cells with
    | nil => simp at hhead
    | cons b ys => exact ⟨b, ys, rfl⟩
  refine ⟨hhead, (List.nodup_cons.mp h.nodup).2, fun t ht => h.last t (by rw [List.getLast?_cons_cons]; exact ht),
    fun a b hab => h.linked a b (pair_cons.mpr (Or.inr hab)), fun a' b' hab => ?_⟩
  obtain ⟨hpair, hnone⟩ := h.pends a' b' hab
  refine ⟨?_, hnone⟩
  rcases pair_cons.mp hpair with ⟨rfl, -⟩ | hpair
  · rw [hx] at hnone
    exact absurd hnone (by simp)
  · exact hpair

theorem Spine.outside (h : Spine next cells pend) (hc : c ∉ cells) (v : Option α) : Spine (Function.update next c v) cells pend := by
  have hsame : ∀ a ∈ cells, Function.update next c v a = next a := by
    intro a ha
    refine Function.update_of_ne ?_ _ _
    rintro rfl
    exact hc ha
  refine ⟨h.nodup, fun t ht => ?_, fun a b hab => ?_, fun a b hab => ?_⟩
  · rw [hsame t (List.mem_of_getLast? ht)]
    exact h.last t ht
  · rw [hsame a (pair_mem hab).1]
    exact h.linked a b hab
  · obtain ⟨hpair, hnone⟩ := h.pends a b hab
    rw [hsame a (pair_mem hpair).1]
    exact ⟨hpair, hnone⟩

end SwapList
