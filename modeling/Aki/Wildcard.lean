import Mathlib.Data.List.Basic
import Mathlib.Data.List.Infix

namespace Wildcard

/-- A token stands for any run of letters or for one letter of a kind. -/
inductive Token (α : Type)
  | star
  | one (accepts : α → Bool)

variable {α : Type} {ts : List (Token α)} {s s' : List α}

inductive Matches : List (Token α) → List α → Prop
  | nil : Matches [] []
  | star {ts : List (Token α)} {s : List α} (run : List α) : Matches ts s → Matches (.star :: ts) (run ++ s)
  | one {ts : List (Token α)} {s : List α} {accepts : α → Bool} {c : α} : accepts c = true → Matches ts s → Matches (.one accepts :: ts) (c :: s)

def Token.isStar : Token α → Bool
  | .star => true
  | .one _ => false

/-- The runs of neighbouring stars. -/
def groups : List (Token α) → Nat
  | [] => 0
  | .one _ :: ts => groups ts
  | .star :: ts => if (ts.head?.map Token.isStar).getD false then groups ts else groups ts + 1

theorem groups_le (ts : List (Token α)) : groups ts ≤ ts.length := by
  induction ts with
  | nil => exact Nat.le_refl 0
  | cons t ts ih =>
    rw [List.length_cons]
    cases t with
    | one p => exact Nat.le_succ_of_le ih
    | star =>
      unfold groups
      split <;> omega

theorem matches_nil_iff : Matches ([] : List (Token α)) s ↔ s = [] :=
  ⟨fun h => by cases h; rfl, fun h => h ▸ .nil⟩

theorem matches_star_iff : Matches (.star :: ts) s ↔ ∃ t, t <:+ s ∧ Matches ts t := by
  constructor
  · intro h
    cases h with
    | star run h => exact ⟨_, List.suffix_append run _, h⟩
  · rintro ⟨t, ⟨run, rfl⟩, h⟩
    exact .star run h

theorem matches_one_iff {p : α → Bool} : Matches (.one p :: ts) s ↔ ∃ c t, s = c :: t ∧ p c = true ∧ Matches ts t := by
  constructor
  · intro h
    cases h with
    | one hc h => exact ⟨_, _, rfl, hc, h⟩
  · rintro ⟨c, t, rfl, hc, h⟩
    exact .one hc h

theorem matches_one_cons {p : α → Bool} {c : α} : Matches (.one p :: ts) (c :: s) ↔ p c = true ∧ Matches ts s := by
  rw [matches_one_iff]
  constructor
  · rintro ⟨c', t, he, hc, h⟩
    cases he
    exact ⟨hc, h⟩
  · exact fun h => ⟨c, s, rfl, h.1, h.2⟩

theorem matches_star_star : Matches (.star :: .star :: ts) s ↔ Matches (.star :: ts) s := by
  simp only [matches_star_iff]
  constructor
  · rintro ⟨t, ht, t', ht', h⟩
    exact ⟨t', ht'.trans ht, h⟩
  · rintro ⟨t, ht, h⟩
    exact ⟨t, ht, t, List.suffix_refl t, h⟩

/-- The tokens match no suffix. -/
def Dead (ts : List (Token α)) (s : List α) : Prop := ∀ t, t <:+ s → ¬ Matches ts t

theorem dead_star (h : Dead ts s) : Dead (.star :: ts) s := by
  intro t ht hm
  obtain ⟨t', ht', hm⟩ := matches_star_iff.mp hm
  exact h t' (ht'.trans ht) hm

/-- One letter before tokens that are dead on the rest is dead too: wherever it is read, it leaves a suffix of that rest. -/
theorem dead_one {p : α → Bool} {c : α} (h : Dead ts s) : Dead (.one p :: ts) (c :: s) := by
  intro t ht hm
  obtain ⟨c', t', rfl, -, hm'⟩ := matches_one_iff.mp hm
  rcases List.suffix_cons_iff.mp ht with he | ht
  · cases he
    exact h s (List.suffix_refl s) hm'
  · exact h t' ((List.suffix_cons c' t').trans ht) hm'

end Wildcard
