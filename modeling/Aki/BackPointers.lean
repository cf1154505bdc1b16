import Mathlib.Logic.Relation
import Mathlib.Data.List.Nodup
import Mathlib.Data.List.Perm.Subperm

namespace BackPointers

open Relation

-- A store of items, each of which may name another one by its address, read by a fallible `look`.

variable {α ε : Type} {look : Nat → Except ε (α × Option Nat)}

def Names (look : Nat → Except ε (α × Option Nat)) (a b : Nat) : Prop := ∃ x, look a = .ok (x, some b)

abbrev Path (look : Nat → Except ε (α × Option Nat)) : Nat → Nat → Prop := ReflTransGen (Names look)

/-- Follow the pointers to an item that names none, gathering the items oldest first. An address met again is refused with `cyc`;
there is no result when the turns run out. -/
def walk (look : Nat → Except ε (α × Option Nat)) (cyc : ε) : Nat → Nat → List Nat → List α → Option (Except ε (List α))
  | 0, _, _, _ => none
  | fuel + 1, off, seen, chain =>
    if off ∈ seen then some (.error cyc)
    else
      match look off with
      | .error e => some (.error e)
      | .ok (x, none) => some (.ok (x :: chain))
      | .ok (x, some b) => walk look cyc fuel b (off :: seen) (x :: chain)

inductive Walk (look : Nat → Except ε (α × Option Nat)) (cyc : ε) : List Nat → Nat → List α → Except ε (List α) → Prop
  | cycle {seen off chain} (hs : off ∈ seen) : Walk look cyc seen off chain (.error cyc)
  | stop {seen off chain e} (hl : look off = .error e) : Walk look cyc seen off chain (.error e)
  | base {seen off chain x} (hs : off ∉ seen) (hl : look off = .ok (x, none)) : Walk look cyc seen off chain (.ok (x :: chain))
  | next {seen off chain x b out} (hs : off ∉ seen) (hl : look off = .ok (x, some b))
      (hw : Walk look cyc (off :: seen) b (x :: chain) out) : Walk look cyc seen off chain out

/-- Items followed back from an address, the newest first. -/
inductive Linked (look : Nat → Except ε (α × Option Nat)) : Nat → List α → Prop
  | base {off x} (hl : look off = .ok (x, none)) : Linked look off [x]
  | next {off x b xs} (hl : look off = .ok (x, some b)) (h : Linked look b xs) : Linked look off (x :: xs)

theorem names_unique : Relator.RightUnique (Names look) := by
  rintro a b b' ⟨x, hx⟩ ⟨y, hy⟩
  rw [hx] at hy
  cases hy
  rfl

theorem not_names_of_error {o : Nat} {e : ε} (hl : look o = .error e) (b : Nat) : ¬ Names look o b := by
  rintro ⟨x, hx⟩
  rw [hl] at hx
  cases hx

theorem not_names_of_base {o : Nat} {x : α} (hl : look o = .ok (x, none)) (b : Nat) : ¬ Names look o b := by
  rintro ⟨y, hy⟩
  rw [hl] at hy
  cases hy

/-- The walk ends when only addresses below a bound can be read: no address is read twice. -/
theorem walk_ends {n : Nat} (hbound : ∀ o r, look o = .ok r → o < n) (cyc : ε) (k : Nat) : ∀ (off : Nat) (seen : List Nat) (chain : List α),
    seen.Nodup → (∀ o ∈ seen, o < n) → n ≤ seen.length + k →
    ∃ out, (∀ fuel, k ≤ fuel → walk look cyc (fuel + 1) off seen chain = some out) ∧ Walk look cyc seen off chain out := by
  induction k using Nat.strongRecOn with
  | _ k ih =>
    intro off seen chain hnd hlt hk
    by_cases hs : off ∈ seen
    · exact ⟨_, fun fuel _ => by rw [walk, if_pos hs], .cycle hs⟩
    · rcases hl : look off with e | ⟨x, _ | b⟩
      · exact ⟨_, fun fuel _ => by rw [walk, if_neg hs, hl], .stop hl⟩
      · exact ⟨_, fun fuel _ => by rw [walk, if_neg hs, hl], .base hs hl⟩
      · have hnd' : (off :: seen).Nodup := List.nodup_cons.mpr ⟨hs, hnd⟩
        have hlt' : ∀ o ∈ off :: seen, o < n := by
          intro o ho
          rcases List.mem_cons.mp ho with rfl | ho
          · exact hbound _ _ hl
          · exact hlt o ho
        have hlen : seen.length + 1 ≤ n := by
          have hsub : off :: seen ⊆ List.range n := fun o ho => List.mem_range.mpr (hlt' o ho)
          simpa using (List.subperm_of_subset hnd' hsub).length_le
        obtain ⟨out, hout, hw⟩ := ih (k - 1) (by omega) b (off :: seen) (x :: chain) hnd' hlt' (by rw [List.length_cons]; omega)
        refine ⟨out, fun fuel hf => ?_, .next hs hl hw⟩
        rw [walk, if_neg hs, hl, show fuel = fuel - 1 + 1 by omega]
        exact hout (fuel - 1) (by omega)

variable {cyc : ε} {seen : List Nat} {off : Nat} {chain : List α} {out : Except ε (List α)}

/-- A walk that gathers a chain has read everything its pointers reach, and met nothing twice. -/
theorem Walk.ok {xs : List α} (h : Walk look cyc seen off chain out) (he : out = .ok xs) {o : Nat} (hp : Path look off o) :
    o ∉ seen ∧ (∃ r, look o = .ok r) ∧ ¬ TransGen (Names look) o o := by
  induction h with
  | cycle => cases he
  | stop => cases he
  | base hs hl =>
    obtain rfl | ⟨b, hb, -⟩ := hp.cases_head
    · refine ⟨hs, ⟨_, hl⟩, fun hc => ?_⟩
      obtain ⟨b, hb, -⟩ := TransGen.head'_iff.mp hc
      exact not_names_of_base hl b hb
    · exact absurd hb (not_names_of_base hl b)
  | @next seen off chain x b out hs hl hw ih =>
    obtain rfl | ⟨b', hb, hp⟩ := hp.cases_head
    · refine ⟨hs, ⟨_, hl⟩, fun hc => ?_⟩
      obtain ⟨b', hb, hp⟩ := TransGen.head'_iff.mp hc
      rw [names_unique hb ⟨x, hl⟩] at hp
      exact (ih he hp).1 List.mem_cons_self
    · rw [names_unique hb ⟨x, hl⟩] at hp
      obtain ⟨hn, hr, hc⟩ := ih he hp
      exact ⟨fun hm => hn (List.mem_cons_of_mem _ hm), hr, hc⟩

theorem Walk.error {e : ε} (h : Walk look cyc seen off chain out) (he : out = .error e)
    (hseen : ∀ o ∈ seen, TransGen (Names look) o off) :
    (∃ o, Path look off o ∧ look o = .error e) ∨ (e = cyc ∧ ∃ o, Path look off o ∧ TransGen (Names look) o o) := by
  induction h with
  | @cycle seen off chain hs =>
    cases he
    exact Or.inr ⟨rfl, off, .refl, hseen off hs⟩
  | @stop seen off chain e' hl =>
    cases he
    exact Or.inl ⟨off, .refl, hl⟩
  | base => cases he
  | @next seen off chain x b out hs hl hw ih =>
    have hn : Names look off b := ⟨x, hl⟩
    rcases ih he (by
      intro o ho
      rcases List.mem_cons.mp ho with rfl | ho
      · exact .single hn
      · exact (hseen o ho).tail hn) with ⟨o, hp, ho⟩ | ⟨hc, o, hp, ho⟩
    · exact Or.inl ⟨o, .head hn hp, ho⟩
    · exact Or.inr ⟨hc, o, .head hn hp, ho⟩

theorem transGen_self_of_path {o c : Nat} (hc : TransGen (Names look) o o) (hp : Path look o c) : TransGen (Names look) c c := by
  induction hp with
  | refl => exact hc
  | tail _ hbc ih =>
    obtain ⟨b, hb, hp⟩ := TransGen.head'_iff.mp ih
    rw [names_unique hb hbc] at hp
    exact .tail' hp hbc

theorem Walk.error_of_path (h : Walk look cyc [] off chain out) {o : Nat} {e : ε} (hp : Path look off o) (hl : look o = .error e) :
    out = .error e := by
  rcases hout : out with e' | xs
  · -- the pointers lead one way only, so whatever else they reach is before `o`
    have hlast : ∀ {c}, Path look o c → c = o := by
      intro c hc
      obtain rfl | ⟨b, hb, -⟩ := hc.cases_head
      · rfl
      · exact absurd hb (not_names_of_error hl b)
    rcases h.error hout (by simp) with ⟨o', hp', hl'⟩ | ⟨-, o', hp', hc⟩
    · rcases ReflTransGen.total_of_right_unique names_unique hp hp' with hr | hr
      · rw [hlast hr, hl] at hl'
        exact congrArg Except.error (Except.error.inj hl').symm
      · obtain rfl | ⟨b, hb, -⟩ := hr.cases_head
        · rw [hl] at hl'
          exact congrArg Except.error (Except.error.inj hl').symm
        · exact absurd hb (not_names_of_error hl' b)
    · have hco : TransGen (Names look) o o := by
        rcases ReflTransGen.total_of_right_unique names_unique hp hp' with hr | hr
        · rw [hlast hr] at hc
          exact hc
        · exact transGen_self_of_path hc hr
      obtain ⟨b, hb, -⟩ := TransGen.head'_iff.mp hco
      exact absurd hb (not_names_of_error hl b)
  · obtain ⟨-, ⟨r, hr⟩, -⟩ := h.ok hout hp
    rw [hl] at hr
    cases hr

theorem Linked.path {xs : List α} (h : Linked look off xs) {o : Nat} (hp : Path look off o) :
    ∃ ys, Linked look o ys ∧ ys.length ≤ xs.length := by
  induction hp with
  | refl => exact ⟨xs, h, Nat.le_refl _⟩
  | tail _ hbc ih =>
    obtain ⟨ys, hy, hle⟩ := ih
    obtain ⟨x, hx⟩ := hbc
    cases hy with
    | base hl => rw [hl] at hx; cases hx
    | next hl hr =>
      rw [hl] at hx
      cases hx
      exact ⟨_, hr, Nat.le_trans (Nat.le_succ _) hle⟩

theorem Linked.acyclic {xs : List α} (h : Linked look off xs) : ¬ TransGen (Names look) off off := by
  induction hn : xs.length using Nat.strongRecOn generalizing off xs with
  | _ n ih =>
    intro hc
    obtain ⟨b, hb, hp⟩ := TransGen.head'_iff.mp hc
    cases h with
    | base hl => exact not_names_of_base hl b hb
    | @next _ x b' xs hl hr =>
      rw [names_unique hb ⟨x, hl⟩] at hp
      obtain ⟨ys, hy, hle⟩ := hr.path hp
      exact ih ys.length (by rw [← hn, List.length_cons]; omega) hy rfl hc

theorem Walk.linked_ok {xs ys : List α} (h : Walk look cyc seen off chain out) (he : out = .ok ys) (hl : Linked look off xs) :
    ys = xs.reverse ++ chain := by
  induction h generalizing xs with
  | cycle => cases he
  | stop => cases he
  | base _ hx =>
    cases he
    cases hl with
    | base hy => rw [hx] at hy; cases hy; rfl
    | next hy _ => rw [hx] at hy; cases hy
  | next _ hx _ ih =>
    cases hl with
    | base hy => rw [hx] at hy; cases hy
    | next hy hr =>
      rw [hx] at hy
      cases hy
      rw [ih he hr, List.reverse_cons, List.append_assoc]
      rfl

theorem Walk.linked {xs : List α} (h : Walk look cyc [] off [] out) (hl : Linked look off xs) : out = .ok xs.reverse := by
  rcases hout : out with e | ys
  · rcases h.error hout (by simp) with ⟨o, hp, ho⟩ | ⟨-, o, hp, hc⟩
    · obtain ⟨ys, hy, -⟩ := hl.path hp
      cases hy with
      | base hx => rw [ho] at hx; cases hx
      | next hx _ => rw [ho] at hx; cases hx
    · obtain ⟨ys, hy, -⟩ := hl.path hp
      exact absurd hc hy.acyclic
  · rw [h.linked_ok hout hl, List.append_nil]

end BackPointers
