import Mathlib.Data.List.Basic
import Aki.ScoreKey

namespace Aki.Zset

open Double

theorem treeLt_trans {a b d : UInt64 × List UInt8} (h : treeLt a b) (k : treeLt b d) : treeLt a d := by
  rcases h with h | ⟨h, hm⟩
  · rcases k with k | ⟨k, -⟩
    · exact .inl (UInt64.lt_trans h k)
    · exact .inl (k ▸ h)
  · rcases k with k | ⟨k, km⟩
    · exact .inl (h ▸ k)
    · exact .inr ⟨h.trans k, List.lt_trans hm km⟩

theorem treeLt_asymm {a b : UInt64 × List UInt8} (h : treeLt a b) : ¬ treeLt b a := by
  rintro k
  rcases treeLt_trans h k with h | ⟨-, h⟩
  · exact UInt64.lt_irrefl _ h
  · exact List.lt_irrefl _ h

theorem treeLt_or_eq {a b : UInt64 × List UInt8} (h : ¬ treeLt a b) : b = a ∨ treeLt b a := by
  have hk : ¬ a.1 < b.1 := fun c => h (.inl c)
  rcases UInt64.lt_or_eq_of_le (UInt64.not_lt.mp hk) with k | k
  · exact .inr (.inl k)
  · by_cases hm : b.2 < a.2
    · exact .inr (.inr ⟨k, hm⟩)
    · have hn : ¬ a.2 < b.2 := fun c => h (.inr ⟨k.symm, c⟩)
      exact .inl (Prod.ext k (List.le_antisymm hn hm))

/-- The tree's key of an entry. -/
def Native.treeKey (e : UInt64 × List UInt8) : UInt64 × List UInt8 := (scoreKey e.1, e.2)

/-- Where a tree key stands among entries in order and whether an entry has it. -/
def Native.rankOf (entries : List (UInt64 × List UInt8)) (key : UInt64) (member : List UInt8) : Nat × Bool :=
  let r := entries.findIdx fun e => !decide (treeLt (treeKey e) (key, member))
  (r, entries[r]?.any fun e => treeKey e = (key, member))

/-- A native zset as its tree keeps it: every member with the raw bits of its score, in zset order. The tree is
taken at the contract of its `Rank`. -/
structure Native where
  entries : List (UInt64 × List UInt8)
  not_nan : ∀ e ∈ entries, isNaN e.1 = false
  sorted : entries.Pairwise zsetLt
  rank : UInt64 → List UInt8 → Nat × Bool
  rank_eq : ∀ key member, rank key member = Native.rankOf entries key member

section

def Native.card (z : Native) : Nat := z.entries.length

def Native.selectAt (z : Native) (r : Nat) : UInt64 := (z.entries[r]?.map fun e => scoreKey e.1).getD 0

variable (z : Native)

theorem Native.key_sorted : z.entries.Pairwise fun a b => treeLt (treeKey a) (treeKey b) :=
  z.sorted.imp_of_mem fun {a b} ha hb h => (treeLt_iff_zsetLt (z.not_nan a ha) (z.not_nan b hb) a.2 b.2).mpr h

theorem Native.key_lt {i j : Nat} {a b : UInt64 × List UInt8} (hi : z.entries[i]? = some a) (hj : z.entries[j]? = some b) (h : i < j) :
    treeLt (treeKey a) (treeKey b) := by
  obtain ⟨hi', rfl⟩ := List.getElem?_eq_some_iff.mp hi
  obtain ⟨hj', rfl⟩ := List.getElem?_eq_some_iff.mp hj
  exact List.pairwise_iff_getElem.mp z.key_sorted i j hi' hj' h

variable (key : UInt64) (member : List UInt8) {i : Nat} {e : UInt64 × List UInt8}

theorem Native.lt_rank_iff (he : z.entries[i]? = some e) : i < (z.rank key member).1 ↔ treeLt (treeKey e) (key, member) := by
  obtain ⟨hi, rfl⟩ := List.getElem?_eq_some_iff.mp he
  rw [z.rank_eq]
  simp only [rankOf]
  constructor
  · intro h
    simpa using List.not_of_lt_findIdx h
  · intro h
    by_contra hge
    have hr := lt_of_le_of_lt (not_lt.mp hge) hi
    have hfound := List.findIdx_getElem (w := hr)
    rcases (not_lt.mp hge).lt_or_eq with hlt | heq
    · have := treeLt_trans (z.key_lt (List.getElem?_eq_getElem hr) he hlt) h
      simp [this] at hfound
    · simp only [heq] at hfound
      simp [h] at hfound

theorem Native.lt_rank_present_iff (he : z.entries[i]? = some e) :
    i < (z.rank key member).1 + (z.rank key member).2.toNat ↔ ¬ treeLt (key, member) (treeKey e) := by
  obtain ⟨r, hr⟩ : ∃ r, (z.rank key member).1 = r := ⟨_, rfl⟩
  have hpres : (z.rank key member).2 = z.entries[r]?.any fun e => treeKey e = (key, member) := by rw [← hr, z.rank_eq]; rfl
  have hrank {j : Nat} {f} (hf : z.entries[j]? = some f) := hr ▸ z.lt_rank_iff key member hf
  rw [hr, hpres]
  rcases Nat.lt_trichotomy i r with hlt | rfl | hgt
  · exact iff_of_true (by omega) (treeLt_asymm ((hrank he).mp hlt))
  · have hge := treeLt_or_eq (mt (hrank he).mpr (lt_irrefl i))
    rw [he, Option.any_some]
    by_cases heq : treeKey e = (key, member)
    · rw [decide_eq_true heq]
      exact iff_of_true (by simp) fun h => treeLt_asymm h (heq ▸ h)
    · rw [decide_eq_false heq]
      exact iff_of_false (by simp) (not_not.mpr (hge.resolve_left fun h => heq h.symm))
  · have hi := (List.getElem?_eq_some_iff.mp he).1
    have hf : z.entries[r]? = some z.entries[r] := List.getElem?_eq_getElem (by omega)
    have habove := z.key_lt hf he hgt
    refine iff_of_false (fun h => ?_) (not_not.mpr ?_)
    · have := Bool.toNat_le (z.entries[r]?.any fun e => treeKey e = (key, member))
      omega
    · rcases treeLt_or_eq (mt (hrank hf).mpr (lt_irrefl r)) with h | h
      · exact h ▸ habove
      · exact treeLt_trans h habove

theorem Native.rank_le_card : (z.rank key member).1 + (z.rank key member).2.toNat ≤ z.card := by
  have hle : (z.rank key member).1 ≤ z.card := z.rank_eq key member ▸ List.findIdx_le_length
  cases hp : (z.rank key member).2 with
  | false => exact hle
  | true =>
    have hsome : (z.entries[(z.rank key member).1]?.any fun e => treeKey e = (key, member)) = true := by
      rw [← hp, z.rank_eq]
      rfl
    rcases hle.lt_or_eq with hlt | heq
    · exact hlt
    · have hnone : z.entries[z.card]? = none := List.getElem?_eq_none (le_refl _)
      rw [heq, hnone] at hsome
      cases hsome

end

structure ScoreBound where
  value : UInt64
  exclusive : Bool

def ScoreBound.atOrAbove (b : ScoreBound) (x : UInt64) : Prop :=
  if b.exclusive then Double.value b.value < Double.value x else Double.value b.value ≤ Double.value x

def ScoreBound.atOrBelow (b : ScoreBound) (x : UInt64) : Prop :=
  if b.exclusive then Double.value x < Double.value b.value else Double.value x ≤ Double.value b.value

inductive LexInf
  | neg
  | finite
  | pos
deriving DecidableEq

structure LexBound where
  inf : LexInf
  value : List UInt8
  exclusive : Bool

def LexBound.atOrAbove (b : LexBound) (m : List UInt8) : Prop :=
  match b.inf with
  | .neg => True
  | .pos => False
  | .finite => if b.exclusive then b.value < m else b.value ≤ m

def LexBound.atOrBelow (b : LexBound) (m : List UInt8) : Prop :=
  match b.inf with
  | .neg => False
  | .pos => True
  | .finite => if b.exclusive then m < b.value else m ≤ b.value

namespace Native

def scoreWindow (z : Native) (min max : ScoreBound) : Nat × Nat :=
  let lk := scoreKey min.value + if min.exclusive then 1 else 0
  let lo := (z.rank lk []).1
  let hk := scoreKey max.value + if max.exclusive then 0 else 1
  let hiExcl := (z.rank hk []).1
  (lo, if hiExcl < lo then lo else hiExcl)

def lexLow (z : Native) (band : UInt64) (min : LexBound) : Nat :=
  match min.inf with
  | .neg => 0
  | .pos => z.card
  | .finite =>
    let (r, present) := z.rank band min.value
    if min.exclusive && present then r + 1 else r

def lexHigh (z : Native) (band : UInt64) (max : LexBound) : Nat :=
  match max.inf with
  | .pos => z.card
  | .neg => 0
  | .finite =>
    let (r, present) := z.rank band max.value
    if !max.exclusive && present then r + 1 else r

def lexWindow (z : Native) (min max : LexBound) : Nat × Nat :=
  if z.card = 0 then (0, 0)
  else if min.inf = .pos then (z.card, z.card)
  else
    let band := z.selectAt 0
    let lo := z.lexLow band min
    let hiExcl := z.lexHigh band max
    (lo, if hiExcl < lo then lo else hiExcl)

theorem end_eq (skip : Bool) (r : Nat) (present : Bool) :
    (if skip && present then r + 1 else r) = if skip then r + present.toNat else r := by
  cases skip <;> cases present <;> rfl

/-- A window of ranks holding exactly the entries a predicate picks. -/
def Exact (z : Native) (w : Nat × Nat) (p : UInt64 × List UInt8 → Prop) : Prop :=
  w.1 ≤ w.2 ∧ w.2 ≤ z.card ∧ (∀ i e, z.entries[i]? = some e → (w.1 ≤ i ∧ i < w.2 ↔ p e)) ∧ ((∀ e ∈ z.entries, ¬ p e) → w.1 = w.2)

variable (z : Native)

/-- A window from its two ends: the low end stands after the entries that fail the low test and the high end after those that pass
the high one. -/
theorem exact_of_ends {lo hi : Nat} {p q : UInt64 × List UInt8 → Prop} (hlo : lo ≤ z.card) (hhi : hi ≤ z.card)
    (hp : ∀ i e, z.entries[i]? = some e → (i < lo ↔ ¬ p e)) (hq : ∀ i e, z.entries[i]? = some e → (i < hi ↔ q e)) :
    z.Exact (lo, if hi < lo then lo else hi) fun e => p e ∧ q e := by
  have hiff : ∀ i e, z.entries[i]? = some e → (lo ≤ i ∧ i < (if hi < lo then lo else hi) ↔ p e ∧ q e) := by
    intro i e he
    rw [← not_not (a := p e), ← hp i e he, ← hq i e he]
    split <;> omega
  have hle : lo ≤ if hi < lo then lo else hi := by split <;> omega
  have hcard : (if hi < lo then lo else hi) ≤ z.card := by split <;> omega
  refine ⟨hle, hcard, hiff, fun hnone => hle.antisymm (not_lt.mp fun hlt => ?_)⟩
  have hlen : lo < z.entries.length := lt_of_lt_of_le hlt hcard
  exact hnone _ (List.getElem_mem hlen) ((hiff lo _ (List.getElem?_eq_getElem hlen)).mp ⟨le_refl lo, hlt⟩)

/-- Against the nil member only the score decides. -/
theorem lt_rank_nil_iff (key : UInt64) {i : Nat} {e : UInt64 × List UInt8} (he : z.entries[i]? = some e) :
    i < (z.rank key []).1 ↔ scoreKey e.1 < key := by
  rw [z.lt_rank_iff key [] he]
  exact or_iff_left fun h => List.not_lt_nil _ h.2

/-- No score's key is the last one, so its successor is the key above it. -/
theorem lt_scoreKey_succ_iff {x y : UInt64} (hx : isNaN x = false) (hy : isNaN y = false) :
    scoreKey x < scoreKey y + 1 ↔ Double.value x ≤ Double.value y := by
  have hle := (low_le_of_not_nan hy).1
  have hkey := scoreKey_toNat y
  have hlt : (scoreKey y).toNat + 1 < 2 ^ 64 := by
    rw [hkey]
    split <;> omega
  have hsucc : (scoreKey y + 1).toNat = (scoreKey y).toNat + 1 := by
    rw [UInt64.toNat_add]
    exact Nat.mod_eq_of_lt hlt
  rw [← not_lt, ← scoreKey_lt_iff hy hx, UInt64.lt_iff_toNat_lt, UInt64.lt_iff_toNat_lt, hsucc]
  omega

theorem scoreWindow_exact (min max : ScoreBound) (hmin : isNaN min.value = false) (hmax : isNaN max.value = false) :
    z.Exact (z.scoreWindow min max) fun e => min.atOrAbove e.1 ∧ max.atOrBelow e.1 := by
  have hend (key : UInt64) : (z.rank key []).1 ≤ z.card := (Nat.le_add_right ..).trans (z.rank_le_card key [])
  refine z.exact_of_ends (hend _) (hend _) (fun i e he => ?_) fun i e he => ?_
  · have hn := z.not_nan e (List.mem_of_getElem? he)
    rw [z.lt_rank_nil_iff _ he, ScoreBound.atOrAbove]
    cases min.exclusive with
    | false => simpa using scoreKey_lt_iff hn hmin
    | true => simpa using lt_scoreKey_succ_iff hn hmin
  · have hn := z.not_nan e (List.mem_of_getElem? he)
    rw [z.lt_rank_nil_iff _ he, ScoreBound.atOrBelow]
    cases max.exclusive with
    | false => simpa using lt_scoreKey_succ_iff hn hmax
    | true => simpa using scoreKey_lt_iff hn hmax

section
variable (hband : ∀ a ∈ z.entries, ∀ b ∈ z.entries, Double.value a.1 = Double.value b.1)
include hband

theorem selectAt_band {i : Nat} {e : UInt64 × List UInt8} (he : z.entries[i]? = some e) : scoreKey e.1 = z.selectAt 0 := by
  have hmem := List.mem_of_getElem? he
  have h0 : 0 < z.entries.length := List.length_pos_of_mem hmem
  have hfirst := List.getElem_mem h0
  rw [selectAt, List.getElem?_eq_getElem h0]
  exact (scoreKey_eq_iff_value (z.not_nan e hmem) (z.not_nan _ hfirst)).mpr (hband e hmem _ hfirst)

theorem lt_rank_band_iff (v : List UInt8) {i : Nat} {e : UInt64 × List UInt8} (he : z.entries[i]? = some e) :
    (i < (z.rank (z.selectAt 0) v).1 ↔ e.2 < v) ∧
    (i < (z.rank (z.selectAt 0) v).1 + (z.rank (z.selectAt 0) v).2.toNat ↔ e.2 ≤ v) := by
  have hk := z.selectAt_band hband he
  rw [z.lt_rank_iff _ v he, z.lt_rank_present_iff _ v he, treeLt, treeLt, treeKey, hk]
  exact ⟨(or_iff_right (UInt64.lt_irrefl _)).trans (and_iff_right rfl),
    not_congr ((or_iff_right (UInt64.lt_irrefl _)).trans (and_iff_right rfl))⟩

theorem lt_lexLow_iff (min : LexBound) {i : Nat} {e : UInt64 × List UInt8} (he : z.entries[i]? = some e) :
    i < z.lexLow (z.selectAt 0) min ↔ ¬ min.atOrAbove e.2 := by
  have hi : i < z.card := (List.getElem?_eq_some_iff.mp he).1
  obtain ⟨hlt, hle⟩ := z.lt_rank_band_iff hband min.value he
  rw [lexLow, LexBound.atOrAbove]
  cases min.inf with
  | neg => simp
  | pos => simpa using hi
  | finite =>
    simp only [end_eq]
    cases min.exclusive with
    | false => simpa using hlt
    | true => simpa using hle

theorem lt_lexHigh_iff (max : LexBound) {i : Nat} {e : UInt64 × List UInt8} (he : z.entries[i]? = some e) :
    i < z.lexHigh (z.selectAt 0) max ↔ max.atOrBelow e.2 := by
  have hi : i < z.card := (List.getElem?_eq_some_iff.mp he).1
  obtain ⟨hlt, hle⟩ := z.lt_rank_band_iff hband max.value he
  rw [lexHigh, LexBound.atOrBelow]
  cases max.inf with
  | neg => simp
  | pos => simpa using hi
  | finite =>
    simp only [end_eq]
    cases max.exclusive with
    | false => simpa using hle
    | true => simpa using hlt

omit hband in
theorem lexEnds_le_card (band : UInt64) (b : LexBound) : z.lexLow band b ≤ z.card ∧ z.lexHigh band b ≤ z.card := by
  have hrank := z.rank_le_card band b.value
  rw [lexLow, lexHigh]
  generalize z.rank band b.value = r at hrank
  cases b.inf with
  | neg => simp
  | pos => simp
  | finite =>
    simp only [end_eq]
    cases b.exclusive <;> simp <;> omega

theorem lexWindow_exact (min max : LexBound) :
    z.Exact (z.lexWindow min max) fun e => min.atOrAbove e.2 ∧ max.atOrBelow e.2 := by
  rw [lexWindow]
  split_ifs with hcard hpos
  · have hnone (i : Nat) : z.entries[i]? = none := List.getElem?_eq_none (hcard.le.trans (Nat.zero_le i))
    exact ⟨le_refl 0, Nat.zero_le _, fun i e he => absurd (he.symm.trans (hnone i)) (by simp), fun _ => rfl⟩
  · refine ⟨le_refl _, le_refl _, fun i e _ => iff_of_false (fun h => by omega) ?_, fun _ => rfl⟩
    rintro ⟨h, -⟩
    rwa [LexBound.atOrAbove, hpos] at h
  · exact z.exact_of_ends (z.lexEnds_le_card _ min).1 (z.lexEnds_le_card _ max).2 (fun i e he => z.lt_lexLow_iff hband min he)
      fun i e he => z.lt_lexHigh_iff hband max he

end

/-- Both windows hold exactly the members their bounds allow. -/
theorem windows_exact :
    (∀ min max : ScoreBound, isNaN min.value = false → isNaN max.value = false →
      z.Exact (z.scoreWindow min max) fun e => min.atOrAbove e.1 ∧ max.atOrBelow e.1) ∧
    ((∀ a ∈ z.entries, ∀ b ∈ z.entries, Double.value a.1 = Double.value b.1) →
      ∀ min max : LexBound, z.Exact (z.lexWindow min max) fun e => min.atOrAbove e.2 ∧ max.atOrBelow e.2) :=
  ⟨z.scoreWindow_exact, z.lexWindow_exact⟩

/-- The members x and y at minus and plus zero, in a band of one score. -/
def zeros : Native := ⟨[(0x8000000000000000, [120]), (0, [121])], by decide +kernel,
  List.pairwise_pair.mpr (.inr ⟨by decide +kernel, by decide⟩), rankOf _, fun _ _ => rfl⟩

theorem zeros_windows_exact :
    zeros.scoreWindow ⟨0, false⟩ ⟨0x7ff0000000000000, false⟩ = (0, 2) ∧
    zeros.Exact (zeros.scoreWindow ⟨0, false⟩ ⟨0x7ff0000000000000, false⟩) (fun e =>
      ScoreBound.atOrAbove ⟨0, false⟩ e.1 ∧ ScoreBound.atOrBelow ⟨0x7ff0000000000000, false⟩ e.1) ∧
    zeros.lexWindow ⟨.finite, [120], true⟩ ⟨.pos, [], false⟩ = (1, 2) ∧
    zeros.Exact (zeros.lexWindow ⟨.finite, [120], true⟩ ⟨.pos, [], false⟩) fun e =>
      LexBound.atOrAbove ⟨.finite, [120], true⟩ e.2 ∧ LexBound.atOrBelow ⟨.pos, [], false⟩ e.2 :=
  ⟨by decide +kernel, zeros.windows_exact.1 _ _ (by decide +kernel) (by decide +kernel), by decide +kernel,
    zeros.windows_exact.2 (by decide +kernel) _ _⟩

end Native

end Aki.Zset
