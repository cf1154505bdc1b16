import Mathlib.Tactic.Ring
import Aki.CommonSubsequence

namespace Aki.Sqlo1

open CommonSubsequence (best best_match best_miss best_le IsLongest isLongest_best)

/-- A pair of ranges with both ends included. -/
structure LcsMatch where
  aStart : Nat
  aEnd : Nat
  bStart : Nat
  bEnd : Nat
deriving DecidableEq, Repr

inductive LcsError
  | tooLong
  | alloc
  | panic
deriving DecidableEq, Repr

namespace LcsMatch

def len (m : LcsMatch) : Nat := m.aEnd - m.aStart + 1

/-- Equal substrings of the two strings. -/
structure Pairs (a b : List UInt8) (m : LcsMatch) : Prop where
  aOrder : m.aStart ≤ m.aEnd
  bOrder : m.bStart ≤ m.bEnd
  aLt : m.aEnd < a.length
  bLt : m.bEnd < b.length
  same : m.aEnd - m.aStart = m.bEnd - m.bStart
  equal : (a.drop m.aStart).take m.len = (b.drop m.bStart).take m.len

/-- Nearer to the start in both strings, with nothing shared. -/
def Below (m m' : LcsMatch) : Prop := m'.aEnd < m.aStart ∧ m'.bEnd < m.bStart

end LcsMatch

/-- Ranges of equal substrings, each below the one before it. -/
structure LcsRanges (a b : List UInt8) (rs : List LcsMatch) : Prop where
  pairs : ∀ r ∈ rs, r.Pairs a b
  below : rs.Pairwise LcsMatch.Below

namespace Lcs

def lcsMaxAlloc : Int := 512 * 2 ^ 20

def maxUint32 : Nat := 2 ^ 32 - 1

/-- The largest slice the runtime allocates. -/
def maxAlloc : Int := 2 ^ 48

def u32 (n : Nat) : Nat := n % 2 ^ 32

def int64 (n : Nat) : Int := Int.bmod n (2 ^ 64)

/-- The cells of a row from the row above and the cell to the left. -/
def fillRow (ai : UInt8) : List UInt8 → List Nat → Nat → List Nat
  | bj :: b, diag :: up :: prev, left =>
    let cell := if ai = bj then u32 (diag + 1) else if left < up then up else left
    cell :: fillRow ai b (up :: prev) cell
  | _, _, _ => []

def fillTable (b : List UInt8) : List UInt8 → List Nat → List (List Nat)
  | [], prev => [prev]
  | ai :: a, prev => prev :: fillTable b a (0 :: fillRow ai b prev 0)

def lcsTable (a b : List UInt8) : List (List Nat) := fillTable b a (List.replicate (b.length + 1) 0)

def cell (lcs : List (List Nat)) (i j : Nat) : Nat := (lcs.getD i []).getD j 0

/-- The variables of the walk back. No range is open when its start in the first string is that string's length. -/
structure Backtrack where
  idx : Nat
  arangeStart : Nat
  arangeEnd : Nat
  brangeStart : Nat
  brangeEnd : Nat
  i : Nat
  j : Nat
  result : Option (List UInt8)
  found : List LcsMatch

section

variable (a b : List UInt8) (lcs : List (List Nat))

/-- The range after a pair of equal bytes: opened, grown by one, or left for emission. -/
def Backtrack.extend (s : Backtrack) : Backtrack × Bool :=
  if s.arangeStart = u32 a.length then
    ({ s with arangeStart := u32 (s.i - 1), arangeEnd := u32 (s.i - 1), brangeStart := u32 (s.j - 1), brangeEnd := u32 (s.j - 1) }, false)
  else if s.arangeStart = u32 s.i ∧ s.brangeStart = u32 s.j then
    ({ s with arangeStart := u32 (s.arangeStart + (2 ^ 32 - 1)), brangeStart := u32 (s.brangeStart + (2 ^ 32 - 1)) }, false)
  else (s, true)

/-- One turn of the loop up to the emission, and whether there is one. -/
def Backtrack.turn (s : Backtrack) : Backtrack × Bool :=
  if a.getD (s.i - 1) 0 = b.getD (s.j - 1) 0 then
    let (t, emitRange) := extend a { s with result := s.result.map fun r => r.set (s.idx - 1) (a.getD (s.i - 1) 0) }
    ({ t with idx := u32 (t.idx + (2 ^ 32 - 1)), i := t.i - 1, j := t.j - 1 },
      emitRange || decide (t.arangeStart = 0 ∨ t.brangeStart = 0))
  else
    (if cell lcs s.i (s.j - 1) < cell lcs (s.i - 1) s.j then { s with i := s.i - 1 } else { s with j := s.j - 1 },
      decide (s.arangeStart ≠ u32 a.length))

def Backtrack.matchLen (s : Backtrack) : Nat := u32 (s.arangeEnd + (2 ^ 32 - s.arangeStart) + 1)

def Backtrack.emit (getIdx : Bool) (minMatchLen : Int) (s : Backtrack) : Backtrack :=
  { s with
    found := if getIdx ∧ (minMatchLen = 0 ∨ minMatchLen ≤ s.matchLen) then
      s.found ++ [⟨s.arangeStart, s.arangeEnd, s.brangeStart, s.brangeEnd⟩] else s.found
    arangeStart := u32 a.length }

def Backtrack.step (getIdx : Bool) (minMatchLen : Int) (s : Backtrack) : Backtrack :=
  let (t, emitRange) := turn a b lcs s
  if emitRange then t.emit a getIdx minMatchLen else t

/-- The loop, which a turn brings nearer to the start of one string. -/
def Backtrack.run (getIdx : Bool) (minMatchLen : Int) : Nat → Backtrack → Backtrack
  | 0, s => s
  | n + 1, s => if 0 < s.i ∧ 0 < s.j then run getIdx minMatchLen n (step a b lcs getIdx minMatchLen s) else s

end

/-- The total, the string if one was asked for, and the ranges. -/
def lcsRun (a b : List UInt8) (getLen getIdx : Bool) (minMatchLen : Int) : Except LcsError (Nat × Option (List UInt8) × List LcsMatch) :=
  if maxUint32 - 1 ≤ a.length ∨ maxUint32 - 1 ≤ b.length then .error .tooLong
  else if lcsMaxAlloc < int64 ((a.length + 1) * (b.length + 1) * 4) then .error .alloc
  else if int64 ((a.length + 1) * (b.length + 1)) < 0 ∨ maxAlloc < int64 ((a.length + 1) * (b.length + 1)) * 4 then .error .panic
  else
    let lcs := lcsTable a b
    let total := cell lcs a.length b.length
    if getLen && !getIdx then .ok (total, none, [])
    else
      let s := Backtrack.run a b lcs getIdx minMatchLen (a.length + b.length)
        ⟨total, u32 a.length, 0, 0, 0, a.length, b.length, if getIdx then none else some (List.replicate total 0), []⟩
      .ok (total, s.result, s.found)

variable {a b : List UInt8}

theorem fillRow_eq {i : Nat} (hi : i < a.length) (hw : i + 1 < 2 ^ 32) (n j : Nat) (hj : b.length = j + n) :
    fillRow a[i] (b.drop j) ((List.range' j (n + 1)).map (best a b i)) (best a b (i + 1) j) =
      (List.range' (j + 1) n).map (best a b (i + 1)) := by
  induction n generalizing j with
  | zero =>
    rw [List.drop_eq_nil_of_le (by omega)]
    rfl
  | succ n ih =>
    have hjb : j < b.length := by omega
    have hcell : (if a[i] = b[j] then u32 (best a b i j + 1)
        else if best a b (i + 1) j < best a b i (j + 1) then best a b i (j + 1) else best a b (i + 1) j) = best a b (i + 1) (j + 1) := by
      have hget : a[i]? = b[j]? ↔ a[i] = b[j] := by
        rw [List.getElem?_eq_getElem hi, List.getElem?_eq_getElem hjb, Option.some.injEq]
      by_cases h : a[i] = b[j]
      · have := best_le a b i j
        rw [if_pos h, best_match (hget.mpr h), u32, Nat.mod_eq_of_lt (by omega)]
      · rw [if_neg h, best_miss (fun he => h (hget.mp he))]
        split <;> omega
    rw [List.drop_eq_getElem_cons hjb, List.range'_succ, List.range'_succ, List.map_cons, List.map_cons, fillRow]
    rw [hcell, ← List.map_cons, ← List.range'_succ, ih (j + 1) (by omega), List.range'_succ, List.map_cons]

def row (a b : List UInt8) (i : Nat) : List Nat := (List.range' 0 (b.length + 1)).map (best a b i)

theorem fillTable_eq (hw : a.length < 2 ^ 32) (n i : Nat) (hi : a.length = i + n) :
    fillTable b (a.drop i) (row a b i) = (List.range' i (n + 1)).map (row a b) := by
  induction n generalizing i with
  | zero =>
    rw [List.drop_eq_nil_of_le (by omega)]
    rfl
  | succ n ih =>
    have hia : i < a.length := by omega
    have hrow : 0 :: fillRow a[i] b (row a b i) 0 = row a b (i + 1) := by
      have h := fillRow_eq (b := b) hia (by omega) b.length 0 (by omega)
      rw [List.drop_zero, CommonSubsequence.best_zero_right] at h
      rw [row, h, row, List.range'_succ, List.map_cons, CommonSubsequence.best_zero_right]
    rw [List.drop_eq_getElem_cons hia, fillTable, hrow, ih (i + 1) (by omega), List.range'_succ (s := i), List.map_cons]

theorem cell_lcsTable (hw : a.length < 2 ^ 32) {i j : Nat} (hi : i ≤ a.length) (hj : j ≤ b.length) :
    cell (lcsTable a b) i j = best a b i j := by
  have hfirst : List.replicate (b.length + 1) 0 = row a b 0 := by
    refine (List.eq_replicate_iff.mpr ⟨by simp [row], fun x hx => ?_⟩).symm
    obtain ⟨k, -, rfl⟩ := List.mem_map.mp hx
    exact CommonSubsequence.best_zero_left k
  have htable : lcsTable a b = (List.range' 0 (a.length + 1)).map (row a b) := by
    have h := fillTable_eq (b := b) hw a.length 0 (by omega)
    rwa [List.drop_zero, ← hfirst] at h
  have hi' : i < a.length + 1 := by omega
  have hj' : j < b.length + 1 := by omega
  rw [cell, htable, List.getD_eq_getElem?_getD, List.getD_eq_getElem?_getD, List.getElem?_map,
    List.getElem?_range' hi', Option.map_some, Option.getD_some, row, List.getElem?_map, List.getElem?_range' hj']
  simp

variable {i j : Nat} {rs : List LcsMatch} {r : LcsMatch}

/-- All of them lie past the given places. -/
def Past (i j : Nat) (rs : List LcsMatch) : Prop := ∀ r ∈ rs, i ≤ r.aStart ∧ j ≤ r.bStart

theorem Past.mono {i' j' : Nat} (h : Past i j rs) (hi : i' ≤ i) (hj : j' ≤ j) : Past i' j' rs :=
  fun r hr => ⟨Nat.le_trans hi (h r hr).1, Nat.le_trans hj (h r hr).2⟩

theorem ranges_concat (h : LcsRanges a b rs) (hp : Past i j rs) (hr : r.Pairs a b) (hi : r.aEnd < i) (hj : r.bEnd < j) :
    LcsRanges a b (rs ++ [r]) ∧ Past r.aStart r.bStart (rs ++ [r]) := by
  refine ⟨⟨fun r' hr' => ?_, ?_⟩, fun r' hr' => ?_⟩
  · rcases List.mem_append.mp hr' with hr' | hr'
    · exact h.pairs r' hr'
    · exact List.mem_singleton.mp hr' ▸ hr
  · refine List.pairwise_append.mpr ⟨h.below, List.pairwise_singleton _ _, fun r₁ h₁ r₂ h₂ => ?_⟩
    obtain rfl := List.mem_singleton.mp h₂
    exact ⟨Nat.lt_of_lt_of_le hi (hp r₁ h₁).1, Nat.lt_of_lt_of_le hj (hp r₁ h₁).2⟩
  · rcases List.mem_append.mp hr' with hr' | hr'
    · have := hr.aOrder
      have := hr.bOrder
      have := hp r' hr'
      omega
    · rw [List.mem_singleton.mp hr']
      exact ⟨Nat.le_refl _, Nat.le_refl _⟩

theorem ranges_front (h : LcsRanges a b (rs ++ [r])) : LcsRanges a b rs ∧ Past (r.aEnd + 1) (r.bEnd + 1) rs := by
  obtain ⟨hrs, -, hlast⟩ := List.pairwise_append.mp h.below
  exact ⟨⟨fun r' hr' => h.pairs r' (List.mem_append_left _ hr'), hrs⟩, fun r' hr' => hlast r' hr' r List.mem_cons_self⟩

theorem pairs_single {x : UInt8} (ha : a[i]? = some x) (hb : b[j]? = some x) : LcsMatch.Pairs a b ⟨i, i, j, j⟩ := by
  obtain ⟨hi, hai⟩ := List.getElem?_eq_some_iff.mp ha
  obtain ⟨hj, hbj⟩ := List.getElem?_eq_some_iff.mp hb
  refine ⟨Nat.le_refl _, Nat.le_refl _, hi, hj, by simp, ?_⟩
  have hlen : LcsMatch.len ⟨i, i, j, j⟩ = 1 := by simp [LcsMatch.len]
  rw [hlen, List.drop_eq_getElem_cons hi, List.drop_eq_getElem_cons hj, hai, hbj]
  rfl

theorem pairs_grow {x : UInt8} (h : r.Pairs a b) (hi : r.aStart = i + 1) (hj : r.bStart = j + 1) (ha : a[i]? = some x)
    (hb : b[j]? = some x) : LcsMatch.Pairs a b ⟨i, r.aEnd, j, r.bEnd⟩ := by
  obtain ⟨hia, hai⟩ := List.getElem?_eq_some_iff.mp ha
  obtain ⟨hjb, hbj⟩ := List.getElem?_eq_some_iff.mp hb
  have hao := h.aOrder
  have hbo := h.bOrder
  have hsame := h.same
  refine ⟨by dsimp only; omega, by dsimp only; omega, h.aLt, h.bLt, by dsimp only; omega, ?_⟩
  have hlen : LcsMatch.len ⟨i, r.aEnd, j, r.bEnd⟩ = r.len + 1 := by
    unfold LcsMatch.len
    dsimp only
    omega
  have heq := h.equal
  rw [hi, hj] at heq
  rw [hlen]
  dsimp only
  rw [List.drop_eq_getElem_cons hia, List.drop_eq_getElem_cons hjb, List.take_succ_cons, List.take_succ_cons, heq, hai, hbj]

namespace Backtrack

variable {lcs : List (List Nat)} {s : Backtrack} {getIdx : Bool} {m : Int}

/-- What the walk back keeps: the place in the result is the best of the rest, and an open range starts where the walk stands. -/
structure Inv (a b : List UInt8) (s : Backtrack) : Prop where
  i_le : s.i ≤ a.length
  j_le : s.j ≤ b.length
  idx : s.idx = best a b s.i s.j
  opened : s.arangeStart ≠ a.length → s.arangeStart = s.i ∧ s.brangeStart = s.j ∧ 0 < s.i ∧ 0 < s.j

def matched (a : List UInt8) (x : UInt8) (s : Backtrack) : Backtrack :=
  { s with
    idx := s.idx - 1, i := s.i - 1, j := s.j - 1, arangeStart := s.i - 1, brangeStart := s.j - 1
    arangeEnd := if s.arangeStart = a.length then s.i - 1 else s.arangeEnd
    brangeEnd := if s.arangeStart = a.length then s.j - 1 else s.brangeEnd
    result := s.result.map fun r => r.set (s.idx - 1) x }

theorem u32_of_lt {n : Nat} (h : n < 2 ^ 32) : u32 n = n := Nat.mod_eq_of_lt h

theorem u32_dec {n : Nat} (h : n < 2 ^ 32) (h0 : 0 < n) : u32 (n + (2 ^ 32 - 1)) = n - 1 := by
  unfold u32
  omega

theorem extend_eq (h : Inv a b s) (hi : 0 < s.i) (hj : 0 < s.j) (hwa : a.length < 2 ^ 32) (hwb : b.length < 2 ^ 32)
    (r : Option (List UInt8)) : extend a { s with result := r } = ({ s with
      result := r, arangeStart := s.i - 1, brangeStart := s.j - 1
      arangeEnd := if s.arangeStart = a.length then s.i - 1 else s.arangeEnd
      brangeEnd := if s.arangeStart = a.length then s.j - 1 else s.brangeEnd }, false) := by
  have hia := h.i_le
  have hjb := h.j_le
  unfold extend
  rw [u32_of_lt hwa]
  by_cases hop : s.arangeStart = a.length
  · simp only [if_pos hop]
    rw [u32_of_lt (by omega), u32_of_lt (by omega)]
  · obtain ⟨h1, h2, -, -⟩ := h.opened hop
    have h1' : s.arangeStart = u32 s.i := by rw [h1, u32_of_lt (by omega)]
    have h2' : s.brangeStart = u32 s.j := by rw [h2, u32_of_lt (by omega)]
    simp only [if_neg hop]
    rw [if_pos ⟨h1', h2'⟩, h1, h2, u32_dec (by omega) hi, u32_dec (by omega) hj]

variable (hwa : a.length < 2 ^ 32) (hwb : b.length < 2 ^ 32) (hcell : ∀ i j, i ≤ a.length → j ≤ b.length → cell lcs i j = best a b i j)
include hwa hwb hcell

theorem step_cases (getIdx : Bool) (m : Int) (h : Inv a b s) (hi : 0 < s.i) (hj : 0 < s.j) :
    (∃ x, a[s.i - 1]? = some x ∧ b[s.j - 1]? = some x ∧
      step a b lcs getIdx m s = if s.i - 1 = 0 ∨ s.j - 1 = 0 then (matched a x s).emit a getIdx m else matched a x s) ∨
    ∃ i' j', i' ≤ s.i ∧ j' ≤ s.j ∧ i' + j' + 1 = s.i + s.j ∧ best a b i' j' = best a b s.i s.j ∧
      step a b lcs getIdx m s = if s.arangeStart ≠ a.length then emit a getIdx m { s with i := i', j := j' } else { s with i := i', j := j' } := by
  obtain ⟨i, hi'⟩ : ∃ i, s.i = i + 1 := ⟨s.i - 1, by omega⟩
  obtain ⟨j, hj'⟩ : ∃ j, s.j = j + 1 := ⟨s.j - 1, by omega⟩
  have hia : i < a.length := by have := h.i_le; omega
  have hjb : j < b.length := by have := h.j_le; omega
  have hga : a.getD (s.i - 1) 0 = a[i] := by rw [hi', Nat.add_sub_cancel]; simp [hia]
  have hgb : b.getD (s.j - 1) 0 = b[j] := by rw [hj', Nat.add_sub_cancel]; simp [hjb]
  have hget : a[i]? = b[j]? ↔ a[i] = b[j] := by
    rw [List.getElem?_eq_getElem hia, List.getElem?_eq_getElem hjb, Option.some.injEq]
  unfold step turn
  rw [hga, hgb]
  by_cases heq : a[i] = b[j]
  · refine .inl ⟨a[i], by rw [hi']; simp [hia], by rw [hj', heq]; simp [hjb], ?_⟩
    have hidx : u32 (s.idx + (2 ^ 32 - 1)) = s.idx - 1 := by
      have hb := best_match (hget.mpr heq)
      have hle := best_le a b s.i s.j
      refine u32_dec (by rw [h.idx]; omega) ?_
      rw [h.idx, hi', hj', hb]
      exact Nat.succ_pos _
    rw [if_pos heq, extend_eq h hi hj hwa hwb]
    simp only [Bool.false_or, hidx, decide_eq_true_eq]
    rfl
  · right
    have hmiss := best_miss (fun he => heq (hget.mp he))
    have h1 := hcell s.i (s.j - 1) h.i_le (by omega)
    have h2 := hcell (s.i - 1) s.j (by omega) h.j_le
    rw [if_neg heq, h1, h2, u32_of_lt hwa]
    simp only [hi', hj', Nat.add_sub_cancel, decide_eq_true_eq]
    by_cases hlt : best a b (i + 1) j < best a b i (j + 1)
    · exact ⟨i, j + 1, by omega, Nat.le_refl _, by omega, by omega, by rw [if_pos hlt]⟩
    · exact ⟨i + 1, j, Nat.le_refl _, by omega, by omega, by omega, by rw [if_neg hlt]⟩

theorem Inv.step (h : Inv a b s) (getIdx : Bool) (m : Int) (hi : 0 < s.i) (hj : 0 < s.j) :
    Inv a b (step a b lcs getIdx m s) ∧ (Backtrack.step a b lcs getIdx m s).i + (Backtrack.step a b lcs getIdx m s).j < s.i + s.j := by
  have hemit (t : Backtrack) (ht : t.i ≤ a.length) (ht' : t.j ≤ b.length) (hx : t.idx = best a b t.i t.j) : Inv a b (t.emit a getIdx m) :=
    ⟨ht, ht', hx, fun hne => absurd (u32_of_lt hwa) hne⟩
  have hia := h.i_le
  have hjb := h.j_le
  rcases step_cases hwa hwb hcell getIdx m h hi hj with ⟨x, ha, hb, he⟩ | ⟨i', j', hi', hj', hsum, hbest, he⟩
  · have hx : s.idx - 1 = best a b (s.i - 1) (s.j - 1) := by
      have := best_match (ha.trans hb.symm)
      rw [Nat.sub_add_cancel hi, Nat.sub_add_cancel hj] at this
      rw [h.idx, this, Nat.add_sub_cancel]
    have hia' : s.i - 1 ≤ a.length := by omega
    have hjb' : s.j - 1 ≤ b.length := by omega
    rw [he]
    split
    · refine ⟨hemit _ hia' hjb' hx, ?_⟩
      change s.i - 1 + (s.j - 1) < _
      omega
    · next h0 =>
      refine ⟨⟨hia', hjb', hx, fun _ => ⟨rfl, rfl, ?_, ?_⟩⟩, ?_⟩ <;> simp only [matched] <;> omega
  · have hia' : i' ≤ a.length := by omega
    have hjb' : j' ≤ b.length := by omega
    have hx : s.idx = best a b i' j' := by rw [hbest, h.idx]
    rw [he]
    split
    · refine ⟨hemit _ hia' hjb' hx, ?_⟩
      change i' + j' < _
      omega
    · next hop =>
      refine ⟨⟨hia', hjb', hx, fun hne => absurd hne hop⟩, ?_⟩
      change i' + j' < _
      omega

/-- A fact that every turn keeps holds at the end of the loop, and the loop does end. -/
theorem run_induct {P : Backtrack → Prop} (hstep : ∀ t, Inv a b t → P t → 0 < t.i → 0 < t.j → P (step a b lcs getIdx m t)) (n : Nat)
    (h : Inv a b s) (hp : P s) (hn : s.i + s.j ≤ n) :
    Inv a b (run a b lcs getIdx m n s) ∧ P (run a b lcs getIdx m n s) ∧
      ((run a b lcs getIdx m n s).i = 0 ∨ (run a b lcs getIdx m n s).j = 0) := by
  induction n generalizing s with
  | zero => exact ⟨h, hp, .inl (by change s.i = 0; omega)⟩
  | succ n ih =>
    unfold run
    split
    · next hpos =>
      obtain ⟨hinv, hlt⟩ := h.step hwa hwb hcell getIdx m hpos.1 hpos.2
      exact ih hinv (hstep s h hp hpos.1 hpos.2) (by omega)
    · exact ⟨h, hp, by omega⟩

theorem step_none (h : Inv a b s) (hs : s.result = none) (hi : 0 < s.i) (hj : 0 < s.j) : (step a b lcs getIdx m s).result = none := by
  rcases step_cases hwa hwb hcell getIdx m h hi hj with ⟨x, -, -, he⟩ | ⟨i', j', -, -, -, -, he⟩
  · have hm : (matched a x s).result = none := by rw [matched, hs, Option.map_none]
    rw [he]
    split
    · exact hm
    · exact hm
  · rw [he]
    split
    · exact hs
    · exact hs

/-- What the result has from the current place on is common to the rests of the strings. -/
def Spells (a b : List UInt8) (total : Nat) (s : Backtrack) : Prop :=
  s.idx ≤ total ∧ ∃ r, s.result = some r ∧ r.length = total ∧ (r.drop s.idx).Sublist (a.drop s.i) ∧ (r.drop s.idx).Sublist (b.drop s.j)

theorem Spells.step {total : Nat} (getIdx : Bool) (m : Int) (h : Inv a b s) (hs : Spells a b total s) (hi : 0 < s.i) (hj : 0 < s.j) :
    Spells a b total (step a b lcs getIdx m s) := by
  obtain ⟨hle, r, hr, hlen, hra, hrb⟩ := hs
  rcases step_cases hwa hwb hcell getIdx m h hi hj with ⟨x, ha, hb, he⟩ | ⟨i', j', hi', hj', hsum, hbest, he⟩
  · have hpos : 0 < s.idx := by
      have := best_match (ha.trans hb.symm)
      rw [Nat.sub_add_cancel hi, Nat.sub_add_cancel hj] at this
      rw [h.idx, this]
      exact Nat.succ_pos _
    have hdrop : (r.set (s.idx - 1) x).drop (s.idx - 1) = x :: r.drop s.idx := by
      have hlt : s.idx - 1 < (r.set (s.idx - 1) x).length := by rw [List.length_set]; omega
      rw [List.drop_eq_getElem_cons hlt, List.getElem_set_self, Nat.sub_add_cancel hpos, List.drop_set_of_lt (by omega)]
    have hrest {d : List UInt8} {k : Nat} (hd : d[k - 1]? = some x) (hk : 0 < k) : d.drop (k - 1) = x :: d.drop k := by
      obtain ⟨hlt, hx⟩ := List.getElem?_eq_some_iff.mp hd
      rw [List.drop_eq_getElem_cons hlt, hx, Nat.sub_add_cancel hk]
    have hmatched : Spells a b total (matched a x s) := by
      refine ⟨by simp only [matched]; omega, r.set (s.idx - 1) x, by simp only [matched, hr, Option.map_some], by rw [List.length_set, hlen], ?_, ?_⟩
      · simp only [matched]
        rw [hdrop, hrest ha hi]
        exact hra.cons_cons x
      · simp only [matched]
        rw [hdrop, hrest hb hj]
        exact hrb.cons_cons x
    rw [he]
    split
    · exact hmatched
    · exact hmatched
  · have hmoved : Spells a b total { s with i := i', j := j' } :=
      ⟨hle, r, hr, hlen, hra.trans (List.drop_sublist_drop_left a hi'), hrb.trans (List.drop_sublist_drop_left b hj')⟩
    rw [he]
    split
    · exact hmoved
    · exact hmoved

def ranges (a : List UInt8) (s : Backtrack) : List LcsMatch :=
  s.found ++ if s.arangeStart = a.length then [] else [⟨s.arangeStart, s.arangeEnd, s.brangeStart, s.brangeEnd⟩]

def sumLen (rs : List LcsMatch) : Nat := (rs.map LcsMatch.len).sum

omit hwa hwb hcell in
theorem sumLen_concat (rs : List LcsMatch) (r : LcsMatch) : sumLen (rs ++ [r]) = sumLen rs + r.len := by simp [sumLen]

structure Tiles (a b : List UInt8) (total : Nat) (s : Backtrack) : Prop where
  good : LcsRanges a b (ranges a s)
  past : Past s.i s.j (ranges a s)
  sum : sumLen (ranges a s) + best a b s.i s.j = total

omit hwb hcell in
theorem Tiles.emit {total : Nat} (h : Tiles a b total s) (hop : s.arangeStart ≠ a.length) : Tiles a b total (s.emit a true 0) := by
  have hranges : ranges a (s.emit a true 0) = ranges a s := by
    simp only [ranges, Backtrack.emit, u32_of_lt hwa, if_neg hop]
    simp
  exact ⟨hranges ▸ h.good, hranges ▸ h.past, hranges ▸ h.sum⟩

omit hwa hwb hcell in
theorem Tiles.matched {total : Nat} {x : UInt8} (h : Inv a b s) (ht : Tiles a b total s) (hi : 0 < s.i) (hj : 0 < s.j)
    (ha : a[s.i - 1]? = some x) (hb : b[s.j - 1]? = some x) : Tiles a b total (matched a x s) := by
  have hia := h.i_le
  have hjb := h.j_le
  have hranges : ranges a (Backtrack.matched a x s) = s.found ++ [⟨s.i - 1, (Backtrack.matched a x s).arangeEnd, s.j - 1,
      (Backtrack.matched a x s).brangeEnd⟩] := by
    have hne : (Backtrack.matched a x s).arangeStart ≠ a.length := by
      change s.i - 1 ≠ a.length
      omega
    rw [ranges, if_neg hne]
    rfl
  have hbest := best_match (ha.trans hb.symm)
  rw [Nat.sub_add_cancel hi, Nat.sub_add_cancel hj] at hbest
  have hsum := ht.sum
  have hgood := ht.good
  have hpast := ht.past
  by_cases hop : s.arangeStart = a.length
  · have hr : ranges a s = s.found := by rw [ranges, if_pos hop, List.append_nil]
    rw [hr] at hgood hpast hsum
    have hae : (Backtrack.matched a x s).arangeEnd = s.i - 1 := if_pos hop
    have hbe : (Backtrack.matched a x s).brangeEnd = s.j - 1 := if_pos hop
    rw [hae, hbe] at hranges
    obtain ⟨h1, h2⟩ := ranges_concat hgood hpast (pairs_single ha hb) (by dsimp only; omega) (by dsimp only; omega)
    refine ⟨hranges ▸ h1, hranges ▸ h2, ?_⟩
    rw [hranges, sumLen_concat]
    simp only [LcsMatch.len, Backtrack.matched]
    omega
  · obtain ⟨h1, h2, -, -⟩ := h.opened hop
    have hr : ranges a s = s.found ++ [⟨s.arangeStart, s.arangeEnd, s.brangeStart, s.brangeEnd⟩] := by rw [ranges, if_neg hop]
    rw [hr] at hgood hsum
    have hae : (Backtrack.matched a x s).arangeEnd = s.arangeEnd := if_neg hop
    have hbe : (Backtrack.matched a x s).brangeEnd = s.brangeEnd := if_neg hop
    rw [hae, hbe] at hranges
    have hlast := hgood.pairs _ (List.mem_append_right _ List.mem_cons_self)
    obtain ⟨hfront, hpast'⟩ := ranges_front hgood
    have hgrown := pairs_grow hlast (i := s.i - 1) (j := s.j - 1) (by dsimp only; omega) (by dsimp only; omega) ha hb
    obtain ⟨h3, h4⟩ := ranges_concat hfront hpast' hgrown (Nat.lt_succ_self _) (Nat.lt_succ_self _)
    refine ⟨hranges ▸ h3, hranges ▸ h4, ?_⟩
    have hao := hlast.aOrder
    rw [sumLen_concat] at hsum
    rw [hranges, sumLen_concat]
    simp only [LcsMatch.len, Backtrack.matched] at hsum hao ⊢
    omega

theorem Tiles.step {total : Nat} (h : Inv a b s) (ht : Tiles a b total s) (hi : 0 < s.i) (hj : 0 < s.j) :
    Tiles a b total (step a b lcs true 0 s) := by
  rcases step_cases hwa hwb hcell true 0 h hi hj with ⟨x, ha, hb, he⟩ | ⟨i', j', hi', hj', hsum, hbest, he⟩
  · have hm := Tiles.matched h ht hi hj ha hb
    rw [he]
    split
    · refine hm.emit hwa ?_
      have := h.i_le
      change s.i - 1 ≠ a.length
      omega
    · exact hm
  · have hmoved : Tiles a b total { s with i := i', j := j' } :=
      ⟨ht.good, ht.past.mono hi' hj', by rw [← ht.sum]; exact congrArg _ hbest⟩
    rw [he]
    split
    · next hop => exact hmoved.emit hwa hop
    · exact hmoved

/-- The range has the length asked for, as the loop computes it. -/
def keeps (m : Int) (r : LcsMatch) : Bool := decide (m = 0 ∨ m ≤ u32 (r.aEnd + (2 ^ 32 - r.aStart) + 1))

omit hwa hwb hcell in
theorem extend_found (s : Backtrack) (f : List LcsMatch) : (extend a s).1.found = s.found ∧
    extend a { s with found := f } = ({ (extend a s).1 with found := f }, (extend a s).2) := by
  unfold extend
  by_cases h : s.arangeStart = u32 a.length
  · simp only [if_pos h, and_self]
  · by_cases h' : s.arangeStart = u32 s.i ∧ s.brangeStart = u32 s.j
    · simp only [if_neg h, if_pos h', and_self]
    · simp only [if_neg h, if_neg h', and_self]

omit hwa hwb hcell in
theorem turn_found (b : List UInt8) (lcs : List (List Nat)) (s : Backtrack) (f : List LcsMatch) : (turn a b lcs s).1.found = s.found ∧
    turn a b lcs { s with found := f } = ({ (turn a b lcs s).1 with found := f }, (turn a b lcs s).2) := by
  unfold turn
  by_cases h : a.getD (s.i - 1) 0 = b.getD (s.j - 1) 0
  · obtain ⟨h1, h2⟩ := extend_found (a := a) { s with result := s.result.map fun r => r.set (s.idx - 1) (a.getD (s.i - 1) 0) } f
    simp only [if_pos h, h2, h1, and_self]
  · by_cases h' : cell lcs s.i (s.j - 1) < cell lcs (s.i - 1) s.j
    · simp only [if_neg h, if_pos h', and_self]
    · simp only [if_neg h, if_neg h', and_self]

omit hwa hwb hcell in
/-- The minimum only thins out what is emitted. -/
theorem step_filter (s : Backtrack) : step a b lcs true m { s with found := s.found.filter (keeps m) } =
    { step a b lcs true 0 s with found := (step a b lcs true 0 s).found.filter (keeps m) } := by
  obtain ⟨hf, hturn⟩ := turn_found (a := a) b lcs s (s.found.filter (keeps m))
  unfold Backtrack.step
  rw [hturn, ← hf]
  rcases turn a b lcs s with ⟨t, e⟩
  cases e with
  | false => rfl
  | true =>
    simp only [if_true, emit, matchLen, true_and, true_or, List.filter_append]
    by_cases hk : m = 0 ∨ m ≤ u32 (t.arangeEnd + (2 ^ 32 - t.arangeStart) + 1)
    · have hkeep : keeps m ⟨t.arangeStart, t.arangeEnd, t.brangeStart, t.brangeEnd⟩ = true := decide_eq_true hk
      rw [if_pos hk, List.filter_cons_of_pos hkeep, List.filter_nil]
    · have hdrop : ¬ keeps m ⟨t.arangeStart, t.arangeEnd, t.brangeStart, t.brangeEnd⟩ = true := fun h => hk (of_decide_eq_true h)
      rw [if_neg hk, List.filter_cons_of_neg hdrop, List.filter_nil, List.append_nil]

omit hwa hwb hcell in
theorem run_filter (lcs : List (List Nat)) (m : Int) (n : Nat) (s : Backtrack) : run a b lcs true m n { s with found := s.found.filter (keeps m) } =
    { run a b lcs true 0 n s with found := (run a b lcs true 0 n s).found.filter (keeps m) } := by
  induction n generalizing s with
  | zero => rfl
  | succ n ih =>
    unfold run
    dsimp only
    split
    · rw [step_filter, ih]
    · rfl

omit hwa hwb hcell in
theorem keeps_iff (h : LcsRanges a b rs) (hw : a.length < 2 ^ 32) (hr : r ∈ rs) : keeps m r = decide (m ≤ r.len) := by
  have hp := h.pairs r hr
  have h1 := hp.aOrder
  have h2 := hp.aLt
  have hlen : u32 (r.aEnd + (2 ^ 32 - r.aStart) + 1) = r.len := by
    unfold u32 LcsMatch.len
    omega
  rw [keeps, hlen, decide_eq_decide]
  refine ⟨fun hk => hk.elim (fun h0 => ?_) id, .inr⟩
  rw [h0]
  exact Int.natCast_nonneg _

end Backtrack

def Fits (a b : List UInt8) : Prop :=
  a.length < maxUint32 - 1 ∧ b.length < maxUint32 - 1 ∧ (((a.length + 1) * (b.length + 1) * 4 : Nat) : Int) ≤ lcsMaxAlloc

theorem fits_iff (a b : List UInt8) : Fits a b ↔
    ¬ (maxUint32 - 1 ≤ a.length ∨ maxUint32 - 1 ≤ b.length) ∧ ¬ lcsMaxAlloc < int64 ((a.length + 1) * (b.length + 1) * 4) ∧
      ¬ (int64 ((a.length + 1) * (b.length + 1)) < 0 ∨ maxAlloc < int64 ((a.length + 1) * (b.length + 1)) * 4) := by
  unfold Fits maxUint32 lcsMaxAlloc maxAlloc int64
  constructor
  · rintro ⟨ha, hb, hc⟩
    rw [Int.bmod_eq_of_le (by omega) (by omega), Int.bmod_eq_of_le (by omega) (by omega)]
    omega
  · rintro ⟨hab, hc, hp⟩
    have hlt : (a.length + 1) * (b.length + 1) < 2 ^ 64 :=
      Nat.lt_of_le_of_lt (Nat.mul_le_mul (show a.length + 1 ≤ 2 ^ 32 - 2 by omega) (show b.length + 1 ≤ 2 ^ 32 - 2 by omega)) (by decide)
    generalize (a.length + 1) * (b.length + 1) = n at hc hp hlt ⊢
    refine ⟨by omega, by omega, ?_⟩
    have hn : n < 2 ^ 46 + 1 := by
      rw [Int.bmod_def] at hp
      split at hp <;> omega
    rw [Int.bmod_eq_of_le (by omega) (by omega)] at hc
    omega

def begin (a b : List UInt8) (result : Option (List UInt8)) : Backtrack :=
  ⟨best a b a.length b.length, a.length, 0, 0, 0, a.length, b.length, result, []⟩

theorem begin_inv (result : Option (List UInt8)) : Backtrack.Inv a b (begin a b result) :=
  ⟨Nat.le_refl _, Nat.le_refl _, rfl, fun h => absurd rfl h⟩

theorem lcsRun_eq (h : Fits a b) (getLen getIdx : Bool) (m : Int) : lcsRun a b getLen getIdx m =
    .ok (best a b a.length b.length,
      if getLen && !getIdx then (none, []) else
        let s := Backtrack.run a b (lcsTable a b) getIdx m (a.length + b.length)
          (begin a b (if getIdx then none else some (List.replicate (best a b a.length b.length) 0)))
        (s.result, s.found)) := by
  obtain ⟨h1, h2, h3⟩ := (fits_iff a b).mp h
  have hw : a.length < 2 ^ 32 := by
    have := h.1
    unfold maxUint32 at this
    omega
  unfold lcsRun
  rw [if_neg h1, if_neg h2, if_neg h3]
  dsimp only
  rw [cell_lcsTable hw (Nat.le_refl _) (Nat.le_refl _), Backtrack.u32_of_lt hw]
  split <;> rfl

section Fits

variable (h : Fits a b)
include h

theorem Fits.lt : a.length < 2 ^ 32 ∧ b.length < 2 ^ 32 := by
  have h1 := h.1
  have h2 := h.2.1
  unfold maxUint32 at h1 h2
  omega

theorem run_spells (getIdx : Bool) (m : Int) :
    ∃ r, (Backtrack.run a b (lcsTable a b) getIdx m (a.length + b.length)
      (begin a b (some (List.replicate (best a b a.length b.length) 0)))).result = some r ∧
      r.length = best a b a.length b.length ∧ r.Sublist a ∧ r.Sublist b := by
  obtain ⟨hwa, hwb⟩ := h.lt
  have hcell : ∀ i j, i ≤ a.length → j ≤ b.length → cell (lcsTable a b) i j = best a b i j := fun i j => cell_lcsTable hwa
  have hstart : Backtrack.Spells a b (best a b a.length b.length) (begin a b (some (List.replicate (best a b a.length b.length) 0))) := by
    refine ⟨Nat.le_refl _, _, rfl, List.length_replicate, ?_, ?_⟩ <;>
    · rw [List.drop_eq_nil_of_le (by simp [begin])]
      exact List.nil_sublist _
  obtain ⟨hinv, ⟨-, r, hr, hlen, hra, hrb⟩, hend⟩ := Backtrack.run_induct hwa hwb hcell
    (fun t ht hs hi hj => Backtrack.Spells.step hwa hwb hcell getIdx m ht hs hi hj) (a.length + b.length)
    (begin_inv _) hstart (Nat.le_refl _)
  -- the walk stopped at the start of a string, so the whole result is spelt
  have hidx : (Backtrack.run a b (lcsTable a b) getIdx m (a.length + b.length)
      (begin a b (some (List.replicate (best a b a.length b.length) 0)))).idx = 0 := by
    rw [hinv.idx]
    rcases hend with h0 | h0
    · rw [h0, CommonSubsequence.best_zero_left]
    · rw [h0, CommonSubsequence.best_zero_right]
  rw [hidx, List.drop_zero] at hra hrb
  exact ⟨r, hr, hlen, hra.trans (List.drop_sublist _ _), hrb.trans (List.drop_sublist _ _)⟩

theorem run_tiles :
    let s := Backtrack.run a b (lcsTable a b) true 0 (a.length + b.length) (begin a b none)
    s.result = none ∧ LcsRanges a b s.found ∧ Backtrack.sumLen s.found = best a b a.length b.length := by
  obtain ⟨hwa, hwb⟩ := h.lt
  have hcell : ∀ i j, i ≤ a.length → j ≤ b.length → cell (lcsTable a b) i j = best a b i j := fun i j => cell_lcsTable hwa
  have hnone : Backtrack.ranges a (begin a b none) = [] := by simp [Backtrack.ranges, begin]
  have hstart : Backtrack.Tiles a b (best a b a.length b.length) (begin a b none) := by
    refine ⟨?_, ?_, ?_⟩
    · rw [hnone]
      exact ⟨fun _ hr => absurd hr List.not_mem_nil, List.Pairwise.nil⟩
    · rw [hnone]
      exact fun _ hr => absurd hr List.not_mem_nil
    · rw [hnone]
      exact Nat.zero_add _
  obtain ⟨hinv, ⟨hres, ht⟩, hend⟩ := Backtrack.run_induct (P := fun t => t.result = none ∧ Backtrack.Tiles a b (best a b a.length b.length) t)
    hwa hwb hcell (fun t ht hs hi hj => ⟨Backtrack.step_none hwa hwb hcell ht hs.1 hi hj, hs.2.step hwa hwb hcell ht hi hj⟩)
    (a.length + b.length) (begin_inv none) ⟨rfl, hstart⟩ (Nat.le_refl _)
  dsimp only
  generalize Backtrack.run a b (lcsTable a b) true 0 (a.length + b.length) (begin a b none) = s at hinv hres ht hend ⊢
  -- no range is open at the start of a string
  have hclosed : s.arangeStart = a.length := by
    by_contra hop
    obtain ⟨-, -, h1, h2⟩ := hinv.opened hop
    omega
  have hranges : Backtrack.ranges a s = s.found := by rw [Backtrack.ranges, if_pos hclosed, List.append_nil]
  have hsum := ht.sum
  have hbest : best a b s.i s.j = 0 := by
    rcases hend with h0 | h0
    · rw [h0, CommonSubsequence.best_zero_left]
    · rw [h0, CommonSubsequence.best_zero_right]
  rw [hranges, hbest, Nat.add_zero] at hsum
  exact ⟨hres, hranges ▸ ht.good, hsum⟩

end Fits

/-- `lcsRun` answers within its caps and only there. The total is optimal, the string a witness of it; the ranges tile such a witness,
and a minimum keeps the long ones. -/
theorem lcsRun_optimal (a b : List UInt8) (getLen getIdx : Bool) (m : Int) :
    ((∃ out, lcsRun a b getLen getIdx m = .ok out) ↔ Fits a b) ∧
    ∀ total result found, lcsRun a b getLen getIdx m = .ok (total, result, found) →
      IsLongest total a b ∧
      (getLen = false → getIdx = false → ∃ s, result = some s ∧ s.length = total ∧ s.Sublist a ∧ s.Sublist b) ∧
      (getIdx = true → ∃ all, lcsRun a b getLen true 0 = .ok (total, none, all) ∧ LcsRanges a b all ∧
        (all.map LcsMatch.len).sum = total ∧ found = all.filter fun r => decide (m ≤ r.len)) := by
  have hfits (hne : ∃ out, lcsRun a b getLen getIdx m = .ok out) : Fits a b := by
    obtain ⟨out, hout⟩ := hne
    refine (fits_iff a b).mpr ⟨fun hc => ?_, fun hc => ?_, fun hc => ?_⟩
    · rw [lcsRun, if_pos hc] at hout
      cases hout
    · rw [lcsRun, if_pos hc] at hout
      split at hout <;> cases hout
    · rw [lcsRun, if_pos hc] at hout
      split at hout
      · cases hout
      · split at hout <;> cases hout
  refine ⟨⟨hfits, fun h => ⟨_, lcsRun_eq h getLen getIdx m⟩⟩, fun total result found hok => ?_⟩
  have h := hfits ⟨_, hok⟩
  rw [lcsRun_eq h] at hok
  have htotal : best a b a.length b.length = total := (Prod.ext_iff.mp (Except.ok.inj hok)).1
  have hrest := (Prod.ext_iff.mp (Except.ok.inj hok)).2
  obtain ⟨r, hr, hlen, hra, hrb⟩ := run_spells h false m
  refine ⟨htotal ▸ isLongest_best hra hrb hlen, fun hl hx => ?_, fun hx => ?_⟩
  · subst hl hx
    exact ⟨r, ((Prod.ext_iff.mp hrest).1.symm.trans hr), htotal ▸ hlen, hra, hrb⟩
  · subst hx
    obtain ⟨hres, hgood, hsum⟩ := run_tiles h
    refine ⟨_, ?_, hgood, htotal ▸ hsum, ?_⟩
    · rw [lcsRun_eq h, htotal, ← hres, Bool.not_true, Bool.and_false, if_neg Bool.false_ne_true]
      simp only [if_true, hres]
    · have hfilter := Backtrack.run_filter (a := a) (b := b) (lcsTable a b) m (a.length + b.length) (begin a b none)
      rw [Bool.not_true, Bool.and_false, if_neg Bool.false_ne_true] at hrest
      have hfound : (Backtrack.run a b (lcsTable a b) true m (a.length + b.length) (begin a b none)).found = found :=
        (Prod.ext_iff.mp hrest).2
      rw [← hfound]
      refine (congrArg Backtrack.found hfilter).trans (List.filter_congr fun r hr => ?_)
      exact Backtrack.keeps_iff hgood h.lt.1 hr

/-- The strings of the command's documentation, with and without a minimum. -/
theorem lcsRun_optimal_text : ∃ all, lcsRun [111, 104, 109, 121, 116, 101, 120, 116] [109, 121, 110, 101, 119, 116, 101, 120, 116] false true 0 =
      .ok (6, none, all) ∧ (all.map LcsMatch.len).sum = 6 ∧ [⟨4, 7, 5, 8⟩] = all.filter fun r => decide ((3 : Int) ≤ r.len) := by
  obtain ⟨all, h1, -, h2, h3⟩ := ((lcsRun_optimal [111, 104, 109, 121, 116, 101, 120, 116] [109, 121, 110, 101, 119, 116, 101, 120, 116]
    false true 3).2 6 none [⟨4, 7, 5, 8⟩] (by decide +kernel)).2.2 rfl
  exact ⟨all, h1, h2, h3⟩

end Lcs

end Aki.Sqlo1
