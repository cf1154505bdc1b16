import Mathlib.Data.BitVec
import Mathlib.Tactic.IntervalCases

-- Eight bytes in a 64-bit word: the zero-byte mask and the walk over a mask's set bits.

namespace Swar

def byte (x : BitVec 64) (j : Nat) : Nat := x.toNat / 2 ^ (8 * j) % 256

def lowBits : BitVec 64 := 0x0101010101010101

def highBits : BitVec 64 := 0x8080808080808080

/-- The little-endian word of at most eight bytes. -/
def leWord (bs : List (BitVec 8)) : BitVec 64 := BitVec.ofNat 64 (bs.foldr (fun b n => b.toNat + 256 * n) 0)

/-- Marks every zero byte, and a byte equal to 1 that a borrow from a lower zero byte reaches. -/
def zeroMask (x : BitVec 64) : BitVec 64 := (x - lowBits) &&& ~~~x &&& highBits

theorem digits_lt (bs : List (BitVec 8)) : bs.foldr (fun b n => b.toNat + 256 * n) 0 < 2 ^ (8 * bs.length) := by
  induction bs with
  | nil => decide
  | cons b bs ih =>
    have hb : b.toNat < 256 := b.isLt
    rw [List.foldr_cons, List.length_cons, Nat.mul_add, Nat.pow_add]
    omega

theorem digits_div (bs : List (BitVec 8)) (j : Nat) :
    bs.foldr (fun b n => b.toNat + 256 * n) 0 / 2 ^ (8 * j) % 256 = (bs.getD j 0).toNat := by
  induction bs generalizing j with
  | nil => simp
  | cons b bs ih =>
    have hb : b.toNat < 256 := b.isLt
    cases j with
    | zero =>
      simp only [List.foldr_cons, Nat.mul_zero, Nat.pow_zero, Nat.div_one, List.getD_cons_zero]
      omega
    | succ j =>
      rw [List.foldr_cons, List.getD_cons_succ, ← ih j, Nat.mul_succ, Nat.pow_add, Nat.mul_comm (2 ^ (8 * j)),
        ← Nat.div_div_eq_div_mul]
      congr 2
      omega

theorem byte_leWord {bs : List (BitVec 8)} (hbs : bs.length ≤ 8) (j : Nat) : byte (leWord bs) j = (bs.getD j 0).toNat := by
  have hlt : bs.foldr (fun b n => b.toNat + 256 * n) 0 < 2 ^ 64 :=
    (digits_lt bs).trans_le (Nat.pow_le_pow_right (by decide) (by omega))
  rw [byte, leWord, BitVec.toNat_ofNat, Nat.mod_eq_of_lt hlt, digits_div]

theorem byte_xor (x y : BitVec 64) (j : Nat) : byte (x ^^^ y) j = byte x j ^^^ byte y j := by
  rw [byte, BitVec.toNat_xor, Nat.xor_div_two_pow]
  exact Nat.xor_mod_two_pow (n := 8)

theorem splat_eq_leWord (b : BitVec 8) : lowBits * b.setWidth 64 = leWord (List.replicate 8 b) := by
  have hb : b.toNat < 256 := b.isLt
  refine BitVec.eq_of_toNat_eq ?_
  rw [BitVec.toNat_mul, BitVec.toNat_setWidth, leWord, BitVec.toNat_ofNat, Nat.mod_eq_of_lt (by omega : b.toNat < 2 ^ 64)]
  refine congrArg (· % 2 ^ 64) (?_ : 0x0101010101010101 * b.toNat = _)
  simp only [List.replicate, List.foldr]
  omega

theorem byte_splat (b : BitVec 8) {j : Nat} (hj : j < 8) : byte (lowBits * b.setWidth 64) j = b.toNat := by
  rw [splat_eq_leWord, byte_leWord (by simp), List.getD_eq_getElem?_getD, List.getElem?_replicate_of_lt hj]
  rfl

theorem getLsbD_high (x : BitVec 64) (j : Nat) : x.getLsbD (8 * j + 7) = decide (128 ≤ byte x j) := by
  rw [BitVec.getLsbD, Nat.testBit_eq_decide_div_mod_eq, byte, Nat.pow_add, ← Nat.div_div_eq_div_mul]
  refine decide_eq_decide.mpr ?_
  omega

theorem highBits_getLsbD {i : Nat} : highBits.getLsbD i = (decide (i < 64) && decide (i % 8 = 7)) := by
  by_cases hi : i < 64
  · interval_cases i <;> decide
  · rw [BitVec.getLsbD_of_ge _ _ (by omega)]
    simp [hi]

/-- The high bit of a byte of `x - lowBits`, where `x`'s own high bit is clear. -/
theorem byte_sub_low {x : BitVec 64} {j : Nat} (hj : j < 8) (hclear : byte x j < 128) :
    128 ≤ byte (x - lowBits) j ↔ byte x j = 0 ∨ byte x j = 1 ∧ x.toNat % 2 ^ (8 * j) < 0x0101010101010101 % 2 ^ (8 * j) := by
  have hx : x.toNat < 2 ^ 64 := x.isLt
  have hlow : lowBits.toNat = 0x0101010101010101 := rfl
  unfold byte at *
  rw [BitVec.toNat_sub, hlow]
  interval_cases j <;> omega

/-- The word whose lowest `j` bytes are 1. -/
def ones : Nat → Nat
  | 0 => 0
  | j + 1 => ones j + 2 ^ (8 * j)

theorem ones_le_of_bytes {x : BitVec 64} : ∀ {j : Nat}, (∀ i < j, byte x i ≠ 0) → ones j ≤ x.toNat % 2 ^ (8 * j)
  | 0, _ => Nat.zero_le _
  | j + 1, h => by
    have ih := ones_le_of_bytes fun i hi => h i (Nat.lt_succ_of_lt hi)
    have hj : 1 ≤ byte x j := Nat.one_le_iff_ne_zero.mpr (h j (Nat.lt_succ_self j))
    rw [ones, Nat.mul_succ, Nat.pow_add, Nat.mod_mul]
    exact Nat.add_le_add ih (Nat.le_mul_of_pos_right _ hj)

theorem exists_zero_of_borrow {x : BitVec 64} {j : Nat} (hj : j < 8)
    (h : x.toNat % 2 ^ (8 * j) < 0x0101010101010101 % 2 ^ (8 * j)) : ∃ i < j, byte x i = 0 := by
  by_contra hno
  have hle := ones_le_of_bytes fun i hi h0 => hno ⟨i, hi, h0⟩
  have hones : ones j = 0x0101010101010101 % 2 ^ (8 * j) := by interval_cases j <;> rfl
  omega

theorem zeroMask_getLsbD {x : BitVec 64} {j : Nat} (hj : j < 8) : (zeroMask x).getLsbD (8 * j + 7) = true ↔
    byte x j = 0 ∨ byte x j = 1 ∧ x.toNat % 2 ^ (8 * j) < 0x0101010101010101 % 2 ^ (8 * j) := by
  have hhigh : highBits.getLsbD (8 * j + 7) = true := by
    rw [highBits_getLsbD, Bool.and_eq_true, decide_eq_true_iff, decide_eq_true_iff]
    omega
  have hbit : 8 * j + 7 < 64 := by omega
  rw [zeroMask, BitVec.getLsbD_and, BitVec.getLsbD_and, BitVec.getLsbD_not, hhigh, getLsbD_high, getLsbD_high]
  by_cases hclear : byte x j < 128
  · rw [← byte_sub_low hj hclear]
    simp [hbit, hclear]
  · simp only [hbit, show 128 ≤ byte x j by omega, decide_true, Bool.not_true, Bool.and_false, Bool.false_and,
      Bool.false_eq_true, false_iff]
    omega

theorem zeroMask_of_zero {x : BitVec 64} {j : Nat} (hj : j < 8) (h : byte x j = 0) :
    (zeroMask x).getLsbD (8 * j + 7) = true := (zeroMask_getLsbD hj).mpr (.inl h)

theorem byte_le_one_of_zeroMask {x : BitVec 64} {j : Nat} (hj : j < 8) (h : (zeroMask x).getLsbD (8 * j + 7) = true) :
    byte x j ≤ 1 := by
  rcases (zeroMask_getLsbD hj).mp h with h | h <;> omega

theorem zeroMask_lane {x : BitVec 64} {i : Nat} (h : (zeroMask x).getLsbD i = true) : ∃ j < 8, i = 8 * j + 7 := by
  rw [zeroMask, BitVec.getLsbD_and, Bool.and_eq_true, highBits_getLsbD, Bool.and_eq_true, decide_eq_true_iff,
    decide_eq_true_iff] at h
  exact ⟨i / 8, by omega, by omega⟩

/-- The mask may mark bytes that are not zero, but it is empty only if there is none. -/
theorem zeroMask_ne_zero {x : BitVec 64} : zeroMask x ≠ 0 ↔ ∃ j < 8, byte x j = 0 := by
  constructor
  · intro hne
    obtain ⟨j, hj, hi⟩ := zeroMask_lane (BitVec.getLsbD_true_ctz_of_ne_zero hne)
    have hbit := BitVec.getLsbD_true_ctz_of_ne_zero hne
    rw [hi, zeroMask_getLsbD hj] at hbit
    rcases hbit with h0 | ⟨-, hborrow⟩
    · exact ⟨j, hj, h0⟩
    · obtain ⟨i, hij, h0⟩ := exists_zero_of_borrow hj hborrow
      exact ⟨i, by omega, h0⟩
  · rintro ⟨j, hj, h0⟩ hzero
    have hbit := zeroMask_of_zero hj h0
    rw [hzero] at hbit
    simp at hbit

section Walk

variable {α : Type*}

/-- Visits the byte of each set bit of `m` from the lowest up, clearing it, until `p` answers. -/
def firstLane (p : Nat → Option α) : Nat → BitVec 64 → Option α
  | 0, _ => none
  | fuel + 1, m =>
    if m = 0 then none
    else match p (m.ctz.toNat >>> 3) with
      | some a => some a
      | none => firstLane p fuel (m &&& (m - 1))

theorem toNat_eq_of_lowest {m : BitVec 64} (hm : m ≠ 0) :
    m.toNat = 2 ^ (m.ctz.toNat + 1) * (m.toNat / 2 ^ (m.ctz.toNat + 1)) + 2 ^ m.ctz.toNat := by
  have hlow : m.toNat % 2 ^ (m.ctz.toNat + 1) = 2 ^ m.ctz.toNat := by
    refine Nat.eq_of_testBit_eq fun i => ?_
    rw [Nat.testBit_mod_two_pow, Nat.testBit_two_pow]
    rcases Nat.lt_trichotomy i m.ctz.toNat with h | h | h
    · have hbit : m.toNat.testBit i = false := BitVec.getLsbD_false_of_lt_ctz h
      simp [hbit, Nat.ne_of_gt h]
    · have hbit : m.toNat.testBit i = true := h ▸ BitVec.getLsbD_true_ctz_of_ne_zero hm
      rw [hbit, h]
      simp
    · simp [Nat.not_lt.mpr h, Nat.ne_of_lt h]
  conv_lhs => rw [← Nat.div_add_mod m.toNat (2 ^ (m.ctz.toNat + 1)), hlow]

theorem getLsbD_clear_lowest {m : BitVec 64} (hm : m ≠ 0) (i : Nat) :
    (m &&& (m - 1)).getLsbD i = (m.getLsbD i && decide (i ≠ m.ctz.toNat)) := by
  have hval := toNat_eq_of_lowest hm
  have hpos : 0 < 2 ^ m.ctz.toNat := Nat.two_pow_pos _
  have hpred : (m - 1).toNat =
      2 ^ (m.ctz.toNat + 1) * (m.toNat / 2 ^ (m.ctz.toNat + 1)) + (2 ^ m.ctz.toNat - 1) := by
    have hsub : (m - 1).toNat = m.toNat - 1 := BitVec.toNat_sub_of_le (by rw [BitVec.le_def]; show 1 ≤ m.toNat; omega)
    omega
  have hlt : 2 ^ m.ctz.toNat - 1 < 2 ^ (m.ctz.toNat + 1) := by rw [Nat.pow_succ]; omega
  have hlt' : 2 ^ m.ctz.toNat < 2 ^ (m.ctz.toNat + 1) := by rw [Nat.pow_succ]; omega
  have hbit : m.getLsbD i = (if i < m.ctz.toNat + 1 then (2 ^ m.ctz.toNat).testBit i
      else (m.toNat / 2 ^ (m.ctz.toNat + 1)).testBit (i - (m.ctz.toNat + 1))) := by
    rw [← Nat.testBit_two_pow_mul_add _ hlt', ← hval]
    rfl
  rw [BitVec.getLsbD_and, BitVec.getLsbD, BitVec.getLsbD, hpred, Nat.testBit_two_pow_mul_add _ hlt]
  rw [BitVec.getLsbD] at hbit
  rw [hbit]
  rcases Nat.lt_trichotomy i m.ctz.toNat with h | h | h
  · rw [if_pos (by omega), if_pos (by omega), Nat.testBit_two_pow_of_ne (by omega)]
    rfl
  · rw [if_pos (by omega), if_pos (by omega), Nat.testBit_two_pow_sub_one]
    simp [h]
  · rw [if_neg (by omega), if_neg (by omega), Bool.and_self]
    simp [Nat.ne_of_gt h]

theorem ctz_lt {m : BitVec 64} (hm : m ≠ 0) : m.ctz.toNat < 64 := by
  by_contra hge
  have hbit := BitVec.getLsbD_true_ctz_of_ne_zero hm
  rw [BitVec.getLsbD_of_ge _ _ (by omega)] at hbit
  exact Bool.false_ne_true hbit

/-- With `fuel` left, the bits below `64 - fuel` have been cleared. -/
theorem firstLane_cases (p : Nat → Option α) : ∀ {fuel : Nat} {m : BitVec 64}, fuel ≤ 64 →
    (∀ i < 64 - fuel, m.getLsbD i = false) →
    (firstLane p fuel m = none ∧ ∀ i, m.getLsbD i = true → p (i / 8) = none) ∨
      ∃ i a, m.getLsbD i = true ∧ p (i / 8) = some a ∧ firstLane p fuel m = some a
  | 0, m, _, hlow => by
    refine .inl ⟨rfl, fun i hi => ?_⟩
    by_cases h : i < 64
    · rw [hlow i h] at hi
      exact absurd hi Bool.false_ne_true
    · rw [BitVec.getLsbD_of_ge _ _ (by omega)] at hi
      exact absurd hi Bool.false_ne_true
  | fuel + 1, m, hfuel, hlow => by
    rw [firstLane]
    by_cases hm : m = 0
    · rw [if_pos hm]
      exact .inl ⟨rfl, fun i hi => by simp [hm] at hi⟩
    · rw [if_neg hm, Nat.shiftRight_eq_div_pow]
      have hctz := BitVec.getLsbD_true_ctz_of_ne_zero hm
      cases hp : p (m.ctz.toNat / 2 ^ 3) with
      | some a => exact .inr ⟨_, a, hctz, hp, rfl⟩
      | none =>
        have hge : 64 - (fuel + 1) ≤ m.ctz.toNat := by
          by_contra hlt
          rw [hlow _ (by omega)] at hctz
          exact Bool.false_ne_true hctz
        have hnext : ∀ i < 64 - fuel, (m &&& (m - 1)).getLsbD i = false := by
          intro i hi
          rw [getLsbD_clear_lowest hm]
          rcases Nat.lt_trichotomy i m.ctz.toNat with h | h | h
          · rw [BitVec.getLsbD_false_of_lt_ctz h, Bool.false_and]
          · simp [h]
          · omega
        have hmono : ∀ i, (m &&& (m - 1)).getLsbD i = true → m.getLsbD i = true := fun i hi => by
          rw [getLsbD_clear_lowest hm, Bool.and_eq_true] at hi
          exact hi.1
        rcases firstLane_cases p (by omega) hnext with ⟨heq, hnone⟩ | ⟨i, a, hi, ha, heq⟩
        · refine .inl ⟨heq, fun i hi => ?_⟩
          by_cases hlowest : i = m.ctz.toNat
          · exact hlowest ▸ hp
          · exact hnone i (by rw [getLsbD_clear_lowest hm, hi, Bool.true_and, decide_eq_true_iff]; exact hlowest)
        · exact .inr ⟨i, a, hmono i hi, ha, heq⟩

end Walk

end Swar
