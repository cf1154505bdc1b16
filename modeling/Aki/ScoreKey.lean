import Mathlib.Algebra.Order.Ring.Int
import Mathlib.Data.Int.ConditionallyCompleteOrder
import Mathlib.Data.Nat.Bitwise
import Mathlib.Order.Monotone.Basic
import Mathlib.Order.WithBot
import Mathlib.Tactic.Linarith
import Mathlib.Tactic.Ring

namespace Aki.Zset

namespace Double

def sign (b : UInt64) : Bool := decide (2 ^ 63 ≤ b.toNat)

/-- Exponent and fraction together: the bits below the sign. -/
def low (b : UInt64) : Nat := b.toNat % 2 ^ 63

def exponent (b : UInt64) : Nat := b.toNat / 2 ^ 52 % 2 ^ 11

def fraction (b : UInt64) : Nat := b.toNat % 2 ^ 52

def isNaN (b : UInt64) : Bool := exponent b == 2047 && fraction b != 0

def isZero (b : UInt64) : Bool := exponent b == 0 && fraction b == 0

/-- A finite magnitude in units of the least subnormal. -/
def magnitude (exponent fraction : Nat) : Nat :=
  if exponent = 0 then fraction else (2 ^ 52 + fraction) * 2 ^ (exponent - 1)

/-- The number the bits stand for, in units of the least subnormal. -/
def value (b : UInt64) : WithBot (WithTop Int) :=
  if exponent b = 2047 then if sign b then ⊥ else ⊤
  else if sign b then ((-(magnitude (exponent b) (fraction b) : Int) : Int) : WithTop Int)
  else ((magnitude (exponent b) (fraction b) : Int) : WithTop Int)

theorem toNat_eq (b : UInt64) : b.toNat = (if sign b then 2 ^ 63 else 0) + low b := by
  have := b.toNat_lt
  simp only [sign, low, decide_eq_true_iff]
  split <;> omega

theorem low_lt (b : UInt64) : low b < 2 ^ 63 := Nat.mod_lt _ (by decide)

theorem exponent_eq (b : UInt64) : exponent b = low b / 2 ^ 52 := by
  have := b.toNat_lt
  simp only [exponent, low]
  omega

theorem fraction_eq (b : UInt64) : fraction b = low b % 2 ^ 52 := by
  simp only [fraction, low]
  omega

theorem ext_low {x y : UInt64} (hs : sign x = sign y) (hl : low x = low y) : x = y :=
  UInt64.toNat_inj.mp (by rw [toNat_eq x, toNat_eq y, hs, hl])

theorem isZero_iff {b : UInt64} : isZero b = true ↔ low b = 0 := by
  simp only [isZero, exponent_eq, fraction_eq, Bool.and_eq_true, beq_iff_eq]
  omega

/-- The bits of an infinity stand above those of every finite number. -/
theorem low_le_of_not_nan {b : UInt64} (h : isNaN b = false) : low b ≤ 2047 * 2 ^ 52 ∧ (exponent b = 2047 ↔ low b = 2047 * 2 ^ 52) := by
  have hlt := low_lt b
  simp only [isNaN, Bool.and_eq_false_iff, beq_eq_false_iff_ne, bne_eq_false_iff_eq] at h
  rw [exponent_eq, fraction_eq] at h
  rw [exponent_eq]
  omega

/-- The magnitude of the bits read as one number. -/
def magnitudeOf (n : Nat) : Nat := magnitude (n / 2 ^ 52) (n % 2 ^ 52)

theorem magnitudeOf_zero : magnitudeOf 0 = 0 := rfl

/-- The next bit pattern is the next number up: within a binade by one unit of it, and across its end by the carry into the exponent. -/
theorem magnitudeOf_strictMono : StrictMono magnitudeOf := by
  refine strictMono_nat_of_lt_succ fun n => ?_
  simp only [magnitudeOf, magnitude]
  by_cases hf : n % 2 ^ 52 + 1 < 2 ^ 52
  · have he : (n + 1) / 2 ^ 52 = n / 2 ^ 52 := by omega
    have hm : (n + 1) % 2 ^ 52 = n % 2 ^ 52 + 1 := by omega
    rw [he, hm]
    split
    · exact Nat.lt_succ_self _
    · exact Nat.mul_lt_mul_of_pos_right (by omega) (Nat.two_pow_pos _)
  · have he : (n + 1) / 2 ^ 52 = n / 2 ^ 52 + 1 := by omega
    have hm : (n + 1) % 2 ^ 52 = 0 := by omega
    rw [he, hm, if_neg (Nat.succ_ne_zero _), Nat.add_sub_cancel, Nat.add_zero]
    split
    · next h0 =>
      rw [h0, Nat.pow_zero]
      omega
    · next h0 =>
      obtain ⟨e, he'⟩ := Nat.exists_eq_succ_of_ne_zero h0
      have hcarry : 2 ^ 52 * 2 ^ (e + 1) = 2 ^ 53 * 2 ^ e := by ring
      rw [he', Nat.succ_eq_add_one, Nat.add_sub_cancel, hcarry]
      exact Nat.mul_lt_mul_of_pos_right (by omega) (Nat.two_pow_pos _)

/-- The sign and the magnitude as one integer, an infinity at the binade above the finite ones. -/
def signed (b : UInt64) : Int := if sign b then -(magnitudeOf (low b) : Int) else magnitudeOf (low b)

theorem signed_bounds (b : UInt64) : -(magnitudeOf (low b) : Int) ≤ signed b ∧ signed b ≤ magnitudeOf (low b) := by
  rw [signed]
  split <;> omega

theorem value_of_finite {b : UInt64} (h : exponent b ≠ 2047) : value b = ((signed b : Int) : WithTop Int) := by
  rw [value, if_neg h, signed, magnitudeOf, ← exponent_eq, ← fraction_eq]
  split <;> rfl

theorem value_lt_iff {x y : UInt64} (hx : isNaN x = false) (hy : isNaN y = false) : value x < value y ↔ signed x < signed y := by
  obtain ⟨hxle, hxi⟩ := low_le_of_not_nan hx
  obtain ⟨hyle, hyi⟩ := low_le_of_not_nan hy
  have hmono := magnitudeOf_strictMono
  have hx' := hmono.le_iff_le.mpr hxle
  have hy' := hmono.le_iff_le.mpr hyle
  have hbx := signed_bounds x
  have hby := signed_bounds y
  have hpos : 0 < magnitudeOf (2047 * 2 ^ 52) := magnitudeOf_zero ▸ hmono (by decide)
  obtain ⟨top, htop⟩ : ∃ top, magnitudeOf (2047 * 2 ^ 52) = top := ⟨_, rfl⟩
  rw [htop] at hx' hy' hpos
  have hfin (v : Int) : ⊥ < ((v : WithTop Int) : WithBot (WithTop Int)) ∧ ((v : WithTop Int) : WithBot (WithTop Int)) < ⊤ :=
    ⟨WithBot.bot_lt_coe _, WithBot.coe_lt_coe.mpr (WithTop.coe_lt_top v)⟩
  by_cases ex : exponent x = 2047
  · have lx := hxi.mp ex
    by_cases ey : exponent y = 2047
    · have ly := hyi.mp ey
      rw [value, value, if_pos ex, if_pos ey, signed, signed, lx, ly, htop]
      cases sign x <;> cases sign y <;> simp <;> omega
    · have ly := lt_of_lt_of_eq (hmono (lt_of_le_of_ne hyle (mt hyi.mpr ey))) htop
      rw [value_of_finite ey, value, if_pos ex]
      cases hs : sign x with
      | false =>
        have hx : signed x = top := by rw [signed, hs, lx, htop]; rfl
        exact iff_of_false (hfin _).2.not_gt (by omega)
      | true =>
        have hx : signed x = -top := by rw [signed, hs, lx, htop]; rfl
        exact iff_of_true (hfin _).1 (by omega)
  · have lx := lt_of_lt_of_eq (hmono (lt_of_le_of_ne hxle (mt hxi.mpr ex))) htop
    by_cases ey : exponent y = 2047
    · have ly := hyi.mp ey
      rw [value_of_finite ex, value, if_pos ey]
      cases hs : sign y with
      | false =>
        have hy : signed y = top := by rw [signed, hs, ly, htop]; rfl
        exact iff_of_true (hfin _).2 (by omega)
      | true =>
        have hy : signed y = -top := by rw [signed, hs, ly, htop]; rfl
        exact iff_of_false (hfin _).1.not_gt (by omega)
    · rw [value_of_finite ex, value_of_finite ey, WithBot.coe_lt_coe, WithTop.coe_lt_coe]

end Double

open Double

def keySignBit : UInt64 := (1 : UInt64) <<< 63

def scoreKey (f : UInt64) : UInt64 :=
  let b := if isZero f then 0 else f
  if b &&& keySignBit = 0 then b ^^^ keySignBit else ~~~b

def scoreFromKey (k : UInt64) : UInt64 :=
  if k &&& keySignBit ≠ 0 then k ^^^ keySignBit else ~~~k

theorem and_keySignBit {b : UInt64} : b &&& keySignBit = 0 ↔ sign b = false := by
  have hbit : b.toNat.testBit 63 = sign b := by
    rw [Nat.testBit_eq_decide_div_mod_eq, sign, decide_eq_decide]
    have := b.toNat_lt
    omega
  have hsb : keySignBit.toNat = 2 ^ 63 := rfl
  rw [← UInt64.toNat_inj, UInt64.toNat_and, hsb, Nat.and_two_pow, hbit]
  cases sign b <;> simp

theorem toNat_xor_keySignBit {b : UInt64} (h : sign b = false) : (b ^^^ keySignBit).toNat = 2 ^ 63 + low b := by
  have hb : b.toNat = low b := by rw [toNat_eq, h]; simp
  have hlt := low_lt b
  have hsb : keySignBit.toNat = 2 ^ 63 := rfl
  rw [UInt64.toNat_xor, hsb, hb]
  refine Nat.eq_of_testBit_eq fun j => ?_
  rw [Nat.testBit_xor, Nat.testBit_two_pow]
  rcases Nat.lt_trichotomy j 63 with hj | rfl | hj
  · rw [Nat.testBit_two_pow_add_gt hj, decide_eq_false (by omega), Bool.xor_false]
  · rw [Nat.testBit_two_pow_add_eq, decide_eq_true rfl, Bool.xor_true]
  · have hpow : 2 ^ 64 ≤ 2 ^ j := Nat.pow_le_pow_right (by decide) hj
    rw [Nat.testBit_lt_two_pow (lt_of_lt_of_le (by omega) hpow), Nat.testBit_lt_two_pow (lt_of_lt_of_le (by omega) hpow),
      decide_eq_false (by omega), Bool.xor_false]

theorem scoreKey_toNat (b : UInt64) :
    (scoreKey b).toNat = if sign b = true ∧ low b ≠ 0 then 2 ^ 63 - 1 - low b else 2 ^ 63 + low b := by
  have hlt := low_lt b
  simp only [scoreKey]
  by_cases hz : low b = 0
  · have hkey : ¬ (sign b = true ∧ low b ≠ 0) := fun h => h.2 hz
    rw [if_pos (isZero_iff.mpr hz), if_neg hkey, hz]
    decide
  · rw [if_neg (mt isZero_iff.mp hz)]
    cases hs : sign b with
    | false =>
      rw [if_pos (and_keySignBit.mpr hs), toNat_xor_keySignBit hs, if_neg (fun h => Bool.noConfusion h.1)]
    | true =>
      have hb : b.toNat = 2 ^ 63 + low b := by rw [toNat_eq, hs]; rfl
      have hsize : UInt64.size = 2 ^ 64 := rfl
      rw [if_neg (fun h => by rw [and_keySignBit.mp h] at hs; cases hs), UInt64.toNat_not, hb, hsize, if_pos ⟨rfl, hz⟩]
      omega

theorem scoreKey_lt_iff_signed (x y : UInt64) : scoreKey x < scoreKey y ↔ signed x < signed y := by
  have hmono := magnitudeOf_strictMono
  have hx := low_lt x
  have hy := low_lt y
  have hlt : magnitudeOf (low x) < magnitudeOf (low y) ↔ low x < low y := hmono.lt_iff_lt
  have hgt : magnitudeOf (low y) < magnitudeOf (low x) ↔ low y < low x := hmono.lt_iff_lt
  have hx0 : magnitudeOf 0 < magnitudeOf (low x) ↔ 0 < low x := hmono.lt_iff_lt
  have hy0 : magnitudeOf 0 < magnitudeOf (low y) ↔ 0 < low y := hmono.lt_iff_lt
  rw [magnitudeOf_zero] at hx0 hy0
  rw [UInt64.lt_iff_toNat_lt, scoreKey_toNat, scoreKey_toNat, signed, signed]
  cases sign x <;> cases sign y <;> simp only [true_and, Bool.false_eq_true, false_and, if_true, if_false] <;>
    first | omega | (split_ifs <;> omega)

/-- Only the two zeros share a key. -/
theorem scoreKey_eq_iff (x y : UInt64) : scoreKey x = scoreKey y ↔ x = y ∨ isZero x = true ∧ isZero y = true := by
  constructor
  · intro h
    have hx := low_lt x
    have hy := low_lt y
    have hk : (scoreKey x).toNat = (scoreKey y).toNat := by rw [h]
    rw [scoreKey_toNat, scoreKey_toNat] at hk
    by_cases hz : low x = 0 ∧ low y = 0
    · exact .inr ⟨isZero_iff.mpr hz.1, isZero_iff.mpr hz.2⟩
    · left
      cases hsx : sign x <;> cases hsy : sign y <;> simp only [hsx, hsy, true_and, Bool.false_eq_true, false_and, if_false] at hk <;>
        first | exact ext_low (hsx.trans hsy.symm) (by omega) | (split_ifs at hk <;> first | exact ext_low (hsx.trans hsy.symm) (by omega) | omega)
  · rintro (rfl | ⟨hx, hy⟩)
    · rfl
    · simp only [scoreKey, if_pos hx, if_pos hy]

theorem scoreFromKey_scoreKey (x : UInt64) : scoreFromKey (scoreKey x) = if isZero x then 0 else x := by
  simp only [scoreKey]
  generalize (if isZero x then (0 : UInt64) else x) = b
  cases hs : sign b with
  | false =>
    have hset : sign (b ^^^ keySignBit) = true := by
      rw [sign, toNat_xor_keySignBit hs]
      exact decide_eq_true (Nat.le_add_right _ _)
    rw [if_pos (and_keySignBit.mpr hs), scoreFromKey, if_pos (fun h => by rw [and_keySignBit.mp h] at hset; cases hset),
      UInt64.xor_assoc, UInt64.xor_self, UInt64.xor_zero]
  | true =>
    have hclear : sign (~~~b) = false := by
      have hb : b.toNat = 2 ^ 63 + low b := by rw [toNat_eq, hs]; rfl
      have hsize : UInt64.size = 2 ^ 64 := rfl
      have := low_lt b
      rw [sign, UInt64.toNat_not, hb, hsize]
      exact decide_eq_false (by omega)
    rw [if_neg (fun h => by rw [and_keySignBit.mp h] at hs; cases hs), scoreFromKey, if_neg (not_not.mpr (and_keySignBit.mpr hclear)),
      UInt64.not_not]

/-- The order the tree keeps over its sortable keys, ties by member bytes. -/
def treeLt (a b : UInt64 × List UInt8) : Prop := a.1 < b.1 ∨ a.1 = b.1 ∧ a.2 < b.2

instance (a b : UInt64 × List UInt8) : Decidable (treeLt a b) := inferInstanceAs (Decidable (_ ∨ _))

/-- The zset order: by score as a number, ties by member bytes. -/
def zsetLt (a b : UInt64 × List UInt8) : Prop := value a.1 < value b.1 ∨ value a.1 = value b.1 ∧ a.2 < b.2

section
variable {x y : UInt64} (hx : isNaN x = false) (hy : isNaN y = false)
include hx hy

theorem scoreKey_lt_iff : scoreKey x < scoreKey y ↔ value x < value y :=
  (scoreKey_lt_iff_signed x y).trans (value_lt_iff hx hy).symm

theorem scoreKey_eq_iff_value : scoreKey x = scoreKey y ↔ value x = value y := by
  have hlt := scoreKey_lt_iff hx hy
  have hgt := scoreKey_lt_iff hy hx
  rw [UInt64.lt_iff_toNat_lt] at hlt hgt
  rw [← UInt64.toNat_inj]
  constructor
  · exact fun h => le_antisymm (not_lt.mp fun c => by have := hgt.mpr c; omega) (not_lt.mp fun c => by have := hlt.mpr c; omega)
  · intro h
    have h₁ := mt hlt.mp (h ▸ lt_irrefl _)
    have h₂ := mt hgt.mp (h ▸ lt_irrefl _)
    omega

theorem treeLt_iff_zsetLt (m n : List UInt8) : treeLt (scoreKey x, m) (scoreKey y, n) ↔ zsetLt (x, m) (y, n) :=
  or_congr (scoreKey_lt_iff hx hy) (and_congr_left fun _ => scoreKey_eq_iff_value hx hy)

/-- The sortable key keeps the numeric order, joins the two zeros and nothing else, decodes to the bits it was made from with the
zero positive, and so the tree's order is the zset's. -/
theorem scoreKey_preserves_order :
    (scoreKey x < scoreKey y ↔ value x < value y) ∧
    (scoreKey x = scoreKey y ↔ x = y ∨ isZero x = true ∧ isZero y = true) ∧
    scoreFromKey (scoreKey x) = (if isZero x then 0 else x) ∧
    ∀ m n, treeLt (scoreKey x, m) (scoreKey y, n) ↔ zsetLt (x, m) (y, n) :=
  ⟨scoreKey_lt_iff hx hy, scoreKey_eq_iff x y, scoreFromKey_scoreKey x, treeLt_iff_zsetLt hx hy⟩

end

/-- Minus infinity and minus one. -/
theorem scoreKey_preserves_order_negative :
    isNaN 0xfff0000000000000 = false ∧ isNaN 0xbff0000000000000 = false ∧
    (scoreKey 0xfff0000000000000 < scoreKey 0xbff0000000000000 ↔ value 0xfff0000000000000 < value 0xbff0000000000000) :=
  ⟨by decide +kernel, by decide +kernel, (scoreKey_preserves_order (by decide +kernel) (by decide +kernel)).1⟩

end Aki.Zset
