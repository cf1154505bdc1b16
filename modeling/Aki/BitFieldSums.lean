import Mathlib.Data.Int.ModEq
import Mathlib.Tactic.Ring
import Aki.BitField
import Aki.Decimal

namespace Aki.BitField

open MsbBits Decimal

theorem int64_of_range {x : Int} (h : -2 ^ 63 ≤ x) (h' : x < 2 ^ 63) : int64 x = x :=
  Int.bmod_eq_of_le (by simpa using h) (by simpa using h')

theorem uint64_lt (x : Int) : uint64 x < 2 ^ 64 := by
  have := Int.emod_lt_of_pos x (show (0 : Int) < 2 ^ 64 by decide)
  have := Int.emod_nonneg x (show (2 ^ 64 : Int) ≠ 0 by decide)
  rw [uint64]
  omega

theorem uint64_cast (x : Int) : (uint64 x : Int) = x % 2 ^ 64 :=
  Int.toNat_of_nonneg (Int.emod_nonneg x (by decide))

theorem int64_uint64 (x : Int) : int64 (uint64 x) = int64 x := by
  rw [uint64_cast, int64, int64, show (2 ^ 64 : Int) = ((2 ^ 64 : Nat) : Int) by rfl, Int.emod_bmod]

theorem bits_pow {bits : Nat} (h : 1 ≤ bits) : 2 ^ bits = 2 * 2 ^ (bits - 1) := by
  rw [← Nat.pow_succ', Nat.succ_eq_add_one, Nat.sub_add_cancel h]

theorem or_high {c bits : Nat} (hc : c < 2 ^ 64) (hb : bits ≤ 64) : c ||| (2 ^ 64 - 2 ^ bits) = c % 2 ^ bits + (2 ^ 64 - 2 ^ bits) := by
  have hmul : 2 ^ 64 - 2 ^ bits = 2 ^ bits * (2 ^ (64 - bits) - 1) := by
    rw [Nat.mul_sub, ← Nat.pow_add, Nat.mul_one, Nat.add_sub_cancel' hb]
  rw [hmul, Nat.add_comm, Nat.two_pow_add_eq_or_of_lt (Nat.mod_lt _ (Nat.two_pow_pos _))]
  refine Nat.eq_of_testBit_eq fun i => ?_
  rw [Nat.testBit_or, Nat.testBit_or, Nat.testBit_mod_two_pow, Nat.testBit_two_pow_mul]
  by_cases hi : i < bits
  · simp [hi, Nat.not_le_of_lt hi]
  · have hle := Nat.le_of_not_lt hi
    by_cases h64 : i < 64
    · simp [hi, hle, show i - bits < 64 - bits by omega]
    · have hz : c.testBit i = false := Nat.testBit_lt_two_pow (Nat.lt_of_lt_of_le hc (Nat.pow_le_pow_right (by decide) (by omega)))
      simp [hi, hz]

theorem testBit_top {c bits : Nat} (h : 1 ≤ bits) : c.testBit (bits - 1) = true ↔ 2 ^ (bits - 1) ≤ c % 2 ^ bits := by
  have hlt := Nat.mod_lt c (Nat.two_pow_pos bits)
  have hm : c.testBit (bits - 1) = (c % 2 ^ bits).testBit (bits - 1) := by
    rw [Nat.testBit_mod_two_pow, decide_eq_true (by omega), Bool.true_and]
  rw [hm]
  constructor
  · exact Nat.ge_two_pow_of_testBit
  · intro hle
    rw [bits_pow h] at hlt ⊢
    rw [bits_pow h] at hle
    rw [Nat.testBit_eq_decide_div_mod_eq]
    generalize c % (2 * 2 ^ (bits - 1)) = r at hlt hle
    have hd : r / 2 ^ (bits - 1) = 1 := Nat.div_eq_of_lt_le (by omega) (by omega)
    rw [hd]
    rfl

/-- Setting or clearing all above the sign bit gives the residue of least absolute value. -/
theorem int64_signExtend {c bits : Nat} (hc : c < 2 ^ 64) (h : 1 ≤ bits) (h64 : bits < 64) :
    int64 (signExtend c bits) = Int.bmod c (2 ^ bits) := by
  have hp := bits_pow h
  have hle : 2 ^ (bits - 1) ≤ 2 ^ 62 := Nat.pow_le_pow_right (by decide) (by omega)
  have hlt := Nat.mod_lt c (Nat.two_pow_pos bits)
  have hmod : (c : Int) % ((2 ^ bits : Nat) : Int) = ((c % 2 ^ bits : Nat) : Int) := rfl
  rw [signExtend, Int.bmod, hmod]
  by_cases ht : c.testBit (bits - 1) = true
  · have hge := (testBit_top h).mp ht
    rw [if_pos ht, or_high hc (Nat.le_of_lt h64)]
    generalize c % 2 ^ bits = r, 2 ^ (bits - 1) = k, 2 ^ bits = m at hp hle hlt hge
    rw [if_neg (by omega), int64, Int.bmod, Int.emod_eq_of_lt (by omega) (by omega), if_neg (by omega)]
    omega
  · have hge : ¬ 2 ^ (bits - 1) ≤ c % 2 ^ bits := fun hx => ht ((testBit_top h).mpr hx)
    rw [if_neg ht, Nat.and_two_pow_sub_one_eq_mod]
    generalize c % 2 ^ bits = r, 2 ^ (bits - 1) = k, 2 ^ bits = m at hp hle hlt hge
    rw [if_pos (by omega), int64_of_range (by omega) (by omega)]

def FitsInt64 (x : Int) : Prop := -2 ^ 63 ≤ x ∧ x < 2 ^ 63

/-- The value of the range with the residue of `e`. -/
def FieldType.wrap (t : FieldType) (e : Int) : Int := if t.signed then Int.bmod e (2 ^ t.bits) else e % 2 ^ t.bits

def FieldType.clamp (t : FieldType) (e : Int) : Int := max t.lo (min t.hi e)

/-- What is stored for a sum out of range; a failed operation stores nothing. -/
def FieldType.overflowed (t : FieldType) (ow : Overflow) (e : Int) : Int := ow.pick (t.wrap e) (t.clamp e)

section Sums

variable {t : FieldType} {bits : Nat} {value incr cur : Int} {ow : Overflow}

theorem FieldType.bits_le (t : FieldType) : t.bits ≤ 64 := by
  have := t.cap
  split at this <;> omega

theorem half_bounds (h : 1 ≤ bits) (hb : bits ≤ 64) : ((2 ^ bits : Nat) : Int) = 2 * 2 ^ (bits - 1) ∧ (1 : Int) ≤ 2 ^ (bits - 1) ∧
    (2 : Int) ^ (bits - 1) ≤ 2 ^ 63 ∧ (bits ≠ 64 → (2 : Int) ^ (bits - 1) ≤ 2 ^ 62) ∧ (bits = 64 → (2 : Int) ^ (bits - 1) = 2 ^ 63) := by
  have hcast : ((2 ^ (bits - 1) : Nat) : Int) = 2 ^ (bits - 1) := by push_cast; rfl
  have h₁ : 1 ≤ 2 ^ (bits - 1) := Nat.two_pow_pos _
  have h₂ : 2 ^ (bits - 1) ≤ 2 ^ 63 := Nat.pow_le_pow_right (by decide) (by omega)
  have h₃ : bits ≠ 64 → 2 ^ (bits - 1) ≤ 2 ^ 62 := fun hn => Nat.pow_le_pow_right (by decide) (by omega)
  rw [bits_pow h, ← hcast]
  refine ⟨by push_cast; rfl, by omega, by omega, fun hn => by have := h₃ hn; omega, fun he => by rw [he]; rfl⟩

theorem signedWrap_eq (h : 1 ≤ bits) (hb : bits ≤ 64) (value incr : Int) :
    signedWrap value incr bits = Int.bmod (value + incr) (2 ^ bits) := by
  rw [signedWrap]
  by_cases h64 : bits < 64
  · have hdvd : ((2 ^ bits : Nat) : Int) ∣ ((2 ^ 64 : Nat) : Int) := Int.natCast_dvd_natCast.mpr (Nat.pow_dvd_pow 2 hb)
    rw [if_pos h64, int64_signExtend (uint64_lt _) h h64, uint64_cast]
    rw [Int.bmod, Int.bmod, show (2 ^ 64 : Int) = ((2 ^ 64 : Nat) : Int) by rfl, Int.emod_emod_of_dvd _ hdvd]
  · rw [if_neg h64, int64_uint64, show bits = 64 by omega]
    rfl

theorem checkSignedOverflow_eq (h : 1 ≤ bits) (hb : bits ≤ 64) (hv : -2 ^ (bits - 1) ≤ value ∧ value ≤ 2 ^ (bits - 1) - 1) (hi : FitsInt64 incr)
    (ow : Overflow) : checkSignedOverflow value incr bits ow =
      if 2 ^ (bits - 1) - 1 < value + incr then
        (1, ow.pick (Int.bmod (value + incr) (2 ^ bits)) (2 ^ (bits - 1) - 1))
      else if value + incr < -2 ^ (bits - 1) then
        (-1, ow.pick (Int.bmod (value + incr) (2 ^ bits)) (-2 ^ (bits - 1)))
      else (0, 0) := by
  obtain ⟨-, h₁, h₂, h₃, h₄⟩ := half_bounds h hb
  have hmax : (if bits = 64 then (2 ^ 63 - 1 : Int) else 2 ^ (bits - 1) - 1) = 2 ^ (bits - 1) - 1 := by
    split
    next he => rw [he]
    next => rfl
  unfold checkSignedOverflow
  dsimp only
  rw [hmax, signedWrap_eq h hb]
  generalize (2 : Int) ^ (bits - 1) = k at *
  obtain ⟨hlo, hhi⟩ := hi
  have hmaxincr : bits ≠ 64 ∨ 0 ≤ value → int64 (k - 1 - value) = k - 1 - value := fun hc => by
    have hk : bits ≠ 64 → k ≤ 2 ^ 62 := h₃
    exact int64_of_range (by omega) (by rcases hc with hc | hc; have := hk hc; all_goals omega)
  have hminincr : bits ≠ 64 ∨ value < 0 → int64 (-(k - 1) - 1 - value) = -(k - 1) - 1 - value := fun hc => by
    have hk : bits ≠ 64 → k ≤ 2 ^ 62 := h₃
    exact int64_of_range (by rcases hc with hc | hc; have := hk hc; all_goals omega) (by omega)
  have hover : (value > k - 1 ∨ (bits ≠ 64 ∧ incr > int64 (k - 1 - value)) ∨ (value ≥ 0 ∧ incr > 0 ∧ incr > int64 (k - 1 - value))) ↔
      k - 1 < value + incr := by
    by_cases hc : bits ≠ 64 ∨ 0 ≤ value
    · rw [hmaxincr hc]
      omega
    · have h64 := h₄ (by omega)
      omega
  have hunder : (value < -(k - 1) - 1 ∨ (bits ≠ 64 ∧ incr < int64 (-(k - 1) - 1 - value)) ∨
      (value < 0 ∧ incr < 0 ∧ incr < int64 (-(k - 1) - 1 - value))) ↔ value + incr < -k := by
    by_cases hc : bits ≠ 64 ∨ value < 0
    · rw [hminincr hc]
      omega
    · have h64 := h₄ (by omega)
      omega
  rw [show -(k - 1) - 1 = -k by omega] at hunder ⊢
  by_cases hA : k - 1 < value + incr
  · rw [if_pos (hover.mpr hA), if_pos hA]
  · rw [if_neg (mt hover.mp hA), if_neg hA]
    by_cases hB : value + incr < -k
    · rw [if_pos (hunder.mpr hB), if_pos hB]
    · rw [if_neg (mt hunder.mp hB), if_neg hB]

theorem unsignedWrap_eq {value : Nat} (hb : bits ≤ 63) : unsignedWrap value incr bits = ((value + incr) % 2 ^ bits).toNat := by
  have hdvd : ((2 ^ bits : Nat) : Int) ∣ ((2 ^ 64 : Nat) : Int) := Int.natCast_dvd_natCast.mpr (Nat.pow_dvd_pow 2 (by omega))
  rw [unsignedWrap, if_pos (by omega), Nat.and_two_pow_sub_one_eq_mod]
  apply Int.natCast_inj.mp
  rw [Int.toNat_of_nonneg (Int.emod_nonneg _ (by positivity)), Int.natCast_mod, uint64_cast,
    show (2 ^ 64 : Int) = ((2 ^ 64 : Nat) : Int) by rfl, Int.emod_emod_of_dvd _ hdvd]
  push_cast
  rfl

theorem checkUnsignedOverflow_eq {value : Nat} (hb : bits ≤ 63) (hv : value ≤ 2 ^ bits - 1) (hi : FitsInt64 incr)
    (ow : Overflow) : checkUnsignedOverflow value incr bits ow =
      if ((2 ^ bits - 1 : Nat) : Int) < value + incr then
        (1, ow.pick (((value + incr) % 2 ^ bits).toNat) (2 ^ bits - 1))
      else if value + incr < 0 then (-1, ow.pick (((value + incr) % 2 ^ bits).toNat) 0)
      else (0, 0) := by
  have hle : 2 ^ bits ≤ 2 ^ 63 := Nat.pow_le_pow_right (by decide) hb
  have hpos := Nat.two_pow_pos bits
  unfold checkUnsignedOverflow
  dsimp only
  rw [show (if bits = 64 then 2 ^ 64 - 1 else 2 ^ bits - 1) = 2 ^ bits - 1 from if_neg (by omega), unsignedWrap_eq hb]
  generalize ((value + incr) % 2 ^ bits).toNat = w
  generalize 2 ^ bits = m at *
  obtain ⟨hlo, hhi⟩ := hi
  rw [int64_of_range (x := ((m - 1 : Nat) : Int) - value) (by omega) (by omega), int64_of_range (x := (value : Int)) (by omega) (by omega),
    int64_of_range (x := -(value : Int)) (by omega) (by omega)]
  by_cases hA : ((m - 1 : Nat) : Int) < value + incr
  · rw [if_pos (by omega), if_pos hA]
  · rw [if_neg (by omega), if_neg hA]
    by_cases hB : (value : Int) + incr < 0
    · rw [if_pos (by omega), if_pos hB]
    · rw [if_neg (by omega), if_neg hB]

theorem FieldType.range_signed (hs : t.signed = true) : t.lo = -2 ^ (t.bits - 1) ∧ t.hi = 2 ^ (t.bits - 1) - 1 := by
  rw [FieldType.lo, FieldType.hi, if_pos hs, if_pos hs]
  exact ⟨rfl, rfl⟩

theorem FieldType.range_unsigned (hs : t.signed = false) : t.lo = 0 ∧ t.hi = ((2 ^ t.bits - 1 : Nat) : Int) := by
  have hpos := Nat.two_pow_pos t.bits
  rw [FieldType.lo, FieldType.hi, if_neg (by simp [hs]), if_neg (by simp [hs])]
  refine ⟨rfl, ?_⟩
  push_cast [hpos]
  rfl

theorem FieldType.cap_unsigned (hs : t.signed = false) : t.bits ≤ 63 := by
  have := t.cap
  rwa [if_neg (by simp [hs])] at this

theorem FieldType.wrap_spec (t : FieldType) (e : Int) : t.InRange (t.wrap e) ∧ t.wrap e ≡ e [ZMOD 2 ^ t.bits] := by
  cases hs : t.signed with
  | true =>
    obtain ⟨hlo, hhi⟩ := FieldType.range_signed hs
    obtain ⟨hp, h₁, -⟩ := half_bounds t.pos t.bits_le
    have hpos : 0 < 2 ^ t.bits := Nat.two_pow_pos _
    have h := @Int.le_bmod e (2 ^ t.bits) hpos
    have h' := @Int.bmod_lt e (2 ^ t.bits) hpos
    rw [FieldType.InRange, hlo, hhi, FieldType.wrap, if_pos hs]
    refine ⟨⟨by omega, by omega⟩, ?_⟩
    rw [Int.ModEq, show (2 ^ t.bits : Int) = ((2 ^ t.bits : Nat) : Int) by push_cast; rfl]
    exact Int.bmod_emod
  | false =>
    obtain ⟨hlo, hhi⟩ := FieldType.range_unsigned hs
    have hpos : 0 < 2 ^ t.bits := Nat.two_pow_pos _
    have hcast : (2 ^ t.bits : Int) = ((2 ^ t.bits : Nat) : Int) := by push_cast; rfl
    have h := Int.emod_nonneg e (show (2 ^ t.bits : Int) ≠ 0 by positivity)
    have h' := Int.emod_lt_of_pos e (show (0 : Int) < 2 ^ t.bits by positivity)
    rw [FieldType.InRange, hlo, hhi, FieldType.wrap, if_neg (by simp [hs])]
    exact ⟨⟨h, by omega⟩, Int.mod_modEq _ _⟩

theorem FieldType.inRange_int64 {x : Int} (h : t.InRange x) : FitsInt64 x := by
  rw [FieldType.InRange] at h
  cases hs : t.signed with
  | true =>
    obtain ⟨hlo, hhi⟩ := FieldType.range_signed hs
    obtain ⟨-, h₁, h₂, -⟩ := half_bounds t.pos t.bits_le
    exact ⟨by omega, by omega⟩
  | false =>
    obtain ⟨hlo, hhi⟩ := FieldType.range_unsigned hs
    have hle : 2 ^ t.bits ≤ 2 ^ 63 := Nat.pow_le_pow_right (by decide) (FieldType.cap_unsigned hs)
    exact ⟨by omega, by omega⟩

theorem int64_pick {w l : Nat} {w' l' : Int} (hw : int64 w = w') (hl : int64 l = l') : int64 (ow.pick w l : Nat) = ow.pick w' l' := by
  cases ow with
  | wrap => exact hw
  | sat => exact hl
  | fail => exact int64_of_range (x := ((0 : Nat) : Int)) (by decide) (by decide)

theorem FieldType.clamp_above {e : Int} (h : t.lo ≤ t.hi) (he : t.hi < e) : t.clamp e = t.hi := by
  rw [FieldType.clamp]
  omega

theorem FieldType.clamp_below {e : Int} (he : e < t.lo) : t.clamp e = t.lo := by
  rw [FieldType.clamp]
  omega

theorem FieldType.clamp_of_inRange {e : Int} (h : t.InRange e) : t.clamp e = e := by
  obtain ⟨h₁, h₂⟩ := h
  rw [FieldType.clamp]
  omega

theorem FieldType.clamp_inRange (h : t.lo ≤ t.hi) (e : Int) : t.InRange (t.clamp e) := by
  rw [FieldType.InRange, FieldType.clamp]
  omega

/-- What the code makes of a sum: the sum itself when it is in range, and otherwise what the mode says. -/
theorem applyOverflow_eq (hcur : t.InRange cur) (hi : FitsInt64 incr) (ow : Overflow) : applyOverflow t ow cur incr =
    if t.InRange (cur + incr) then (cur + incr, false)
    else (t.overflowed ow (cur + incr), true) := by
  unfold FieldType.overflowed
  have hcur64 := FieldType.inRange_int64 hcur
  have hsum : t.InRange (cur + incr) → int64 (cur + incr) = cur + incr := fun hr => by
    obtain ⟨h₁, h₂⟩ := FieldType.inRange_int64 hr
    exact int64_of_range h₁ h₂
  cases hs : t.signed with
  | true =>
    obtain ⟨hlo, hhi⟩ := FieldType.range_signed hs
    have hv : -2 ^ (t.bits - 1) ≤ cur ∧ cur ≤ 2 ^ (t.bits - 1) - 1 := by rw [← hlo, ← hhi]; exact hcur
    have hne : t.lo ≤ t.hi := Int.le_trans hcur.1 hcur.2
    have hw : t.wrap (cur + incr) = Int.bmod (cur + incr) (2 ^ t.bits) := if_pos hs
    rw [applyOverflow, if_pos hs, checkSignedOverflow_eq t.pos t.bits_le hv hi, ← hhi, ← hlo, ← hw]
    by_cases hA : t.hi < cur + incr
    · have hnr : ¬ t.InRange (cur + incr) := fun hr => Int.not_le.mpr hA hr.2
      rw [if_pos hA, if_neg hnr]
      dsimp only
      rw [if_pos (by decide)]
      rw [FieldType.clamp_above hne hA]
    · rw [if_neg hA]
      by_cases hB : cur + incr < t.lo
      · have hnr : ¬ t.InRange (cur + incr) := fun hr => Int.not_le.mpr hB hr.1
        rw [if_pos hB, if_neg hnr]
        dsimp only
        rw [if_pos (by decide)]
        rw [FieldType.clamp_below hB]
      · have hr : t.InRange (cur + incr) := ⟨Int.not_lt.mp hB, Int.not_lt.mp hA⟩
        rw [if_neg hB, if_pos hr, if_neg (by simp), hsum hr]
  | false =>
    obtain ⟨hlo, hhi⟩ := FieldType.range_unsigned hs
    have hcap := FieldType.cap_unsigned hs
    have hne : t.lo ≤ t.hi := Int.le_trans hcur.1 hcur.2
    have hnat : (uint64 cur : Int) = cur := by
      rw [uint64_cast]
      exact Int.emod_eq_of_lt (hlo ▸ hcur.1) (by have := hcur64.2; omega)
    have hv : uint64 cur ≤ 2 ^ t.bits - 1 := by have := hcur.2; omega
    have hw : t.wrap (cur + incr) = (cur + incr) % 2 ^ t.bits := if_neg (by simp [hs])
    have hwr := (t.wrap_spec (cur + incr)).1
    have hw64 := FieldType.inRange_int64 hwr
    have hhi64 : FitsInt64 t.hi := FieldType.inRange_int64 (t := t) ⟨hne, Int.le_refl _⟩
    have hwn : int64 (((cur + incr) % 2 ^ t.bits).toNat : Int) = t.wrap (cur + incr) := by
      rw [← hw, Int.toNat_of_nonneg (hlo ▸ hwr.1)]
      exact int64_of_range hw64.1 hw64.2
    have hhn : int64 ((2 ^ t.bits - 1 : Nat) : Int) = t.hi := by rw [← hhi]; exact int64_of_range hhi64.1 hhi64.2
    have hz : int64 ((0 : Nat) : Int) = 0 := int64_of_range (by decide) (by decide)
    rw [applyOverflow, if_neg (by simp [hs]), checkUnsignedOverflow_eq hcap hv hi, hnat, ← hhi]
    by_cases hA : t.hi < cur + incr
    · have hnr : ¬ t.InRange (cur + incr) := fun hr => Int.not_le.mpr hA hr.2
      rw [if_pos hA, if_neg hnr]
      dsimp only
      rw [if_pos (by decide)]
      rw [FieldType.clamp_above hne hA, int64_pick hwn hhn]
    · rw [if_neg hA]
      by_cases hB : cur + incr < 0
      · have hnr : ¬ t.InRange (cur + incr) := fun hr => by have := hr.1; omega
        rw [if_pos hB, if_neg hnr]
        dsimp only
        rw [if_pos (by decide)]
        rw [FieldType.clamp_below (hlo.symm ▸ hB), hlo, int64_pick hwn hz]
      · have hr : t.InRange (cur + incr) := ⟨by omega, Int.not_lt.mp hA⟩
        rw [if_neg hB, if_pos hr, if_neg (by simp), int64_uint64, hsum hr]

end Sums

section Values

variable {v : List UInt8} {t : FieldType} {off : Nat}

theorem readField_eq (v : List UInt8) (t : FieldType) (off : Nat) : readField v t off = t.wrap (fieldGet v off t.bits) := by
  have hlt : fieldGet v off t.bits < 2 ^ t.bits := by rw [fieldGet_eq t.bits_le]; exact number_lt _ _
  have hle : 2 ^ t.bits ≤ 2 ^ 64 := Nat.pow_le_pow_right (by decide) t.bits_le
  rw [readField]
  generalize fieldGet v off t.bits = raw at hlt
  cases hs : t.signed with
  | true =>
    rw [FieldType.wrap, if_pos hs]
    by_cases h64 : t.bits < 64
    · rw [← int64_signExtend (Nat.lt_of_lt_of_le hlt hle) t.pos h64, signExtend]
      by_cases hb : raw.testBit (t.bits - 1) = true
      · rw [if_pos ⟨rfl, h64, hb⟩, if_pos hb]
      · rw [if_neg (fun h => hb h.2.2), if_neg hb, Nat.and_two_pow_sub_one_eq_mod, Nat.mod_eq_of_lt hlt]
    · rw [if_neg (fun h => h64 h.2.1), show t.bits = 64 by have := t.bits_le; omega]
      rfl
  | false =>
    have hle' : 2 ^ t.bits ≤ 2 ^ 63 := Nat.pow_le_pow_right (by decide) (FieldType.cap_unsigned hs)
    have hmod : (raw : Int) % 2 ^ t.bits = raw := Int.emod_eq_of_lt (by omega) (by exact_mod_cast hlt)
    rw [FieldType.wrap, if_neg (by simp), if_neg (by simp [hs]), hmod]
    exact int64_of_range (by omega) (by omega)

theorem readField_inRange (v : List UInt8) (t : FieldType) (off : Nat) : t.InRange (readField v t off) := by
  rw [readField_eq]
  exact (t.wrap_spec _).1

theorem FieldType.inRange_unique {x y : Int} (hx : t.InRange x) (hy : t.InRange y) (h : x ≡ y [ZMOD 2 ^ t.bits]) : x = y := by
  have hwidth : t.hi - t.lo < ((2 ^ t.bits : Nat) : Int) := by
    cases hs : t.signed with
    | true =>
      obtain ⟨hlo, hhi⟩ := FieldType.range_signed hs
      obtain ⟨hp, -⟩ := half_bounds t.pos t.bits_le
      omega
    | false =>
      obtain ⟨hlo, hhi⟩ := FieldType.range_unsigned hs
      have := Nat.two_pow_pos t.bits
      omega
  have hdvd : ((2 ^ t.bits : Nat) : Int) ∣ y - x := by
    have := h.dvd
    push_cast
    exact this
  have hz : y - x = 0 := by
    refine Int.eq_zero_of_abs_lt_dvd hdvd ?_
    have h₁ := hx.1
    have h₂ := hx.2
    have h₃ := hy.1
    have h₄ := hy.2
    rw [abs_lt]
    omega
  omega

theorem readField_writeField {s : Slot} (hs : s.Takes off t.bits) {x : Int} (hx : t.InRange x) :
    readField (writeField s v t off x) t off = x := by
  rw [readField_eq, writeField, fieldGet_fieldSet t.pos t.bits_le hs]
  have hw := t.wrap_spec ((uint64 x % 2 ^ t.bits : Nat) : Int)
  refine FieldType.inRange_unique hw.1 hx (hw.2.trans ?_)
  have hdvd : (2 ^ t.bits : Int) ∣ 2 ^ 64 := pow_dvd_pow 2 t.bits_le
  have hcast : ((2 ^ t.bits : Nat) : Int) = 2 ^ t.bits := by push_cast; rfl
  rw [Int.natCast_mod, uint64_cast, Int.ModEq, hcast, Int.emod_emod, Int.emod_emod_of_dvd _ hdvd]

end Values

inductive IntText : List UInt8 → Int → Prop
  | zero : IntText [48] 0
  | pos {b n} (h : Spells b n) (hd : b.head? ≠ some 48) : IntText b n
  | neg {b n} (h : Spells b n) (hd : b.head? ≠ some 48) : IntText (45 :: b) (-(n : Int))

section Offsets

variable {b : List UInt8} {n : Nat} {x : Int} {bits : Nat}

theorem mul_pow_le_foldl (b : List UInt8) (u : Nat) : u * 10 ^ b.length ≤ b.foldl (fun v c => v * 10 + (c.toNat - 48)) u := by
  induction b generalizing u with
  | nil => simp
  | cons c b ih =>
    rw [List.foldl_cons, List.length_cons, Nat.pow_succ']
    calc u * (10 * 10 ^ b.length) = u * 10 * 10 ^ b.length := by ring
      _ ≤ (u * 10 + (c.toNat - 48)) * 10 ^ b.length := Nat.mul_le_mul_right _ (Nat.le_add_right _ _)
      _ ≤ _ := ih _

theorem digitLoop_eq {lim : Nat} (hlim : 9 ≤ lim) {b : List UInt8} (hb : ∀ c ∈ b, 48 ≤ c ∧ c ≤ 57) (u : Nat) (hu : u ≤ lim) :
    digitLoop lim u b = if b.foldl (fun v c => v * 10 + (c.toNat - 48)) u ≤ lim then
      some (b.foldl (fun v c => v * 10 + (c.toNat - 48)) u) else none := by
  induction b generalizing u with
  | nil => rw [digitLoop, List.foldl_nil, if_pos hu]
  | cons c b ih =>
    obtain ⟨h₁, h₂⟩ := hb c List.mem_cons_self
    rw [UInt8.le_iff_toNat_le] at h₁ h₂
    have h48 : (48 : UInt8).toNat = 48 := rfl
    have h57 : (57 : UInt8).toNat = 57 := rfl
    have hdigit : ¬ (c < 48 ∨ 57 < c) := by
      rw [UInt8.lt_iff_toNat_lt, UInt8.lt_iff_toNat_lt]
      omega
    rw [digitLoop, if_neg hdigit, List.foldl_cons]
    generalize hd : c.toNat - 48 = d
    have hd9 : d ≤ 9 := by omega
    by_cases hle : u > (lim - d) / 10
    · have hlow := mul_pow_le_foldl b (u * 10 + d)
      have hpow : u * 10 + d ≤ (u * 10 + d) * 10 ^ b.length := Nat.le_mul_of_pos_right _ (Nat.pow_pos (by decide))
      rw [if_pos hle, if_neg (by omega)]
    · rw [if_neg hle, ih (fun c hc => hb c (List.mem_cons_of_mem _ hc)) _ (by omega)]

theorem spells_pow_le (h : Spells b n) (hd : b.head? ≠ some 48) : 10 ^ (b.length - 1) ≤ n := by
  cases b with
  | nil => exact absurd rfl h.nonempty
  | cons c b =>
    have hv := h.value
    rw [ofDigits_eq_foldl, List.foldl_cons] at hv
    have hc := (h.digits c List.mem_cons_self).1
    have hne : c ≠ 48 := fun he => hd (by rw [he]; rfl)
    have hpos : 1 ≤ 0 * 10 + (c.toNat - 48) := by
      rw [UInt8.le_iff_toNat_le] at hc
      have h48 : (48 : UInt8).toNat = 48 := rfl
      have : c.toNat ≠ 48 := fun he => hne (UInt8.toNat_inj.mp he)
      omega
    rw [List.length_cons, Nat.add_sub_cancel, ← hv]
    calc 10 ^ b.length ≤ (0 * 10 + (c.toNat - 48)) * 10 ^ b.length := Nat.le_mul_of_pos_left _ hpos
      _ ≤ _ := mul_pow_le_foldl b _

theorem spells_digitLoop (h : Spells b n) {lim : Nat} (hlim : 9 ≤ lim) :
    digitLoop lim 0 b = if n ≤ lim then some n else none := by
  rw [digitLoop_eq hlim h.digits 0 (Nat.zero_le _), ← ofDigits_eq_foldl, h.value]

theorem parseInt_text (h : IntText b x) : parseInt b = if -2 ^ 63 ≤ x ∧ x < 2 ^ 63 then some x else none := by
  cases h with
  | zero => rfl
  | @pos _ n h hd =>
    have hlow := spells_pow_le h hd
    have hlen : b.length ≠ 0 := fun he => h.nonempty (List.length_eq_zero_iff.mp he)
    by_cases h20 : 20 < b.length
    · have : 10 ^ 20 ≤ n := Nat.le_trans (Nat.pow_le_pow_right (by decide) (by omega)) hlow
      unfold parseInt
      rw [if_pos (Or.inr h20), if_neg (by omega)]
    · have hloop : parseInt b = (digitLoop (2 ^ 63 - 1) 0 b).map fun u => (u : Int) := by
        unfold parseInt
        rw [if_neg (by omega)]
        split
        next rest => exact absurd (h.digits 45 List.mem_cons_self).1 (by decide)
        next rest => exact absurd rfl hd
        next => rfl
      rw [hloop, spells_digitLoop h (by decide)]
      by_cases hn : n ≤ 2 ^ 63 - 1
      · rw [if_pos hn, if_pos (by omega)]; rfl
      · rw [if_neg hn, if_neg (by omega)]; rfl
  | @neg b n h hd =>
    have hlow := spells_pow_le h hd
    have hne := h.nonempty
    by_cases h20 : 20 < (45 :: b).length
    · rw [List.length_cons] at h20
      have : 10 ^ 19 ≤ n := Nat.le_trans (Nat.pow_le_pow_right (by decide) (by omega)) hlow
      rw [parseInt, if_pos (Or.inr (by rw [List.length_cons]; exact h20)), if_neg (by omega)]
    · have hlen : ¬ ((45 :: b).length = 0 ∨ 20 < (45 :: b).length) := by rw [List.length_cons] at h20 ⊢; omega
      rw [parseInt, if_neg hlen]
      rw [if_neg (not_or.mpr ⟨hne, hd⟩), spells_digitLoop h (by decide)]
      by_cases hn : n ≤ 2 ^ 63
      · rw [if_pos hn, if_pos (by omega)]; rfl
      · rw [if_neg hn, if_neg (by omega)]; rfl

/-- An offset token: plain, or scaled by the width of the type. -/
def offsetToken (scaled : Bool) (b : List UInt8) : List UInt8 := if scaled then 35 :: b else b

def position (scaled : Bool) (bits : Nat) (x : Int) : Int := if scaled then x * bits else x

/-- Past the last field of 512 MiB, yet the position wraps onto a field, or its last bit wraps below zero. -/
def Misread (scaled : Bool) (bits : Nat) (x : Int) : Prop :=
  0 ≤ x ∧ x < 2 ^ 63 ∧ 2 ^ 32 - bits < position scaled bits x ∧
    (position scaled bits x % 2 ^ 64 ≤ 2 ^ 32 - bits ∨
      (2 ^ 63 - bits < position scaled bits x % 2 ^ 64 ∧ position scaled bits x % 2 ^ 64 < 2 ^ 63))

theorem int64_eq (x : Int) : int64 x = if x % 2 ^ 64 < 2 ^ 63 then x % 2 ^ 64 else x % 2 ^ 64 - 2 ^ 64 := rfl

theorem parseFieldOffset_text (h : IntText b x) (scaled : Bool) : parseFieldOffset (offsetToken scaled b) bits =
    if 0 ≤ x ∧ x < 2 ^ 63 then
      if int64 (position scaled bits x) < 0 ∨ int64 (int64 (position scaled bits x) + bits - 1) > 2 ^ 32 - 1 then none
      else some (int64 (position scaled bits x))
    else none := by
  have hhead : b.head? ≠ some 35 := by
    cases h with
    | zero => decide
    | pos h _ =>
      intro he
      cases b with
      | nil => cases he
      | cons c b =>
        cases he
        exact absurd (h.digits 35 List.mem_cons_self).1 (by decide)
    | neg => simp
  have hraw : parseFieldOffset (offsetToken scaled b) bits = (parseInt b).bind (boundOffset scaled bits) := by
    cases scaled with
    | true => rfl
    | false => exact if_neg hhead
  rw [hraw, parseInt_text h]
  by_cases h64 : -2 ^ 63 ≤ x ∧ x < 2 ^ 63
  · rw [if_pos h64, Option.bind_some, boundOffset]
    by_cases hneg : x < 0
    · rw [if_pos hneg, if_neg (by omega)]
    · have hoff : (if scaled then int64 (x * bits) else x) = int64 (position scaled bits x) := by
        cases scaled with
        | true => rfl
        | false => exact (int64_of_range h64.1 h64.2).symm
      rw [hoff, if_neg hneg, if_pos (by omega : 0 ≤ x ∧ x < 2 ^ 63)]
  · rw [if_neg h64, if_neg (by omega), Option.bind_none]

/-- A token is read as its exact position, or refused when that is out of range, unless it is misread. -/
theorem parseFieldOffset_iff (h : IntText b x) (scaled : Bool) (h₁ : 1 ≤ bits) (hb : bits ≤ 64) :
    (parseFieldOffset (offsetToken scaled b) bits =
      if 0 ≤ position scaled bits x ∧ position scaled bits x + bits - 1 ≤ 2 ^ 32 - 1 then some (position scaled bits x) else none) ↔
      ¬ Misread scaled bits x := by
  have hsign : 0 ≤ x ↔ 0 ≤ position scaled bits x := by
    cases scaled with
    | true => exact (mul_nonneg_iff_of_pos_right (by omega : (0 : Int) < bits)).symm
    | false => exact Iff.rfl
  have hbig : 2 ^ 63 ≤ x → 2 ^ 63 ≤ position scaled bits x := by
    intro hx
    cases scaled with
    | true => exact le_trans hx (le_mul_of_one_le_right (by omega) (by omega))
    | false => exact hx
  rw [parseFieldOffset_text h, Misread]
  generalize position scaled bits x = p at *
  by_cases hx : 0 ≤ x ∧ x < 2 ^ 63
  · rw [if_pos hx]
    have hp := hsign.mp hx.1
    by_cases hin : p + bits - 1 ≤ 2 ^ 32 - 1
    · rw [int64_of_range (x := p) (by omega) (by omega), int64_of_range (x := p + bits - 1) (by omega) (by omega), if_neg (by omega),
        if_pos ⟨hp, hin⟩]
      exact iff_of_true rfl (by omega)
    · rw [if_neg (show ¬ (0 ≤ p ∧ p + bits - 1 ≤ 2 ^ 32 - 1) from fun hc => hin hc.2)]
      have hm := Int.emod_lt_of_pos p (show (0 : Int) < 2 ^ 64 by decide)
      have hm' := Int.emod_nonneg p (show (2 ^ 64 : Int) ≠ 0 by decide)
      have hr64 := int64_eq p
      generalize p % 2 ^ 64 = r at *
      by_cases hr : r < 2 ^ 63
      · rw [if_pos hr] at hr64
        rw [hr64]
        by_cases htop : r + bits - 1 < 2 ^ 63
        · rw [int64_of_range (x := r + bits - 1) (by omega) htop]
          by_cases hacc : r + bits - 1 > 2 ^ 32 - 1
          · rw [if_pos (Or.inr hacc)]
            exact iff_of_true rfl (by omega)
          · rw [if_neg (by omega)]
            exact iff_of_false (by simp) (by omega)
        · have hneg : int64 (r + bits - 1) = r + bits - 1 - 2 ^ 64 := by
            rw [int64_eq, Int.emod_eq_of_lt (by omega) (by omega), if_neg htop]
          rw [hneg, if_neg (by omega)]
          exact iff_of_false (by simp) (by omega)
      · rw [if_neg hr] at hr64
        rw [hr64, if_pos (Or.inl (by omega))]
        exact iff_of_true rfl (by omega)
  · rw [if_neg hx, if_neg (by omega)]
    exact iff_of_true rfl (fun hc => hx ⟨hc.1, hc.2.1⟩)

end Offsets

/-- What an operation adds its argument to: nothing for a SET. -/
def BfOp.cur (op : BfOp) (v : List UInt8) : Int := if op.kind = .set then 0 else readField v op.type op.off

def BfOp.exact (op : BfOp) (v : List UInt8) : Int := op.cur v + op.arg

/-- What a write operation does under each overflow mode. -/
structure Computes (op : BfOp) (s : Slot) (v : List UInt8) : Prop where
  wrap : op.owtype = .wrap → s.Takes op.off op.type.bits → op.type.InRange (readField (op.exec s v).2 op.type op.off) ∧
    readField (op.exec s v).2 op.type op.off ≡ op.exact v [ZMOD 2 ^ op.type.bits]
  sat : op.owtype = .sat → s.Takes op.off op.type.bits → readField (op.exec s v).2 op.type op.off = op.type.clamp (op.exact v)
  fail : op.owtype = .fail → ((op.exec s v).1 = none ↔ ¬ op.type.InRange (op.exact v)) ∧
    ((op.exec s v).1 = none → (op.exec s v).2 = v) ∧
    (op.type.InRange (op.exact v) → s.Takes op.off op.type.bits → readField (op.exec s v).2 op.type op.off = op.exact v)

theorem FieldType.zero_inRange (t : FieldType) : t.InRange 0 := by
  have h := (t.wrap_spec 0).1
  have hw : t.wrap 0 = 0 := by
    rw [FieldType.wrap]
    split
    · exact Int.zero_bmod
    · exact Int.zero_emod _
  rwa [hw] at h

theorem BfOp.cur_inRange (op : BfOp) (v : List UInt8) : op.type.InRange (op.cur v) := by
  rw [BfOp.cur]
  split
  · exact op.type.zero_inRange
  · exact readField_inRange _ _ _

theorem exec_write (op : BfOp) (s : Slot) (v : List UInt8) (hk : op.kind ≠ .get) : ∃ r : Int, op.exec s v =
    if op.owtype = .fail ∧ (applyOverflow op.type op.owtype (op.cur v) op.arg).2 = true then (none, v)
    else (some r, writeField s v op.type op.off (applyOverflow op.type op.owtype (op.cur v) op.arg).1) := by
  unfold BfOp.exec
  cases h : op.kind with
  | get => exact absurd h hk
  | set =>
    have hc : op.cur v = 0 := if_pos h
    exact ⟨readField v op.type op.off, by rw [hc]⟩
  | incrby =>
    have hc : op.cur v = readField v op.type op.off := if_neg (by simp [h])
    exact ⟨(applyOverflow op.type op.owtype (readField v op.type op.off) op.arg).1, by rw [hc]⟩

theorem exec_stores (op : BfOp) (s : Slot) (v : List UInt8) (hk : op.kind ≠ .get) (harg : FitsInt64 op.arg) : ∃ r : Int, op.exec s v =
    if op.owtype = .fail ∧ ¬ op.type.InRange (op.exact v) then (none, v)
    else (some r, writeField s v op.type op.off
      (if op.type.InRange (op.exact v) then op.exact v else op.type.overflowed op.owtype (op.exact v))) := by
  obtain ⟨r, hr⟩ := exec_write op s v hk
  refine ⟨r, ?_⟩
  rw [hr, applyOverflow_eq (op.cur_inRange v) harg, ← BfOp.exact]
  by_cases hin : op.type.InRange (op.exact v)
  · rw [if_pos hin, if_pos hin, if_neg (fun h => by cases h.2), if_neg (fun h => h.2 hin)]
  · rw [if_neg hin, if_neg hin]
    by_cases hf : op.owtype = .fail
    · rw [if_pos ⟨hf, rfl⟩, if_pos ⟨hf, hin⟩]
    · rw [if_neg (fun h => hf h.1), if_neg (fun h => hf h.1)]

theorem exec_computes (op : BfOp) (s : Slot) (v : List UInt8) (hk : op.kind ≠ .get) (harg : FitsInt64 op.arg) : Computes op s v := by
  obtain ⟨r, hexec⟩ := exec_stores op s v hk harg
  refine ⟨fun hw ht => ?_, fun hs ht => ?_, fun hf => ?_⟩
  · have hstored : op.type.InRange (if op.type.InRange (op.exact v) then op.exact v else op.type.wrap (op.exact v)) ∧
        (if op.type.InRange (op.exact v) then op.exact v else op.type.wrap (op.exact v)) ≡ op.exact v [ZMOD 2 ^ op.type.bits] := by
      split
      next hr => exact ⟨hr, rfl⟩
      next => exact op.type.wrap_spec _
    rw [hexec, if_neg (by simp [hw]), hw]
    dsimp only [FieldType.overflowed, Overflow.pick]
    rw [readField_writeField ht hstored.1]
    exact hstored
  · have hne : op.type.lo ≤ op.type.hi := Int.le_trans op.type.zero_inRange.1 op.type.zero_inRange.2
    have hclamp : (if op.type.InRange (op.exact v) then op.exact v else op.type.clamp (op.exact v)) = op.type.clamp (op.exact v) := by
      split
      next hr => exact (FieldType.clamp_of_inRange hr).symm
      next => rfl
    rw [hexec, if_neg (by simp [hs]), hs]
    dsimp only [FieldType.overflowed, Overflow.pick]
    rw [hclamp, readField_writeField ht (FieldType.clamp_inRange hne _)]
  · rw [hexec, hf]
    by_cases hr : op.type.InRange (op.exact v)
    · rw [if_neg (fun h => h.2 hr), if_pos hr]
      exact ⟨iff_of_false (by simp) (fun h => h hr), fun h => (by cases h), fun _ ht => readField_writeField ht hr⟩
    · rw [if_pos ⟨rfl, hr⟩]
      exact ⟨iff_of_true rfl hr, fun _ => rfl, fun h => absurd h hr⟩

/-- For every type: writes that go through follow the exact sum under each overflow mode; a field write that reports no error sets the
bits of the field and no other; and an offset token is read as its exact position, or refused when that is out of range, exactly when it
is not one that wraps. -/
theorem bitfield_arithmetic (t : FieldType) :
    (∀ (op : BfOp) (s : Slot) (v : List UInt8), op.type = t → op.kind ≠ .get → FitsInt64 op.arg → Computes op s v) ∧
      (∀ (s : Slot) (v : List UInt8) (p val : Nat), ((fieldSet s v p t.bits val).2 = none ↔ s.Takes p t.bits) ∧
        (s.Takes p t.bits → fieldGet (fieldSet s v p t.bits val).1 p t.bits = val % 2 ^ t.bits ∧
          ∀ j, j < p ∨ p + t.bits ≤ j → bit (fieldSet s v p t.bits val).1 j = bit v j)) ∧
      ∀ (scaled : Bool) (b : List UInt8) (x : Int), IntText b x →
        ((parseFieldOffset (offsetToken scaled b) t.bits =
          if 0 ≤ position scaled t.bits x ∧ position scaled t.bits x + t.bits - 1 ≤ 2 ^ 32 - 1 then some (position scaled t.bits x)
          else none) ↔ ¬ Misread scaled t.bits x) := by
  refine ⟨fun op s v _ hk harg => exec_computes op s v hk harg, fun s v p val => ⟨fieldSet_ok t.pos t.bits_le val, fun hs => ?_⟩,
    fun scaled b x h => parseFieldOffset_iff h scaled t.pos t.bits_le⟩
  refine ⟨fieldGet_fieldSet t.pos t.bits_le hs val, fun j hj => ?_⟩
  rw [bit_fieldSet t.pos t.bits_le hs, if_neg (by omega)]

/-- `#288230376151711744` for a 64-bit type is 2^64, read as 0; `9223372036854775807` is accepted for an 8-bit one; and a SET under the
empty key replies and stores nothing. -/
theorem wrapped_offsets_accepted :
    parseFieldOffset (35 :: [50, 56, 56, 50, 51, 48, 51, 55, 54, 49, 53, 49, 55, 49, 49, 55, 52, 52]) 64 = some 0 ∧
      parseFieldOffset [57, 50, 50, 51, 51, 55, 50, 48, 51, 54, 56, 53, 52, 55, 55, 53, 56, 48, 55] 8 = some (2 ^ 63 - 1) ∧
      BfOp.exec ⟨.set, ⟨false, 8, by decide, by decide⟩, 0, 255, .wrap⟩ ⟨[], none⟩ [] = (some 0, []) := by
  decide +kernel

end Aki.BitField
