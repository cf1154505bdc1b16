import Mathlib.Data.Nat.Bitwise

namespace MsbBits

-- Bits of a byte string, the most significant bit of each byte first. Past the end every bit is zero.

def bit (v : List UInt8) (i : Nat) : Bool := (v.getD (i / 8) 0).toNat.testBit (7 - i % 8)

def mask (i : Nat) : UInt8 := UInt8.ofNat (2 ^ (7 - i % 8))

def setBit (v : List UInt8) (i : Nat) (b : Bool) : List UInt8 :=
  v.modify (i / 8) fun x => if b then x ||| mask i else x &&& ~~~ mask i

/-- The number whose binary digits are `f 0`, `f 1`, … from the most significant one. -/
def number (f : Nat → Bool) (w : Nat) : Nat := (List.range w).foldl (fun acc i => 2 * acc + (f i).toNat) 0

/-- The bits from `i` on set to `f 0`, `f 1`, … -/
def splice (v : List UInt8) (i w : Nat) (f : Nat → Bool) : List UInt8 := (List.range w).foldl (fun v k => setBit v (i + k) (f k)) v

variable {v : List UInt8} {i j w : Nat} {b : Bool} {f : Nat → Bool}

@[simp] theorem setBit_length (v : List UInt8) (i : Nat) (b : Bool) : (setBit v i b).length = v.length := by simp [setBit]

theorem mask_toNat (i : Nat) : (mask i).toNat = 2 ^ (7 - i % 8) := by
  rw [mask, UInt8.toNat_ofNat']
  exact Nat.mod_eq_of_lt (Nat.pow_lt_pow_right (by decide) (by omega))

theorem testBit_masked (x : UInt8) (i k : Nat) (hk : k < 8) (b : Bool) :
    (if b then x ||| mask i else x &&& ~~~ mask i).toNat.testBit k = if k = 7 - i % 8 then b else x.toNat.testBit k := by
  have hnot : (~~~ mask i).toNat = 2 ^ 8 - (2 ^ (7 - i % 8) + 1) := by
    rw [UInt8.toNat_not, mask_toNat, Nat.sub_sub, Nat.add_comm 1]
    rfl
  have hlt : 2 ^ (7 - i % 8) < 2 ^ 8 := Nat.pow_lt_pow_right (by decide) (by omega)
  cases b with
  | true =>
    rw [if_pos rfl, UInt8.toNat_or, Nat.testBit_or, mask_toNat, Nat.testBit_two_pow]
    by_cases h : k = 7 - i % 8
    · simp [h]
    · simp [h, Ne.symm h]
  | false =>
    rw [if_neg (by simp), UInt8.toNat_and, Nat.testBit_and, hnot, Nat.testBit_two_pow_sub_succ hlt, Nat.testBit_two_pow]
    by_cases h : k = 7 - i % 8
    · simp [h]
    · simp [h, Ne.symm h, hk]

theorem bit_setBit (h : i / 8 < v.length) (b : Bool) (j : Nat) : bit (setBit v i b) j = if j = i then b else bit v j := by
  rw [bit, setBit, List.getD_eq_getElem?_getD, List.getElem?_modify]
  by_cases hj : i / 8 = j / 8
  · have hlt : j / 8 < v.length := hj ▸ h
    simp only [if_pos hj]
    rw [List.getElem?_eq_getElem hlt, Option.map_eq_map, Option.map_some, Option.getD_some,
      testBit_masked _ _ _ (by omega) b, bit, List.getD_eq_getElem?_getD, List.getElem?_eq_getElem hlt, Option.getD_some]
    by_cases he : j = i
    · rw [if_pos he, if_pos (by rw [he])]
    · rw [if_neg he, if_neg (by omega)]
  · simp only [if_neg hj]
    rw [if_neg (by rintro rfl; exact hj rfl), bit, List.getD_eq_getElem?_getD, Option.map_eq_map, Option.map_id']

@[simp] theorem splice_length (v : List UInt8) (i w : Nat) (f : Nat → Bool) : (splice v i w f).length = v.length := by
  induction w with
  | zero => rfl
  | succ w ih =>
    rw [splice, List.range_succ, List.foldl_append, List.foldl_cons, List.foldl_nil, setBit_length]
    exact ih

theorem bit_splice (h : i + w ≤ 8 * v.length) (f : Nat → Bool) (j : Nat) :
    bit (splice v i w f) j = if i ≤ j ∧ j < i + w then f (j - i) else bit v j := by
  induction w with
  | zero => rw [if_neg (by omega)]; rfl
  | succ w ih =>
    have hs : splice v i (w + 1) f = setBit (splice v i w f) (i + w) (f w) := by
      rw [splice, List.range_succ, List.foldl_append, List.foldl_cons, List.foldl_nil, splice]
    rw [hs, bit_setBit (by rw [splice_length]; omega), ih (by omega)]
    by_cases hj : j = i + w
    · rw [if_pos hj, if_pos (by omega), hj, Nat.add_sub_cancel_left]
    · rw [if_neg hj]
      by_cases hin : i ≤ j ∧ j < i + w
      · rw [if_pos hin, if_pos (by omega)]
      · rw [if_neg hin, if_neg (by omega)]

theorem number_succ (f : Nat → Bool) (w : Nat) : number f (w + 1) = 2 * number f w + (f w).toNat := by
  rw [number, List.range_succ, List.foldl_append, List.foldl_cons, List.foldl_nil, number]

theorem testBit_number (f : Nat → Bool) (w k : Nat) : (number f w).testBit k = (decide (k < w) && f (w - 1 - k)) := by
  induction w generalizing k with
  | zero => simp [number]
  | succ w ih =>
    rw [number_succ]
    have hb := Bool.toNat_lt (f w)
    cases k with
    | zero =>
      rw [Nat.testBit_zero, Nat.mul_add_mod, Nat.zero_lt_succ w |> decide_eq_true, Bool.true_and, Nat.add_sub_cancel, Nat.sub_zero]
      cases f w <;> rfl
    | succ k =>
      rw [Nat.testBit_succ, show (2 * number f w + (f w).toNat) / 2 = number f w by omega, ih]
      rw [show w + 1 - 1 - (k + 1) = w - 1 - k by omega]
      simp

theorem number_lt (f : Nat → Bool) (w : Nat) : number f w < 2 ^ w := by
  induction w with
  | zero => exact Nat.one_pos
  | succ w ih =>
    have hb := Bool.toNat_lt (f w)
    rw [number_succ, Nat.pow_succ]
    omega

theorem number_testBit (n w : Nat) : number (fun i => n.testBit (w - 1 - i)) w = n % 2 ^ w := by
  refine Nat.eq_of_testBit_eq fun k => ?_
  rw [testBit_number, Nat.testBit_mod_two_pow]
  by_cases hk : k < w
  · rw [show w - 1 - (w - 1 - k) = k by omega]
  · simp [hk]

theorem number_congr {g : Nat → Bool} (h : ∀ i < w, f i = g i) : number f w = number g w := by
  refine Nat.eq_of_testBit_eq fun k => ?_
  rw [testBit_number, testBit_number]
  by_cases hk : k < w
  · rw [h _ (by omega)]
  · simp [hk]

end MsbBits
