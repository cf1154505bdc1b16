import Mathlib.Algebra.Order.Group.Nat
import Mathlib.Data.List.Lex

namespace BigEndian

/-- The `w` bytes of a number, most significant first. -/
def bytes : Nat → Nat → List Nat
  | 0, _ => []
  | w + 1, x => x / 256 ^ w % 256 :: bytes w (x % 256 ^ w)

variable {w x y : Nat}

/-- Byte-wise comparison of equally wide encodings is comparison of the numbers. -/
theorem bytes_lt_iff (hx : x < 256 ^ w) (hy : y < 256 ^ w) : bytes w x < bytes w y ↔ x < y := by
  induction w generalizing x y with
  | zero =>
    simp only [Nat.pow_zero, Nat.lt_one_iff] at hx hy
    simp [bytes, hx, hy]
  | succ w ih =>
    have hpos : 0 < 256 ^ w := Nat.pow_pos (by decide)
    rw [Nat.pow_succ, Nat.mul_comm] at hx hy
    have hxd : x / 256 ^ w < 256 := Nat.div_lt_of_lt_mul (by rwa [Nat.mul_comm] at hx)
    have hyd : y / 256 ^ w < 256 := Nat.div_lt_of_lt_mul (by rwa [Nat.mul_comm] at hy)
    rw [bytes, bytes, List.cons_lt_cons_iff, ih (Nat.mod_lt x hpos) (Nat.mod_lt y hpos), Nat.mod_eq_of_lt hxd,
      Nat.mod_eq_of_lt hyd]
    have hxe := Nat.div_add_mod x (256 ^ w)
    have hye := Nat.div_add_mod y (256 ^ w)
    have hxm := Nat.mod_lt x hpos
    have hym := Nat.mod_lt y hpos
    generalize x / 256 ^ w = a at hxe
    generalize y / 256 ^ w = b at hye
    generalize x % 256 ^ w = c at hxe hxm
    generalize y % 256 ^ w = d at hye hym
    constructor
    · rintro (hlt | ⟨rfl, hlt⟩)
      · have hmul := Nat.mul_le_mul_left (256 ^ w) (Nat.succ_le_of_lt hlt)
        rw [Nat.mul_succ] at hmul
        omega
      · omega
    · intro hlt
      rcases Nat.lt_trichotomy a b with h | h | h
      · exact .inl h
      · subst h
        exact .inr ⟨rfl, by omega⟩
      · have hmul := Nat.mul_le_mul_left (256 ^ w) (Nat.succ_le_of_lt h)
        rw [Nat.mul_succ] at hmul
        omega

end BigEndian
