import Mathlib.Data.List.Induction
import Mathlib.Data.Nat.Digits.Defs

namespace Decimal

/-- The bytes are decimal digits, at least one of them, and their number is `n`. -/
structure Spells (b : List UInt8) (n : Nat) : Prop where
  nonempty : b ≠ []
  digits : ∀ c ∈ b, 48 ≤ c ∧ c ≤ 57
  value : Nat.ofDigits 10 (b.reverse.map fun c => c.toNat - 48) = n

variable {b : List UInt8} {n m : Nat} {d : UInt8}

theorem Spells.unique (h : Spells b n) (h' : Spells b m) : n = m := h.value.symm.trans h'.value

theorem Spells.ne_of_not_digit (h : Spells b n) (hd : ¬(48 ≤ d ∧ d ≤ 57)) : ∀ c ∈ b, c ≠ d := fun _ hc heq => hd (heq ▸ h.digits _ hc)

theorem ofDigits_concat (b : List UInt8) (d : UInt8) : Nat.ofDigits 10 ((b ++ [d]).reverse.map fun c => c.toNat - 48) =
    Nat.ofDigits 10 (b.reverse.map fun c => c.toNat - 48) * 10 + (d.toNat - 48) := by
  rw [List.reverse_append, List.reverse_singleton, List.singleton_append, List.map_cons, Nat.ofDigits_cons]
  omega

/-- Read from the left, each digit shifts the value by one place. -/
theorem ofDigits_eq_foldl (b : List UInt8) :
    Nat.ofDigits 10 (b.reverse.map fun c => c.toNat - 48) = b.foldl (fun v c => v * 10 + (c.toNat - 48)) 0 := by
  induction b using List.reverseRecOn with
  | nil => rfl
  | append_singleton b d ih => rw [ofDigits_concat, ih, List.foldl_append, List.foldl_cons, List.foldl_nil]

theorem foldl_mod_eq (w : Nat) (b : List UInt8) : b.foldl (fun v c => (v * 10 + (c.toNat - 48)) % w) 0 % w =
    b.foldl (fun v c => v * 10 + (c.toNat - 48)) 0 % w := by
  induction b using List.reverseRecOn with
  | nil => rfl
  | append_singleton b d ih =>
    rw [List.foldl_append, List.foldl_append, List.foldl_cons, List.foldl_cons, List.foldl_nil, List.foldl_nil, Nat.mod_mod,
      Nat.add_mod, Nat.mul_mod, ih, ← Nat.mul_mod, ← Nat.add_mod]

theorem digit_toNat (k : Nat) : (UInt8.ofNat (48 + k % 10)).toNat = 48 + k % 10 := by
  rw [UInt8.toNat_ofNat']
  exact Nat.mod_eq_of_lt (by omega)

theorem digit_bounds (k : Nat) : 48 ≤ UInt8.ofNat (48 + k % 10) ∧ UInt8.ofNat (48 + k % 10) ≤ 57 := by
  rw [UInt8.le_iff_toNat_le, UInt8.le_iff_toNat_le, digit_toNat]
  exact ⟨Nat.le_add_right _ _, by have : (57 : UInt8).toNat = 57 := rfl; omega⟩

theorem spells_digit (h : n < 10) : Spells [UInt8.ofNat (48 + n % 10)] n := by
  refine ⟨List.cons_ne_nil _ _, fun c hc => List.mem_singleton.mp hc ▸ digit_bounds n, ?_⟩
  rw [ofDigits_eq_foldl, List.foldl_cons, List.foldl_nil, digit_toNat]
  omega

theorem Spells.concat (h : Spells b (n / 10)) : Spells (b ++ [UInt8.ofNat (48 + n % 10)]) n := by
  refine ⟨by simp, fun c hc => ?_, ?_⟩
  · rcases List.mem_append.mp hc with hc | hc
    · exact h.digits c hc
    · exact List.mem_singleton.mp hc ▸ digit_bounds n
  · rw [ofDigits_concat, h.value, digit_toNat]
    omega

end Decimal
