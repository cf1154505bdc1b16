import Mathlib.Tactic.Ring

namespace Aki.Uvarint

/-- Seven bits a byte, lowest first; every byte but the last has its high bit set. -/
def putLoop : Nat → Nat → List UInt8
  | 0, x => [UInt8.ofNat x]
  | fuel + 1, x => if 128 ≤ x then UInt8.ofNat (x % 128 + 128) :: putLoop fuel (x / 128) else [UInt8.ofNat x]

def putUvarint (x : Nat) : List UInt8 := putLoop x x

def lenLoop : Nat → Nat → Nat → Nat
  | 0, _, n => n
  | fuel + 1, x, n => if 128 ≤ x then lenLoop fuel (x / 128) (n + 1) else n

def uvarintLen (x : Nat) : Nat := lenLoop x x 1

/-- The 64-bit decoder: the value and the bytes it took, which are zero when the buffer ends inside the number and negative when
the number is too wide. -/
def uvarintLoop : List UInt8 → Nat → Nat → Nat → Nat × Int
  | [], _, _, _ => (0, 0)
  | b :: buf, x, s, i =>
    if i = 10 then (0, -(i + 1))
    else if b.toNat < 128 then
      if i = 9 ∧ 1 < b.toNat then (0, -(i + 1)) else (x + b.toNat * 2 ^ s, i + 1)
    else uvarintLoop buf (x + b.toNat % 128 * 2 ^ s) (s + 7) (i + 1)

def uvarint (buf : List UInt8) : Nat × Int := uvarintLoop buf 0 0 0

theorem toNat_ofNat {n : Nat} (h : n < 256) : (UInt8.ofNat n).toNat = n := by
  rw [UInt8.toNat_ofNat']
  exact Nat.mod_eq_of_lt h

theorem putLoop_length (n : Nat) : ∀ (fuel x : Nat), x ≤ fuel → (putLoop fuel x).length + n = lenLoop fuel x (n + 1) := by
  intro fuel
  induction fuel generalizing n with
  | zero => exact fun x _ => Nat.add_comm 1 n
  | succ fuel ih =>
    intro x hx
    rw [putLoop, lenLoop]
    by_cases h : 128 ≤ x
    · rw [if_pos h, if_pos h, List.length_cons]
      have := ih (n + 1) (x / 128) (by omega)
      omega
    · rw [if_neg h, if_neg h]
      exact Nat.add_comm 1 n

theorem putUvarint_length (x : Nat) : (putUvarint x).length = uvarintLen x := putLoop_length 0 x x (Nat.le_refl x)

theorem uvarintLoop_put (rest : List UInt8) : ∀ (fuel y x s i : Nat), y ≤ fuel → i ≤ 9 → s = 7 * i → y < 2 ^ (64 - s) →
    uvarintLoop (putLoop fuel y ++ rest) x s i = (x + y * 2 ^ s, ((i + (putLoop fuel y).length : Nat) : Int)) := by
  intro fuel
  induction fuel with
  | zero =>
    intro y x s i hy hi hs hlt
    obtain rfl := Nat.le_zero.mp hy
    show uvarintLoop (UInt8.ofNat 0 :: rest) x s i = _
    rw [uvarintLoop, if_neg (by omega), if_pos (by decide), if_neg (fun h => absurd h.2 (by decide))]
    rfl
  | succ fuel ih =>
    intro y x s i hy hi hs hlt
    rw [putLoop]
    by_cases h : 128 ≤ y
    · have hi9 : i < 9 := by
        by_contra hge
        have : s = 63 := by omega
        rw [this] at hlt
        omega
      have hbyte : (UInt8.ofNat (y % 128 + 128)).toNat = y % 128 + 128 := toNat_ofNat (by omega)
      have hpow : 2 ^ (64 - s) = 128 * 2 ^ (64 - (s + 7)) := by
        rw [show 64 - s = 7 + (64 - (s + 7)) by omega, Nat.pow_add]
      rw [if_pos h, List.cons_append, uvarintLoop, if_neg (by omega), hbyte, if_neg (by omega),
        ih (y / 128) _ (s + 7) (i + 1) (by omega) (by omega) (by omega) (by omega)]
      refine Prod.ext ?_ ?_
      · show x + (y % 128 + 128) % 128 * 2 ^ s + y / 128 * 2 ^ (s + 7) = x + y * 2 ^ s
        have hmod : (y % 128 + 128) % 128 = y % 128 := by omega
        have hdiv : y = 128 * (y / 128) + y % 128 := (Nat.div_add_mod y 128).symm
        rw [hmod, Nat.pow_add, Nat.add_assoc]
        congr 1
        conv_rhs => rw [hdiv]
        ring
      · rw [List.length_cons]
        show ((i + 1 + (putLoop fuel (y / 128)).length : Nat) : Int) = _
        congr 1
        omega
    · rw [if_neg h, List.cons_append, List.nil_append, uvarintLoop, toNat_ofNat (by omega), if_neg (by omega), if_pos (by omega),
        if_neg]
      · rfl
      · rintro ⟨rfl, hgt⟩
        rw [hs] at hlt
        omega

theorem uvarint_put {x : Nat} (hx : x < 2 ^ 64) (rest : List UInt8) :
    uvarint (putUvarint x ++ rest) = (x, ((putUvarint x).length : Int)) := by
  have := uvarintLoop_put rest x x 0 0 0 (Nat.le_refl x) (by omega) rfl hx
  rw [uvarint, putUvarint, this]
  simp

theorem putLoop_length_le (k : Nat) : ∀ (fuel x : Nat), x < 2 ^ (7 * (k + 1)) → (putLoop fuel x).length ≤ k + 1 := by
  induction k with
  | zero =>
    intro fuel x hx
    cases fuel with
    | zero => simp [putLoop]
    | succ fuel =>
      have hlt : x < 128 := hx
      rw [putLoop, if_neg (by omega)]
      simp
  | succ k ih =>
    intro fuel x hx
    cases fuel with
    | zero => simp [putLoop]
    | succ fuel =>
      rw [putLoop]
      split
      · have hdiv : x / 128 < 2 ^ (7 * (k + 1)) := by
          rw [Nat.div_lt_iff_lt_mul (by decide)]
          have he : 2 ^ (7 * (k + 1 + 1)) = 2 ^ (7 * (k + 1)) * 128 := by ring
          omega
        have := ih fuel (x / 128) hdiv
        rw [List.length_cons]
        omega
      · simp

theorem putUvarint_length_pos (x : Nat) : 0 < (putUvarint x).length := by
  rw [putUvarint]
  cases x with
  | zero => simp [putLoop]
  | succ x =>
    rw [putLoop]
    split <;> simp

theorem putUvarint_length_le {x : Nat} (h : x < 2 ^ 64) : (putUvarint x).length ≤ 10 :=
  putLoop_length_le 9 x x (Nat.lt_of_lt_of_le h (Nat.pow_le_pow_right (by decide) (by decide)))

end Aki.Uvarint
