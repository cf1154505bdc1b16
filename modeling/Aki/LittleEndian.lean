import Mathlib.Data.List.Basic
import Mathlib.Tactic.Ring

namespace LittleEndian

/-- The low `n` bytes of a number, lowest first. -/
def bytes (n v : Nat) : List UInt8 := (List.range n).map fun i => UInt8.ofNat (v / 256 ^ i)

def toNat (b : List UInt8) : Nat := b.foldr (fun x acc => x.toNat + 256 * acc) 0

@[simp] theorem bytes_length (n v : Nat) : (bytes n v).length = n := by simp [bytes]

theorem bytes_succ (n v : Nat) : bytes (n + 1) v = UInt8.ofNat v :: bytes n (v / 256) := by
  simp only [bytes, List.range_succ_eq_map, List.map_cons, List.map_map, Nat.pow_zero, Nat.div_one]
  congr 1
  refine List.map_congr_left fun i _ => ?_
  simp only [Function.comp_apply, Nat.pow_succ]
  rw [Nat.mul_comm, Nat.div_div_eq_div_mul]

theorem toNat_cons (x : UInt8) (b : List UInt8) : toNat (x :: b) = x.toNat + 256 * toNat b := rfl

theorem toNat_bytes (n v : Nat) : toNat (bytes n v) = v % 256 ^ n := by
  induction n generalizing v with
  | zero => simp [toNat, bytes, Nat.mod_one]
  | succ n ih =>
    rw [bytes_succ, toNat_cons, ih, Nat.pow_succ, Nat.mul_comm (256 ^ n), Nat.mod_mul]
    simp

theorem bytes_toNat (b : List UInt8) : bytes b.length (toNat b) = b := by
  induction b with
  | nil => rfl
  | cons x b ih =>
    have hx : x.toNat < 256 := x.toNat_lt
    rw [List.length_cons, bytes_succ, toNat_cons]
    have hdiv : (x.toNat + 256 * toNat b) / 256 = toNat b := by omega
    have hmod : UInt8.ofNat (x.toNat + 256 * toNat b) = x := by
      refine UInt8.toNat_inj.mp ?_
      rw [UInt8.toNat_ofNat']
      omega
    rw [hdiv, hmod, ih]

theorem toNat_lt (b : List UInt8) : toNat b < 256 ^ b.length := by
  have h := toNat_bytes b.length (toNat b)
  rw [bytes_toNat] at h
  rw [h]
  exact Nat.mod_lt _ (Nat.pow_pos (by decide))

/-- The fields of a record, each with its width, one after another. -/
def layout : List (Nat × Nat) → List UInt8
  | [] => []
  | (n, v) :: fs => bytes n v ++ layout fs

def width (fs : List (Nat × Nat)) : Nat := (fs.map Prod.fst).sum

@[simp] theorem layout_length (fs : List (Nat × Nat)) : (layout fs).length = width fs := by
  induction fs with
  | nil => rfl
  | cons f fs ih => simp [layout, width, ih]

theorem layout_append (fs gs : List (Nat × Nat)) : layout (fs ++ gs) = layout fs ++ layout gs := by
  induction fs with
  | nil => rfl
  | cons f fs ih => simp [layout, ih]

/-- The number in the `n` bytes at `off`. -/
def word (b : List UInt8) (off n : Nat) : Nat := toNat ((b.drop off).take n)

theorem word_skip (pre b : List UInt8) (off n : Nat) : word (pre ++ b) (pre.length + off) n = word b off n := by
  rw [word, List.drop_append, List.drop_eq_nil_of_le (by omega), List.nil_append, Nat.add_sub_cancel_left, word]

theorem word_lt (b : List UInt8) (off n : Nat) : word b off n < 256 ^ n :=
  Nat.lt_of_lt_of_le (toNat_lt _) (Nat.pow_le_pow_right (by decide) (List.length_take_le n _))

theorem word_bytes (n v : Nat) (rest : List UInt8) : word (bytes n v ++ rest) 0 n = v % 256 ^ n := by
  rw [word, List.drop_zero, List.take_left' (bytes_length n v), toNat_bytes]

theorem ofNat_word4 (x : UInt32) : UInt32.ofNat (x.toNat % 256 ^ 4) = x := by
  rw [Nat.mod_eq_of_lt (show x.toNat < 256 ^ 4 from x.toNat_lt), UInt32.ofNat_toNat]

theorem ofNat_word8 (x : UInt64) : UInt64.ofNat (x.toNat % 256 ^ 8) = x := by
  rw [Nat.mod_eq_of_lt (show x.toNat < 256 ^ 8 from x.toNat_lt), UInt64.ofNat_toNat]

theorem word_congr {b d : List UInt8} {off n : Nat} (h : ∀ j, off ≤ j → j < off + n → b[j]? = d[j]?) : word b off n = word d off n := by
  have heq : (b.drop off).take n = (d.drop off).take n := by
    refine List.ext_getElem? fun j => ?_
    rw [List.getElem?_take, List.getElem?_take]
    split
    · rw [List.getElem?_drop, List.getElem?_drop]
      exact h (off + j) (by omega) (by omega)
    · rfl
  rw [word, word, heq]

theorem word_layout (fs : List (Nat × Nat)) (n v : Nat) (gs : List (Nat × Nat)) (rest : List UInt8) :
    word (layout (fs ++ (n, v) :: gs) ++ rest) (width fs) n = v % 256 ^ n := by
  have h := word_skip (layout fs) (layout ((n, v) :: gs) ++ rest) 0 n
  rw [layout_length, Nat.add_zero, ← List.append_assoc, ← layout_append] at h
  rw [h, word, List.drop_zero, layout, List.append_assoc, List.take_left' (bytes_length n v), toNat_bytes]

end LittleEndian
