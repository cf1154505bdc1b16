import Mathlib.Tactic.Common

namespace ByteDevice

/-- A device as its bytes and its size. Bytes a write skipped read as zero. -/
structure Dev where
  bytes : Nat → UInt8
  size : Nat

def Dev.read (d : Dev) (off n : Nat) : List UInt8 := (List.range n).map fun i => d.bytes (off + i)

/-- A read that runs past the end fails. -/
def Dev.readAt (d : Dev) (off n : Nat) : Option (List UInt8) := if off + n ≤ d.size then some (d.read off n) else none

structure Write where
  off : Nat
  data : List UInt8
  deriving DecidableEq, Repr

def Dev.write (d : Dev) (w : Write) : Dev :=
  if w.data = [] then d
  else ⟨fun i => if w.off ≤ i then (w.data[i - w.off]?).getD (d.bytes i) else d.bytes i, max d.size (w.off + w.data.length)⟩

def Dev.writes (d : Dev) (ws : List Write) : Dev := ws.foldl Dev.write d

variable {d d' : Dev} {w : Write} {ws : List Write}

@[simp] theorem read_length (d : Dev) (off n : Nat) : (d.read off n).length = n := by simp [Dev.read]

theorem read_congr {off n : Nat} (h : ∀ i, off ≤ i → i < off + n → d.bytes i = d'.bytes i) : d.read off n = d'.read off n := by
  refine List.map_congr_left fun i hi => h _ (Nat.le_add_right _ _) ?_
  have := List.mem_range.mp hi
  omega

theorem write_size (d : Dev) (w : Write) : (d.write w).size = if w.data = [] then d.size else max d.size (w.off + w.data.length) := by
  unfold Dev.write
  split <;> rfl

theorem size_le_write (d : Dev) (w : Write) : d.size ≤ (d.write w).size := by
  rw [write_size]
  split
  · exact Nat.le_refl _
  · exact Nat.le_max_left _ _

theorem write_bytes (d : Dev) (w : Write) (i : Nat) :
    (d.write w).bytes i = if w.off ≤ i then (w.data[i - w.off]?).getD (d.bytes i) else d.bytes i := by
  unfold Dev.write
  split
  next h => simp [h]
  next => rfl

theorem write_bytes_outside {i : Nat} (h : i < w.off ∨ w.off + w.data.length ≤ i) : (d.write w).bytes i = d.bytes i := by
  rw [write_bytes]
  split
  next hle =>
    rw [List.getElem?_eq_none (by omega)]
    rfl
  next => rfl

theorem read_write_self (d : Dev) (w : Write) : (d.write w).read w.off w.data.length = w.data := by
  refine List.ext_getElem (by simp) fun i h₁ h₂ => ?_
  simp [Dev.read, write_bytes, List.getElem?_eq_getElem h₂]

theorem size_le_writes (d : Dev) (ws : List Write) : d.size ≤ (d.writes ws).size := by
  induction ws generalizing d with
  | nil => exact Nat.le_refl _
  | cons w ws ih => exact Nat.le_trans (size_le_write d w) (ih (d.write w))

theorem writes_append (d : Dev) (ws ws' : List Write) : d.writes (ws ++ ws') = (d.writes ws).writes ws' := List.foldl_append

theorem writes_bytes_below {lo i : Nat} (h : ∀ w ∈ ws, lo ≤ w.off) (hi : i < lo) (d : Dev) : (d.writes ws).bytes i = d.bytes i := by
  induction ws generalizing d with
  | nil => rfl
  | cons w ws ih =>
    have hw := h w (by simp)
    exact (ih (fun v hv => h v (by simp [hv])) _).trans (write_bytes_outside (Or.inl (by omega)))

theorem writes_bytes_above {hi i : Nat} (h : ∀ w ∈ ws, w.off + w.data.length ≤ hi) (hle : hi ≤ i) (d : Dev) :
    (d.writes ws).bytes i = d.bytes i := by
  induction ws generalizing d with
  | nil => rfl
  | cons w ws ih =>
    have hw := h w (by simp)
    exact (ih (fun v hv => h v (by simp [hv])) _).trans (write_bytes_outside (Or.inr (by omega)))

theorem writes_size_le {hi : Nat} (h : ∀ w ∈ ws, w.off + w.data.length ≤ hi) (d : Dev) : (d.writes ws).size = d.size ∨ (d.writes ws).size ≤ hi := by
  induction ws generalizing d with
  | nil => exact Or.inl rfl
  | cons w ws ih =>
    have hw := h w (by simp)
    rcases ih (fun v hv => h v (by simp [hv])) (d.write w) with he | hle
    · change (d.writes (w :: ws)).size = (d.write w).size at he
      rw [write_size] at he
      split at he
      · exact Or.inl he
      · rcases Nat.le_total d.size (w.off + w.data.length) with h' | h'
        · exact Or.inr (by omega)
        · exact Or.inl (by omega)
    · exact Or.inr hle

end ByteDevice
