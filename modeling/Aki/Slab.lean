import Mathlib.Algebra.BigOperators.Group.List.Basic
import Mathlib.Data.List.TakeDrop
import Mathlib.Order.Interval.Finset.Nat

-- Regions of a growing list.

namespace Slab

variable {α : Type*} {s t v : List α} {off len off' len' : Nat}

def slice (s : List α) (off len : Nat) : List α := (s.drop off).take len

/-- `v` copied over `s` from `off` on; it must fit. -/
def writeAt (s : List α) (off : Nat) (v : List α) : List α := s.take off ++ v ++ s.drop (off + v.length)

/-- The regions have no position in common. -/
def Apart (off len off' len' : Nat) : Prop := off + len ≤ off' ∨ off' + len' ≤ off

theorem slice_length (h : off + len ≤ s.length) : (slice s off len).length = len := by
  rw [slice, List.length_take, List.length_drop]
  omega

theorem slice_append_left (h : off + len ≤ s.length) : slice (s ++ t) off len = slice s off len := by
  rw [slice, slice, List.drop_append_of_le_length (by omega), List.take_append_of_le_length (by rw [List.length_drop]; omega)]

theorem slice_append_right : slice (s ++ t) s.length t.length = t := by
  rw [slice, List.drop_left, List.take_length]

theorem slice_append_mid {u : List α} : slice (s ++ t ++ u) s.length t.length = t := by
  rw [slice_append_left (Nat.le_of_eq (List.length_append ..).symm), slice_append_right]

theorem writeAt_length (h : off + v.length ≤ s.length) : (writeAt s off v).length = s.length := by
  rw [writeAt, List.length_append, List.length_append, List.length_take, List.length_drop]
  omega

theorem slice_writeAt_self (h : off + v.length ≤ s.length) : slice (writeAt s off v) off v.length = v := by
  have htake : (s.take off).length = off := List.length_take_of_le (by omega)
  have hmid := slice_append_mid (s := s.take off) (t := v) (u := s.drop (off + v.length))
  rwa [htake] at hmid

theorem slice_writeAt_apart (h : off + v.length ≤ s.length) (hapart : Apart off v.length off' len') :
    slice (writeAt s off v) off' len' = slice s off' len' := by
  have htake : (s.take off).length = off := List.length_take_of_le (by omega)
  rcases hapart with hright | hleft
  · have hlen : (s.take off ++ v).length = off + v.length := by rw [List.length_append, htake]
    rw [slice, slice, writeAt, List.drop_append, hlen, List.drop_eq_nil_of_le (by omega), List.nil_append, List.drop_drop]
    congr 2
    omega
  · rw [writeAt, List.append_assoc, slice_append_left (by omega)]
    conv_rhs => rw [← List.take_append_drop off s, slice_append_left (by omega)]

theorem Apart.symm (h : Apart off len off' len') : Apart off' len' off len := Or.symm h

theorem Apart.shrink {n n' : Nat} (h : Apart off len off' len') (hn : n ≤ len) (hn' : n' ≤ len') : Apart off n off' n' := by
  unfold Apart at *
  omega

end Slab
