import Mathlib.Data.Prod.Lex
import Aki.BigEndian

namespace Aki

structure StreamId where
  ms : Nat
  seq : Nat
  msLt : ms < 2 ^ 64
  seqLt : seq < 2 ^ 64
deriving DecidableEq

namespace StreamId

@[ext] theorem ext {a b : StreamId} (hms : a.ms = b.ms) (hseq : a.seq = b.seq) : a = b := by
  cases a
  cases b
  simp only at hms hseq
  subst hms hseq
  rfl

def key (id : StreamId) : Nat ×ₗ Nat := toLex (id.ms, id.seq)

theorem key_injective : Function.Injective key := by
  intro a b h
  have hpair : (a.ms, a.seq) = (b.ms, b.seq) := toLex.injective h
  exact StreamId.ext (congrArg Prod.fst hpair) (congrArg Prod.snd hpair)

instance : LinearOrder StreamId := LinearOrder.lift' key key_injective

def cmp (a b : StreamId) : Ordering :=
  if a.ms ≠ b.ms then if a.ms < b.ms then .lt else .gt
  else if a.seq ≠ b.seq then if a.seq < b.seq then .lt else .gt
  else .eq

theorem lt_iff {a b : StreamId} : a < b ↔ a.ms < b.ms ∨ a.ms = b.ms ∧ a.seq < b.seq := by
  show toLex (a.ms, a.seq) < toLex (b.ms, b.seq) ↔ _
  rw [Prod.Lex.toLex_lt_toLex]

theorem cmp_eq_lt {a b : StreamId} : a.cmp b = .lt ↔ a < b := by
  rw [lt_iff]
  unfold cmp
  split
  next hne => split <;> simp <;> omega
  next he =>
    split
    next hne => split <;> simp <;> omega
    next he' => simp; omega

theorem cmp_eq_eq {a b : StreamId} : a.cmp b = .eq ↔ a = b := by
  constructor
  · intro h
    unfold cmp at h
    split at h
    next => split at h <;> simp at h
    next he =>
      split at h
      next => split at h <;> simp at h
      next he' => exact StreamId.ext (not_not.mp he) (not_not.mp he')
  · rintro rfl
    simp [cmp]

theorem cmp_eq_gt {a b : StreamId} : a.cmp b = .gt ↔ b < a := by
  have hlt : a.cmp b = .lt ↔ a < b := cmp_eq_lt
  have heq : a.cmp b = .eq ↔ a = b := cmp_eq_eq
  rcases lt_trichotomy a b with h | h | h
  · simp [hlt.mpr h, not_lt_of_gt h]
  · rw [heq.mpr h]
    simp [h]
  · cases hc : a.cmp b with
    | lt => exact absurd (hlt.mp hc) (not_lt_of_gt h)
    | eq => exact absurd (heq.mp hc) (ne_of_gt h)
    | gt => simp [h]

/-- The tie-break bytes of an ID in the counted tree. -/
def seqKey (id : StreamId) : List Nat := BigEndian.bytes 8 id.seq

def treeKey (id : StreamId) : Nat ×ₗ List Nat := toLex (id.ms, id.seqKey)

theorem treeKey_lt {a b : StreamId} : a.treeKey < b.treeKey ↔ a < b := by
  have ha : a.seq < 256 ^ 8 := a.seqLt
  have hb : b.seq < 256 ^ 8 := b.seqLt
  rw [treeKey, treeKey, Prod.Lex.toLex_lt_toLex, lt_iff]
  simp only [seqKey, BigEndian.bytes_lt_iff ha hb]

end StreamId

end Aki
