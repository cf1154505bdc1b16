import Mathlib.Data.Fintype.EquivFin
import Mathlib.Data.Nat.ModEq
import Mathlib.Data.Nat.Prime.Basic
import Mathlib.Tactic.Ring

-- Probing a power-of-two number of groups with strides 1, 2, 3, ...

namespace TriangularProbe

def tri : Nat → Nat
  | 0 => 0
  | n + 1 => tri n + (n + 1)

theorem two_mul_tri (n : Nat) : 2 * tri n = n * (n + 1) := by
  induction n with
  | zero => rfl
  | succ n ih =>
    rw [tri, Nat.mul_add, ih]
    ring

def path (G g n : Nat) : Nat := (g + tri n) % G

theorem path_lt {G : Nat} (hG : 0 < G) (g n : Nat) : path G g n < G := Nat.mod_lt _ hG

theorem path_zero {G g : Nat} (hg : g < G) : path G g 0 = g := Nat.mod_eq_of_lt hg

theorem path_succ (G g n : Nat) : path G g (n + 1) = (path G g n + (n + 1)) % G := by
  rw [path, path, tri, Nat.mod_add_mod, Nat.add_assoc]

theorem path_injOn {k g i j : Nat} (hi : i < 2 ^ k) (hj : j < 2 ^ k) (h : path (2 ^ k) g i = path (2 ^ k) g j) : i = j := by
  by_contra hne
  wlog hij : i < j generalizing i j
  · exact this hj hi h.symm (Ne.symm hne) (by omega)
  have hmod : Nat.ModEq (2 ^ k) (tri i) (tri j) := Nat.ModEq.add_left_cancel' g h
  have hmono : tri i ≤ tri j := by
    have h1 := two_mul_tri i
    have h2 := two_mul_tri j
    have h3 : i * (i + 1) ≤ j * (j + 1) := Nat.mul_le_mul (by omega) (by omega)
    omega
  have hdvd : 2 ^ k ∣ tri j - tri i := (Nat.modEq_iff_dvd' hmono).mp hmod
  have hfac : 2 * (tri j - tri i) = (j - i) * (i + j + 1) := by
    obtain ⟨d, rfl⟩ := Nat.exists_eq_add_of_lt hij
    have h1 := two_mul_tri i
    have h2 := two_mul_tri (i + d + 1)
    have h3 : i + d + 1 - i = d + 1 := by omega
    rw [Nat.mul_sub, h1, h2, h3, Nat.sub_eq_iff_eq_add (Nat.mul_le_mul (by omega) (by omega))]
    ring
  have hdvd' : 2 ^ (k + 1) ∣ (j - i) * (i + j + 1) := by
    rw [← hfac, Nat.pow_succ, Nat.mul_comm]
    exact Nat.mul_dvd_mul_left 2 hdvd
  -- one factor is odd, so the whole power divides the other, which is too small
  rcases Nat.even_or_odd (j - i) with heven | hodd
  · have hcop : Nat.Coprime (2 ^ (k + 1)) (i + j + 1) :=
      Nat.Coprime.pow_left _ (Nat.coprime_two_left.mpr (by obtain ⟨c, hc⟩ := heven; exact ⟨i + c, by omega⟩))
    have hle := Nat.le_of_dvd (by omega) (hcop.dvd_of_dvd_mul_right hdvd')
    rw [Nat.pow_succ] at hle
    omega
  · have hcop : Nat.Coprime (2 ^ (k + 1)) (j - i) := Nat.Coprime.pow_left _ (Nat.coprime_two_left.mpr hodd)
    have hle := Nat.le_of_dvd (by omega) (hcop.dvd_of_dvd_mul_left hdvd')
    rw [Nat.pow_succ] at hle
    omega

/-- The first `2 ^ k` probes meet every group. -/
theorem path_surjOn {k x : Nat} (g : Nat) (hx : x < 2 ^ k) : ∃ n < 2 ^ k, path (2 ^ k) g n = x := by
  have hpos : 0 < 2 ^ k := Nat.two_pow_pos k
  let f : Fin (2 ^ k) → Fin (2 ^ k) := fun i => ⟨path (2 ^ k) g i, path_lt hpos g i⟩
  have hinj : Function.Injective f := fun i j h => Fin.ext (path_injOn i.isLt j.isLt (Fin.mk.inj h))
  obtain ⟨n, hn⟩ := Finite.injective_iff_surjective.mp hinj ⟨x, hx⟩
  exact ⟨n, n.isLt, Fin.mk.inj hn⟩

variable {α : Type*}

/-- Visits the groups of the path until one answers. -/
def probe (visit : Nat → Option α) (G : Nat) : Nat → Nat → Nat → Option α
  | 0, _, _ => none
  | fuel + 1, g, stride =>
    match visit g with
    | some a => some a
    | none => probe visit G fuel ((g + (stride + 1)) &&& (G - 1)) (stride + 1)

theorem probe_eq {visit : Nat → Option α} {k g : Nat} {a : α} : ∀ {fuel n i : Nat}, i < fuel →
    (∀ j < i, visit (path (2 ^ k) g (n + j)) = none) → visit (path (2 ^ k) g (n + i)) = some a →
    probe visit (2 ^ k) fuel (path (2 ^ k) g n) n = some a
  | fuel + 1, n, 0, _, _, ha => by
    rw [Nat.add_zero] at ha
    rw [probe, ha]
  | fuel + 1, n, i + 1, hi, hnone, ha => by
    have hfirst := hnone 0 (Nat.succ_pos i)
    rw [Nat.add_zero] at hfirst
    rw [probe, hfirst, Nat.and_two_pow_sub_one_eq_mod, ← path_succ]
    refine probe_eq (Nat.lt_of_succ_lt_succ hi) (fun j hj => ?_) ?_
    · rw [Nat.add_right_comm]
      exact hnone (j + 1) (by omega)
    · rw [Nat.add_right_comm]
      exact ha

theorem probe_mem {visit : Nat → Option α} {G : Nat} {a : α} : ∀ {fuel g stride : Nat},
    probe visit G fuel g stride = some a → ∃ x, visit x = some a
  | fuel + 1, g, stride, h => by
    rw [probe] at h
    cases hv : visit g with
    | some b =>
      rw [hv] at h
      exact ⟨g, hv.trans h⟩
    | none =>
      rw [hv] at h
      exact probe_mem h

/-- A probe that some group answers ends at the first such group of its path. -/
theorem probe_first {visit : Nat → Option α} {k g x : Nat} (hg : g < 2 ^ k) (hx : x < 2 ^ k) (hvisit : visit x ≠ none) :
    ∃ n < 2 ^ k, ∃ a, visit (path (2 ^ k) g n) = some a ∧ (∀ j < n, visit (path (2 ^ k) g j) = none) ∧
      probe visit (2 ^ k) (2 ^ k) g 0 = some a := by
  classical
  have hex : ∃ n, n < 2 ^ k ∧ visit (path (2 ^ k) g n) ≠ none := by
    obtain ⟨n, hn, rfl⟩ := path_surjOn g hx
    exact ⟨n, hn, hvisit⟩
  obtain ⟨hn, hne⟩ := Nat.find_spec hex
  obtain ⟨a, ha⟩ := Option.ne_none_iff_exists'.mp hne
  have hnone : ∀ j < Nat.find hex, visit (path (2 ^ k) g j) = none := by
    intro j hj
    by_contra hsome
    exact Nat.find_min hex hj ⟨by omega, hsome⟩
  refine ⟨Nat.find hex, hn, a, ha, hnone, ?_⟩
  have hstart : probe visit (2 ^ k) (2 ^ k) (path (2 ^ k) g 0) 0 = some a :=
    probe_eq hn (fun j hj => by rw [Nat.zero_add]; exact hnone j hj) (by rw [Nat.zero_add]; exact ha)
  rwa [path_zero hg] at hstart

end TriangularProbe
