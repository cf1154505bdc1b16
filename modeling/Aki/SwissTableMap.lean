import Aki.SwissTable

namespace Aki

open Swar TriangularProbe

variable {κ : Type*} {hash : κ → Nat} {t : Table} {e : Nat} {slots : List (Slot κ)} {i g : Nat} {k : κ} {o : Nat}

namespace Table

theorem Stores.freeSlot_cases (h : t.Stores hash e slots) (hg : g < 2 ^ e) :
    (∃ i s, i / 8 = g ∧ slots[i]? = some s ∧ s.entry = none ∧ t.freeSlot g = some i) ∨
    (∀ i, i / 8 = g → slots[i]? ≠ some .empty) ∧ t.freeSlot g = none := by
  have hbase : g <<< 3 = 8 * g := by rw [Nat.shiftLeft_eq, Nat.mul_comm]
  unfold freeSlot
  dsimp only
  by_cases hfree : t.word (g <<< 3) &&& highBits ≠ 0
  · have hbit := BitVec.getLsbD_true_ctz_of_ne_zero hfree
    have hlt := ctz_lt hfree
    rw [if_pos hfree]
    generalize (t.word (g <<< 3) &&& highBits).ctz.toNat = b at hbit hlt
    rw [BitVec.getLsbD_and, Bool.and_eq_true, highBits_getLsbD, Bool.and_eq_true, decide_eq_true_iff,
      decide_eq_true_iff] at hbit
    have hj : b / 8 < 8 := by omega
    obtain ⟨s, hs⟩ := h.slot hg hj
    have hhigh := hbit.1
    rw [show b = 8 * (b / 8) + 7 by omega, getLsbD_high, decide_eq_true_iff, h.byte_word hj hs] at hhigh
    refine .inl ⟨8 * g + b / 8, s, by omega, hs, ?_, by rw [hbase, Nat.shiftRight_eq_div_pow]⟩
    cases s with
    | full k o => exact absurd (Slot.tagOf_toNat (hash k)) (Nat.not_lt.mpr hhigh)
    | _ => rfl
  · refine .inr ⟨?_, if_neg hfree⟩
    rintro i rfl hi
    have hidx : 8 * (i / 8) + i % 8 = i := Nat.div_add_mod i 8
    have hj : i % 8 < 8 := Nat.mod_lt _ (by decide)
    have hzero : (t.word ((i / 8) <<< 3) &&& highBits).getLsbD (8 * (i % 8) + 7) = false := by
      rw [not_not.mp hfree]
      exact BitVec.getLsbD_zero
    have hhigh : highBits.getLsbD (8 * (i % 8) + 7) = true := by
      rw [highBits_getLsbD, Bool.and_eq_true, decide_eq_true_iff, decide_eq_true_iff]
      omega
    rw [BitVec.getLsbD_and, hhigh, getLsbD_high, h.byte_word hj (hidx ▸ hi)] at hzero
    exact absurd (show (decide (128 ≤ ctrlEmpty.toNat) && true) = false from hzero) (by decide)

theorem Stores.fill (h : t.Stores hash e slots) {s : Slot κ} (hi : slots[i]? = some s) (hfree : s.entry = none)
    (hseat : Seated hash e slots k (i / 8)) (hnew : ∀ o, (k, o) ∉ entries slots) (o : Nat) :
    Stores hash { t with
      dead := if t.ctrl.getD i 0 = ctrlDeleted then t.dead - 1 else t.dead
      ctrl := t.ctrl.set i (tagOf (hash k))
      ords := t.ords.set i o
      count := t.count + 1 } e (slots.set i (.full k o)) := by
  obtain ⟨hlt, hget⟩ := List.getElem?_eq_some_iff.mp hi
  have hperm := entries_set_full (k := k) (o := o) hi hfree
  have hothers : ∀ j : Nat, j ≠ i → (slots.set i (.full k o))[j]? = slots[j]? := fun j hj =>
    List.getElem?_set_ne (Ne.symm hj)
  have hself : (slots.set i (.full k o))[i]? = some (.full k o) := List.getElem?_set_self hlt
  have hempty : ∀ j : Nat, (slots.set i (.full k o))[j]? = some .empty → slots[j]? = some .empty := by
    intro j hj
    by_cases hji : j = i
    · rw [hji, hself] at hj
      exact absurd hj (by simp)
    · rwa [hothers j hji] at hj
  refine ⟨?_, ?_, ?_, ?_, ?_, h.width, ?_, ?_, ?_, ?_⟩
  · rw [List.map_set, ← h.ctrl]
    rfl
  · rw [List.length_set, List.length_set, h.ordsLen]
  · intro j k' o' hj
    by_cases hji : j = i
    · subst hji
      obtain ⟨rfl, rfl⟩ : k = k' ∧ o = o' := by simpa [hself] using hj
      exact List.getElem?_set_self (by rw [h.ordsLen]; exact hlt)
    · rw [hothers j hji] at hj
      exact (List.getElem?_set_ne (Ne.symm hji)).trans (h.ord j k' o' hj)
  · rw [List.length_set, h.cap]
  · rw [List.length_set, h.size]
  · rw [hperm.length_eq, List.length_cons, h.count]
  · have hbyte : t.ctrl.getD i 0 = s.ctrl hash := by
      rw [h.ctrl, List.getD_eq_getElem?_getD, List.getElem?_map, hi]
      rfl
    dsimp only
    rw [List.countP_set hlt, hget, hbyte, h.dead]
    cases s with
    | empty => simp [Slot.isDeleted, Slot.ctrl, ctrlEmpty, ctrlDeleted]
    | deleted => simp [Slot.isDeleted, Slot.ctrl]
    | full k' o' => exact absurd hfree (by simp [Slot.entry])
  · refine (hperm.pairwise_iff fun hne => Ne.symm hne).mpr (List.pairwise_cons.mpr ⟨?_, h.distinct⟩)
    rintro ⟨k', o'⟩ hmem rfl
    exact hnew o' hmem
  · intro j k' o' hj
    by_cases hji : j = i
    · subst hji
      obtain ⟨rfl, rfl⟩ : k = k' ∧ o = o' := by simpa [hself] using hj
      exact hseat.mono hempty
    · rw [hothers j hji] at hj
      exact (h.seated j k' o' hj).mono hempty

theorem Stores.add_spec (h : t.Stores hash e slots) (hempty : ∃ i : Nat, slots[i]? = some .empty)
    (hnew : ∀ o, (k, o) ∉ entries slots) (o : Nat) : ∃ t' slots', t.add (hash k) o = some t' ∧ t'.Stores hash e slots' ∧
      (entries slots').Perm ((k, o) :: entries slots) ∧ t'.dead ≤ t.dead := by
  obtain ⟨x, hx⟩ := hempty
  have hpath : ∀ n, path (2 ^ e) (groupOf (hash k) (2 ^ e)) n < 2 ^ e := path_lt (Nat.two_pow_pos e) _
  have hvisit : t.freeSlot (x / 8) ≠ none := by
    rcases h.freeSlot_cases (h.group_lt hx) with ⟨i, s, -, -, -, heq⟩ | ⟨hno, -⟩
    · rw [heq]
      simp
    · exact absurd hx (hno x rfl)
  obtain ⟨n, -, i, hi, hfirst, heq⟩ := probe_first (groupOf_lt (hash k) e) (h.group_lt hx) hvisit
  rcases h.freeSlot_cases (hpath n) with ⟨i', s, hgroup, hs, hfree, heq'⟩ | ⟨-, heq'⟩
  · obtain rfl : i' = i := Option.some.inj (heq'.symm.trans hi)
    have hseat : Seated hash e slots k (i' / 8) := by
      refine ⟨n, hgroup.symm, fun m hm j hj => ?_⟩
      rcases h.freeSlot_cases (hpath m) with ⟨_, _, -, -, -, hsome⟩ | ⟨hno, -⟩
      · rw [hfirst m hm] at hsome
        exact absurd hsome (by simp)
      · exact hno j hj
    refine ⟨_, _, ?_, h.fill hs hfree hseat hnew o, entries_set_full hs hfree, ?_⟩
    · rw [add, place, h.numGroups, heq]
      rfl
    · dsimp only
      split <;> omega
  · rw [heq'] at hi
    exact absurd hi (by simp)

theorem Stores.erase (h : t.Stores hash e slots) (hi : slots[i]? = some (.full k o)) :
    Stores hash { t with ctrl := t.ctrl.set i ctrlDeleted, dead := t.dead + 1, count := t.count - 1 } e
      (slots.set i .deleted) := by
  obtain ⟨hlt, hget⟩ := List.getElem?_eq_some_iff.mp hi
  have hperm := entries_set_deleted hi
  have hothers : ∀ j : Nat, j ≠ i → (slots.set i .deleted)[j]? = slots[j]? := fun j hj =>
    List.getElem?_set_ne (Ne.symm hj)
  have hself : (slots.set i .deleted)[i]? = some .deleted := List.getElem?_set_self hlt
  have hfull : ∀ (j : Nat) s, s ≠ .deleted → (slots.set i .deleted)[j]? = some s → slots[j]? = some s := by
    intro j s hs hj
    by_cases hji : j = i
    · rw [hji, hself] at hj
      exact absurd (Option.some.inj hj).symm hs
    · rwa [hothers j hji] at hj
  refine ⟨?_, ?_, ?_, ?_, ?_, h.width, ?_, ?_, ?_, ?_⟩
  · rw [List.map_set, ← h.ctrl]
    rfl
  · rw [List.length_set, h.ordsLen]
  · exact fun j k' o' hj => h.ord j k' o' (hfull j _ (by simp) hj)
  · rw [List.length_set, h.cap]
  · rw [List.length_set, h.size]
  · have hlen := hperm.length_eq
    rw [List.length_cons, ← h.count] at hlen
    exact Nat.sub_eq_of_eq_add hlen
  · rw [List.countP_set hlt, hget, h.dead]
    rfl
  · have hpair := (hperm.pairwise_iff fun hne => Ne.symm hne).mp h.distinct
    exact (List.pairwise_cons.mp hpair).2
  · exact fun j k' o' hj => (h.seated j k' o' (hfull j _ (by simp) hj)).mono fun x hx => hfull x _ (by simp) hx

theorem init_stores (hash : κ → Nat) (he : e ≤ 28) :
    (init (8 * 2 ^ e)).Stores hash e (List.replicate (8 * 2 ^ e) (.empty : Slot κ)) := by
  have hnone : entries (List.replicate (8 * 2 ^ e) (.empty : Slot κ)) = [] :=
    List.filterMap_eq_nil_iff.mpr fun s hs => by rw [List.eq_of_mem_replicate hs]; rfl
  have hempty : ∀ (i : Nat) k o, (List.replicate (8 * 2 ^ e) (.empty : Slot κ))[i]? ≠ some (.full k o) := by
    intro i k o hi
    have hmem := List.eq_of_mem_replicate (List.mem_of_getElem? hi)
    exact absurd hmem (by simp)
  refine ⟨by simp [init, Slot.ctrl], by simp [init], fun i k o hi => absurd hi (hempty i k o), by simp [init], by simp, he,
    by rw [hnone]; rfl, ?_, by rw [KeysDistinct, hnone]; exact List.Pairwise.nil, fun i k o hi => absurd hi (hempty i k o)⟩
  exact (List.countP_eq_zero.mpr fun s hs => by rw [List.eq_of_mem_replicate hs]; simp [Slot.isDeleted]).symm

theorem loadOf_le (cap : Nat) : loadOf cap ≤ cap * 7 / 8 := Nat.div_le_div_right (Nat.mod_le _ _)

theorem Stores.exists_empty (h : t.Stores hash e slots) (hload : t.count + t.dead ≤ t.maxLoad) :
    ∃ i : Nat, slots[i]? = some .empty := by
  refine Aki.exists_empty ?_
  have hmax := loadOf_le t.cap
  have hcap := h.cap
  have hsize := h.size
  have hpos := Nat.two_pow_pos e
  rw [← h.count, ← h.dead]
  unfold maxLoad at hload
  omega

/-- The members of the old slots move one by one; the new table has room for all of them. -/
theorem Stores.refill {s : MemberSet κ} : ∀ (rest : List (Slot κ)) (os : List Nat) (done : List (Slot κ)) {new : Table}
    {slots' : List (Slot κ)}, new.Stores hash e slots' → (entries slots').Perm (entries done) → new.dead = 0 →
    KeysDistinct (done ++ rest) → Faithful hash s rest → (entries (done ++ rest)).length < 8 * 2 ^ e →
    os.length = rest.length → (∀ (i : Nat) k o, rest[i]? = some (.full k o) → os[i]? = some o) →
    ∃ new' slots'', ((rest.map (Slot.ctrl hash)).zip os).foldlM (fun (new : Table) slot =>
        if slot.1 &&& 0x80 = 0 then new.add (s.rehash slot.2) slot.2 else some new) new = some new' ∧
      new'.Stores hash e slots'' ∧ (entries slots'').Perm (entries (done ++ rest)) ∧ new'.dead = 0
  | [], os, done, new, slots', h, hperm, hdead, _, _, _, _, _ =>
    ⟨new, slots', rfl, h, by rwa [List.append_nil], hdead⟩
  | r :: rest, [], _, _, _, _, _, _, _, _, _, hlen, _ => absurd hlen (by simp)
  | r :: rest, x :: os, done, new, slots', h, hperm, hdead, hdist, hfaith, hroom, hlen, hord => by
    have happ : done ++ r :: rest = (done ++ [r]) ++ rest := by simp
    have hlen' : os.length = rest.length := by simpa using hlen
    have hord' : ∀ (i : Nat) k o, rest[i]? = some (.full k o) → os[i]? = some o := fun i k o hi =>
      hord (i + 1) k o (by simpa using hi)
    have hfaith' : Faithful hash s rest := fun k o hmem =>
      hfaith k o (List.mem_filterMap.mpr (by
        obtain ⟨sl, hsl, he⟩ := List.mem_filterMap.mp hmem
        exact ⟨sl, List.mem_cons_of_mem r hsl, he⟩))
    rw [List.map_cons, List.zip_cons_cons, List.foldlM_cons]
    by_cases hfull : ∃ k o, r = .full k o
    · obtain ⟨k, o, rfl⟩ := hfull
      obtain rfl : x = o := by simpa using hord 0 k o rfl
      have hhash : s.rehash x = hash k := (hfaith k x (List.mem_filterMap.mpr ⟨_, List.mem_cons_self, rfl⟩)).2
      have hentries : entries (done ++ .full k x :: rest) = entries done ++ (k, x) :: entries rest := by
        simp [entries, Slot.entry]
      have hnew : ∀ o, (k, o) ∉ entries slots' := by
        intro o hmem
        rw [KeysDistinct, hentries, List.pairwise_append] at hdist
        exact hdist.2.2 (k, o) (hperm.mem_iff.mp hmem) (k, x) List.mem_cons_self rfl
      have hempty : ∃ i : Nat, slots'[i]? = some .empty := by
        refine Aki.exists_empty ?_
        rw [hentries, List.length_append, List.length_cons] at hroom
        rw [← h.dead, hdead, hperm.length_eq, h.size]
        omega
      obtain ⟨t', slots'', hadd, hstores, hperm', hdead'⟩ := h.add_spec hempty hnew x
      rw [if_pos (Slot.ctrl_and_high.mpr ⟨k, x, rfl⟩), hhash, hadd, happ]
      have hdone : (entries slots'').Perm (entries (done ++ [.full k x])) := by
        refine hperm'.trans (((hperm.cons _).trans (List.perm_append_singleton _ _).symm).trans ?_)
        simp [entries, Slot.entry]
      exact hstores.refill rest os _ hdone (by omega) (happ ▸ hdist) hfaith' (happ ▸ hroom) hlen' hord'
    · have hentry : r.entry = none := by
        cases r with
        | full k o => exact absurd ⟨k, o, rfl⟩ hfull
        | _ => rfl
      rw [if_neg fun hz => hfull (Slot.ctrl_and_high.mp hz), happ]
      have hdone : (entries slots').Perm (entries (done ++ [r])) := by
        simpa [entries, hentry] using hperm
      exact h.refill rest os _ hdone hdead (happ ▸ hdist) hfaith' (happ ▸ hroom) hlen' hord'

theorem capLoop_spec (enough : Nat → Bool) (htop : ∀ b, 29 ≤ b → b ≤ 31 → enough (2 ^ b) = true) :
    ∀ fuel {a : Nat}, a ≤ 31 → 31 < fuel + a → ∃ b, a ≤ b ∧ b ≤ 31 ∧ enough (2 ^ b) = true ∧
      capLoop enough fuel (2 ^ a) = some (2 ^ b)
  | 0, a, ha, hfuel => absurd hfuel (by omega)
  | fuel + 1, a, ha, hfuel => by
    rw [capLoop]
    by_cases hok : enough (2 ^ a) = true
    · exact ⟨a, Nat.le_refl a, ha, hok, if_pos hok⟩
    · have hsmall : a < 29 := by
        by_contra hge
        exact hok (htop a (by omega) ha)
      have hpow : 2 ^ (a + 1) < 2 ^ 32 := Nat.pow_lt_pow_right (by decide) (by omega)
      obtain ⟨b, hab, hb, hbok, heq⟩ := capLoop_spec enough htop fuel (show a + 1 ≤ 31 by omega) (by omega)
      rw [if_neg hok, Nat.shiftLeft_eq, Nat.pow_one, ← Nat.pow_succ, Nat.mod_eq_of_lt hpow]
      exact ⟨b, by omega, hb, hbok, heq⟩

/-- From 2^29 slots on, the 32-bit load limit wraps but stays at 2^28 or more. -/
theorem loadOf_top {b : Nat} (hb : 29 ≤ b) (hb' : b ≤ 31) : 2 ^ 28 ≤ loadOf (2 ^ b) := by
  interval_cases b <;> decide

theorem Stores.resize_spec {s : MemberSet κ} (h : t.Stores hash e slots) (hs : Faithful hash s slots)
    (hcount : t.count < 2 ^ 28) : ∃ t' e' slots', t.resize s = some t' ∧ t'.Stores hash e' slots' ∧
      (entries slots').Perm (entries slots) ∧ t'.dead = 0 ∧ t'.count + 1 ≤ t'.maxLoad := by
  have hpow : 8 * 2 ^ e = 2 ^ (e + 3) := by rw [Nat.pow_add]; omega
  have hcap : t.cap = 2 ^ (e + 3) := by rw [h.cap, h.size, hpow]
  have hmin : ¬ t.cap < minCap := by
    rw [hcap, ← hpow]
    have := Nat.two_pow_pos e
    unfold minCap
    omega
  have hwidth := h.width
  obtain ⟨b, hab, hb, hok, hloop⟩ := capLoop_spec (fun c => !decide (t.count + 1 > loadOf c))
    (fun b hb hb' => by have := loadOf_top hb hb'; simp; omega) 32 (show e + 3 ≤ 31 by omega) (by omega)
  have hroom : t.count + 1 ≤ loadOf (2 ^ b) := by simpa using hok
  obtain ⟨c, rfl⟩ := Nat.exists_eq_add_of_le' (show 3 ≤ b by omega)
  have hpow' : 2 ^ (c + 3) = 8 * 2 ^ c := by rw [Nat.pow_add]; omega
  have hsub := loadOf_le (2 ^ (c + 3))
  have hnone : entries (List.replicate (8 * 2 ^ c) (.empty : Slot κ)) = entries [] :=
    List.filterMap_eq_nil_iff.mpr fun s hs => by rw [List.eq_of_mem_replicate hs]; rfl
  have hpos := Nat.two_pow_pos c
  obtain ⟨new, slots', hfold, hstores, hperm, hdead⟩ := (init_stores hash (show c ≤ 28 by omega)).refill (s := s)
    slots t.ords [] (by rw [hnone]) rfl h.distinct hs
    (by rw [List.nil_append, ← h.count]; omega) h.ordsLen h.ord
  refine ⟨new, c, slots', ?_, hstores, hperm, hdead, ?_⟩
  · rw [resize, if_neg hmin, hcap, hloop, h.ctrl]
    show ((_ : List _).foldlM _ (init (2 ^ (c + 3)))) = _
    rw [hpow']
    exact hfold
  · rw [hstores.count, hperm.length_eq, List.nil_append, ← h.count, maxLoad, hstores.cap, hstores.size, ← hpow']
    exact hroom

theorem Stores.insert_spec {s : MemberSet κ} (h : t.Stores hash e slots) (hs : Faithful hash s slots) (hcount : t.count < 2 ^ 28) (hnew : ∀ o, (k, o) ∉ entries slots) (o : Nat) :
    ∃ t' e' slots', t.insert s (hash k) o = some t' ∧ t'.Stores hash e' slots' ∧ t'.count + t'.dead ≤ t'.maxLoad ∧
      (entries slots').Perm ((k, o) :: entries slots) := by
  have hroom : ∃ u e' slots', (if t.count + t.dead + 1 > t.maxLoad then t.resize s else some t) = some u ∧
      u.Stores hash e' slots' ∧ u.count + u.dead + 1 ≤ u.maxLoad ∧ (entries slots').Perm (entries slots) := by
    by_cases hfull : t.count + t.dead + 1 > t.maxLoad
    · obtain ⟨u, e', slots', hu, hstores, hperm, hdead, hmax⟩ := h.resize_spec hs hcount
      exact ⟨u, e', slots', by rw [if_pos hfull, hu], hstores, by omega, hperm⟩
    · exact ⟨t, e, slots, if_neg hfull, h, by omega, List.Perm.refl _⟩
  obtain ⟨u, e', slots', hu, hstores, hmax, hperm⟩ := hroom
  obtain ⟨t', slots'', hadd, hstores', hperm', hdead⟩ := hstores.add_spec (hstores.exists_empty (by omega))
    (fun o hmem => hnew o (hperm.mem_iff.mp hmem)) o
  refine ⟨t', e', slots'', ?_, hstores', ?_, hperm'.trans (hperm.cons _)⟩
  · rw [insert, hu]
    exact hadd
  · have hcount' := hperm'.length_eq
    rw [List.length_cons, ← hstores.count, ← hstores'.count] at hcount'
    have hcap : t'.maxLoad = u.maxLoad := by rw [maxLoad, maxLoad, hstores'.cap, hstores'.size, hstores.cap, hstores.size]
    omega

theorem Stores.delete_spec {s : MemberSet κ} (h : t.Stores hash e slots) (hload : t.count + t.dead ≤ t.maxLoad)
    (hs : Faithful hash s slots) (k : κ) :
    (∃ t' slots' o, t.delete s (hash k) k = some (t', some o) ∧ t'.Stores hash e slots' ∧
      t'.count + t'.dead ≤ t'.maxLoad ∧ (entries slots).Perm ((k, o) :: entries slots')) ∨
    (∀ o, (k, o) ∉ entries slots) ∧ t.delete s (hash k) k = some (t, none) := by
  rcases h.findSlot_cases hs (h.exists_empty hload) k with ⟨i, o, hi, heq⟩ | ⟨hno, heq⟩
  · have hperm := entries_set_deleted hi
    have hlen := hperm.length_eq
    rw [List.length_cons, ← h.count] at hlen
    refine .inl ⟨_, _, o, by rw [delete, heq]; rfl, h.erase hi, ?_, hperm⟩
    show t.count - 1 + (t.dead + 1) ≤ t.maxLoad
    omega
  · refine .inr ⟨fun o hmem => ?_, by rw [delete, heq]; rfl⟩
    obtain ⟨i, hi⟩ := mem_entries.mp hmem
    exact hno i o hi

theorem findGroup_noMatch {s : MemberSet κ} {tag : BitVec 8} (h : ∀ o, s.isMatch o k = false) (r : Nat × Nat) :
    t.findGroup s tag k g ≠ some (some r) := by
  unfold findGroup
  dsimp only
  rcases firstLane_cases (fun j => if s.isMatch (t.ords.getD (g <<< 3 + j) 0) k = true then
      some (g <<< 3 + j, t.ords.getD (g <<< 3 + j) 0) else none) (Nat.le_refl 64)
      (m := matchByte (t.word (g <<< 3)) tag) (by simp) with ⟨heq, -⟩ | ⟨b, a, -, ha, -⟩
  · rw [heq]
    dsimp only
    split <;> simp
  · rw [h] at ha
    exact absurd ha (by simp)

theorem find_noMatch {s : MemberSet κ} {h : Nat} (hno : ∀ o, s.isMatch o k = false) (o : Nat) :
    t.find s h k ≠ some (some o) := by
  intro hfind
  obtain ⟨r, hr, hmap⟩ := Option.map_eq_some_iff.mp hfind
  obtain ⟨x, rfl, -⟩ := Option.map_eq_some_iff.mp hmap
  obtain ⟨g, hg⟩ := probe_mem hr
  exact findGroup_noMatch hno x hg

abbrev KeyMap (κ : Type*) := κ → Option Nat

/-- `Match` is equality with the member at the ordinal and `Rehash` its hash, for every member present. -/
def SetOf (hash : κ → Nat) (A : KeyMap κ) (s : MemberSet κ) : Prop :=
  ∀ k o, A k = some o → (∀ k', s.isMatch o k' = true ↔ k' = k) ∧ s.rehash o = hash k

/-- Tables reached from an empty one by inserts of absent keys and deletes, each with a set of its own. -/
inductive Run [DecidableEq κ] (hash : κ → Nat) : Table → KeyMap κ → Prop
  | new {t : Table} (hint : Nat) : makeTable hint = some t → Run hash t fun _ => none
  | insert {t t' : Table} {A : KeyMap κ} (s : MemberSet κ) (k : κ) (o : Nat) : Run hash t A → SetOf hash A s → A k = none →
      t.len < 2 ^ 28 → t.insert s (hash k) o = some t' → Run hash t' (Function.update A k (some o))
  | delete {t t' : Table} {A : KeyMap κ} {r : Option Nat} (s : MemberSet κ) (k : κ) : Run hash t A → SetOf hash A s →
      t.delete s (hash k) k = some (t', r) → Run hash t' (Function.update A k none)

/-- The table answers as the map does, and each operation ends. -/
structure IsMap (hash : κ → Nat) (t : Table) (A : KeyMap κ) : Prop where
  find : ∀ s k, SetOf hash A s → t.find s (hash k) k = some (A k)
  delete : ∀ s k, SetOf hash A s → ∃ t', t.delete s (hash k) k = some (t', A k)
  insert : ∀ s k o, SetOf hash A s → A k = none → t.len < 2 ^ 28 → ∃ t', t.insert s (hash k) o = some t'
  len : ∃ keys : List κ, keys.Nodup ∧ (∀ k, k ∈ keys ↔ A k ≠ none) ∧ t.len = keys.length
  load : 8 * (t.count + t.dead) ≤ 7 * t.cap
  meetsEmpty : ∀ h, ∃ n < t.numGroups, ∃ i,
    i / 8 = path t.numGroups (groupOf h t.numGroups) n ∧ t.ctrl[i]? = some ctrlEmpty
  dead : t.dead = t.ctrl.count ctrlDeleted

/-- The map is what the slots store, and there is room. -/
def Holds (hash : κ → Nat) (t : Table) (A : KeyMap κ) : Prop :=
  ∃ e slots, t.Stores hash e slots ∧ t.count + t.dead ≤ t.maxLoad ∧ ∀ k o, A k = some o ↔ (k, o) ∈ entries slots

variable {A : KeyMap κ}

theorem capLoop_zero {enough : Nat → Bool} (h : enough 0 = false) : ∀ fuel, capLoop enough fuel 0 = none
  | 0 => rfl
  | fuel + 1 => by
    rw [capLoop, h]
    exact capLoop_zero h fuel

/-- A capacity that doubles past 32 bits is 0 from then on. -/
theorem capLoop_pow {enough : Nat → Bool} (h : enough 0 = false) : ∀ {fuel a c : Nat}, a ≤ 31 →
    capLoop enough fuel (2 ^ a) = some c → ∃ b, a ≤ b ∧ b ≤ 31 ∧ c = 2 ^ b
  | fuel + 1, a, c, ha, heq => by
    rw [capLoop] at heq
    by_cases hok : enough (2 ^ a) = true
    · rw [if_pos hok] at heq
      exact ⟨a, Nat.le_refl a, ha, (Option.some.inj heq).symm⟩
    · rw [if_neg hok, Nat.shiftLeft_eq, Nat.pow_one, ← Nat.pow_succ] at heq
      rcases Nat.lt_or_eq_of_le ha with hlt | rfl
      · rw [Nat.mod_eq_of_lt (Nat.pow_lt_pow_right (by decide) (by omega))] at heq
        obtain ⟨b, hab, hb, rfl⟩ := capLoop_pow h (by omega) heq
        exact ⟨b, by omega, hb, rfl⟩
      · rw [Nat.mod_self, capLoop_zero h] at heq
        exact absurd heq (by simp)

theorem capFor_pow {n c : Nat} (h : capFor n = some c) : ∃ e ≤ 28, c = 8 * 2 ^ e := by
  have hpow : ∃ b, 3 ≤ b ∧ b ≤ 31 ∧ c = 2 ^ b := by
    by_cases hn : n = 0
    · rw [hn] at h
      exact ⟨3, Nat.le_refl 3, by decide, (Option.some.inj h).symm⟩
    · exact capLoop_pow (by simp; omega) (by decide) h
  obtain ⟨b, hlo, hhi, rfl⟩ := hpow
  obtain ⟨e, rfl⟩ := Nat.exists_eq_add_of_le' hlo
  exact ⟨e, by omega, by rw [Nat.pow_add]; omega⟩

theorem makeTable_holds {hint : Nat} (h : makeTable hint = some t) : t.Holds hash fun _ : κ => none := by
  obtain ⟨c, hc, rfl⟩ := Option.map_eq_some_iff.mp h
  obtain ⟨e, he, rfl⟩ := capFor_pow hc
  refine ⟨e, _, init_stores hash he, Nat.zero_le _, fun k o => ?_⟩
  refine iff_of_false (by simp) fun hmem => ?_
  obtain ⟨i, hi⟩ := mem_entries.mp hmem
  exact absurd (List.eq_of_mem_replicate (List.mem_of_getElem? hi)) (by simp)

theorem entries_update [DecidableEq κ] {slots' : List (Slot κ)} (hA : ∀ k o, A k = some o ↔ (k, o) ∈ entries slots)
    (hk : A k = none) (hperm : (entries slots').Perm ((k, o) :: entries slots)) (k' : κ) (o' : Nat) :
    Function.update A k (some o) k' = some o' ↔ (k', o') ∈ entries slots' := by
  rw [hperm.mem_iff, List.mem_cons, Prod.mk.injEq, ← hA]
  by_cases hkk : k' = k
  · subst hkk
    simp [hk, eq_comm]
  · simp [hkk]

theorem entries_erase [DecidableEq κ] {slots' : List (Slot κ)} (hA : ∀ k o, A k = some o ↔ (k, o) ∈ entries slots)
    (hdist : KeysDistinct slots) (hperm : (entries slots).Perm ((k, o) :: entries slots')) (k' : κ) (o' : Nat) :
    Function.update A k none k' = some o' ↔ (k', o') ∈ entries slots' := by
  have hgone : ∀ x ∈ entries slots', k ≠ x.1 :=
    (List.pairwise_cons.mp ((hperm.pairwise_iff fun hne => Ne.symm hne).mp hdist)).1
  by_cases hkk : k' = k
  · subst hkk
    rw [Function.update_self]
    exact iff_of_false (by simp) fun hmem => hgone _ hmem rfl
  · rw [Function.update_of_ne hkk, hA, hperm.mem_iff, List.mem_cons, Prod.mk.injEq]
    simp [hkk]

theorem Holds.insert_spec [DecidableEq κ] {s : MemberSet κ} (h : t.Holds hash A) (hs : SetOf hash A s) (hk : A k = none)
    (hlen : t.len < 2 ^ 28) (o : Nat) :
    ∃ t', t.insert s (hash k) o = some t' ∧ t'.Holds hash (Function.update A k (some o)) := by
  obtain ⟨e, slots, h, -, hA⟩ := h
  have hnew : ∀ o, (k, o) ∉ entries slots := fun o hmem => by
    rw [← hA, hk] at hmem
    exact absurd hmem (by simp)
  obtain ⟨t', e', slots', heq, hstores, hload', hperm⟩ :=
    h.insert_spec (fun k o hmem => hs k o ((hA k o).mpr hmem)) hlen hnew o
  exact ⟨t', heq, e', slots', hstores, hload', entries_update hA hk hperm⟩

theorem Holds.delete_spec [DecidableEq κ] {s : MemberSet κ} (h : t.Holds hash A) (hs : SetOf hash A s) (k : κ) :
    ∃ t', t.delete s (hash k) k = some (t', A k) ∧ t'.Holds hash (Function.update A k none) := by
  obtain ⟨e, slots, h, hload, hA⟩ := h
  rcases h.delete_spec hload (fun k o hmem => hs k o ((hA k o).mpr hmem)) k with
    ⟨t', slots', o, heq, hstores, hload', hperm⟩ | ⟨hno, heq⟩
  · rw [(hA k o).mpr (hperm.mem_iff.mpr List.mem_cons_self)]
    exact ⟨t', heq, e, slots', hstores, hload', entries_erase hA h.distinct hperm⟩
  · have hk : A k = none := Option.eq_none_iff_forall_ne_some.mpr fun o ho => hno o ((hA k o).mp ho)
    rw [hk, Function.update_eq_self_iff.mpr hk.symm]
    exact ⟨t, heq, e, slots, h, hload, hA⟩

theorem Run.holds [DecidableEq κ] (h : Run hash t A) : t.Holds hash A := by
  induction h with
  | new hint hnew => exact makeTable_holds hnew
  | insert s k o _ hs hk hlen heq ih =>
    obtain ⟨u, hu, hholds⟩ := ih.insert_spec hs hk hlen o
    obtain rfl := Option.some.inj (hu.symm.trans heq)
    exact hholds
  | delete s k _ hs heq ih =>
    obtain ⟨u, hu, hholds⟩ := ih.delete_spec hs k
    obtain ⟨rfl, -⟩ := Prod.mk.inj (Option.some.inj (hu.symm.trans heq))
    exact hholds

theorem Holds.find_eq {s : MemberSet κ} (h : t.Holds hash A) (hs : SetOf hash A s) (k : κ) :
    t.find s (hash k) k = some (A k) := by
  obtain ⟨e, slots, h, hload, hA⟩ := h
  rcases h.findSlot_cases (fun k o hmem => hs k o ((hA k o).mpr hmem)) (h.exists_empty hload) k with
    ⟨i, o, hi, heq⟩ | ⟨hno, heq⟩
  · rw [find, heq, (hA k o).mpr (mem_entries.mpr ⟨i, hi⟩)]
    rfl
  · have hk : A k = none := Option.eq_none_iff_forall_ne_some.mpr fun o ho =>
      (mem_entries.mp ((hA k o).mp ho)).elim fun i hi => hno i o hi
    rw [find, heq, hk]
    rfl

theorem Holds.keys (h : t.Holds hash A) : ∃ keys : List κ, keys.Nodup ∧ (∀ k, k ∈ keys ↔ A k ≠ none) ∧ t.len = keys.length := by
  obtain ⟨e, slots, h, -, hA⟩ := h
  refine ⟨(entries slots).map Prod.fst, List.pairwise_map.mpr h.distinct, fun k => ?_, ?_⟩
  · rw [List.mem_map, Option.ne_none_iff_exists']
    constructor
    · rintro ⟨⟨k', o⟩, hmem, rfl⟩
      exact ⟨o, (hA k' o).mpr hmem⟩
    · rintro ⟨o, ho⟩
      exact ⟨(k, o), (hA k o).mp ho, rfl⟩
  · rw [len, List.length_map, h.count]

theorem Holds.isMap [DecidableEq κ] (h : t.Holds hash A) : t.IsMap hash A := by
  refine ⟨fun s k hs => h.find_eq hs k, fun s k hs => ?_, fun s k o hs hk hlen => ?_, h.keys, ?_, fun x => ?_, ?_⟩
  · obtain ⟨t', heq, -⟩ := h.delete_spec hs k
    exact ⟨t', heq⟩
  · obtain ⟨t', heq, -⟩ := h.insert_spec hs hk hlen o
    exact ⟨t', heq⟩
  all_goals obtain ⟨e, slots, h, hload, hA⟩ := h
  · have := loadOf_le t.cap
    unfold maxLoad at hload
    omega
  · obtain ⟨i, hi⟩ := h.exists_empty hload
    rw [h.numGroups]
    obtain ⟨n, hn, hpath⟩ := path_surjOn (groupOf x (2 ^ e)) (h.group_lt hi)
    refine ⟨n, hn, i, hpath.symm, ?_⟩
    rw [h.ctrl, List.getElem?_map, hi]
    rfl
  · rw [h.dead, h.ctrl, List.count, List.countP_map]
    refine List.countP_congr fun s _ => ?_
    rw [Function.comp_apply, beq_iff_eq, Slot.ctrl_eq_deleted]
    cases s <;> simp [Slot.isDeleted]

/-- A table is a map for any hash function, over every run of inserts of absent keys and deletes. -/
theorem run_isMap [DecidableEq κ] (hash : κ → Nat) (t : Table) (A : KeyMap κ) (h : Run hash t A) : t.IsMap hash A :=
  h.holds.isMap

/-- Two keys of one hash, the first deleted again, and a third that takes its slot. -/
theorem reused_slot_isMap : IsMap (fun _ : Nat => 0) ⟨0 :: 0 :: List.replicate 6 ctrlEmpty, 3 :: 2 :: List.replicate 6 0, 8, 2, 0⟩
    (Function.update (Function.update (Function.update (Function.update (fun _ => none) 1 (some 1)) 2 (some 2)) 1 none) 3 (some 3)) := by
  have hset (A : KeyMap Nat) (hA : ∀ k o, A k = some o → o = k) : SetOf (fun _ => 0) A ⟨fun o k => o == k, fun _ => 0⟩ := by
    intro k o h
    obtain rfl := hA k o h
    exact ⟨fun k' => beq_iff_eq.trans eq_comm, rfl⟩
  have h1 : Run (fun _ => 0) ⟨0 :: List.replicate 7 ctrlEmpty, 1 :: List.replicate 7 0, 8, 1, 0⟩ _ :=
    .insert _ 1 1 (.new 1 rfl) (hset _ (by simp)) rfl (by decide) (by decide +kernel)
  have h2 : Run (fun _ => 0) ⟨0 :: 0 :: List.replicate 6 ctrlEmpty, 1 :: 2 :: List.replicate 6 0, 8, 2, 0⟩ _ :=
    h1.insert _ 2 2 (hset _ (by grind)) rfl (by decide) (by decide +kernel)
  have h3 : Run (fun _ => 0) ⟨ctrlDeleted :: 0 :: List.replicate 6 ctrlEmpty, 1 :: 2 :: List.replicate 6 0, 8, 1, 1⟩ _ :=
    h2.delete (r := some 1) _ 1 (hset _ (by grind)) (by decide +kernel)
  exact run_isMap _ _ _ (h3.insert _ 3 3 (hset _ (by grind)) rfl (by decide) (by decide +kernel))

end Table

end Aki
