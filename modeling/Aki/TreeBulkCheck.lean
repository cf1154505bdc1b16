import Aki.TreeBulk
import Mathlib.Data.List.Forall2
import Mathlib.Order.Compare

namespace Aki

section Compare

variable {μ : Type*} [LinearOrder μ] {m : Nat → μ} {score : Nat} {member : μ}

def keyOf (m : Nat → μ) (e : Entry) : Nat ×ₗ μ := toLex (e.score, m e.ref)

theorem cmpPair_lt {e : Entry} : cmpPair m e score member = .lt ↔ keyOf m e < toLex (score, member) := by
  unfold cmpPair keyOf
  rw [Prod.Lex.toLex_lt_toLex]
  split
  next hne =>
    split
    next hlt => simp [hlt]
    next hge => simp [hge, hne]
  next he =>
    simp only [ne_eq, not_not] at he
    simp [he, compare_lt_iff_lt]

theorem cmpPair_gt {e : Entry} : cmpPair m e score member = .gt ↔ toLex (score, member) < keyOf m e := by
  unfold cmpPair keyOf
  rw [Prod.Lex.toLex_lt_toLex]
  split
  next hne =>
    split
    next hlt => simp [Nat.lt_asymm hlt, Ne.symm hne]
    next hge => simp [show score < e.score by omega]
  next he =>
    simp only [ne_eq, not_not] at he
    simp [he, compare_gt_iff_gt]

theorem cmpKeys_lt {a b : Entry} : cmpKeys m a b = .lt ↔ keyOf m a < keyOf m b := cmpPair_lt

theorem cmpKeys_gt {a b : Entry} : cmpKeys m a b = .gt ↔ keyOf m b < keyOf m a := cmpPair_gt

end Compare

namespace Tree

variable {t t' : Tree} {lv o : Nat} {isRoot : Bool} {es : List Entry}

/-- A node of a level under construction stands for its entries: it names the first of them and their number, which fits its slot. -/
structure Sums (nd : BulkNode) (es : List Entry) : Prop where
  first : nd.first = es.headD default
  count : nd.count = es.length
  pos : es ≠ []
  small : es.length < countMax

/-- The node `o` holds the entries, within the bounds on the fill; the root alone may be below the least. -/
def Holds (t : Tree) : Nat → Bool → Nat → List Entry → Prop
  | 0, isRoot, o, es => (t.leaves o).ents = es ∧ es.length ≤ leafCap ∧ (isRoot = false → leafMin ≤ es.length)
  | lv + 1, isRoot, o, es => ∃ (nds : List BulkNode) (ess : List (List Entry)), o < t.nBranch ∧
      t.branches o = branchOver nds ∧
      List.Forall₂ (fun nd es => Sums nd es ∧ Holds t lv false nd.ord es) nds ess ∧ es = ess.flatten ∧
      1 < nds.length ∧ nds.length ≤ arity ∧ (isRoot = false → branchMin < nds.length)

theorem Holds.frame (h : Holds t lv isRoot o es) (hl : ∀ o, t'.leaves o = t.leaves o) (hn : t.nBranch ≤ t'.nBranch)
    (hb : ∀ o, o < t.nBranch → t'.branches o = t.branches o) : Holds t' lv isRoot o es := by
  induction lv generalizing isRoot o es with
  | zero =>
    obtain ⟨he, hrest⟩ := h
    exact ⟨by rw [hl, he], hrest⟩
  | succ lv ih =>
    obtain ⟨nds, ess, ho, hbr, hall, hrest⟩ := h
    exact ⟨nds, ess, by omega, (hb o ho).trans hbr, hall.imp fun _ _ h => ⟨h.1, ih h.2⟩, hrest⟩

section Check

variable {μ : Type*} [LinearOrder μ] {m : Nat → μ}

def sumOf (es : List Entry) : NodeSum := ⟨es.length, es.headD default, es.getLastD default⟩

theorem ent_eq {l : Leaf} {i : Nat} (hi : i < l.ents.length) : l.ent i = l.ents[i] := by
  simp [Leaf.ent, hi]

theorem checkOrder_ok {l : Leaf} (hs : (l.ents.map (keyOf m)).Pairwise (· < ·)) (todo i : Nat) (hi : 1 ≤ i)
    (hlen : i + todo ≤ l.ents.length) : checkOrder m o l todo i = .ok () := by
  induction todo generalizing i with
  | zero => rfl
  | succ todo ih =>
    have hlt : keyOf m (l.ent (i - 1)) < keyOf m (l.ent i) := by
      have h := List.pairwise_iff_getElem.mp hs (i - 1) i (by simp; omega) (by simp; omega) (by omega)
      rw [ent_eq (by omega), ent_eq (by omega)]
      simpa using h
    rw [checkOrder, if_neg (by simpa using cmpKeys_gt.mpr hlt)]
    exact ih (i + 1) (by omega) (by omega)

theorem checkLeaf_ok (h : Holds t 0 isRoot o es) (hs : (es.map (keyOf m)).Pairwise (· < ·)) :
    t.checkLeaf m isRoot o = .ok (sumOf es) := by
  obtain ⟨rfl, hcap, hmin⟩ := h
  have hlen : (t.leaves o).nent = (t.leaves o).ents.length := rfl
  unfold checkLeaf
  dsimp only
  rw [if_neg (by omega), if_neg fun hc => by have := hmin hc.1; omega]
  rcases Nat.eq_zero_or_pos (t.leaves o).ents.length with hzero | hpos
  · rw [hlen, hzero, List.length_eq_zero_iff.mp hzero]
    rfl
  · rw [checkOrder_ok hs _ 1 (Nat.le_refl 1) (by omega)]
    dsimp only
    rw [if_neg (by omega), ent_eq (by omega), ent_eq (by omega)]
    obtain ⟨e, es, hcons⟩ := List.exists_cons_of_length_pos hpos
    simp [sumOf, Leaf.nent, hcons, List.getLast?_eq_getElem?]

theorem sumOf_append {xs ys : List Entry} (hx : xs ≠ []) (hy : ys ≠ []) :
    sumOf (xs ++ ys) = ⟨(sumOf xs).count + (sumOf ys).count, (sumOf xs).first, (sumOf ys).last⟩ := by
  obtain ⟨x, xs, rfl⟩ := List.exists_cons_of_ne_nil hx
  have hlast : (x :: xs ++ ys).getLastD default = ys.getLastD default := by
    rw [List.getLastD_eq_getLast?, List.getLastD_eq_getLast?, List.getLast?_append_of_ne_nil _ hy]
  rw [sumOf, List.length_append, hlast]
  rfl

theorem headD_mem {es : List Entry} (h : es ≠ []) : es.headD default ∈ es := by
  obtain ⟨e, es, rfl⟩ := List.exists_cons_of_ne_nil h
  exact List.mem_cons_self

theorem getLastD_mem {es : List Entry} (h : es ≠ []) : es.getLastD default ∈ es := by
  rw [List.getLastD_eq_getLast?, List.getLast?_eq_some_getLast h]
  exact List.getLast_mem h

/-- The loop over the children, each separator being the first entry of the child behind it. -/
theorem checkKids_ok {sub : Nat → Except String NodeSum} {nds : List BulkNode} {ess : List (List Entry)}
    (hsub : List.Forall₂ (fun nd es => Sums nd es ∧ sub nd.ord = .ok (sumOf es)) nds ess)
    (hs : (ess.flatten.map (keyOf m)).Pairwise (· < ·)) (todo i : Nat) (hi : i + todo = ess.length) :
    checkKids m sub o (branchOver nds) todo i (sumOf (ess.take i).flatten) =
      .ok (sumOf ess.flatten) := by
  have hlen := hsub.length_eq
  induction todo generalizing i with
  | zero => rw [checkKids, List.take_of_length_le (by omega)]
  | succ todo ih =>
    have hat : ∀ j (hj : j < ess.length), Sums (nds[j]) (ess[j]) ∧ sub (nds[j]).ord = .ok (sumOf ess[j]) := fun j hj =>
      hsub.get (by omega) hj
    obtain ⟨hsum, hok⟩ := hat i (by omega)
    have hsep : ∀ j, (hj : j + 1 < ess.length) → (branchOver nds).sep j = ess[j + 1].headD default := by
      intro j hj
      rw [← (hat (j + 1) hj).1.first]
      simp [branchOver, Branch.sep, show j + 1 < nds.length by omega]
    have hchild : (branchOver nds).child i = nds[i].ord := by
      simp [branchOver, Branch.child, show i < nds.length by omega]
    have hcount : (branchOver nds).count i = (sumOf ess[i]).count := by
      simp [branchOver, Branch.count, show i < nds.length by omega, hsum.count, sumOf, Nat.mod_eq_of_lt hsum.small]
    have htake : (ess.take (i + 1)).flatten = (ess.take i).flatten ++ ess[i] := by
      rw [List.take_succ_eq_append_getElem (by omega), List.flatten_append, List.flatten_singleton]
    have hrest := ih (i + 1) (by omega)
    rw [htake] at hrest
    rw [checkKids, hchild, hok]
    dsimp only
    rw [if_neg (not_not.mpr hcount)]
    rcases Nat.eq_zero_or_pos i with rfl | hpos
    · rw [if_pos rfl]
      simpa [sumOf] using hrest
    · -- everything left of child `i` is below everything in it
      have hbelow : ∀ x ∈ (ess.take i).flatten, ∀ y ∈ ess[i], keyOf m x < keyOf m y := by
        have hsplit : ess.flatten = (ess.take i).flatten ++ (ess[i] ++ (ess.drop (i + 1)).flatten) := by
          rw [← List.append_assoc, ← htake, ← List.flatten_append, List.take_append_drop]
        rw [hsplit, List.map_append, List.pairwise_append] at hs
        exact fun x hx y hy => hs.2.2 _ (List.mem_map_of_mem hx) _ (List.mem_map_of_mem (List.mem_append_left _ hy))
      have hmem : ∀ j (hj : j < i), ∀ x ∈ ess[j], x ∈ (ess.take i).flatten := fun j hj x hx =>
        List.mem_flatten.mpr ⟨_, List.mem_take_iff_getElem.mpr ⟨j, by omega, rfl⟩, hx⟩
      have hleft : (ess.take i).flatten ≠ [] :=
        List.ne_nil_of_mem (hmem 0 hpos _ (headD_mem (hat 0 (by omega)).1.pos))
      have hhead := headD_mem hsum.pos
      have hsi := hsep (i - 1) (by omega)
      simp only [show i - 1 + 1 = i by omega] at hsi
      have habove : cmpKeys m (sumOf (ess.take i).flatten).last (ess[i].headD default) = .lt :=
        cmpKeys_lt.mpr (hbelow _ (getLastD_mem hleft) _ hhead)
      rw [if_neg (by omega), hsi, if_neg (not_not.mpr habove), if_neg fun hc => lt_irrefl _ (cmpKeys_gt.mp hc), if_neg]
      · rw [sumOf_append hleft hsum.pos] at hrest
        exact hrest
      · rintro ⟨htwo, hbad⟩
        have hsj := hsep (i - 2) (by omega)
        simp only [show i - 2 + 1 = i - 1 by omega] at hsj
        rw [hsj] at hbad
        exact hbad (cmpKeys_gt.mpr (hbelow _ (hmem (i - 1) (by omega) _ (headD_mem (hat (i - 1) (by omega)).1.pos)) _ hhead))

theorem checkNode_ok (h : Holds t lv isRoot o es) (hs : (es.map (keyOf m)).Pairwise (· < ·)) :
    t.checkNode m lv isRoot o = .ok (sumOf es) := by
  induction lv generalizing isRoot o es with
  | zero => exact checkLeaf_ok h hs
  | succ lv ih =>
    obtain ⟨nds, ess, -, hb, hall, rfl, htwo, hcap, hmin⟩ := h
    have hlen := hall.length_eq
    have hsub : List.Forall₂ (fun nd es => Sums nd es ∧ t.checkNode m lv false nd.ord = .ok (sumOf es)) nds ess := by
      refine List.forall₂_iff_get.mpr ⟨hlen, fun i h₁ h₂ => ?_⟩
      have hi := hall.get h₁ h₂
      refine ⟨hi.1, ih hi.2 (hs.sublist (List.Sublist.map _ ?_))⟩
      exact List.sublist_flatten_of_mem (List.get_mem _ _)
    have hkeys : (t.branches o).nkeys = nds.length - 1 := by simp [hb, branchOver, Branch.nkeys]
    have hkids := checkKids_ok (o := o) hsub hs (ess.length) 0 (by omega)
    unfold checkNode
    dsimp only
    have hsm : sepMax = arity - 1 := rfl
    rw [hkeys, if_neg (by omega), if_neg fun hc => by have := hmin hc.1; omega, if_neg (by omega), hb,
      show nds.length - 1 + 1 = ess.length by omega]
    exact hkids

end Check

/-- New branches leave the leaves and the branches that stand as they are. -/
structure Grows (t t' : Tree) : Prop where
  leaves : t'.leaves = t.leaves
  nLeaf : t'.nLeaf = t.nLeaf
  minLeaf : t'.minLeaf = t.minLeaf
  nBranch : t.nBranch ≤ t'.nBranch
  branches : ∀ o, o < t.nBranch → t'.branches o = t.branches o
  free : t'.branchFree = []

theorem Grows.trans {t'' : Tree} (h : Grows t t') (h' : Grows t' t'') : Grows t t'' where
  leaves := h'.leaves.trans h.leaves
  nLeaf := h'.nLeaf.trans h.nLeaf
  minLeaf := h'.minLeaf.trans h.minLeaf
  nBranch := h.nBranch.trans h'.nBranch
  branches := fun o ho => (h'.branches o (ho.trans_le h.nBranch)).trans (h.branches o ho)
  free := h'.free

theorem Holds.grows (h : Holds t lv isRoot o es) (hg : Grows t t') : Holds t' lv isRoot o es :=
  h.frame (fun o => by rw [hg.leaves]) hg.nBranch hg.branches

structure Raised (t : Tree) (ns : List BulkNode) (u : BulkNode) : Prop where
  lt : u.ord < t.nBranch
  branch : t.branches u.ord = branchOver ns
  first : u.first = (ns.headD default).first
  count : u.count = (ns.map BulkNode.count).sum

theorem Raised.grows {ns : List BulkNode} {u : BulkNode} (h : Raised t ns u) (hg : Grows t t') : Raised t' ns u :=
  ⟨h.lt.trans_le hg.nBranch, (hg.branches _ h.lt).trans h.branch, h.first, h.count⟩

theorem loadBranches_spec (groups : List (List BulkNode)) (hfree : t.branchFree = []) :
    Grows t (t.loadBranches groups).1 ∧ List.Forall₂ (Raised (t.loadBranches groups).1) groups (t.loadBranches groups).2 := by
  induction groups generalizing t with
  | nil => exact ⟨⟨rfl, rfl, rfl, Nat.le_refl _, fun _ _ => rfl, hfree⟩, .nil⟩
  | cons ns groups ih =>
    have halloc : t.allocBranch = (({ t with nBranch := t.nBranch + 1 } : Tree).setBranch t.nBranch emptyBranch, t.nBranch) := by
      rw [allocBranch, hfree]
    generalize ht : (t.allocBranch.1.setBranch t.allocBranch.2 (branchOver ns)) = t₁
    have hfirst : Grows t t₁ := by
      rw [← ht, halloc]
      refine ⟨rfl, rfl, rfl, Nat.le_succ _, fun o ho => ?_, hfree⟩
      simp [setBranch, Function.update_of_ne (Nat.ne_of_lt ho)]
    obtain ⟨hg, hall⟩ := ih hfirst.free
    have hnew : Raised t₁ ns ⟨t.nBranch, (ns.headD default).first, (ns.map BulkNode.count).sum⟩ := by
      rw [← ht, halloc]
      exact ⟨Nat.lt_succ_self _, by simp [setBranch], rfl, rfl⟩
    have heq : t.loadBranches (ns :: groups) = ((t₁.loadBranches groups).1,
        ⟨t.nBranch, (ns.headD default).first, (ns.map BulkNode.count).sum⟩ :: (t₁.loadBranches groups).2) := by
      rw [loadBranches, ← ht, halloc]
    rw [heq]
    exact ⟨hfirst.trans hg, .cons (hnew.grows hg) hall⟩

/-- A level under construction: its nodes hold consecutive entries and the first leaf stands under the first node. -/
structure Row (t : Tree) (lv : Nat) (level : List BulkNode) (ess : List (List Entry)) : Prop where
  nodes : List.Forall₂ (fun nd es => Sums nd es ∧ Holds t lv (decide (level.length = 1)) nd.ord es) level ess
  left : (t.descend (fun _ s => (0, s)) lv (level.headD default).ord ()).1 = 0
  free : t.branchFree = []

theorem Holds.descend (h : Holds t lv isRoot o es) (hg : Grows t t') :
    (t'.descend (fun _ s => (0, s)) lv o ()).1 = (t.descend (fun _ s => (0, s)) lv o ()).1 := by
  induction lv generalizing isRoot o es with
  | zero => rfl
  | succ lv ih =>
    obtain ⟨nds, ess, ho, hb, hall, -, htwo, -⟩ := h
    rw [Tree.descend, Tree.descend, hg.branches o ho]
    cases hall with
    | nil => simp at htwo
    | cons hnd _ =>
      rw [hb]
      exact ih hnd.2

theorem headD_flatten (ess : List (List Entry)) (h : ess.headD [] ≠ []) : ess.flatten.headD default = (ess.headD []).headD default := by
  cases ess with
  | nil => exact absurd rfl h
  | cons es ess =>
    obtain ⟨e, es, rfl⟩ := List.exists_cons_of_ne_nil h
    rfl

theorem Raised.sums {ns : List BulkNode} {u : BulkNode} {ess : List (List Entry)} (h : Raised t ns u)
    (hall : List.Forall₂ Sums ns ess) (hpos : 0 < ns.length) (hsmall : ess.flatten.length < countMax) : Sums u ess.flatten := by
  have hcount : (ns.map BulkNode.count).sum = ess.flatten.length := by
    rw [List.length_flatten]
    clear h hpos hsmall
    induction hall with
    | nil => rfl
    | cons hnd _ ih => rw [List.map_cons, List.map_cons, List.sum_cons, List.sum_cons, ih, hnd.count]
  cases hall with
  | nil => simp at hpos
  | @cons nd es ns ess hnd hall =>
    refine ⟨?_, h.count.trans hcount, ?_, hsmall⟩
    · rw [headD_flatten (es :: ess) hnd.pos]
      exact h.first.trans hnd.first
    · intro hnil
      exact hnd.pos (List.append_eq_nil_iff.mp (List.flatten_cons ▸ hnil)).1

variable {level : List BulkNode} {ess : List (List Entry)}

theorem span_sublist {α : Type*} (l : List α) (sp : Nat × Nat) : (span l sp).Sublist l :=
  (List.take_sublist _ _).trans (List.drop_sublist _ _)

/-- One round of the loop: the level above holds the same entries with fewer nodes. -/
theorem Row.raise (h : Row t lv level ess) (hlevel : 1 < level.length) (hsmall : ess.flatten.length < countMax) :
    Grows t (t.raiseLevel level).1 ∧ 0 < (t.raiseLevel level).2.length ∧ (t.raiseLevel level).2.length < level.length ∧
      ∃ ess', ess'.flatten = ess.flatten ∧ Row (t.raiseLevel level).1 (lv + 1) (t.raiseLevel level).2 ess' := by
  obtain ⟨hpos, hless, htwo⟩ := fillSpans_shrinks hlevel
  have hf := fillSpans_branch (n := level.length) (by omega)
  have hlen := h.nodes.length_eq
  unfold raiseLevel
  obtain ⟨hg, hall⟩ := loadBranches_spec ((fillSpans level.length arity).map (span level)) h.free
  generalize t.loadBranches ((fillSpans level.length arity).map (span level)) = r at hg hall ⊢
  obtain ⟨t', up⟩ := r
  dsimp only at hg hall ⊢
  generalize hsps : fillSpans level.length arity = sps at hpos hless htwo hf hall
  have hup : up.length = sps.length := by rw [← hall.length_eq, List.length_map]
  rw [List.forall₂_map_left_iff] at hall
  obtain ⟨-, -, hin⟩ := hf.covers.flatten (Nat.le_refl level.length)
  have hroot : decide (level.length = 1) = false := by simpa using Nat.ne_of_gt hlevel
  have hnodes := h.nodes
  rw [hroot] at hnodes
  refine ⟨hg, by omega, by omega, sps.map fun sp => (span ess sp).flatten, ?_, ?_, ?_, hg.free⟩
  · have hflat := (Filled.groups (l := ess) (hlen ▸ hf)).1
    calc (sps.map fun sp => (span ess sp).flatten).flatten = ((sps.map (span ess)).map List.flatten).flatten := by
          rw [List.map_map]; rfl
      _ = (sps.map (span ess)).flatten.flatten := List.flatten_flatten.symm
      _ = ess.flatten := by rw [hflat]
  · rw [List.forall₂_map_right_iff]
    refine List.Forall₂.flip (((List.forall₂_and_left _ _).mpr ⟨fun sp hsp => hsp, hall⟩).imp fun sp u hu => ?_)
    obtain ⟨hsp, hraised⟩ := hu
    obtain ⟨-, hsize, -⟩ := hin sp hsp
    have hpart : List.Forall₂ (fun nd es => Sums nd es ∧ Holds t lv false nd.ord es) (span level sp) (span ess sp) :=
      List.forall₂_take _ (List.forall₂_drop _ hnodes)
    have hsub : (span ess sp).flatten.length ≤ ess.flatten.length := (span_sublist ess sp).flatten.length_le
    refine ⟨hraised.sums (hpart.imp fun _ _ hx => hx.1) (by rw [hsize]; have := htwo sp hsp; omega) (by omega), ?_⟩
    refine ⟨span level sp, span ess sp, hraised.lt, hraised.branch, hpart.imp fun _ _ hx => ⟨hx.1, hx.2.grows hg⟩, rfl, ?_, ?_,
      fun hnr => ?_⟩
    · rw [hsize]
      exact htwo sp hsp
    · rw [hsize]
      exact hf.most sp hsp
    · rw [hsize]
      exact hf.least (by have : up.length ≠ 1 := by simpa using hnr
                         omega) sp hsp
  · -- the first span begins at the first node
    cases hall with
    | nil => simp at hpos
    | @cons sp u sps up hraised hall =>
      have hzero : sp.1 = 0 := hf.covers.1
      obtain ⟨k, hk⟩ : ∃ k, sp.2 - sp.1 = k + 1 := ⟨sp.2 - 1, by have := htwo sp List.mem_cons_self; omega⟩
      cases hnodes with
      | nil => simp at hlevel
      | @cons nd es level ess hnd _ =>
        have hleft := h.left
        rw [List.headD_cons, Tree.descend, hraised.branch, span, hk, hzero]
        exact (hnd.2.descend hg).trans hleft

theorem raiseLevels_spec (fuel : Nat) (h : Row t lv level ess) (hpos : 0 < level.length) (hfuel : level.length ≤ fuel)
    (hsmall : ess.flatten.length < countMax) :
    ∃ t' nd lv', raiseLevels fuel t level (lv + 1) = (t', [nd], lv' + 1) ∧ Grows t t' ∧ Row t' lv' [nd] [ess.flatten] := by
  induction fuel generalizing t lv level ess with
  | zero => omega
  | succ fuel ih =>
    rw [raiseLevels]
    split
    next hlevel =>
      obtain ⟨hg, hpos', hless, ess', hflat, hrow⟩ := h.raise hlevel hsmall
      obtain ⟨t', nd, lv', heq, hg', hrow'⟩ := ih hrow hpos' (by omega) (by rw [hflat]; exact hsmall)
      rw [hflat] at hrow'
      exact ⟨t', nd, lv', heq, hg.trans hg', hrow'⟩
    next hone =>
      obtain ⟨nd, rfl⟩ := List.length_eq_one_iff.mp (show level.length = 1 by omega)
      obtain ⟨es, rfl⟩ := List.length_eq_one_iff.mp (h.nodes.length_eq.symm.trans rfl : ess.length = 1)
      refine ⟨t, nd, lv, rfl, ⟨rfl, rfl, rfl, Nat.le_refl _, fun _ _ => rfl, h.free⟩, ?_⟩
      rw [List.flatten_singleton]
      exact h

/-- The nodes of leaves loaded one after another, the first one at `k`. -/
def leafNodes : Nat → List (List Entry) → List BulkNode
  | _, [] => []
  | k, es :: groups => ⟨k, es.headD default, es.length⟩ :: leafNodes (k + 1) groups

variable {groups : List (List Entry)}

theorem leafNodes_length (k : Nat) (groups : List (List Entry)) : (leafNodes k groups).length = groups.length := by
  induction groups generalizing k with
  | nil => rfl
  | cons es groups ih => rw [leafNodes, List.length_cons, ih, List.length_cons]

theorem loadLeaves_spec (groups : List (List Entry)) (hfree : t.leafFree = []) :
    (t.loadLeaves groups).2 = leafNodes t.nLeaf groups ∧
      (∀ i (h : i < groups.length), (t.loadLeaves groups).1.leaves (t.nLeaf + i) = ⟨0, groups[i]⟩) ∧
      (∀ o, o < t.nLeaf → (t.loadLeaves groups).1.leaves o = t.leaves o) ∧
      (t.loadLeaves groups).1.nLeaf = t.nLeaf + groups.length ∧ (t.loadLeaves groups).1.branchFree = t.branchFree ∧
      (t.loadLeaves groups).1.minLeaf = t.minLeaf := by
  induction groups generalizing t with
  | nil => exact ⟨rfl, fun i h => absurd h (by simp), fun _ _ => rfl, rfl, rfl, rfl⟩
  | cons es groups ih =>
    have halloc : t.allocLeaf = (({ t with nLeaf := t.nLeaf + 1 } : Tree).setLeaf t.nLeaf emptyLeaf, t.nLeaf) := by
      rw [allocLeaf, hfree]
    generalize ht : t.allocLeaf.1.setLeaf t.allocLeaf.2 { t.allocLeaf.1.leaves t.allocLeaf.2 with ents := es } = t₁
    have hnew : t₁.leaves t.nLeaf = ⟨0, es⟩ := by
      rw [← ht, halloc]
      simp [setLeaf, emptyLeaf]
    have hold : ∀ o, o < t.nLeaf → t₁.leaves o = t.leaves o := by
      intro o ho
      rw [← ht, halloc]
      simp [setLeaf, Function.update_of_ne (Nat.ne_of_lt ho)]
    have hrest : t₁.nLeaf = t.nLeaf + 1 ∧ t₁.branchFree = t.branchFree ∧ t₁.minLeaf = t.minLeaf ∧ t₁.leafFree = [] := by
      rw [← ht, halloc]
      exact ⟨rfl, rfl, rfl, hfree⟩
    obtain ⟨hn, hb, hm, hlf⟩ := hrest
    obtain ⟨hlevel, hat, hkeep, hcount, hfree', hmin⟩ := ih hlf
    have heq : t.loadLeaves (es :: groups) =
        ((t₁.loadLeaves groups).1, ⟨t.nLeaf, es.headD default, es.length⟩ :: (t₁.loadLeaves groups).2) := by
      rw [loadLeaves, ← ht, halloc]
    rw [heq]
    refine ⟨by rw [hlevel, hn, leafNodes], fun i hi => ?_, fun o ho => ?_, ?_, hfree'.trans hb, hmin.trans hm⟩
    · cases i with
      | zero => exact (hkeep _ (by omega)).trans hnew
      | succ i =>
        have := hat i (by simpa using hi)
        rw [hn, Nat.add_assoc, Nat.add_comm 1] at this
        exact this
    · exact (hkeep o (by omega)).trans (hold o ho)
    · dsimp only
      rw [hcount, hn, List.length_cons]
      omega

theorem linkLeaves_spec (k : Nat) (groups : List (List Entry)) :
    (∀ o, (t.linkLeaves (leafNodes k groups)).leaves o =
      if k ≤ o ∧ o + 1 < k + groups.length then { t.leaves o with next := o + 1 } else t.leaves o) ∧
      (t.linkLeaves (leafNodes k groups)).nLeaf = t.nLeaf ∧ (t.linkLeaves (leafNodes k groups)).branchFree = t.branchFree ∧
      (t.linkLeaves (leafNodes k groups)).minLeaf = t.minLeaf := by
  induction groups generalizing t k with
  | nil => exact ⟨fun o => by rw [if_neg (by simp only [List.length_nil]; omega)]; rfl, rfl, rfl, rfl⟩
  | cons es groups ih =>
    cases groups with
    | nil => exact ⟨fun o => by rw [if_neg (by simp only [List.length_singleton]; omega)]; rfl, rfl, rfl, rfl⟩
    | cons es' groups =>
      obtain ⟨hl, hrest⟩ := ih (t := t.setLeaf k { t.leaves k with next := k + 1 }) (k + 1)
      refine ⟨fun o => (hl o).trans ?_, hrest⟩
      simp only [List.length_cons]
      by_cases hk : o = k
      · subst hk
        rw [if_neg (by omega), if_pos (by omega)]
        simp [setLeaf]
      · have hne : (t.setLeaf k { t.leaves k with next := k + 1 }).leaves o = t.leaves o := by
          simp [setLeaf, Function.update_of_ne hk]
        rw [hne]
        by_cases hin : k + 1 ≤ o ∧ o + 1 < k + 1 + (groups.length + 1)
        · rw [if_pos hin, if_pos (by omega)]
        · rw [if_neg hin, if_neg (by omega)]

/-- The loaded leaves, linked in order; 0 ends the chain. -/
def Chained (t : Tree) (groups : List (List Entry)) : Prop :=
  ∀ i (h : i < groups.length), t.leaves i = ⟨if i + 1 < groups.length then i + 1 else 0, groups[i]⟩

theorem leafNodes_row {g : List (List Entry)} (k : Nat) (hat : ∀ i (h : i < g.length), (t.leaves (k + i)).ents = g[i])
    (hsize : ∀ es ∈ g, 0 < es.length ∧ es.length ≤ leafCap) (hmin : isRoot = false → ∀ es ∈ g, leafMin ≤ es.length) :
    List.Forall₂ (fun nd es => Sums nd es ∧ Holds t 0 isRoot nd.ord es) (leafNodes k g) g := by
  induction g generalizing k with
  | nil => exact .nil
  | cons es g ih =>
    obtain ⟨hpos, hcap⟩ := hsize es List.mem_cons_self
    have hlc : leafCap < countMax := by decide
    refine .cons ⟨⟨rfl, rfl, List.ne_nil_of_length_pos hpos, by omega⟩, hat 0 (by simp), hcap, fun hr => hmin hr es List.mem_cons_self⟩
      (ih (k + 1) (fun i hi => ?_) (fun x hx => hsize x (List.mem_cons_of_mem _ hx)) fun hr x hx => hmin hr x (List.mem_cons_of_mem _ hx))
    have := hat (i + 1) (by simpa using hi)
    rw [← Nat.add_assoc, Nat.add_right_comm] at this
    exact this

theorem bulkLeaves_spec (hleaf : t.leafFree = []) (hbranch : t.branchFree = []) (hn : t.nLeaf = 0) (hne : groups ≠ [])
    (hsize : ∀ es ∈ groups, 0 < es.length ∧ es.length ≤ leafCap) (hmin : 1 < groups.length → ∀ es ∈ groups, leafMin ≤ es.length) :
    Chained (t.bulkLeaves groups).1 groups ∧ (t.bulkLeaves groups).1.nLeaf = groups.length ∧
      (t.bulkLeaves groups).1.minLeaf = t.minLeaf ∧ (t.bulkLeaves groups).2.length = groups.length ∧
      Row (t.bulkLeaves groups).1 0 (t.bulkLeaves groups).2 groups := by
  obtain ⟨hlevel, hat, -, hcount, hfree, hedge⟩ := loadLeaves_spec groups hleaf
  rw [hn] at hlevel hcount
  unfold bulkLeaves
  dsimp only
  rw [hlevel]
  obtain ⟨hl, hn', hf', hm'⟩ := linkLeaves_spec (t := (t.loadLeaves groups).1) 0 groups
  have hchain : Chained ((t.loadLeaves groups).1.linkLeaves (leafNodes 0 groups)) groups := by
    intro i hi
    have := hat i hi
    rw [hn, Nat.zero_add] at this
    rw [hl, this]
    by_cases hi' : i + 1 < groups.length
    · rw [if_pos (by omega), if_pos hi']
    · rw [if_neg (by omega), if_neg hi']
  refine ⟨hchain, by rw [hn', hcount, Nat.zero_add], hm'.trans hedge, leafNodes_length 0 groups, ?_, ?_, hf'.trans (hfree.trans hbranch)⟩
  · refine leafNodes_row 0 (fun i hi => by rw [Nat.zero_add, hchain i hi]) hsize fun hr => hmin ?_
    have hlen := leafNodes_length 0 groups
    have hpos := List.length_pos_of_ne_nil hne
    have : (leafNodes 0 groups).length ≠ 1 := by simpa using hr
    omega
  · obtain ⟨es, gs, rfl⟩ := List.exists_cons_of_ne_nil hne
    rfl

section Chain

variable {μ : Type*} [LinearOrder μ] {m : Nat → μ}

theorem chainEntries_ok (es : List Entry) (i : Nat) (last : Option Entry)
    (hs : ((last.toList ++ es).map (keyOf m)).Pairwise (· < ·)) : chainEntries m o es i last = .ok ((last.toList ++ es).getLast?) := by
  induction es generalizing i last with
  | nil => cases last <;> rfl
  | cons e es ih =>
    have hup : ¬∃ l ∈ last, e.score < l.score ∨ (e.score = l.score ∧ compare (m e.ref) (m l.ref) ≠ .gt) := by
      rintro ⟨l, rfl, hbad⟩
      have hlt : keyOf m l < keyOf m e := by
        simp only [Option.toList_some, List.singleton_append, List.map_cons, List.pairwise_cons] at hs
        exact hs.1 _ (by simp)
      unfold keyOf at hlt
      rw [Prod.Lex.toLex_lt_toLex] at hlt
      rcases hlt with hlt | ⟨heq, hlt⟩
      · rcases hbad with hbad | ⟨hbad, -⟩ <;> simp only at hlt <;> omega
      · rcases hbad with hbad | ⟨-, hbad⟩
        · simp only at heq
          omega
        · exact hbad (compare_gt_iff_gt.mpr hlt)
    rw [chainEntries, if_neg hup, ih (i + 1) (some e)]
    · cases last <;> simp
    · cases last with
      | none => exact hs
      | some l => exact (List.pairwise_cons.mp hs).2

theorem checkLeafChain_ok (hc : Chained t groups) (left i fuel seen : Nat) (last : Option Entry) (want : Nat)
    (hi : i + left + 1 = groups.length) (hfuel : left < fuel)
    (hs : ((last.toList ++ (groups.drop i).flatten).map (keyOf m)).Pairwise (· < ·))
    (hwant : seen + (groups.drop i).flatten.length = want) : t.checkLeafChain m want fuel i seen last = some (.ok ()) := by
  induction left generalizing i fuel seen last with
  | zero =>
    obtain ⟨fuel, rfl⟩ : ∃ k, fuel = k + 1 := ⟨fuel - 1, by omega⟩
    rw [List.drop_eq_getElem_cons (by omega), List.drop_of_length_le (by omega), List.flatten_singleton] at hs hwant
    have hat : t.leaves i = ⟨0, groups[i]⟩ := by rw [hc i (by omega), if_neg (by omega)]
    rw [checkLeafChain, hat, chainEntries_ok _ _ _ hs]
    dsimp only
    rw [if_pos rfl]
    exact if_neg (not_not.mpr hwant)
  | succ left ih =>
    obtain ⟨fuel, rfl⟩ : ∃ k, fuel = k + 1 := ⟨fuel - 1, by omega⟩
    rw [List.drop_eq_getElem_cons (by omega), List.flatten_cons] at hs hwant
    rw [← List.append_assoc, List.map_append, List.pairwise_append] at hs
    have hat : t.leaves i = ⟨i + 1, groups[i]⟩ := by rw [hc i (by omega), if_pos (by omega)]
    rw [checkLeafChain, hat, chainEntries_ok _ _ _ hs.1]
    dsimp only
    rw [if_neg (Nat.succ_ne_zero i)]
    refine ih (i + 1) fuel _ _ (by omega) (by omega) ?_ ?_
    · rw [List.map_append, List.pairwise_append]
      refine ⟨?_, hs.2.1, fun a ha b hb => hs.2.2 a ?_ b hb⟩
      · cases (last.toList ++ groups[i]).getLast? <;> simp
      · obtain ⟨e, he, rfl⟩ := List.mem_map.mp ha
        exact List.mem_map_of_mem (List.mem_of_getLast? (Option.mem_toList.mp he))
    · rw [← hwant, List.length_append]
      exact Nat.add_assoc _ _ _

end Chain

section Load

variable {μ : Type*} [LinearOrder μ] {m : Nat → μ}

theorem leftmostLeaf_eq (h : t.minLeaf = none) : t.leftmostLeaf.1.leaves = t.leaves ∧ t.leftmostLeaf.2 = t.leftEdge := by
  unfold leftmostLeaf
  rw [h]
  cases t.edgeCache <;> exact ⟨rfl, rfl⟩

theorem check_ok (groups : List (List Entry)) (hheight : t.height = lv + 1) (hrl : t.rootIsLeaf = (t.height == 1))
    (hroot : Holds t lv true t.root groups.flatten) (hcount : t.entries = groups.flatten.length) (hc : Chained t groups) (hn : t.nLeaf = groups.length) (hne : groups ≠ [])
    (hmin : t.minLeaf = none) (hleft : t.leftEdge = 0) (hs : (groups.flatten.map (keyOf m)).Pairwise (· < ·)) :
    t.check m = some (.ok ()) := by
  have hpos := List.length_pos_of_ne_nil hne
  obtain ⟨hleaves, hedge⟩ := leftmostLeaf_eq hmin
  have hc' : Chained t.leftmostLeaf.1 groups := fun i hi => by rw [hleaves, hc i hi]
  have htotal : (sumOf groups.flatten).count = t.entries := hcount.symm
  unfold check
  rw [if_neg (by omega), if_neg (not_not.mpr hrl), show t.height - 1 = lv by omega, checkNode_ok hroot hs]
  dsimp only
  rw [if_neg (not_not.mpr htotal), hedge, hleft]
  refine checkLeafChain_ok hc' (groups.length - 1) 0 _ 0 none _ (by omega) (by omega) ?_ ?_
  · rw [List.drop_zero]
    exact hs
  · rw [List.drop_zero, Nat.zero_add]
    rfl

theorem bulkLoad_ok {es : List Entry} (hne : es ≠ []) (hsmall : es.length < countMax) (hs : (es.map (keyOf m)).Pairwise (· < ·)) :
    (bulkLoad es).check m = some (.ok ()) := by
  have hpos := List.length_pos_of_ne_nil hne
  obtain ⟨hflat, hsize, hmin⟩ := (fillSpans_leaf hpos).groups (l := es)
  have hgne : (fillSpans es.length leafCap).map (span es) ≠ [] := by
    intro hnil
    rw [hnil] at hflat
    exact hne hflat.symm
  obtain ⟨hchain, hnl, hedge, hlen, hrow⟩ := bulkLeaves_spec (t := newTree.reset) rfl rfl rfl hgne hsize hmin
  generalize hgr : (fillSpans es.length leafCap).map (span es) = groups at hflat hsize hmin hgne hchain hnl hedge hlen hrow
  obtain ⟨t', nd, lv, hlevels, hg, htop⟩ := raiseLevels_spec (newTree.reset.bulkLeaves groups).2.length hrow
    (by rw [hlen]; exact List.length_pos_of_ne_nil hgne) (Nat.le_refl _) (by rw [hflat]; exact hsmall)
  have hbulk : newTree.reset.bulkLevels es = (t', [nd], lv + 1) := by
    unfold bulkLevels
    dsimp only
    rw [hgr]
    exact hlevels
  have hload : bulkLoad es = { t' with root := nd.ord, height := lv + 1, rootIsLeaf := lv + 1 == 1, entries := es.length } := by
    unfold bulkLoad bulkLoadInto
    dsimp only
    rw [if_neg (by omega), hbulk]
    rfl
  have hnode : Holds t' lv true nd.ord groups.flatten := by
    cases htop.nodes with
    | cons h _ => exact h.2
  rw [← hflat] at hs
  rw [hload]
  generalize hu : ({ t' with root := nd.ord, height := lv + 1, rootIsLeaf := lv + 1 == 1, entries := es.length } : Tree) = u
  have hsame : Grows t' u := by
    rw [← hu]
    exact ⟨rfl, rfl, rfl, Nat.le_refl _, fun _ _ => rfl, htop.free⟩
  have hfields : u.root = nd.ord ∧ u.height = lv + 1 ∧ u.rootIsLeaf = (lv + 1 == 1) ∧ u.entries = es.length := by
    rw [← hu]
    exact ⟨rfl, rfl, rfl, rfl⟩
  obtain ⟨hur, huh, hul, hue⟩ := hfields
  refine check_ok groups huh (by rw [hul, huh]) (by rw [hur]; exact hnode.grows hsame) (by rw [hue, hflat]) (fun i hi => ?_)
    (hsame.nLeaf.trans (hg.nLeaf.trans hnl)) hgne (hsame.minLeaf.trans (hg.minLeaf.trans hedge)) ?_ hs
  · rw [hsame.leaves, hg.leaves]
    exact hchain i hi
  · rw [leftEdge, hur, huh]
    exact (hnode.descend hsame).trans htop.left

end Load

theorem loadBranches_length (t : Tree) (groups : List (List BulkNode)) : (t.loadBranches groups).2.length = groups.length := by
  induction groups generalizing t with
  | nil => rfl
  | cons ns groups ih =>
    unfold loadBranches
    dsimp only
    rw [List.length_cons, ih, List.length_cons]

theorem raiseLevels_single (fuel : Nat) (t : Tree) (level : List BulkNode) (height : Nat) (hpos : 0 < level.length)
    (hfuel : level.length ≤ fuel) : (raiseLevels fuel t level height).2.1.length = 1 := by
  induction fuel generalizing t level height with
  | zero => omega
  | succ fuel ih =>
    rw [raiseLevels]
    split
    next hlevel =>
      obtain ⟨hpos', hless, -⟩ := fillSpans_shrinks hlevel
      have hlen : (t.raiseLevel level).2.length = (fillSpans level.length arity).length := by
        rw [raiseLevel, loadBranches_length, List.length_map]
      exact ih _ _ _ (by omega) (by omega)
    next => dsimp only; omega

theorem bulkLeaves_length (groups : List (List Entry)) (hfree : t.leafFree = []) : (t.bulkLeaves groups).2.length = groups.length := by
  rw [bulkLeaves, (loadLeaves_spec groups hfree).1, leafNodes_length]

theorem bulkLevels_single (t : Tree) {es : List Entry} (hne : es ≠ []) (hfree : t.leafFree = []) : (t.bulkLevels es).2.1.length = 1 := by
  have hcov := (fillSpans_leaf (List.length_pos_of_ne_nil hne)).covers
  have hpos : 0 < (fillSpans es.length leafCap).length := by
    cases hs : fillSpans es.length leafCap with
    | nil =>
      rw [hs] at hcov
      exact absurd (List.length_eq_zero_iff.mp (hcov : 0 = es.length).symm) hne
    | cons sp sps => exact Nat.succ_pos _
  unfold bulkLevels
  refine raiseLevels_single _ _ _ 1 ?_ (Nat.le_refl _)
  rw [bulkLeaves_length _ hfree, List.length_map]
  exact hpos

theorem bulkLoad_entries (es : List Entry) : (bulkLoad es).entries = es.length := by
  unfold bulkLoad bulkLoadInto
  dsimp only
  split
  next h => exact h.symm
  next => rfl

/-- Every level is cut into consecutive spans within the bounds `Check` sets, the levels end with a single root, and the tree loaded from
fewer than 2^32 entries in order passes. -/
theorem bulkLoad_checked {μ : Type*} [LinearOrder μ] (m : Nat → μ) :
    (∀ n, 0 < n → Filled n leafCap leafMin (fillSpans n leafCap) ∧ Filled n arity (branchMin + 1) (fillSpans n arity)) ∧
      ∀ es : List Entry, es ≠ [] → (newTree.reset.bulkLevels es).2.1.length = 1 ∧ (bulkLoad es).entries = es.length ∧
        ((es.map (keyOf m)).Pairwise (· < ·) → es.length < countMax → (bulkLoad es).check m = some (.ok ())) :=
  ⟨fun _ hn => ⟨fillSpans_leaf hn, fillSpans_branch hn⟩, fun _ hne =>
    ⟨bulkLevels_single _ hne rfl, bulkLoad_entries _, fun hs hsmall => bulkLoad_ok hne hsmall hs⟩⟩

def CountsFit (t : Tree) : Prop := ∀ o i, (t.branches o).count i < countMax

theorem branchOver_fits (ns : List BulkNode) (i : Nat) : (branchOver ns).count i < countMax := by
  have hpos : 0 < countMax := by decide
  rw [Branch.count, branchOver]
  dsimp only
  by_cases hi : i < ns.length
  · simp [hi, Nat.mod_lt _ hpos]
  · simpa [hi] using hpos

theorem CountsFit.setBranch {b : Branch} (h : CountsFit t) (hb : ∀ i, b.count i < countMax) (o : Nat) : CountsFit (t.setBranch o b) := by
  intro o' i
  simp only [Tree.setBranch]
  rcases eq_or_ne o' o with rfl | hne
  · rw [Function.update_self]
    exact hb i
  · rw [Function.update_of_ne hne]
    exact h o' i

theorem CountsFit.loadBranches (h : CountsFit t) (groups : List (List BulkNode)) : CountsFit (t.loadBranches groups).1 := by
  induction groups generalizing t with
  | nil => exact h
  | cons ns groups ih =>
    have halloc : CountsFit t.allocBranch.1 := by
      unfold allocBranch
      split <;> exact CountsFit.setBranch (t := { t with .. }) h (branchOver_fits []) _
    exact ih (halloc.setBranch (branchOver_fits ns) _)

theorem CountsFit.raiseLevels (h : CountsFit t) (fuel : Nat) (level : List BulkNode) (height : Nat) :
    CountsFit (raiseLevels fuel t level height).1 := by
  induction fuel generalizing t level height with
  | zero => exact h
  | succ fuel ih =>
    rw [Tree.raiseLevels]
    split
    · exact ih (h.loadBranches _) _ _
    · exact h

theorem allocLeaf_branches (t : Tree) : t.allocLeaf.1.branches = t.branches := by
  unfold allocLeaf
  split <;> rfl

theorem loadLeaves_branches (t : Tree) (groups : List (List Entry)) : (t.loadLeaves groups).1.branches = t.branches := by
  induction groups generalizing t with
  | nil => rfl
  | cons es groups ih => exact (ih _).trans (allocLeaf_branches t)

theorem linkLeaves_branches (t : Tree) (level : List BulkNode) : (t.linkLeaves level).branches = t.branches := by
  induction level generalizing t with
  | nil => rfl
  | cons a level ih =>
    cases level with
    | nil => rfl
    | cons b level => exact ih _

theorem CountsFit.bulkLevels (h : CountsFit t) (es : List Entry) : CountsFit (t.bulkLevels es).1 := by
  refine CountsFit.raiseLevels (fun o i => ?_) _ _ _
  rw [bulkLeaves, linkLeaves_branches, loadLeaves_branches]
  exact h o i

theorem reset_fit (t : Tree) : CountsFit t.reset := fun _ _ => branchOver_fits [] _

theorem bulkLoad_fit {es : List Entry} (hne : es ≠ []) : CountsFit (bulkLoad es) := by
  have hfit := (reset_fit newTree).bulkLevels es
  intro o i
  unfold bulkLoad bulkLoadInto
  dsimp only
  rw [if_neg fun h => hne (List.length_eq_zero_iff.mp h)]
  exact hfit o i

section Width

variable {μ : Type*} [LinearOrder μ] {m : Nat → μ}

theorem checkKids_count {sub : Nat → Except String NodeSum} {b : Branch} (hb : ∀ i, b.count i < countMax) {todo i : Nat}
    {acc r : NodeSum} (h : checkKids m sub o b todo i acc = .ok r) : r.count ≤ acc.count + todo * (countMax - 1) := by
  induction todo generalizing i acc with
  | zero =>
    cases h
    simp
  | succ todo ih =>
    have hstep : ∀ c : NodeSum, b.count i = c.count → ∀ f l, checkKids m sub o b todo (i + 1) ⟨acc.count + c.count, f, l⟩ = .ok r →
        r.count ≤ acc.count + (todo + 1) * (countMax - 1) := by
      intro c hc f l hk
      have hle := ih hk
      have hlt := hb i
      dsimp only at hle
      rw [Nat.succ_mul]
      omega
    rw [checkKids] at h
    split at h
    next => cases h
    next c hsub =>
      split at h
      next => cases h
      next hc =>
        rw [ne_eq, not_not] at hc
        split at h
        next => exact hstep c hc _ _ h
        next =>
          split at h
          next => cases h
          next =>
            split at h
            next => cases h
            next =>
              split at h
              next => cases h
              next => exact hstep c hc _ _ h

theorem checkNode_count (hfit : CountsFit t) {total : NodeSum} (h : t.checkNode m lv isRoot o = .ok total) :
    total.count ≤ 16 * (countMax - 1) := by
  cases lv with
  | zero =>
    rw [checkNode, checkLeaf] at h
    split at h
    next => cases h
    next hcap =>
      have hle : (t.leaves o).nent ≤ 16 * (countMax - 1) := by
        have : leafCap ≤ 16 * (countMax - 1) := by decide
        omega
      split at h
      next => cases h
      next =>
        split at h
        next => cases h
        next =>
          split at h
          next => cases h; exact Nat.zero_le _
          next => cases h; exact hle
  | succ lv =>
    rw [checkNode] at h
    split at h
    next => cases h
    next hcap =>
      split at h
      next => cases h
      next =>
        split at h
        next => cases h
        next =>
          have hsum := checkKids_count (fun i => hfit o i) h
          rw [Nat.zero_add] at hsum
          have hkeys : (t.branches o).nkeys + 1 ≤ 16 := by
            have : sepMax = 15 := rfl
            omega
          exact hsum.trans (Nat.mul_le_mul_right _ hkeys)

/-- A tree that passes has at most what sixteen counts of 32 bits can hold. -/
theorem entries_le_of_check (hfit : CountsFit t) (h : t.check m = some (.ok ())) : t.entries ≤ 16 * (countMax - 1) := by
  unfold check at h
  split at h
  next => cases h
  next =>
    split at h
    next => cases h
    next =>
      split at h
      next => cases h
      next total hroot =>
        split at h
        next => cases h
        next htotal =>
          rw [ne_eq, not_not] at htotal
          rw [← htotal]
          exact checkNode_count hfit hroot

end Width

def ascending (n : Nat) : List Entry := (List.range n).map fun i => ⟨i, 0⟩

theorem ascending_length (n : Nat) : (ascending n).length = n := by
  rw [ascending, List.length_map, List.length_range]

theorem ascending_sorted (n : Nat) : ((ascending n).map (keyOf fun _ => 0)).Pairwise (· < ·) := by
  rw [ascending, List.map_map, List.pairwise_map]
  refine List.pairwise_lt_range.imp fun h => ?_
  exact Prod.Lex.toLex_lt_toLex.mpr (.inl h)

theorem ascending_rejected {n : Nat} (h : 16 * countMax ≤ n) : (bulkLoad (ascending n)).check (fun _ => 0) ≠ some (.ok ()) := by
  intro hok
  have hlen := ascending_length n
  have hpos : 0 < countMax := by decide
  have hne : ascending n ≠ [] := List.ne_nil_of_length_pos (by omega)
  have hle := entries_le_of_check (bulkLoad_fit hne) hok
  rw [bulkLoad_entries, hlen] at hle
  omega

/-- Subtree counts have 32 bits: 2^36 entries in order make a tree that `Check` refuses. -/
theorem bulkLoad_counts_overflow :
    ((ascending (2 ^ 36)).map (keyOf fun _ => 0)).Pairwise (· < ·) ∧ (ascending (2 ^ 36)).length = 2 ^ 36 ∧
      (bulkLoad (ascending (2 ^ 36))).check (fun _ => 0) ≠ some (.ok ()) :=
  ⟨ascending_sorted _, ascending_length _, ascending_rejected (by decide)⟩

end Tree

end Aki
