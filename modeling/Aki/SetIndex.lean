import Mathlib.Data.List.Nodup
import Mathlib.Data.List.Perm.Basic
import Mathlib.Tactic.Ring
import Aki.SetMerge

namespace Aki.SetAlgebra

open Bisect BoundedScan Operand

def tailCapFor (card : Nat) : Nat := max (card / 16) 16

def byHash (a b : HEntry) : Bool := decide (a.h ≤ b.h)

/-- The sorted run with its tombstones, and the unsorted tail of recent members. -/
structure SortedIndex where
  run : List HEntry
  tail : List HEntry
  tombs : Nat

namespace SortedIndex

/-- The tail is sorted and merged into the run, which loses its tombstones. -/
def flush (a : SortedIndex) : SortedIndex :=
  ⟨(a.run.filter fun e => !isTomb e.ord).merge (a.tail.mergeSort byHash) byHash, [], 0⟩

def onAdd (a : SortedIndex) (h ord card : Nat) : SortedIndex :=
  let a := { a with tail := a.tail ++ [⟨h, ord⟩] }
  if tailCapFor card ≤ a.tail.length then a.flush else a

/-- The last entry takes the place of the one that goes. -/
def swapOut (i : Nat) (es : List HEntry) : List HEntry := (es.set i (es.getLastD ⟨0, 0⟩)).dropLast

def bury (e : HEntry) : HEntry := ⟨e.h, e.ord ||| 2 ^ 31⟩

/-- The run index of a member: a binary search for its hash, then a scan of the entries of that hash. -/
def runIndex (run : List HEntry) (h ord : Nat) : Option Nat :=
  let lo := bisect (below run h) run.length 0 run.length
  (((run.drop lo).takeWhile fun e => e.h == h).findIdx? fun e => e.ord == ord).map (lo + ·)

def onRemove (a : SortedIndex) (h ord : Nat) : SortedIndex :=
  match a.tail.findIdx? fun e => e.ord == ord with
  | some i => { a with tail := swapOut i a.tail }
  | none =>
    match runIndex a.run h ord with
    | none => a
    | some i =>
      let a := { a with run := a.run.modify i bury, tombs := a.tombs + 1 }
      if a.run.length < a.tombs * 4 then a.flush else a

/-- The bulk build over the members a set has when it becomes large. -/
def engageAlgebra (L : List HEntry) : SortedIndex := ⟨L.mergeSort byHash, [], 0⟩

def mergeStream (a : SortedIndex) : Operand := ⟨a.run, a.tail.mergeSort byHash⟩

/-- The index holds exactly these members, each under its own ordinal. -/
structure Holds (a : SortedIndex) (L : List HEntry) : Prop where
  sorted : a.run.Pairwise fun x y => x.h ≤ y.h
  members : (a.run.filter (fun e => !isTomb e.ord) ++ a.tail).Perm L
  distinct : (L.map HEntry.ord).Nodup
  small : ∀ e ∈ L, e.ord < 2 ^ 31

variable {a : SortedIndex} {L : List HEntry} {e : HEntry} {i : Nat}

theorem byHash_pairwise {es : List HEntry} : (es.Pairwise fun x y => byHash x y = true) ↔ es.Pairwise fun x y => x.h ≤ y.h := by
  simp [byHash]

theorem byHash_trans (x y z : HEntry) (hxy : byHash x y = true) (hyz : byHash y z = true) : byHash x z = true := by
  simp only [byHash, decide_eq_true_eq] at hxy hyz ⊢
  omega

theorem byHash_total (x y : HEntry) : (byHash x y || byHash y x) = true := by
  simp only [byHash, Bool.or_eq_true, decide_eq_true_eq]
  omega

theorem sort_pairwise (es : List HEntry) : (es.mergeSort byHash).Pairwise fun x y => x.h ≤ y.h :=
  byHash_pairwise.mp (List.pairwise_mergeSort byHash_trans byHash_total es)

theorem isTomb_small {ord : Nat} (h : ord < 2 ^ 31) : isTomb ord = false := Nat.testBit_lt_two_pow h

theorem isTomb_bury (e : HEntry) : isTomb (bury e).ord = true := by
  rw [isTomb, bury, Nat.testBit_or, Nat.testBit_two_pow_self, Bool.or_true]

theorem Holds.flush (h : a.Holds L) : a.flush.Holds L := by
  have hrun := byHash_pairwise.mpr (h.sorted.sublist (List.filter_sublist (p := fun e => !isTomb e.ord)))
  have hperm : a.flush.run.Perm L :=
    ((List.merge_perm_append byHash).trans ((List.mergeSort_perm a.tail byHash).append_left _)).trans h.members
  refine ⟨byHash_pairwise.mp (List.pairwise_merge byHash_trans byHash_total _ _ hrun (byHash_pairwise.mpr (sort_pairwise a.tail))),
    ?_, h.distinct, h.small⟩
  rw [List.filter_eq_self.mpr fun e he => by simp [isTomb_small (h.small e (hperm.subset he))]]
  simpa [SortedIndex.flush] using hperm

theorem engageAlgebra_holds (hdistinct : (L.map HEntry.ord).Nodup) (hsmall : ∀ e ∈ L, e.ord < 2 ^ 31) : (engageAlgebra L).Holds L := by
  have hperm := List.mergeSort_perm L byHash
  refine ⟨sort_pairwise L, ?_, hdistinct, hsmall⟩
  rw [engageAlgebra, List.filter_eq_self.mpr fun e he => by simp [isTomb_small (hsmall e (hperm.subset he))], List.append_nil]
  exact hperm

theorem Holds.onAdd (h : a.Holds L) (card : Nat) (hord : e.ord < 2 ^ 31) (hnew : e.ord ∉ L.map HEntry.ord) :
    (a.onAdd e.h e.ord card).Holds (e :: L) := by
  have hadd : SortedIndex.Holds { a with tail := a.tail ++ [e] } (e :: L) := by
    refine ⟨h.sorted, ?_, List.nodup_cons.mpr ⟨hnew, h.distinct⟩, List.forall_mem_cons.mpr ⟨hord, h.small⟩⟩
    rw [← List.append_assoc]
    exact (List.perm_append_singleton e _).trans (h.members.cons e)
  unfold SortedIndex.onAdd
  dsimp only
  split
  · exact hadd.flush
  · exact hadd

theorem swapOut_perm {es : List HEntry} (h : es[i]? = some e) : es.Perm (e :: swapOut i es) := by
  rcases List.eq_nil_or_concat es with rfl | ⟨init, y, hes⟩
  · cases h
  · rw [List.concat_eq_append] at hes
    subst hes
    unfold swapOut
    rw [List.getLastD_concat]
    have hi := (List.getElem?_eq_some_iff.mp h).1
    rw [List.length_append, List.length_singleton] at hi
    by_cases hlast : i = init.length
    · subst hlast
      obtain rfl : y = e := by simpa using h
      simp
    · have hlt : i < init.length := by omega
      obtain ⟨-, rfl⟩ := List.getElem?_eq_some_iff.mp (List.getElem?_append_left hlt ▸ h)
      rw [List.set_append_left _ _ hlt, List.dropLast_concat]
      have hset := List.set_perm_cons_eraseIdx hlt y
      have hget := List.getElem_cons_eraseIdx_perm hlt
      exact ((List.perm_append_singleton y init).trans (hget.symm.cons y)).trans ((List.Perm.swap _ _ _).trans (hset.symm.cons _))

theorem Holds.without {run tail : List HEntry} {tombs : Nat} (h : a.Holds L) (he : e ∈ L) (hsorted : run.Pairwise fun x y => x.h ≤ y.h)
    (hperm : (a.run.filter (fun e => !isTomb e.ord) ++ a.tail).Perm (e :: (run.filter (fun e => !isTomb e.ord) ++ tail))) :
    SortedIndex.Holds ⟨run, tail, tombs⟩ (L.erase e) := by
  refine ⟨hsorted, ?_, h.distinct.sublist (List.erase_sublist.map _), fun x hx => h.small x (List.mem_of_mem_erase hx)⟩
  exact ((hperm.symm.trans h.members).trans (List.perm_cons_erase he)).cons_inv

theorem runIndex_spec {run : List HEntry} (hs : run.Pairwise fun x y => x.h ≤ y.h) (he : e ∈ run) :
    ∃ i x, runIndex run e.h e.ord = some i ∧ run[i]? = some x ∧ x.h = e.h ∧ x.ord = e.ord := by
  have hle := (List.takeWhile_sublist (l := run) fun x => decide (x.h < e.h)).length_le
  have hlo : bisect (below run e.h) run.length 0 run.length = (run.takeWhile fun x => decide (x.h < e.h)).length :=
    bisect_eq (below_eq hs e.h) (Nat.zero_le _) hle (by omega)
  have hdrop := BoundedScan.drop_takeWhile (fun x => decide (x.h < e.h)) run
  rw [dropWhile_below hs] at hdrop
  -- the entries of the hash stand right behind the smaller ones
  have hmem : e ∈ ((run.drop (run.takeWhile fun x => decide (x.h < e.h)).length).takeWhile fun x => x.h == e.h) := by
    rw [hdrop]
    have hcut : (run.filter fun x => decide (e.h ≤ x.h)).Pairwise fun x y => (y.h == e.h) = true → (x.h == e.h) = true := by
      refine (List.pairwise_filter.mpr (hs.imp fun {x y} hxy hx _ hy => ?_))
      simp only [decide_eq_true_eq, beq_iff_eq] at hx hy ⊢
      omega
    have hin : e ∈ run.filter fun x => decide (e.h ≤ x.h) := List.mem_filter.mpr ⟨he, by simp⟩
    rw [← List.takeWhile_append_dropWhile (p := fun x => x.h == e.h) (l := run.filter fun x => decide (e.h ≤ x.h)),
      BoundedScan.dropWhile_eq_filter hcut] at hin
    exact (List.mem_append.mp hin).resolve_right fun h => by simpa using (List.mem_filter.mp h).2
  unfold runIndex
  rw [hlo]
  cases hf : ((run.drop (run.takeWhile fun x => decide (x.h < e.h)).length).takeWhile fun x => x.h == e.h).findIdx? fun x => x.ord == e.ord with
  | none => exact absurd (List.findIdx?_eq_none_iff.mp hf e hmem) (by simp)
  | some k =>
    obtain ⟨hk, hx, -⟩ := List.findIdx?_eq_some_iff_getElem.mp hf
    refine ⟨_, _, by dsimp only; rw [hf]; rfl, ?_, by simpa using List.all_eq_true.mp List.all_takeWhile _ (List.getElem_mem hk), by simpa using hx⟩
    rw [← List.getElem?_drop]
    exact List.prefix_iff_getElem?.mp (List.takeWhile_prefix _) k hk

theorem Holds.onRemove (h : a.Holds L) (he : e ∈ L) : (a.onRemove e.h e.ord).Holds (L.erase e) := by
  have hone : ∀ x ∈ L, x.ord = e.ord → x = e := fun x hx heq => List.inj_on_of_nodup_map h.distinct hx he heq
  unfold SortedIndex.onRemove
  split
  next i hi =>
    obtain ⟨hlt, hord, -⟩ := List.findIdx?_eq_some_iff_getElem.mp hi
    have hx := hone _ (h.members.subset (List.mem_append_right _ (List.getElem_mem hlt))) (by simpa using hord)
    have hswap := swapOut_perm (List.getElem?_eq_getElem hlt)
    rw [hx] at hswap
    exact h.without he h.sorted ((hswap.append_left _).trans List.perm_middle)
  next hnone =>
    have hrun : e ∈ a.run := by
      refine List.mem_of_mem_filter ((List.mem_append.mp (h.members.symm.subset he)).resolve_right fun ht => ?_)
      exact absurd (List.findIdx?_eq_none_iff.mp hnone e ht) (by simp)
    obtain ⟨i, x, hi, hx, -, hord⟩ := runIndex_spec h.sorted hrun
    rw [hi]
    have hlt := (List.getElem?_eq_some_iff.mp hx).1
    have hlive : isTomb x.ord = false := by rw [hord]; exact isTomb_small (h.small e he)
    have hxe : x = e :=
      hone x (h.members.subset (List.mem_append_left _ (List.mem_filter.mpr ⟨List.mem_of_getElem? hx, by simp [hlive]⟩))) hord
    have hsplit : a.run = a.run.take i ++ x :: a.run.drop (i + 1) := by
      conv_lhs => rw [← List.take_append_drop i a.run, List.drop_eq_getElem?_toList_append, hx]
      rfl
    have hmod : a.run.modify i bury = a.run.take i ++ bury x :: a.run.drop (i + 1) := by
      rw [List.modify_eq_take_cons_drop hlt, (List.getElem?_eq_some_iff.mp hx).2]
    have hburied : SortedIndex.Holds ⟨a.run.modify i bury, a.tail, a.tombs + 1⟩ (L.erase e) := by
      refine h.without he ?_ ?_
      · have hmap : (a.run.modify i bury).map HEntry.h = a.run.map HEntry.h := by
          rw [hmod]
          conv_rhs => rw [hsplit]
          simp [bury]
        exact List.pairwise_map.mp (hmap ▸ List.pairwise_map.mpr h.sorted)
      · rw [hmod]
        conv_lhs => rw [hsplit]
        rw [List.filter_append, List.filter_append, List.filter_cons_of_pos (by simp [hlive]),
          List.filter_cons_of_neg (by simp [isTomb_bury]), hxe]
        exact List.perm_middle.append_right _
    dsimp only
    split
    · exact hburied.flush
    · exact hburied

end SortedIndex

/-- The indexes a set has in the course of its life, with its members: an ordinal is given to one member at a time. -/
inductive IndexReach : SortedIndex → List HEntry → Prop
  | engage {L} : (L.map HEntry.ord).Nodup → (∀ e ∈ L, e.ord < 2 ^ 31) → IndexReach (SortedIndex.engageAlgebra L) L
  | add {a L} (e : HEntry) (card : Nat) : IndexReach a L → e.ord < 2 ^ 31 → e.ord ∉ L.map HEntry.ord →
      IndexReach (a.onAdd e.h e.ord card) (e :: L)
  | remove {a L} (e : HEntry) : IndexReach a L → e ∈ L → IndexReach (a.onRemove e.h e.ord) (L.erase e)

theorem IndexReach.holds {a : SortedIndex} {L : List HEntry} (h : IndexReach a L) : a.Holds L := by
  induction h with
  | engage hdistinct hsmall => exact SortedIndex.engageAlgebra_holds hdistinct hsmall
  | add e card _ hord hnew ih => exact ih.onAdd card hord hnew
  | remove e _ he ih => exact ih.onRemove he

theorem IndexReach.mergeStream {a : SortedIndex} {L : List HEntry} (h : IndexReach a L) : a.mergeStream.Sorted ∧ a.mergeStream.live.Perm L :=
  ⟨⟨h.holds.sorted, SortedIndex.sort_pairwise a.tail⟩, ((List.mergeSort_perm a.tail byHash).append_left _).trans h.holds.members⟩

/-- One member left the index and another came under its ordinal. -/
def churned : SortedIndex := ((SortedIndex.engageAlgebra [⟨7, 0⟩, ⟨3, 1⟩]).onRemove 3 1).onAdd 5 1 2

theorem churned_reach : IndexReach churned [⟨5, 1⟩, ⟨7, 0⟩] :=
  .add ⟨5, 1⟩ 2 (.remove ⟨3, 1⟩ (.engage (by decide) (by decide)) (by decide)) (by decide) (by decide)

/-- An index with the same member of hash 7 and with another one of hash 5. -/
def paired : SortedIndex := .engageAlgebra [⟨5, 8⟩, ⟨7, 4⟩]

theorem paired_reach : IndexReach paired [⟨5, 8⟩, ⟨7, 4⟩] := .engage (by decide) (by decide)

def sameMember (ordA ordB : Nat) : Bool := ordA + 4 == ordB

section Algebra

variable {a b : SortedIndex} {A B : List HEntry} (confirm : Nat → Nat → Bool)

theorem matched_perm {L L' : List HEntry} (h : L.Perm L') : matched confirm L = matched confirm L' := funext fun _ => h.any_eq

theorem IndexReach.enough {fuel : Nat} (ha : IndexReach a A) (hb : IndexReach b B) (hfuel : A.length + B.length < fuel) :
    a.mergeStream.live.length + b.mergeStream.live.length < fuel := by
  rw [ha.mergeStream.2.length_eq, hb.mergeStream.2.length_eq]
  exact hfuel

/-- Whatever was added to and removed from two sets, the intersection kernel over their indexes confirms exactly the members of the one
that have a match in the other. -/
theorem indexed_intersection (ha : IndexReach a A) (hb : IndexReach b B) {fuel : Nat} (hfuel : A.length + B.length < fuel) :
    ((mergeIntersect confirm fuel a.mergeStream b.mergeStream).map Prod.fst).Perm ((A.filter (matched confirm B)).map HEntry.ord) := by
  refine (mergeIntersect_spec ha.mergeStream.1 hb.mergeStream.1 (ha.enough hb hfuel)).trans (List.Perm.map _ ?_)
  rw [matched_perm confirm hb.mergeStream.2]
  exact ha.mergeStream.2.filter _

theorem churned_intersection : ((mergeIntersect sameMember 5 churned.mergeStream paired.mergeStream).map Prod.fst).Perm [0] :=
  indexed_intersection sameMember churned_reach paired_reach (by decide)

/-- The counting kernel counts them up to a positive limit. -/
theorem indexed_intersection_count (ha : IndexReach a A) (hb : IndexReach b B) {fuel : Nat} (hfuel : A.length + B.length < fuel)
    (limit : Int) : mergeIntersectCount confirm limit fuel a.mergeStream b.mergeStream 0 = capped limit (A.filter (matched confirm B)).length := by
  have hperm := (@mergeIntersect_spec confirm _ _ _ ha.mergeStream.1 hb.mergeStream.1 (ha.enough hb hfuel)).length_eq
  rw [List.length_map, List.length_map, matched_perm confirm hb.mergeStream.2, (ha.mergeStream.2.filter _).length_eq] at hperm
  rw [mergeIntersectCount_eq (filled_zero limit), hperm, Nat.zero_add]

theorem churned_count : mergeIntersectCount sameMember 3 5 churned.mergeStream paired.mergeStream 0 = 1 :=
  indexed_intersection_count sameMember churned_reach paired_reach (by decide) 3

/-- The difference kernel emits exactly the members without a match. -/
theorem indexed_difference (ha : IndexReach a A) (hb : IndexReach b B) {fuel : Nat} (hfuel : A.length + B.length < fuel) :
    (mergeDiff confirm fuel a.mergeStream b.mergeStream).Perm ((A.filter fun x => !matched confirm B x).map HEntry.ord) := by
  refine (mergeDiff_spec ha.mergeStream.1 hb.mergeStream.1 (ha.enough hb hfuel)).trans (List.Perm.map _ ?_)
  rw [matched_perm confirm hb.mergeStream.2]
  exact ha.mergeStream.2.filter _

theorem churned_difference : (mergeDiff sameMember 5 churned.mergeStream paired.mergeStream).Perm [1] :=
  indexed_difference sameMember churned_reach paired_reach (by decide)

/-- The union kernel emits all members of the one set and exactly those of the other without a match. -/
theorem indexed_union (ha : IndexReach a A) (hb : IndexReach b B) {fuel : Nat} (hfuel : A.length + B.length < fuel) :
    (mergeUnion confirm fuel a.mergeStream b.mergeStream).1.Perm (A.map HEntry.ord) ∧
      (mergeUnion confirm fuel a.mergeStream b.mergeStream).2.Perm
        ((B.filter fun y => !matched (fun ob oa => confirm oa ob) A y).map HEntry.ord) := by
  obtain ⟨hall, hrest⟩ := @mergeUnion_spec confirm _ _ _ ha.mergeStream.1 hb.mergeStream.1 (ha.enough hb hfuel)
  refine ⟨hall.trans (ha.mergeStream.2.map _), hrest.trans (List.Perm.map _ ?_)⟩
  rw [matched_perm _ ha.mergeStream.2]
  exact hb.mergeStream.2.filter _

theorem churned_union :
    (mergeUnion sameMember 5 churned.mergeStream paired.mergeStream).1.Perm [1, 0] ∧
      (mergeUnion sameMember 5 churned.mergeStream paired.mergeStream).2.Perm [8] :=
  indexed_union sameMember churned_reach paired_reach (by decide)

end Algebra

end Aki.SetAlgebra
