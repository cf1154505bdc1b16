import Aki.LeaseFold

namespace Aki.Obs1

section Rebuild

variable {β γ : Type}

theorem getElem?_foldl_insert_of_ne (val : Nat → β → γ) (l : List (Nat × β)) (m : Std.ExtTreeMap Nat γ) {k : Nat}
    (h : ∀ b, (k, b) ∉ l) : (l.foldl (fun m a => m.insert a.1 (val a.1 a.2)) m)[k]? = m[k]? := by
  induction l generalizing m with
  | nil => rfl
  | cons a l ih =>
    have hne : a.1 ≠ k := fun heq => h a.2 (by rw [← heq]; exact List.mem_cons_self)
    rw [List.foldl_cons, ih _ fun b hb => h b (List.mem_cons_of_mem _ hb), Std.ExtTreeMap.getElem?_insert,
      if_neg fun heq => hne (Nat.compare_eq_eq.mp heq)]

theorem getElem?_foldl_insert_of_mem (val : Nat → β → γ) (l : List (Nat × β))
    (hl : l.Pairwise fun a b => compare a.1 b.1 = .lt) (m : Std.ExtTreeMap Nat γ) {k : Nat} {b : β} (h : (k, b) ∈ l) :
    (l.foldl (fun m a => m.insert a.1 (val a.1 a.2)) m)[k]? = some (val k b) := by
  induction l generalizing m with
  | nil => simp at h
  | cons a l ih =>
    obtain ⟨hhead, htail⟩ := List.pairwise_cons.mp hl
    rw [List.foldl_cons]
    rcases List.mem_cons.mp h with rfl | h
    · rw [getElem?_foldl_insert_of_ne, Std.ExtTreeMap.getElem?_insert, if_pos (Nat.compare_eq_eq.mpr rfl)]
      intro b' hb'
      have := hhead _ hb'
      rw [Nat.compare_eq_lt] at this
      exact Nat.lt_irrefl _ this
    · exact ih htail _ h

theorem getElem?_rebuild (val : Nat → β → γ) (t : Std.ExtTreeMap Nat β) (k : Nat) :
    (t.toList.foldl (fun m a => m.insert a.1 (val a.1 a.2)) (∅ : Std.ExtTreeMap Nat γ))[k]? = t[k]?.map (val k) := by
  cases h : t[k]? with
  | none =>
    rw [getElem?_foldl_insert_of_ne]
    · simp
    · intro b hb
      rw [Std.ExtTreeMap.mem_toList_iff_getElem?_eq_some, h] at hb
      simp at hb
  | some b =>
    exact getElem?_foldl_insert_of_mem val _ Std.ExtTreeMap.ordered_keys_toList _
      (Std.ExtTreeMap.mem_toList_iff_getElem?_eq_some.mpr h)

end Rebuild

namespace LeaseFold

/-- Two folds at one position with the same members and the same table; the node of a released lease may differ. -/
structure Agrees (f p : LeaseFold) : Prop where
  dd : p.dd = f.dd
  haveDD : p.haveDD = f.haveDD
  next : p.next = f.next
  members : p.members = f.members
  lease : ∀ id, p.lease id = f.lease id

section

variable {f p : LeaseFold} (h : Agrees f p)
include h

theorem Agrees.nextEpoch (group : Nat) : p.nextEpoch group = f.nextEpoch group := by
  rw [nextEpoch_eq, nextEpoch_eq, h.lease]

theorem Agrees.grantFolds (r : GrantRecord) : p.grantFolds r = f.grantFolds r := by
  rw [LeaseFold.grantFolds, LeaseFold.grantFolds, h.nextEpoch]

theorem Agrees.releaseFolds (writer : Nat) (r : ReleaseRecord) : p.releaseFolds writer r = f.releaseFolds writer r := by
  rw [releaseFolds_eq, releaseFolds_eq, h.lease]

theorem Agrees.commitVerdict (pos : ChainPos) (writer inc : Nat) (r : CommitRecord) :
    p.commitVerdict pos writer inc r = f.commitVerdict pos writer inc r := by
  have hlive : p.sectionLive writer inc = f.sectionLive writer inc := by
    funext s
    rw [sectionLive_eq, sectionLive_eq, h.lease, incOK, incOK, h.members]
  rw [LeaseFold.commitVerdict, LeaseFold.commitVerdict, hlive]

theorem Agrees.holder (group : Nat) : p.holder group = f.holder group := by
  rw [holder_eq, holder_eq, h.lease]

theorem Agrees.memberTable : p.memberTable = f.memberTable := by
  rw [LeaseFold.memberTable, LeaseFold.memberTable, h.members]

end

theorem mem_heldBy {f : LeaseFold} {node id : Nat} : id ∈ f.heldBy node ↔ ∃ e, f.lease id = some (e, some node) := by
  simp only [heldBy, List.mem_map, List.mem_filter, Bool.and_eq_true, decide_eq_true_eq, Bool.not_eq_true', lease]
  constructor
  · rintro ⟨⟨id', g⟩, ⟨hmem, hnode, hrel⟩, rfl⟩
    rw [Std.ExtTreeMap.mem_toList_iff_getElem?_eq_some] at hmem
    dsimp only at hnode hrel
    exact ⟨g.epoch, by simp [hmem, hrel, hnode]⟩
  · rintro ⟨e, he⟩
    obtain ⟨g, hg, heq⟩ := Option.map_eq_some_iff.mp he
    cases hrel : g.released with
    | true => simp [hrel] at heq
    | false =>
      simp only [hrel, Prod.mk.injEq] at heq
      exact ⟨(id, g), ⟨Std.ExtTreeMap.mem_toList_iff_getElem?_eq_some.mpr hg, by simpa using heq.2, hrel⟩, rfl⟩

theorem heldBy_sorted (f : LeaseFold) (node : Nat) : (f.heldBy node).Pairwise (· < ·) := by
  rw [heldBy, List.pairwise_map]
  exact (Std.ExtTreeMap.ordered_keys_toList.filter _).imp fun hlt => Nat.compare_eq_lt.mp hlt

theorem Agrees.heldBy {f p : LeaseFold} (h : Agrees f p) (node : Nat) : p.heldBy node = f.heldBy node := by
  have hnodup (g : LeaseFold) : (g.heldBy node).Nodup := (g.heldBy_sorted node).imp fun hlt => Nat.ne_of_lt hlt
  have hperm : (p.heldBy node).Perm (f.heldBy node) := by
    refine (List.perm_ext_iff_of_nodup (hnodup p) (hnodup f)).mpr fun id => ?_
    rw [mem_heldBy, mem_heldBy, h.lease]
  exact hperm.eq_of_pairwise (fun a b _ _ h1 h2 => absurd (Nat.lt_trans h1 h2) (Nat.lt_irrefl _)) (p.heldBy_sorted node) (f.heldBy_sorted node)

theorem members_applyRecord_of_ne (f : LeaseFold) (pos : ChainPos) (writer inc : Nat) {r : ChainRecord}
    (hr : ∀ op m, r ≠ .member op m) : (f.applyRecord pos writer inc r).1.members = f.members := by
  cases r with
  | grant r =>
    simp only [applyRecord, applyGrant]
    split <;> rfl
  | release r =>
    simp only [applyRecord, applyRelease]
    split
    · rfl
    · split <;> rfl
  | heartbeat => rfl
  | commit c => rfl
  | member op m => exact absurd rfl (hr op m)
  | checkpoint q =>
    simp only [applyRecord]
    split <;> rfl

theorem members_applyRecord {f p : LeaseFold} (h : p.members = f.members) (pos : ChainPos) (writer inc : Nat) (r : ChainRecord) :
    (p.applyRecord pos writer inc r).1.members = (f.applyRecord pos writer inc r).1.members := by
  by_cases hm : ∃ op m, r = .member op m
  · obtain ⟨op, m, rfl⟩ := hm
    simp only [applyRecord, applyMember, h]
    cases op with
    | join =>
      dsimp only
      split
      · exact h
      · rfl
    | leave =>
      dsimp only
      split
      · exact h
      · rfl
    | other n => exact h
  · have hr : ∀ op m, r ≠ .member op m := fun op m hrm => hm ⟨op, m, hrm⟩
    rw [p.members_applyRecord_of_ne pos writer inc hr, f.members_applyRecord_of_ne pos writer inc hr, h]

theorem clock_applyRecord (f : LeaseFold) (pos : ChainPos) (writer inc : Nat) (r : ChainRecord) :
    (f.applyRecord pos writer inc r).1.dd = f.dd ∧ (f.applyRecord pos writer inc r).1.haveDD = f.haveDD ∧
      (f.applyRecord pos writer inc r).1.next = f.next := by
  cases r with
  | grant r =>
    simp only [applyRecord, applyGrant]
    split <;> exact ⟨rfl, rfl, rfl⟩
  | release r =>
    simp only [applyRecord, applyRelease]
    split
    · exact ⟨rfl, rfl, rfl⟩
    · split <;> exact ⟨rfl, rfl, rfl⟩
  | heartbeat => exact ⟨rfl, rfl, rfl⟩
  | commit c => exact ⟨rfl, rfl, rfl⟩
  | member op m => cases op <;> simp only [applyRecord, applyMember] <;> (try split) <;> exact ⟨rfl, rfl, rfl⟩
  | checkpoint q =>
    simp only [applyRecord]
    split <;> exact ⟨rfl, rfl, rfl⟩

theorem Agrees.applyRecord {f p : LeaseFold} (h : Agrees f p) (pos : ChainPos) (writer inc : Nat) (r : ChainRecord) :
    Agrees (f.applyRecord pos writer inc r).1 (p.applyRecord pos writer inc r).1 ∧
      (p.applyRecord pos writer inc r).2 = (f.applyRecord pos writer inc r).2 := by
  obtain ⟨h1, h2, h3⟩ := f.clock_applyRecord pos writer inc r
  obtain ⟨h4, h5, h6⟩ := p.clock_applyRecord pos writer inc r
  refine ⟨⟨h4.trans (h.dd.trans h1.symm), h5.trans (h.haveDD.trans h2.symm), h6.trans (h.next.trans h3.symm),
    members_applyRecord h.members pos writer inc r, fun id => ?_⟩, ?_⟩
  · rw [lease_applyRecord, lease_applyRecord, h.lease]
    cases r with
    | grant g =>
      dsimp only
      rw [h.grantFolds]
    | release g =>
      dsimp only
      rw [h.releaseFolds]
    | heartbeat => rfl
    | commit c => rfl
    | member op m => rfl
    | checkpoint q => rfl
  · cases r with
    | grant g => simp only [LeaseFold.applyRecord, h.grantFolds]
    | release g => simp only [LeaseFold.applyRecord, h.releaseFolds]
    | heartbeat => rfl
    | commit c => simp only [LeaseFold.applyRecord, h.commitVerdict]
    | member op m => rfl
    | checkpoint q => rfl

theorem Agrees.applyRecords (pos : ChainPos) (writer inc : Nat) (rs : List ChainRecord) {f p : LeaseFold} (h : Agrees f p) :
    Agrees (LeaseFold.applyRecords pos writer inc f rs).1 (LeaseFold.applyRecords pos writer inc p rs).1 ∧
      (LeaseFold.applyRecords pos writer inc p rs).2 = (LeaseFold.applyRecords pos writer inc f rs).2 := by
  induction rs generalizing f p with
  | nil => exact ⟨h, rfl⟩
  | cons r rs ih =>
    obtain ⟨h1, h2⟩ := h.applyRecord pos writer inc r
    obtain ⟨h3, h4⟩ := ih h1
    simp only [LeaseFold.applyRecords]
    exact ⟨h3, by rw [h2, h4]⟩

theorem Agrees.begin {f p : LeaseFold} (h : Agrees f p) (pos : ChainPos) : Agrees (f.begin pos) (p.begin pos) := by
  have hlease := h.lease
  unfold LeaseFold.begin
  rw [h.haveDD]
  split
  · dsimp only
    rw [h.next]
    split
    · exact ⟨h.dd, h.haveDD, rfl, h.members, hlease⟩
    · exact h
  · exact ⟨rfl, rfl, rfl, h.members, hlease⟩

theorem Agrees.applyChain {f p f' : LeaseFold} (h : Agrees f p) {pos : ChainPos} {writer : Nat} {batch : ChainBatch}
    {evs : List FoldEvent} (hc : f.applyChain pos writer batch = some (f', evs)) :
    ∃ p', p.applyChain pos writer batch = some (p', evs) ∧ Agrees f' p' := by
  obtain ⟨h1, h2, rfl, rfl⟩ := applyChain_some hc
  have hb := h.begin pos
  obtain ⟨hr, hev⟩ := hb.applyRecords pos writer batch.incarnation batch.records
  refine ⟨{ (LeaseFold.applyRecords pos writer batch.incarnation (p.begin pos) batch.records).1 with next := pos.seq + 1 }, ?_,
    ⟨hr.dd, hr.haveDD, rfl, hr.members, hr.lease⟩⟩
  rw [LeaseFold.applyChain]
  dsimp only
  rw [if_neg (by rw [hb.dd, hb.next]; exact fun hno => hno.elim (fun hn => hn h1) fun hn => hn h2), hev]

theorem Agrees.applyObjects {dd : Nat} (chain : List (Nat × ChainBatch)) {seq : Nat} {f p f' : LeaseFold} {evs : List FoldEvent}
    (h : Agrees f p) (hc : LeaseFold.applyObjects dd seq f chain = some (f', evs)) :
    ∃ p', LeaseFold.applyObjects dd seq p chain = some (p', evs) ∧ Agrees f' p' := by
  induction chain generalizing seq f p evs with
  | nil =>
    obtain ⟨rfl, rfl⟩ := Prod.mk.inj (Option.some.inj hc)
    exact ⟨p, rfl, h⟩
  | cons o rest ih =>
    obtain ⟨writer, batch⟩ := o
    rw [LeaseFold.applyObjects] at hc
    split at hc
    · simp at hc
    · next g evs' hstep =>
      obtain ⟨⟨g', evs''⟩, hrest, heq⟩ := Option.map_eq_some_iff.mp hc
      obtain ⟨rfl, rfl⟩ := Prod.mk.inj heq
      obtain ⟨q, hq, ha⟩ := h.applyChain hstep
      obtain ⟨q', hq', ha'⟩ := ih ha hrest
      exact ⟨q', by rw [LeaseFold.applyObjects, hq]; dsimp only; rw [hq']; rfl, ha'⟩

/-- What the checkpoint's rows rely on: the tables are keyed by their rows, and no node is number 0. -/
structure Keyed (f : LeaseFold) : Prop where
  members : ∀ k m, f.members[k]? = some m → m.node = k ∧ k ≠ 0
  holders : ∀ id e n, f.lease id = some (e, some n) → n ≠ 0
  dated : f.next ≠ 0 → f.haveDD = true

theorem newLeaseFold_keyed : Keyed newLeaseFold :=
  ⟨fun k m h => by simp [newLeaseFold] at h, fun id e n h => by simp [lease, newLeaseFold] at h, fun h => absurd rfl h⟩

theorem Keyed.members_applyMember {f : LeaseFold} (h : Keyed f) (op : MemberOp) (m : Member) {k : Nat} {x : Member}
    (hx : (f.applyMember op m).members[k]? = some x) : x.node = k ∧ k ≠ 0 := by
  cases op with
  | join =>
    simp only [applyMember] at hx
    split at hx
    · exact h.members k x hx
    · next hno =>
      rw [not_or] at hno
      rw [Std.ExtTreeMap.getElem?_insert] at hx
      split at hx
      · next heq =>
        cases hx
        rw [← Nat.compare_eq_eq.mp heq]
        exact ⟨rfl, hno.1⟩
      · exact h.members k x hx
  | leave =>
    simp only [applyMember] at hx
    split at hx
    · exact h.members k x hx
    · rw [Std.ExtTreeMap.getElem?_erase] at hx
      split at hx
      · simp at hx
      · exact h.members k x hx
  | other n => exact h.members k x hx

theorem Keyed.applyRecord {f : LeaseFold} (h : Keyed f) (pos : ChainPos) (writer inc : Nat) (r : ChainRecord) :
    Keyed (f.applyRecord pos writer inc r).1 := by
  obtain ⟨-, h2, h3⟩ := f.clock_applyRecord pos writer inc r
  refine ⟨fun k m hm => ?_, fun id e n hl => ?_, fun hn => h2.trans (h.dated (by rw [← h3]; exact hn))⟩
  · by_cases hr : ∃ op x, r = .member op x
    · obtain ⟨op, x, rfl⟩ := hr
      exact h.members_applyMember op x hm
    · rw [members_applyRecord_of_ne f pos writer inc fun op x hrx => hr ⟨op, x, hrx⟩] at hm
      exact h.members k m hm
  · rw [lease_applyRecord] at hl
    cases r with
    | grant g =>
      dsimp only at hl
      split at hl
      · next hg =>
        cases hl
        exact (grantFolds_iff.mp hg.1).1
      · exact h.holders id e n hl
    | release g =>
      dsimp only at hl
      split at hl
      · simp at hl
      · exact h.holders id e n hl
    | heartbeat => exact h.holders id e n hl
    | commit c => exact h.holders id e n hl
    | member op m => exact h.holders id e n hl
    | checkpoint q => exact h.holders id e n hl

theorem Keyed.applyRecords (pos : ChainPos) (writer inc : Nat) (rs : List ChainRecord) {f : LeaseFold} (h : Keyed f) :
    Keyed (LeaseFold.applyRecords pos writer inc f rs).1 := by
  induction rs generalizing f with
  | nil => exact h
  | cons r rs ih => exact ih (h.applyRecord pos writer inc r)

theorem clock_applyRecords (pos : ChainPos) (writer inc : Nat) (rs : List ChainRecord) (f : LeaseFold) :
    (LeaseFold.applyRecords pos writer inc f rs).1.dd = f.dd ∧ (LeaseFold.applyRecords pos writer inc f rs).1.haveDD = f.haveDD := by
  induction rs generalizing f with
  | nil => exact ⟨rfl, rfl⟩
  | cons r rs ih =>
    obtain ⟨h1, h2, -⟩ := f.clock_applyRecord pos writer inc r
    obtain ⟨h3, h4⟩ := ih (f.applyRecord pos writer inc r).1
    exact ⟨h3.trans h1, h4.trans h2⟩

theorem begin_haveDD (f : LeaseFold) (pos : ChainPos) : (f.begin pos).haveDD = true := by
  unfold LeaseFold.begin
  split
  · next h =>
    dsimp only
    split <;> exact h
  · rfl

theorem begin_members (f : LeaseFold) (pos : ChainPos) : (f.begin pos).members = f.members := by
  unfold LeaseFold.begin
  split <;> (dsimp only; split <;> rfl)

theorem begin_lease (f : LeaseFold) (pos : ChainPos) (id : Nat) : (f.begin pos).lease id = f.lease id := by
  rw [lease, lease, begin_groups]

theorem begin_of_dated {f : LeaseFold} (pos : ChainPos) (h : f.haveDD = true) (hn : f.next ≠ 0) : f.begin pos = f := by
  rw [LeaseFold.begin, if_pos h, if_neg hn]

/-- The fold takes the chain's next object at this position. -/
def Ready (dd seq : Nat) (f : LeaseFold) : Prop := (f.begin ⟨dd, seq⟩).dd = dd ∧ (f.begin ⟨dd, seq⟩).next = seq

theorem newLeaseFold_ready (dd : Nat) : Ready dd 1 newLeaseFold := ⟨rfl, rfl⟩

theorem applyChain_ready {dd seq : Nat} {f : LeaseFold} (h : Ready dd seq f) (hk : Keyed f) (writer : Nat) (batch : ChainBatch) :
    ∃ f' evs, f.applyChain ⟨dd, seq⟩ writer batch = some (f', evs) ∧ Ready dd (seq + 1) f' ∧ Keyed f' ∧ f'.next = seq + 1 ∧
      f'.dd = dd := by
  have hb : Keyed (f.begin ⟨dd, seq⟩) :=
    ⟨fun k m hm => hk.members k m (by rw [← begin_members]; exact hm), fun id e n hl => hk.holders id e n (by rw [← begin_lease]; exact hl),
      fun _ => f.begin_haveDD _⟩
  obtain ⟨hd, hh⟩ := clock_applyRecords ⟨dd, seq⟩ writer batch.incarnation batch.records (f.begin ⟨dd, seq⟩)
  rw [f.begin_haveDD] at hh
  have hr := hb.applyRecords ⟨dd, seq⟩ writer batch.incarnation batch.records
  refine ⟨{ (LeaseFold.applyRecords ⟨dd, seq⟩ writer batch.incarnation (f.begin ⟨dd, seq⟩) batch.records).1 with next := seq + 1 },
    (LeaseFold.applyRecords ⟨dd, seq⟩ writer batch.incarnation (f.begin ⟨dd, seq⟩) batch.records).2, ?_, ?_, ⟨hr.members, hr.holders, fun _ => hh⟩, rfl, hd.trans h.1⟩
  · rw [LeaseFold.applyChain]
    dsimp only
    rw [if_neg (by rw [h.1, h.2]; exact fun hno => hno.elim (fun hn => hn rfl) fun hn => hn rfl)]
  · unfold Ready
    rw [begin_of_dated _ (by exact hh) (by exact Nat.succ_ne_zero seq)]
    exact ⟨hd.trans h.1, rfl⟩

theorem applyObjects_ready {dd : Nat} (chain : List (Nat × ChainBatch)) {seq : Nat} {f : LeaseFold} (h : Ready dd seq f) (hk : Keyed f) :
    ∃ f' evs, LeaseFold.applyObjects dd seq f chain = some (f', evs) ∧ Ready dd (seq + chain.length) f' ∧ Keyed f' ∧
      (chain ≠ [] → f'.next = seq + chain.length ∧ f'.dd = dd) := by
  induction chain generalizing seq f with
  | nil => exact ⟨f, [], rfl, h, hk, fun hne => absurd rfl hne⟩
  | cons o rest ih =>
    obtain ⟨writer, batch⟩ := o
    obtain ⟨g, evs, h1, h2, h3, h4, h5⟩ := applyChain_ready h hk writer batch
    obtain ⟨f', evs', h6, h7, h8, h9⟩ := ih h2 h3
    refine ⟨f', evs ++ evs', by rw [LeaseFold.applyObjects, h1]; dsimp only; rw [h6]; rfl, ?_, h8, fun _ => ?_⟩
    · rw [List.length_cons, ← Nat.add_assoc, Nat.add_right_comm]
      exact h7
    · by_cases hr : rest = []
      · subst hr
        obtain ⟨rfl, rfl⟩ := Prod.mk.inj (Option.some.inj h6)
        exact ⟨h4, h5⟩
      · obtain ⟨h10, h11⟩ := h9 hr
        exact ⟨by rw [h10, List.length_cons]; omega, h11⟩

theorem applyObjects_append {dd : Nat} (pre post : List (Nat × ChainBatch)) {seq : Nat} {f f' f'' : LeaseFold} {evs evs' : List FoldEvent}
    (h : LeaseFold.applyObjects dd seq f pre = some (f', evs))
    (h' : LeaseFold.applyObjects dd (seq + pre.length) f' post = some (f'', evs')) :
    LeaseFold.applyObjects dd seq f (pre ++ post) = some (f'', evs ++ evs') := by
  induction pre generalizing seq f evs with
  | nil =>
    obtain ⟨rfl, rfl⟩ := Prod.mk.inj (Option.some.inj h)
    exact h'
  | cons o rest ih =>
    obtain ⟨writer, batch⟩ := o
    rw [LeaseFold.applyObjects] at h
    split at h
    · simp at h
    · next g evs₁ hstep =>
      obtain ⟨⟨g', evs₂⟩, hrest, heq⟩ := Option.map_eq_some_iff.mp h
      obtain ⟨rfl, rfl⟩ := Prod.mk.inj heq
      have := ih hrest (by rw [Nat.add_right_comm, Nat.add_assoc]; exact h')
      rw [List.cons_append, LeaseFold.applyObjects, hstep]
      dsimp only
      rw [this, Option.map_some, List.append_assoc]

theorem foldlM_primeMember (ms : List Member) (hms : ∀ m ∈ ms, m.node ≠ 0) (t : Std.ExtTreeMap Nat Member) :
    ms.foldlM primeMember t = some (ms.foldl (fun t m => t.insert m.node m) t) := by
  induction ms generalizing t with
  | nil => rfl
  | cons m ms ih =>
    rw [List.foldlM_cons, primeMember, if_neg (hms m List.mem_cons_self)]
    exact ih (fun m hm => hms m (List.mem_cons_of_mem _ hm)) _

theorem Keyed.primeMembers {f : LeaseFold} (h : Keyed f) : f.memberTable.foldlM primeMember ∅ = some f.members := by
  have hrow (a : Nat × Member) (ha : a ∈ f.members.toList) : a.2.node = a.1 ∧ a.1 ≠ 0 :=
    h.members a.1 a.2 (Std.ExtTreeMap.mem_toList_iff_getElem?_eq_some.mp ha)
  rw [foldlM_primeMember]
  · refine congrArg some (Std.ExtTreeMap.ext_getElem? fun k => ?_)
    rw [memberTable, List.foldl_map, List.foldl_ext _ (fun t a => t.insert a.1 a.2) _ fun t a ha => by rw [(hrow a ha).1]]
    exact (getElem?_rebuild (fun _ m => m) f.members k).trans Option.map_id'
  · intro m hm
    obtain ⟨a, ha, rfl⟩ := List.mem_map.mp hm
    rw [(hrow a ha).1]
    exact (hrow a ha).2

/-- The lease rows rebuild the table; a released group's holder is left out of both. -/
theorem Keyed.primeLeases {f : LeaseFold} (h : Keyed f) (through : ChainPos) (deadlineMS : Nat → Nat) (id : Nat) :
    (((f.snapshot deadlineMS).leases.foldl (primeLease through) ∅)[id]?.map fun g =>
      (g.epoch, if g.released then none else some g.node)) = f.lease id := by
  have hrows : (f.snapshot deadlineMS).leases.foldl (primeLease through) ∅ = f.groups.toList.foldl (fun m a => m.insert a.1
      (⟨if a.2.released then 0 else a.2.node, a.2.epoch, decide ((if a.2.released then 0 else a.2.node) = 0), through⟩ : GroupLease)) ∅ := by
    rw [snapshot, leases, List.map_map, List.foldl_map]
    refine List.foldl_ext _ _ _ fun t a _ => ?_
    simp only [primeLease, Function.comp]
    split
    · rfl
    · split <;> rfl
  rw [hrows, getElem?_rebuild (fun _ g => (⟨if g.released then 0 else g.node, g.epoch, decide ((if g.released then 0 else g.node) = 0), through⟩ :
    GroupLease)) f.groups id, Option.map_map, lease]
  cases hg : f.groups[id]? with
  | none => rfl
  | some g =>
    cases hrel : g.released with
    | true => simp [hrel]
    | false =>
      have hn : g.node ≠ 0 := h.holders id g.epoch g.node (by simp [lease, hg, hrel])
      simp [hrel, hn]

theorem Keyed.prime {f : LeaseFold} (h : Keyed f) (hn : f.next ≠ 0) (deadlineMS : Nat → Nat) :
    ∃ p, newLeaseFold.prime (f.snapshot deadlineMS) = some p ∧ Agrees f p := by
  have hthrough : (f.snapshot deadlineMS).through = ⟨f.dd, f.next - 1⟩ := by simp [snapshot, applied, hn]
  have hprime : newLeaseFold.prime (f.snapshot deadlineMS) = some { newLeaseFold with
      members := f.members
      groups := (f.snapshot deadlineMS).leases.foldl (primeLease (f.snapshot deadlineMS).through) ∅
      dd := (f.snapshot deadlineMS).through.dd
      haveDD := true
      next := (f.snapshot deadlineMS).through.seq + 1
      primed := true } := by
    rw [LeaseFold.prime, if_neg (by simp [newLeaseFold])]
    exact Option.map_eq_some_iff.mpr ⟨_, h.primeMembers, rfl⟩
  refine ⟨_, hprime, ⟨by rw [hthrough], (h.dated hn).symm, by rw [hthrough]; dsimp only; omega, rfl, fun id => ?_⟩⟩
  exact h.primeLeases _ deadlineMS id

/-- The fold of any chain fences its commit sections, and a fold primed from the checkpoint at any cut goes on exactly as the
full one does. -/
theorem lease_fold_fences_and_resumes (dd : Nat) (chain : List (Nat × ChainBatch)) :
    ∃ f log, applyObjects dd 1 newLeaseFold chain = some (f, log) ∧
      ((∀ pos r, FoldEvent.granted pos r ∈ log → r.epoch ≠ 0) →
        ∀ (i j : Nat) a b, i ≤ j → log[i]? = some a → log[j]? = some b → a.Fences b) ∧
      ∀ cut ≤ chain.length, ∀ deadlineMS, ∃ f₁ log₁, applyObjects dd 1 newLeaseFold (chain.take cut) = some (f₁, log₁) ∧
        (f₁.writeCheckpoint deadlineMS = none ↔ cut = 0 ∨ (f₁.snapshot deadlineMS).overfull = true) ∧
        ∀ c, f₁.writeCheckpoint deadlineMS = some c → ∃ p g log₂, newLeaseFold.prime c = some p ∧
          applyObjects dd (cut + 1) p (chain.drop cut) = some (g, log₂) ∧ log = log₁ ++ log₂ ∧
          (∀ group, g.holder group = f.holder group ∧ g.nextEpoch group = f.nextEpoch group) ∧
          (∀ node, g.heldBy node = f.heldBy node) ∧ g.memberTable = f.memberTable := by
  obtain ⟨f, log, hrun, -⟩ := applyObjects_ready chain (newLeaseFold_ready dd) newLeaseFold_keyed
  refine ⟨f, log, hrun, fun hwrap i j a b hij ha hb => ?_, fun cut hcut deadlineMS => ?_⟩
  · have hfenced : Fenced f log := by simpa using newLeaseFold_fenced.applyObjects chain hrun hwrap
    rcases Nat.lt_or_eq_of_le hij with hlt | rfl
    · obtain ⟨hi, rfl⟩ := List.getElem?_eq_some_iff.mp ha
      obtain ⟨hj, rfl⟩ := List.getElem?_eq_some_iff.mp hb
      exact List.pairwise_iff_getElem.mp hfenced.ordered i j hi hj hlt
    · rw [ha] at hb
      cases hb
      exact hfenced.own a (List.mem_of_getElem? ha)
  · have hlen : (chain.take cut).length = cut := by rw [List.length_take]; omega
    obtain ⟨f₁, log₁, h1, h2, h3, h4⟩ := applyObjects_ready (chain.take cut) (newLeaseFold_ready dd) newLeaseFold_keyed
    obtain ⟨f₂, log₂, h5, -⟩ := applyObjects_ready (chain.drop cut) h2 h3
    have hwhole := applyObjects_append _ _ h1 h5
    rw [List.take_append_drop, hrun] at hwhole
    obtain ⟨rfl, rfl⟩ := Prod.mk.inj (Option.some.inj hwhole)
    have hthrough : (f₁.snapshot deadlineMS).through.seq = cut := by
      by_cases h0 : cut = 0
      · subst h0
        obtain ⟨rfl, rfl⟩ := Prod.mk.inj (Option.some.inj h1)
        rfl
      · have hnext := (h4 fun hnil => h0 (by rw [← hlen, hnil]; rfl)).1
        rw [hlen] at hnext
        rw [snapshot, applied, if_neg (by omega), hnext]
        exact Nat.add_sub_cancel_left 1 cut
    have hwrite : f₁.writeCheckpoint deadlineMS =
        if cut = 0 ∨ (f₁.snapshot deadlineMS).overfull then none else some (f₁.snapshot deadlineMS) := by
      rw [writeCheckpoint, hthrough]
    refine ⟨f₁, log₁, h1, by rw [hwrite]; split <;> simp_all, fun c hc => ?_⟩
    rw [hwrite] at hc
    split at hc
    · simp at hc
    · next hno =>
      cases hc
      have h0 : cut ≠ 0 := fun h0 => hno (.inl h0)
      have hnext := (h4 fun hnil => h0 (by rw [← hlen, hnil]; rfl)).1
      obtain ⟨p, hp, hagree⟩ := h3.prime (by omega) deadlineMS
      obtain ⟨g, hg, hend⟩ := hagree.applyObjects _ h5
      rw [hlen, Nat.add_comm] at hg
      exact ⟨p, g, log₂, hp, hg, rfl, fun group => ⟨hend.holder group, hend.nextEpoch group⟩, hend.heldBy, hend.memberTable⟩

end LeaseFold

end Aki.Obs1
