import Aki.ManifestPublisher

namespace Aki.Obs1

namespace ManGroup

/-- From the cursor on, the trail answers as the whole feed does. -/
def Trails (g : ManGroup) (feed : List CovEntry) : Prop :=
  ∀ F, g.foldSeq ≤ F → (g.cover.find? fun c => decide (F ≤ c.last)) = feed.find? fun c => decide (F ≤ c.last)

theorem Trails.onVerdict {g : ManGroup} {feed : List CovEntry} (h : Trails g feed) (e : CovEntry) :
    Trails (g.onVerdict e) (feed ++ [e]) := by
  intro F
  unfold ManGroup.onVerdict
  split
  next hlow =>
    intro hF
    rw [List.find?_append, List.find?_singleton, if_neg (by simpa using Nat.lt_of_lt_of_le hlow hF), Option.or_none]
    exact h F hF
  next hlow =>
    split
    next hcov =>
      intro hF
      rw [List.find?_append, ← h F hF]
      -- an entry this high only repeats what the trail's last one answers
      by_cases hFe : F ≤ e.last
      · obtain ⟨c, hc, hle⟩ := (Option.any_eq_true _ _).mp hcov
        have hmem : c ∈ g.cover := List.mem_of_getLast? hc
        have hsome : (g.cover.find? fun c => decide (F ≤ c.last)).isSome = true := by
          rw [List.find?_isSome]
          exact ⟨c, hmem, by simpa using hFe.trans (of_decide_eq_true hle)⟩
        obtain ⟨d, hd⟩ := Option.isSome_iff_exists.mp hsome
        rw [hd]
        rfl
      · rw [List.find?_singleton, if_neg (by simpa using hFe), Option.or_none]
    next hcov =>
      intro hF
      rw [List.find?_append, List.find?_append, h F hF]

theorem find?_dropWhile_lt (cover : List CovEntry) {n F : Nat} (hF : n ≤ F) :
    ((cover.dropWhile fun c => decide (c.last < n)).find? fun c => decide (F ≤ c.last)) =
      cover.find? fun c => decide (F ≤ c.last) := by
  induction cover with
  | nil => rfl
  | cons c cover ih =>
    by_cases hc : c.last < n
    · rw [List.dropWhile_cons_of_pos (by simpa using hc), ih, List.find?_cons_of_neg (by simp; omega)]
    · rw [List.dropWhile_cons_of_neg (by simpa using hc)]

theorem head?_dropWhile_lt (cover : List CovEntry) (n : Nat) :
    (cover.dropWhile fun c => decide (c.last < n)).head? = cover.find? fun c => decide (n ≤ c.last) := by
  induction cover with
  | nil => rfl
  | cons c cover ih =>
    by_cases hc : c.last < n
    · rw [List.dropWhile_cons_of_pos (by simpa using hc), ih, List.find?_cons_of_neg (by simp; omega)]
    · rw [List.dropWhile_cons_of_neg (by simpa using hc), List.find?_cons_of_pos (by simp; omega)]
      rfl

theorem onFolded_spec {g g' : ManGroup} {seg : FoldedSegment} {feed : List CovEntry} (h : Trails g feed)
    (hs : g.onFolded seg = some g') :
    g'.manSeq = g.manSeq ∧ g'.foldSeq = max g.foldSeq seg.coveredSeq ∧ Trails g' feed ∧
      g'.foldPos = ((feed.find? fun c => decide (g'.foldSeq ≤ c.last)).map CovEntry.pos).getD g.foldPos := by
  unfold ManGroup.onFolded at hs
  split at hs
  · cases hs
  · rw [← Option.some.inj hs]
    refine ⟨rfl, rfl, ?_, ?_⟩
    · intro F hF
      have hF' : g.foldSeq ≤ F := (Nat.le_max_left _ _).trans hF
      exact (find?_dropWhile_lt g.cover hF).trans (h F hF')
    · show ((g.cover.dropWhile _).head?.map CovEntry.pos).getD g.foldPos = _
      rw [head?_dropWhile_lt, h _ (Nat.le_max_left _ _)]

end ManGroup

namespace ManWorld

/-- Published slots lie below the group's next one, the slot being written at or past it. -/
structure SlotInv (w : ManWorld) : Prop where
  past : ∀ m ∈ w.pub.published, m.manSeq < (w.pub.groups m.group).manSeq
  ahead : ∀ m, w.pub.putting = some m → (w.pub.groups m.group).manSeq ≤ m.manSeq
  increasing : w.pub.published.Pairwise fun a b => a.group = b.group → a.manSeq < b.manSeq

/-- Until the publisher is closed down, past a group's next slot the node's own tag stands only where the present create
has landed. -/
structure OwnInv (w : ManWorld) : Prop where
  own : ∀ group slot st, (w.pub.groups group).manSeq ≤ slot → w.bucket group slot = some st → st.tag = ⟨w.pub.node, slot⟩ →
    (w.pub.closed = true ∧ w.pub.putting = none) ∨
      ∃ m, w.pub.putting = some m ∧ m.group = group ∧ m.manSeq = slot ∧ st.body = m
  landed : ∀ m ∈ w.pub.published, (w.bucket m.group m.manSeq).map Stored.body = some m

/-- Steps that touch neither the bucket nor a slot. -/
structure SameSlots (w w' : ManWorld) : Prop where
  bucket : w'.bucket = w.bucket
  node : w'.pub.node = w.pub.node
  putting : w'.pub.putting = w.pub.putting
  published : w'.pub.published = w.pub.published
  closed : w'.pub.closed = w.pub.closed
  manSeq : ∀ group, (w'.pub.groups group).manSeq = (w.pub.groups group).manSeq

theorem SlotInv.congr {w w' : ManWorld} (h : SlotInv w) (hs : SameSlots w w') : SlotInv w' := by
  refine ⟨?_, ?_, ?_⟩
  · intro m hm
    rw [hs.manSeq]
    exact h.past m (hs.published ▸ hm)
  · intro m hm
    rw [hs.manSeq]
    exact h.ahead m (hs.putting ▸ hm)
  · rw [hs.published]
    exact h.increasing

theorem OwnInv.congr {w w' : ManWorld} (h : OwnInv w) (hs : SameSlots w w') : OwnInv w' := by
  refine ⟨?_, ?_⟩
  · intro group slot st
    rw [hs.manSeq, hs.bucket, hs.node, hs.putting, hs.closed]
    exact h.own group slot st
  · rw [hs.published, hs.bucket]
    exact h.landed

theorem setGroup_groups (w : ManWorld) (group x : Nat) (g : ManGroup) :
    (w.setGroup group g).pub.groups x = if x = group then g else w.pub.groups x := Function.update_apply _ _ _ _

theorem setCell_bucket (w : ManWorld) (group slot x y : Nat) (cell : Option (Stored Manifest)) :
    (w.setCell group slot cell).bucket x y = if x = group ∧ y = slot then cell else w.bucket x y := by
  unfold setCell
  simp only [Function.update_apply]
  split
  next hx => simp [hx, Function.update_apply]
  next hx => simp [hx]

theorem onVerdict_manSeq (g : ManGroup) (e : CovEntry) : (g.onVerdict e).manSeq = g.manSeq := by
  unfold ManGroup.onVerdict
  split
  · rfl
  · split <;> rfl

theorem hear_sameSlots (w : ManWorld) (group : Nat) (e : CovEntry) : SameSlots w (w.hear group e) := by
  refine ⟨rfl, rfl, rfl, rfl, rfl, ?_⟩
  intro x
  show ((w.setGroup group _).pub.groups x).manSeq = _
  rw [setGroup_groups]
  split
  next hx => rw [onVerdict_manSeq, hx]
  · rfl

theorem onFolded_sameSlots (w : ManWorld) (seg : FoldedSegment) : SameSlots w (w.onFolded seg) := by
  unfold onFolded
  split
  · exact ⟨rfl, rfl, rfl, rfl, rfl, fun _ => rfl⟩
  next g hg =>
    have hman : ∀ x, ((w.setGroup seg.group g).pub.groups x).manSeq = (w.pub.groups x).manSeq := by
      intro x
      rw [setGroup_groups]
      split
      next hx =>
        unfold ManGroup.onFolded at hg
        split at hg
        · cases hg
        · rw [← Option.some.inj hg, hx]
      · rfl
    dsimp only
    split
    · exact ⟨rfl, rfl, rfl, rfl, rfl, hman⟩
    · exact ⟨rfl, rfl, rfl, rfl, rfl, hman⟩

theorem take_groups (w : ManWorld) (group : Nat) (rest : List Nat) (x : Nat) :
    (w.take group rest).pub.groups x =
      if x = group then { w.pub.groups group with dirty := false } else w.pub.groups x :=
  setGroup_groups w group x _

theorem take_manSeq (w : ManWorld) (group : Nat) (rest : List Nat) (x : Nat) :
    ((w.take group rest).pub.groups x).manSeq = (w.pub.groups x).manSeq := by
  rw [take_groups]
  split
  next hx => rw [hx]
  · rfl

theorem take_putting {w : ManWorld} {group : Nat} {rest : List Nat} {m : Manifest}
    (h : (w.take group rest).pub.putting = some m) : m = w.nextManifest group := by
  have h' : (if (w.nextManifest group).builds then some (w.nextManifest group) else none) = some m := h
  split at h'
  · exact (Option.some.inj h').symm
  · cases h'

theorem SlotInv.take {w : ManWorld} (h : SlotInv w) (group : Nat) (rest : List Nat) : SlotInv (w.take group rest) := by
  refine ⟨?_, ?_, h.increasing⟩
  · intro m hm
    rw [take_manSeq]
    exact h.past m hm
  · intro m hm
    rw [take_manSeq, take_putting hm]
    exact Nat.le_refl _

/-- With no create under way an open publisher has no object of the node's ahead of it. -/
theorem OwnInv.clear {w : ManWorld} (h : OwnInv w) (hopen : w.pub.closed = false) (hnone : w.pub.putting = none)
    {group slot : Nat} {st : Stored Manifest} (hle : (w.pub.groups group).manSeq ≤ slot) (hst : w.bucket group slot = some st) :
    st.tag ≠ ⟨w.pub.node, slot⟩ := by
  intro htag
  rcases h.own group slot st hle hst htag with ⟨hc, -⟩ | ⟨m, hm, -⟩
  · rw [hopen] at hc
    cases hc
  · rw [hnone] at hm
    cases hm

theorem OwnInv.present {w : ManWorld} (h : OwnInv w) {m : Manifest} (hm : w.pub.putting = some m) {group slot : Nat}
    {st : Stored Manifest} (hle : (w.pub.groups group).manSeq ≤ slot) (hst : w.bucket group slot = some st)
    (htag : st.tag = ⟨w.pub.node, slot⟩) : m.group = group ∧ m.manSeq = slot ∧ st.body = m := by
  rcases h.own group slot st hle hst htag with ⟨-, hnone⟩ | ⟨m', hm', h'⟩
  · rw [hm] at hnone
    cases hnone
  · rw [hm] at hm'
    obtain rfl := Option.some.inj hm'
    exact h'

theorem OwnInv.take {w : ManWorld} (h : OwnInv w) (hopen : w.pub.closed = false) (hnone : w.pub.putting = none) (group : Nat)
    (rest : List Nat) : OwnInv (w.take group rest) := by
  refine ⟨?_, h.landed⟩
  intro x slot st hle hst htag
  rw [take_manSeq] at hle
  exact absurd htag (h.clear hopen hnone hle hst)

theorem finishPut_groups (w : ManWorld) (m : Manifest) (x : Nat) :
    (w.finishPut m).pub.groups x =
      if x = m.group then { w.pub.groups m.group with manSeq := m.manSeq + 1 } else w.pub.groups x :=
  setGroup_groups w m.group x _

theorem SlotInv.finishPut {w : ManWorld} (h : SlotInv w) {m : Manifest} (hm : w.pub.putting = some m) :
    SlotInv (w.finishPut m) := by
  have hahead := h.ahead m hm
  have hpast : ∀ p ∈ w.pub.published, p.group = m.group → p.manSeq < m.manSeq := by
    intro p hp hg
    have := h.past p hp
    rw [hg] at this
    omega
  refine ⟨?_, (fun p hp => nomatch hp), ?_⟩
  · intro p hp
    rw [finishPut_groups]
    rcases List.mem_append.mp hp with hp | hp
    · split
      next hg => exact Nat.lt_succ_of_lt (hpast p hp hg)
      · exact h.past p hp
    · rw [List.mem_singleton.mp hp, if_pos rfl]
      exact Nat.lt_succ_self _
  · refine List.pairwise_append.mpr ⟨h.increasing, List.pairwise_singleton _ _, ?_⟩
    intro p hp q hq
    rw [List.mem_singleton.mp hq]
    exact hpast p hp

theorem OwnInv.finishPut {w : ManWorld} (h : OwnInv w) (hslot : SlotInv w) {m : Manifest} (hm : w.pub.putting = some m)
    (hst : (w.bucket m.group m.manSeq).map Stored.body = some m) : OwnInv (w.finishPut m) := by
  have hahead := hslot.ahead m hm
  refine ⟨?_, ?_⟩
  · intro group slot st hle hget htag
    exfalso
    rw [finishPut_groups] at hle
    -- any other object of the node's there would stand where the present create is
    have hle' : (w.pub.groups group).manSeq ≤ slot := by
      split at hle
      next hg =>
        rw [hg]
        dsimp only at hle
        omega
      · exact hle
    obtain ⟨hg, hs, -⟩ := h.present hm hle' hget htag
    rw [if_pos hg.symm] at hle
    dsimp only at hle
    omega
  · intro p hp
    rcases List.mem_append.mp hp with hp | hp
    · exact h.landed p hp
    · rw [List.mem_singleton.mp hp]
      exact hst

theorem OwnInv.setCell {w : ManWorld} (h : OwnInv w) {m : Manifest} (hm : w.pub.putting = some m)
    {cell : Option (Stored Manifest)} (hcell : cell = w.bucket m.group m.manSeq ∨
      (w.bucket m.group m.manSeq = none ∧ cell = some ⟨⟨w.pub.node, m.manSeq⟩, m⟩)) :
    OwnInv (w.setCell m.group m.manSeq cell) := by
  rcases hcell with rfl | ⟨hnone, rfl⟩
  · have hsame : (w.setCell m.group m.manSeq (w.bucket m.group m.manSeq)).bucket = w.bucket := by
      funext x y
      rw [setCell_bucket]
      split
      next hxy => rw [hxy.1, hxy.2]
      · rfl
    exact h.congr ⟨hsame, rfl, rfl, rfl, rfl, fun _ => rfl⟩
  · refine ⟨?_, ?_⟩
    · intro group slot st hle hst htag
      rw [setCell_bucket] at hst
      split at hst
      next hxy => exact Or.inr ⟨m, hm, hxy.1.symm, hxy.2.symm, by rw [← Option.some.inj hst]⟩
      · exact h.own group slot st hle hst htag
    · intro p hp
      rw [setCell_bucket]
      split
      next hxy =>
        have := h.landed p hp
        rw [hxy.1, hxy.2, hnone] at this
        cases this
      · exact h.landed p hp

theorem SlotInv.skip {w : ManWorld} (h : SlotInv w) {m : Manifest} (hm : w.pub.putting = some m) :
    SlotInv { w with pub := { w.pub with putting := some { m with manSeq := m.manSeq + 1 } } } := by
  refine ⟨h.past, ?_, h.increasing⟩
  intro p hp
  rw [← Option.some.inj hp]
  exact Nat.le_succ_of_le (h.ahead m hm)

theorem OwnInv.skip {w : ManWorld} (h : OwnInv w) {m : Manifest} (hm : w.pub.putting = some m) {st : Stored Manifest}
    (hst : w.bucket m.group m.manSeq = some st) (htag : st.tag ≠ ⟨w.pub.node, m.manSeq⟩) :
    OwnInv { w with pub := { w.pub with putting := some { m with manSeq := m.manSeq + 1 } } } := by
  refine ⟨?_, h.landed⟩
  intro group slot st' hle hget htag'
  exfalso
  obtain ⟨rfl, rfl, -⟩ := h.present hm hle hget htag'
  rw [show w.bucket m.group m.manSeq = some st' from hget] at hst
  exact htag (Option.some.inj hst ▸ htag')

theorem SlotInv.round {w : ManWorld} (h : SlotInv w) {m : Manifest} (hm : w.pub.putting = some m) (wire : Wire)
    (rereads : Bool) : SlotInv (w.round m wire rereads) := by
  unfold ManWorld.round
  generalize putRound (w.bucket m.group m.manSeq) ⟨⟨w.pub.node, m.manSeq⟩, m⟩ wire rereads = res
  have h' : SlotInv (w.setCell m.group m.manSeq res.1) := ⟨h.past, h.ahead, h.increasing⟩
  dsimp only
  split
  · exact h'
  · exact h'.finishPut hm
  · exact h'.finishPut hm
  · exact h'.skip hm

theorem OwnInv.round {w : ManWorld} (h : OwnInv w) (hslot : SlotInv w) {m : Manifest} (hm : w.pub.putting = some m)
    (wire : Wire) (rereads : Bool) : OwnInv (w.round m wire rereads) := by
  have r := putRound_spec (w.bucket m.group m.manSeq) ⟨⟨w.pub.node, m.manSeq⟩, m⟩ wire rereads
  unfold ManWorld.round
  generalize putRound (w.bucket m.group m.manSeq) ⟨⟨w.pub.node, m.manSeq⟩, m⟩ wire rereads = res at r
  have h' : OwnInv (w.setCell m.group m.manSeq res.1) := h.setCell hm r.cell_eq
  have hslot' : SlotInv (w.setCell m.group m.manSeq res.1) := ⟨hslot.past, hslot.ahead, hslot.increasing⟩
  have hcell : (w.setCell m.group m.manSeq res.1).bucket m.group m.manSeq = res.1 := by
    rw [setCell_bucket, if_pos ⟨rfl, rfl⟩]
  dsimp only
  split
  · exact h'
  next he =>
    refine h'.finishPut hslot' hm ?_
    rw [hcell, r.stored he]
    rfl
  next he =>
    -- the tag is the node's, so the object is the present create's
    refine h'.finishPut hslot' hm ?_
    obtain ⟨st, hst, htag⟩ := r.ours he
    have hbody := (h'.present hm (hslot.ahead m hm) (hcell.trans hst) htag).2.2
    rw [hcell, hst]
    exact congrArg some hbody
  next he =>
    obtain ⟨st, hst, htag⟩ := r.other he
    exact h'.skip hm (hcell.trans hst) htag

theorem OwnInv.foreign {w : ManWorld} (h : OwnInv w) {writer slot : Nat} {m : Manifest} (hw : writer ≠ w.pub.node)
    (hnone : w.bucket m.group slot = none) : OwnInv (w.setCell m.group slot (some ⟨⟨writer, slot⟩, m⟩)) := by
  refine ⟨?_, ?_⟩
  · intro group x st hle hst htag
    rw [setCell_bucket] at hst
    split at hst
    next hxy =>
      exfalso
      rw [← Option.some.inj hst] at htag
      exact hw (congrArg WriteTag.writer htag)
    · exact h.own group x st hle hst htag
  · intro p hp
    rw [setCell_bucket]
    split
    next hxy =>
      have := h.landed p hp
      rw [hxy.1, hxy.2, hnone] at this
      cases this
    · exact h.landed p hp

/-- The position fits the cursor: the first live verdict that reaches it, or the seed's own. -/
def Covers (w : ManWorld) (group foldSeq : Nat) (pos : ChainPos) : Prop :=
  ((w.verdicts group).find? fun v => decide (foldSeq ≤ v.last)).map CovEntry.pos = some pos ∨
    (foldSeq = (w.pub.seed group).foldSeq ∧ pos = (w.pub.seed group).foldPos)

structure PosInv (w : ManWorld) : Prop where
  from_le : ∀ group, w.heardFrom group ≤ (w.verdicts group).length
  trail : ∀ group, (w.pub.groups group).Trails (w.heard group)
  seed_le : ∀ group, (w.pub.seed group).foldSeq ≤ (w.pub.groups group).foldSeq
  cursor : ∀ group, w.Covers group (w.pub.groups group).foldSeq (w.pub.groups group).foldPos
  stated : ∀ m, w.pub.putting = some m ∨ m ∈ w.pub.published → w.Covers m.group m.foldSeq m.foldPos

/-- Steps that leave the feed and every cursor as they are. -/
structure SameCursors (w w' : ManWorld) : Prop where
  verdicts : w'.verdicts = w.verdicts
  heardFrom : w'.heardFrom = w.heardFrom
  seed : w'.pub.seed = w.pub.seed
  foldSeq : ∀ group, (w'.pub.groups group).foldSeq = (w.pub.groups group).foldSeq
  foldPos : ∀ group, (w'.pub.groups group).foldPos = (w.pub.groups group).foldPos
  cover : ∀ group, (w'.pub.groups group).cover = (w.pub.groups group).cover

theorem PosInv.congr {w w' : ManWorld} (h : PosInv w) (hs : SameCursors w w')
    (hst : ∀ m, w'.pub.putting = some m ∨ m ∈ w'.pub.published → w.Covers m.group m.foldSeq m.foldPos) : PosInv w' := by
  have hcov : ∀ group foldSeq pos, w'.Covers group foldSeq pos ↔ w.Covers group foldSeq pos := by
    intro group foldSeq pos
    unfold Covers
    rw [hs.verdicts, hs.seed]
  refine ⟨?_, ?_, ?_, ?_, fun m hm => (hcov _ _ _).mpr (hst m hm)⟩
  · rw [hs.verdicts, hs.heardFrom]
    exact h.from_le
  · intro group F hF
    rw [hs.foldSeq] at hF
    rw [hs.cover, heard, hs.verdicts, hs.heardFrom]
    exact h.trail group F hF
  · intro group
    rw [hs.seed, hs.foldSeq]
    exact h.seed_le group
  · intro group
    rw [hcov, hs.foldSeq, hs.foldPos]
    exact h.cursor group

theorem Covers.hear {w : ManWorld} {group foldSeq : Nat} {pos : ChainPos} (h : w.Covers group foldSeq pos) (g : Nat)
    (e : CovEntry) : (w.hear g e).Covers group foldSeq pos := by
  rcases h with h | h
  · left
    obtain ⟨v, hv, hpos⟩ := Option.map_eq_some_iff.mp h
    show ((Function.update w.verdicts g (w.verdicts g ++ [e]) group).find? _).map _ = _
    rw [Function.update_apply]
    split
    next hg =>
      subst hg
      rw [List.find?_append, hv]
      exact congrArg some hpos
    · exact h
  · exact Or.inr h

theorem PosInv.hear {w : ManWorld} (h : PosInv w) (g : Nat) (e : CovEntry) : PosInv (w.hear g e) := by
  have hver : ∀ group, (w.hear g e).verdicts group = if group = g then w.verdicts g ++ [e] else w.verdicts group :=
    fun group => Function.update_apply _ _ _ _
  have hgr : ∀ group, (w.hear g e).pub.groups group =
      if group = g then (w.pub.groups g).onVerdict e else w.pub.groups group := fun group => setGroup_groups w g group _
  have hfold : ∀ group, ((w.hear g e).pub.groups group).foldSeq = (w.pub.groups group).foldSeq ∧
      ((w.hear g e).pub.groups group).foldPos = (w.pub.groups group).foldPos := by
    intro group
    rw [hgr]
    split
    next hg =>
      subst hg
      unfold ManGroup.onVerdict
      split
      · exact ⟨rfl, rfl⟩
      · split <;> exact ⟨rfl, rfl⟩
    · exact ⟨rfl, rfl⟩
  refine ⟨?_, ?_, ?_, ?_, fun m hm => (h.stated m hm).hear g e⟩
  · intro group
    rw [hver]
    have := h.from_le group
    show w.heardFrom group ≤ _
    split
    next hg =>
      subst hg
      rw [List.length_append]
      omega
    · exact this
  · intro group
    rw [hgr, heard, hver]
    split
    next hg =>
      subst hg
      rw [show (w.hear group e).heardFrom = w.heardFrom from rfl, List.drop_append_of_le_length (h.from_le group)]
      exact (h.trail group).onVerdict e
    · exact h.trail group
  · intro group
    rw [(hfold group).1]
    exact h.seed_le group
  · intro group
    rw [(hfold group).1, (hfold group).2]
    exact (h.cursor group).hear g e

theorem PosInv.setGroup {w : ManWorld} (h : PosInv w) {group : Nat} {g : ManGroup} (htrail : g.Trails (w.heard group))
    (hseed : (w.pub.seed group).foldSeq ≤ g.foldSeq) (hcov : w.Covers group g.foldSeq g.foldPos) :
    PosInv (w.setGroup group g) := by
  refine ⟨h.from_le, ?_, ?_, ?_, h.stated⟩
  · intro x
    rw [setGroup_groups]
    split
    next hx =>
      subst hx
      exact htrail
    · exact h.trail x
  · intro x
    rw [setGroup_groups]
    split
    next hx =>
      subst hx
      exact hseed
    · exact h.seed_le x
  · intro x
    rw [setGroup_groups]
    split
    next hx =>
      subst hx
      exact hcov
    · exact h.cursor x

theorem PosInv.onFolded {w : ManWorld} (h : PosInv w) {seg : FoldedSegment} (hsound : w.Sound (.folded seg)) :
    PosInv (w.onFolded seg) := by
  unfold ManWorld.onFolded
  split
  · exact h
  next g hg =>
    obtain ⟨-, hseq, htrail, hpos⟩ := ManGroup.onFolded_spec (h.trail seg.group) hg
    have hseed := h.seed_le seg.group
    have hcov : w.Covers seg.group g.foldSeq g.foldPos := by
      rcases hsound with ⟨hbefore, hheard⟩ | ⟨hcur, hnone⟩
      · -- the first verdict that reaches the cursor is one this publisher heard
        left
        rw [← hseq] at hbefore hheard
        have hsplit : w.verdicts seg.group = w.unheard seg.group ++ w.heard seg.group := (List.take_append_drop _ _).symm
        have hun : ((w.unheard seg.group).find? fun v => decide (g.foldSeq ≤ v.last)) = none := by
          rw [List.find?_eq_none]
          intro v hv
          have := List.all_eq_true.mp hbefore v hv
          simpa using this
        have hsome : ((w.heard seg.group).find? fun v => decide (g.foldSeq ≤ v.last)).isSome = true := by
          rw [List.find?_isSome]
          exact List.any_eq_true.mp hheard
        obtain ⟨v, hv⟩ := Option.isSome_iff_exists.mp hsome
        rw [hsplit, List.find?_append, hun, Option.none_or, hv, hpos, hv]
        rfl
      · -- the cursor has not moved, and neither has the position
        rw [← hseq] at hcur hnone
        have hno : ((w.heard seg.group).find? fun v => decide (g.foldSeq ≤ v.last)) = none := by
          rw [List.find?_eq_none]
          intro v hv
          have := List.all_eq_true.mp hnone v hv
          simpa using this
        rw [hno] at hpos
        have hsame : g.foldSeq = (w.pub.groups seg.group).foldSeq := by omega
        rw [hsame, show g.foldPos = (w.pub.groups seg.group).foldPos from hpos]
        exact h.cursor seg.group
    have h' := h.setGroup htrail (by omega) hcov
    dsimp only
    split
    · exact h'
    · exact h'.congr ⟨rfl, rfl, rfl, fun _ => rfl, fun _ => rfl, fun _ => rfl⟩ h'.stated

theorem PosInv.take {w : ManWorld} (h : PosInv w) (group : Nat) (rest : List Nat) : PosInv (w.take group rest) := by
  have hgr : ∀ x, ((w.take group rest).pub.groups x).foldSeq = (w.pub.groups x).foldSeq ∧
      ((w.take group rest).pub.groups x).foldPos = (w.pub.groups x).foldPos ∧
      ((w.take group rest).pub.groups x).cover = (w.pub.groups x).cover := by
    intro x
    rw [take_groups]
    split
    next hx =>
      subst hx
      exact ⟨rfl, rfl, rfl⟩
    · exact ⟨rfl, rfl, rfl⟩
  refine h.congr ⟨rfl, rfl, rfl, fun x => (hgr x).1, fun x => (hgr x).2.1, fun x => (hgr x).2.2⟩ ?_
  intro m hm
  rcases hm with hm | hm
  · rw [take_putting hm]
    exact h.cursor group
  · exact h.stated m (Or.inr hm)

theorem PosInv.finishPut {w : ManWorld} (h : PosInv w) {m : Manifest} (hm : w.pub.putting = some m) :
    PosInv (w.finishPut m) := by
  have hgr : ∀ x, ((w.finishPut m).pub.groups x).foldSeq = (w.pub.groups x).foldSeq ∧
      ((w.finishPut m).pub.groups x).foldPos = (w.pub.groups x).foldPos ∧
      ((w.finishPut m).pub.groups x).cover = (w.pub.groups x).cover := by
    intro x
    rw [finishPut_groups]
    split
    next hx => rw [hx]; exact ⟨rfl, rfl, rfl⟩
    · exact ⟨rfl, rfl, rfl⟩
  refine h.congr ⟨rfl, rfl, rfl, fun x => (hgr x).1, fun x => (hgr x).2.1, fun x => (hgr x).2.2⟩ ?_
  intro p hp
  rcases hp with hp | hp
  · cases hp
  · rcases List.mem_append.mp hp with hp | hp
    · exact h.stated p (Or.inr hp)
    · rw [List.mem_singleton.mp hp]
      exact h.stated m (Or.inl hm)

theorem PosInv.round {w : ManWorld} (h : PosInv w) {m : Manifest} (hm : w.pub.putting = some m) (wire : Wire) (rereads : Bool) :
    PosInv (w.round m wire rereads) := by
  unfold ManWorld.round
  generalize putRound (w.bucket m.group m.manSeq) ⟨⟨w.pub.node, m.manSeq⟩, m⟩ wire rereads = res
  have h' : PosInv (w.setCell m.group m.manSeq res.1) :=
    h.congr ⟨rfl, rfl, rfl, fun _ => rfl, fun _ => rfl, fun _ => rfl⟩ h.stated
  dsimp only
  split
  · exact h'
  · exact h'.finishPut hm
  · exact h'.finishPut hm
  · refine h'.congr ⟨rfl, rfl, rfl, fun _ => rfl, fun _ => rfl, fun _ => rfl⟩ ?_
    intro p hp
    rcases hp with hp | hp
    · rw [← Option.some.inj hp]
      exact h'.stated m (Or.inl hm)
    · exact h'.stated p (Or.inr hp)

theorem newManifestPublisher_groups (node : Nat) (seeds : List Manifest) (group : Nat) :
    ((newManifestPublisher node seeds).groups group).cover = [] := by
  show (((seeds.find? fun m => m.group = group).map ManGroup.ofSeed).getD ManGroup.empty).cover = []
  cases seeds.find? fun m => m.group = group with
  | none => rfl
  | some m => rfl

theorem PosInv.restart (w : ManWorld) (node : Nat) (seeds : List Manifest) :
    PosInv { w with heardFrom := fun group => (w.verdicts group).length, pub := newManifestPublisher node seeds } := by
  refine ⟨fun _ => Nat.le_refl _, ?_, fun _ => Nat.le_refl _, fun _ => Or.inr ⟨rfl, rfl⟩, ?_⟩
  · intro group F hF
    have hnil : (w.verdicts group).drop (w.verdicts group).length = [] := List.drop_length
    rw [newManifestPublisher_groups]
    unfold heard
    rw [hnil]
  · intro m hm
    rcases hm with hm | hm
    · cases hm
    · cases hm

theorem SlotInv.step {w w' : ManWorld} {ev : ManEvent} (h : SlotInv w) (hs : w.step ev = some w') : SlotInv w' := by
  cases ev with
  | verdict pos live =>
    rw [← Option.some.inj hs]
    clear hs
    induction live generalizing w with
    | nil => exact h
    | cons s live ih => exact ih (h.congr (hear_sameSlots w s.1 ⟨s.2, pos⟩))
  | folded seg =>
    rw [← Option.some.inj hs]
    exact h.congr (onFolded_sameSlots w seg)
  | take =>
    simp only [ManWorld.step] at hs
    split at hs
    · cases hs
    next group rest hq =>
      split at hs
      · rw [← Option.some.inj hs]
        exact h.take group rest
      · cases hs
  | round wire rereads =>
    obtain ⟨m, hm, rfl⟩ := Option.map_eq_some_iff.mp hs
    exact h.round hm wire rereads
  | close =>
    rw [← Option.some.inj hs]
    exact ⟨h.past, h.ahead, h.increasing⟩
  | abandon =>
    simp only [ManWorld.step] at hs
    split at hs
    · rw [← Option.some.inj hs]
      exact ⟨h.past, (fun m hm => nomatch hm), h.increasing⟩
    · cases hs
  | foreign writer slot m =>
    simp only [ManWorld.step] at hs
    split at hs
    · rw [← Option.some.inj hs]
      exact ⟨h.past, h.ahead, h.increasing⟩
    · cases hs
  | restart seeds =>
    simp only [ManWorld.step] at hs
    split at hs
    · rw [← Option.some.inj hs]
      exact ⟨(fun m hm => nomatch hm), (fun m hm => nomatch hm), List.Pairwise.nil⟩
    · cases hs

theorem OwnInv.step {w w' : ManWorld} {ev : ManEvent} (h : OwnInv w) (hslot : SlotInv w) (hsound : w.Sound ev)
    (hs : w.step ev = some w') : OwnInv w' := by
  cases ev with
  | verdict pos live =>
    rw [← Option.some.inj hs]
    clear hs hsound hslot
    induction live generalizing w with
    | nil => exact h
    | cons s live ih => exact ih (h.congr (hear_sameSlots w s.1 ⟨s.2, pos⟩))
  | folded seg =>
    rw [← Option.some.inj hs]
    exact h.congr (onFolded_sameSlots w seg)
  | take =>
    simp only [ManWorld.step] at hs
    split at hs
    · cases hs
    next group rest hq =>
      split at hs
      next hc =>
        rw [← Option.some.inj hs]
        exact h.take hc.2 hc.1 group rest
      · cases hs
  | round wire rereads =>
    obtain ⟨m, hm, rfl⟩ := Option.map_eq_some_iff.mp hs
    exact h.round hslot hm wire rereads
  | close =>
    rw [← Option.some.inj hs]
    refine ⟨?_, h.landed⟩
    intro group slot st hle hst htag
    exact (h.own group slot st hle hst htag).imp (fun hc => ⟨rfl, hc.2⟩) id
  | abandon =>
    simp only [ManWorld.step] at hs
    split at hs
    next hc =>
      rw [← Option.some.inj hs]
      exact ⟨fun group slot st hle hst htag => Or.inl ⟨hc, rfl⟩, h.landed⟩
    · cases hs
  | foreign writer slot m =>
    simp only [ManWorld.step] at hs
    split at hs
    next hc =>
      rw [← Option.some.inj hs]
      exact h.foreign hc.1 hc.2
    · cases hs
  | restart seeds =>
    simp only [ManWorld.step] at hs
    split at hs
    · rw [← Option.some.inj hs]
      exact ⟨fun group slot st hle hst htag => absurd htag (hsound group slot st hle hst), (fun m hm => nomatch hm)⟩
    · cases hs

theorem PosInv.step {w w' : ManWorld} {ev : ManEvent} (h : PosInv w) (hsound : w.Sound ev) (hs : w.step ev = some w') :
    PosInv w' := by
  cases ev with
  | verdict pos live =>
    rw [← Option.some.inj hs]
    clear hs hsound
    induction live generalizing w with
    | nil => exact h
    | cons s live ih => exact ih (h.hear s.1 ⟨s.2, pos⟩)
  | folded seg =>
    rw [← Option.some.inj hs]
    exact h.onFolded hsound
  | take =>
    simp only [ManWorld.step] at hs
    split at hs
    · cases hs
    next group rest hq =>
      split at hs
      · rw [← Option.some.inj hs]
        exact h.take group rest
      · cases hs
  | round wire rereads =>
    obtain ⟨m, hm, rfl⟩ := Option.map_eq_some_iff.mp hs
    exact h.round hm wire rereads
  | close =>
    rw [← Option.some.inj hs]
    exact h.congr ⟨rfl, rfl, rfl, fun _ => rfl, fun _ => rfl, fun _ => rfl⟩ h.stated
  | abandon =>
    simp only [ManWorld.step] at hs
    split at hs
    · rw [← Option.some.inj hs]
      refine h.congr ⟨rfl, rfl, rfl, fun _ => rfl, fun _ => rfl, fun _ => rfl⟩ ?_
      intro m hm
      rcases hm with hm | hm
      · cases hm
      · exact h.stated m (Or.inr hm)
    · cases hs
  | foreign writer slot m =>
    simp only [ManWorld.step] at hs
    split at hs
    · rw [← Option.some.inj hs]
      exact h.congr ⟨rfl, rfl, rfl, fun _ => rfl, fun _ => rfl, fun _ => rfl⟩ h.stated
    · cases hs
  | restart seeds =>
    simp only [ManWorld.step] at hs
    split at hs
    · rw [← Option.some.inj hs]
      exact PosInv.restart w w.pub.node seeds
    · cases hs

end ManWorld

theorem ManReach.slotInv {node : Nat} {cond : ManWorld → ManEvent → Prop} {w : ManWorld} (h : ManReach node cond w) :
    w.SlotInv := by
  induction h with
  | new => exact ⟨(fun m hm => nomatch hm), (fun m hm => nomatch hm), List.Pairwise.nil⟩
  | step _ _ hs ih => exact ih.step hs

theorem ManReach.inv {node : Nat} {w : ManWorld} (h : ManReach node ManWorld.Sound w) : w.OwnInv ∧ w.PosInv := by
  induction h with
  | new =>
    exact ⟨⟨(fun _ _ _ _ hst => nomatch hst), (fun m hm => nomatch hm)⟩,
      ManWorld.PosInv.restart (newManWorld node) node []⟩
  | step hw hsound hs ih => exact ⟨ih.1.step hw.slotInv hsound hs, ih.2.step hsound hs⟩

/-- In every run whose restarts find none of the node's own objects ahead and whose folds reach no further than the heard
verdicts: every manifest called back with is the one stored at its slot, with the position of the first live verdict at
its cursor or the seed's, and a group's slots increase. -/
theorem ManReach.stated {node : Nat} {w : ManWorld} (h : ManReach node ManWorld.Sound w) :
    (∀ m ∈ w.pub.published, w.Stated m) ∧
      w.pub.published.Pairwise fun a b => a.group = b.group → a.manSeq < b.manSeq := by
  obtain ⟨hown, hpos⟩ := h.inv
  exact ⟨fun m hm => ⟨hown.landed m hm, hpos.stated m (Or.inr hm)⟩, h.slotInv.increasing⟩

theorem ManReach.of_run {node : Nat} {w w' : ManWorld} (h : ManReach node (fun _ _ => True) w) (evs : List ManEvent)
    (hr : w.run evs = some w') : ManReach node (fun _ _ => True) w' := by
  induction evs generalizing w with
  | nil =>
    rw [← Option.some.inj hr]
    exact h
  | cons ev evs ih =>
    simp only [ManWorld.run, List.foldlM_cons, Option.bind_eq_bind, Option.bind_eq_some_iff] at hr
    obtain ⟨mid, hmid, hrest⟩ := hr
    exact ih (h.step trivial hmid) hrest

/-- An empty segment of group 0. -/
def foldedAt (epoch segSeq coveredSeq : Nat) : FoldedSegment := ⟨0, epoch, segSeq, 0, 0, 0, 0, 0, coveredSeq, 0, 0, 0⟩

def segRow (segSeq : Nat) : ManifestSeg := ⟨segSeq, 0, 0, 0, 0, 0, 0, 0, 0, 0, 0⟩

/-- A fold, a restart from its manifest, and a fold of frames committed after the restart. -/
theorem restarted_publisher_stated : ∃ w, ManReach 1 ManWorld.Sound w ∧
    w.pub.published = [⟨0, 1, 1, ⟨0, 7⟩, 9, [segRow 1, segRow 2]⟩] ∧
    w.Stated ⟨0, 1, 1, ⟨0, 7⟩, 9, [segRow 1, segRow 2]⟩ := by
  have h1 : ManReach 1 ManWorld.Sound _ := @ManReach.step 1 _ _ _ (.verdict ⟨0, 3⟩ [(0, 5)]) ManReach.new trivial rfl
  have h2 : ManReach 1 ManWorld.Sound _ := @ManReach.step 1 _ _ _ (.folded (foldedAt 1 1 5)) h1 (Or.inl ⟨rfl, rfl⟩) rfl
  have h3 : ManReach 1 ManWorld.Sound _ := @ManReach.step 1 _ _ _ ManEvent.take h2 trivial rfl
  have h4 : ManReach 1 ManWorld.Sound _ := @ManReach.step 1 _ _ _ (.round .answered true) h3 trivial rfl
  have h5 : ManReach 1 ManWorld.Sound _ := @ManReach.step 1 _ _ _ (.restart [⟨0, 1, 0, ⟨0, 3⟩, 5, [segRow 1]⟩]) h4 (by
    intro group slot st hle hst
    have hcell := ManWorld.setCell_bucket (newManWorld 1) 0 0 group slot (some ⟨⟨1, 0⟩, ⟨0, 1, 0, ⟨0, 3⟩, 5, [segRow 1]⟩⟩)
    have hst' := hcell.symm.trans hst
    split at hst'
    next hzero =>
      rw [hzero.1, hzero.2] at hle
      exact absurd hle (by decide)
    · cases hst') rfl
  have h6 : ManReach 1 ManWorld.Sound _ := @ManReach.step 1 _ _ _ (.verdict ⟨0, 7⟩ [(0, 9)]) h5 trivial rfl
  have h7 : ManReach 1 ManWorld.Sound _ := @ManReach.step 1 _ _ _ (.folded (foldedAt 1 2 9)) h6 (Or.inl ⟨rfl, rfl⟩) rfl
  have h8 : ManReach 1 ManWorld.Sound _ := @ManReach.step 1 _ _ _ ManEvent.take h7 trivial rfl
  have h9 : ManReach 1 ManWorld.Sound _ := @ManReach.step 1 _ _ _ (.round .answered true) h8 trivial rfl
  exact ⟨_, h9, rfl, h9.stated.1 _ (List.mem_singleton_self _)⟩

/-- Group 0 goes from node 1 to node 2 and back, with a commit under each lease. -/
def leaseReturns : List (Nat × ChainBatch) :=
  [(1, ⟨1, 1, [.grant ⟨0, 1, 1⟩]⟩), (1, ⟨2, 1, [.commit ⟨1, 1, 100, [⟨0, 1, 0, 90, 5, 1, 5⟩]⟩]⟩),
    (2, ⟨1, 1, [.grant ⟨0, 2, 2⟩]⟩), (2, ⟨2, 1, [.commit ⟨2, 1, 100, [⟨0, 2, 0, 90, 4, 6, 9⟩]⟩]⟩),
    (1, ⟨1, 2, [.grant ⟨0, 1, 3⟩]⟩), (1, ⟨2, 2, [.commit ⟨1, 2, 100, [⟨0, 3, 0, 90, 3, 10, 12⟩]⟩]⟩)]

/-- Node 2's manifest, the winner after the lease has moved. -/
def winningManifest : Manifest := ⟨0, 2, 1, ⟨0, 4⟩, 9, [segRow 1, segRow 5]⟩

/-- What node 1 states past it without having noticed, and what selection passes over. -/
def zombieManifest : Manifest := ⟨0, 1, 2, ⟨0, 2⟩, 5, [segRow 1, segRow 2]⟩

/-- Node 1's publisher outlives its lease, then restarts from the winner. -/
def zombieThenRestart : List ManEvent :=
  [.verdict ⟨0, 2⟩ [(0, 5)], .folded (foldedAt 1 1 5), .take, .round .answered true, .foreign 2 1 winningManifest,
    .folded (foldedAt 1 2 5), .take, .round .answered true, .round .answered true, .verdict ⟨0, 4⟩ [(0, 9)],
    .restart [winningManifest], .verdict ⟨0, 6⟩ [(0, 12)], .restart [winningManifest], .folded (foldedAt 3 6 12), .take,
    .round .answered true]

/-- The restarted publisher calls back with slot 2, where its earlier incarnation's passed-over manifest stands, and with
the winner's position although the cursor has moved past it. -/
theorem zombie_slot_taken_for_own : ∃ w, ManReach 1 (fun _ _ => True) w ∧
    (∃ f log, LeaseFold.applyObjects 0 1 newLeaseFold leaseReturns = some (f, log) ∧
      selectManifest (f.epochCurrentAtOrAfter 0) 0 [⟨0, 1, 0, ⟨0, 2⟩, 5, [segRow 1]⟩, winningManifest, zombieManifest] =
        some winningManifest) ∧
    w.pub.published = [⟨0, 3, 2, ⟨0, 4⟩, 12, [segRow 1, segRow 5, segRow 6]⟩] ∧
    (w.bucket 0 2).map Stored.body = some zombieManifest ∧
    w.verdicts 0 = [⟨5, ⟨0, 2⟩⟩, ⟨9, ⟨0, 4⟩⟩, ⟨12, ⟨0, 6⟩⟩] :=
  ⟨_, ManReach.new.of_run zombieThenRestart rfl, ⟨_, _, rfl, by decide +kernel⟩, rfl, rfl, rfl⟩

end Aki.Obs1
