import Aki.WalFlusher

namespace Aki.Obs1

namespace Flusher

/-- The flusher once a run of frames went in and its call returned. -/
def took (fl : Flusher) (group : Nat) (b : GroupBuf) (epoch : Nat) (f : WalFrame) (fs : List WalFrame) : Flusher :=
  (fl.noteAppended group b epoch f fs).accept group (f :: fs)

theorem buf_took (fl : Flusher) (group g : Nat) (b : GroupBuf) (epoch : Nat) (f : WalFrame) (fs : List WalFrame) :
    ((fl.took group b epoch f fs).buf g).frames =
      if g = group then b.frames ++ f :: fs else (fl.buf g).frames := by
  unfold took accept noteAppended buf
  simp only [Std.ExtTreeMap.getElem?_insert, Nat.compare_eq_eq]
  by_cases hg : group = g
  · simp [hg]
  · simp [hg, Ne.symm hg]

theorem buf_startFlush (fl : Flusher) (g : Nat) : fl.startFlush.buf g = { fl.buf g with frames := [] } := by
  unfold startFlush buf
  simp only [Std.ExtTreeMap.getElem?_map]
  cases fl.groups[g]? <;> rfl

/-- With distinct groups an object's frames for a group are that group's section alone. -/
theorem framesOf_sections (n g : Nat) (l : List (Nat × GroupBuf)) (hd : (l.map Prod.fst).Nodup) :
    (WalObject.mk n ((l.filter fun p => p.2.frames ≠ []).map fun p => sectionOf p.1 p.2)).framesOf g =
      ((l.find? fun p => p.1 = g).map fun p => p.2.frames).getD [] := by
  induction l with
  | nil => rfl
  | cons p l ih =>
    obtain ⟨hp, hl⟩ := List.nodup_cons.mp hd
    have ih' := ih hl
    unfold WalObject.framesOf at ih' ⊢
    simp only at ih' ⊢
    by_cases hg : p.1 = g
    · -- the rest holds no section of this group
      have hnone : l.find? (fun q => decide (q.1 = g)) = none := by
        rw [List.find?_eq_none]
        intro q hq hqg
        exact hp (List.mem_map.mpr ⟨q, hq, (by simpa using hqg : q.1 = g).trans hg.symm⟩)
      rw [hnone] at ih'
      by_cases he : p.2.frames = []
      · rw [List.filter_cons_of_neg (by simp [he]), ih', List.find?_cons_of_pos (by simp [hg])]
        simp [he]
      · rw [List.filter_cons_of_pos (by simp [he]), List.map_cons, List.filter_cons_of_pos (by simp [sectionOf, hg]),
          List.flatMap_cons, ih', List.find?_cons_of_pos (by simp [hg])]
        simp [sectionOf]
    · rw [List.find?_cons_of_neg (by simp [hg]), ← ih']
      by_cases he : p.2.frames = []
      · rw [List.filter_cons_of_neg (by simp [he])]
      · rw [List.filter_cons_of_pos (by simp [he]), List.map_cons, List.filter_cons_of_neg (by simp [sectionOf, hg])]

theorem framesOf_dirtySections (fl : Flusher) (n g : Nat) :
    (WalObject.mk n fl.dirtySections).framesOf g = (fl.buf g).frames := by
  have hd : (fl.groups.toList.map Prod.fst).Nodup := by
    rw [List.nodup_iff_pairwise_ne, List.pairwise_map]
    refine fl.groups.distinct_keys_toList.imp ?_
    intro a b hab h
    exact hab (by rw [h]; exact Nat.compare_eq_eq.mpr rfl)
  unfold dirtySections
  rw [framesOf_sections n g _ hd, buf]
  cases hg : fl.groups[g]? with
  | none =>
    have hnone : fl.groups.toList.find? (fun p => decide (p.1 = g)) = none := by
      rw [List.find?_eq_none]
      rintro ⟨k, b⟩ hp hk
      have hk' : k = g := by simpa using hk
      rw [Std.ExtTreeMap.mem_toList_iff_getElem?_eq_some, hk', hg] at hp
      cases hp
    simp [hnone, GroupBuf.empty]
  | some b =>
    have hmem : (g, b) ∈ fl.groups.toList := Std.ExtTreeMap.mem_toList_iff_getElem?_eq_some.mpr hg
    cases hf : fl.groups.toList.find? (fun p => decide (p.1 = g)) with
    | none =>
      rw [List.find?_eq_none] at hf
      exact absurd (by simp) (hf (g, b) hmem)
    | some p =>
      obtain ⟨k, b'⟩ := p
      have hk : k = g := by simpa using List.find?_some hf
      have hin := List.mem_of_find?_eq_some hf
      rw [hk, Std.ExtTreeMap.mem_toList_iff_getElem?_eq_some, hg] at hin
      simp [Option.some.inj hin]

theorem admitOp_eq_some {fl : Flusher} {group epoch seq : Nat} {b : GroupBuf} (h : fl.admitOp group epoch seq = some b) :
    fl.failed = false ∧ fl.stopping = false ∧ b = fl.buf group ∧ (b.haveEver = true → b.lastEver < seq) := by
  unfold admitOp at h
  split at h
  · cases h
  next hf =>
    split at h
    · cases h
    next hs =>
      dsimp only at h
      split at h
      · cases h
      · split at h
        · cases h
        next he =>
          have hb := Option.some.inj h
          subst hb
          refine ⟨by simpa using hf, by simpa using hs, rfl, ?_⟩
          intro hev
          by_contra hlt
          exact he ⟨hev, by omega⟩

theorem increasing_iff (fs : List WalFrame) : increasing fs = true ↔ fs.Pairwise fun f f' => f.seq < f'.seq := by
  rw [← List.isChain_iff_pairwise]
  induction fs with
  | nil => simp [increasing]
  | cons f fs ih =>
    cases fs with
    | nil => simp [increasing]
    | cons f' fs => simp [increasing, ih]

/-- A call that takes frames takes an increasing run of them past all it took before. -/
structure Appends (fl : Flusher) (group : Nat) (fl' : Flusher) : Prop where
  running : fl.failed = false ∧ fl.stopping = false
  run : ∃ epoch f fs, fl' = fl.took group (fl.buf group) epoch f fs ∧
    ((fl.buf group).haveEver = true → (fl.buf group).lastEver < f.seq) ∧
    (f :: fs).Pairwise fun a b => a.seq < b.seq

theorem appendOp_spec {fl fl' : Flusher} {group epoch : Nat} {f : WalFrame}
    (h : (fl.appendOp group epoch f).map (accept group [f]) = some fl') : Appends fl group fl' := by
  rw [Option.map_eq_some_iff] at h
  obtain ⟨fl₁, h, rfl⟩ := h
  unfold appendOp at h
  split at h
  · cases h
  next b hb =>
    obtain ⟨hf, hs, rfl, hlt⟩ := admitOp_eq_some hb
    split at h
    · exact ⟨⟨hf, hs⟩, epoch, f, [], congrArg _ (Option.some.inj h).symm, hlt, List.pairwise_singleton _ _⟩
    · cases h

theorem appendRun_spec {fl fl' : Flusher} {group epoch : Nat} {frames : List WalFrame}
    (h : (fl.appendRun group epoch frames).map (accept group frames) = some fl') : Appends fl group fl' := by
  rw [Option.map_eq_some_iff] at h
  obtain ⟨fl₁, h, rfl⟩ := h
  unfold appendRun at h
  split at h
  · cases h
  next f fs =>
    split at h
    next hinc =>
      split at h
      · cases h
      next b hb =>
        obtain ⟨hf, hs, rfl, hlt⟩ := admitOp_eq_some hb
        split at h
        · exact ⟨⟨hf, hs⟩, epoch, f, fs, congrArg _ (Option.some.inj h).symm, hlt, (increasing_iff _).mp hinc⟩
        · cases h
    · cases h

/-- What the release loop returns: the objects numbered from `next` on, and nothing left at the number it stops at. -/
structure Released (completed : List WalObject) (next : Nat) (r : List WalObject × List WalObject × Nat) : Prop where
  out : r.1.map WalObject.walSeq = List.range' next r.1.length
  next_eq : r.2.2 = next + r.1.length
  left : ∀ o, o ∈ r.2.1 ↔ o ∈ completed ∧ (o.walSeq < next ∨ r.2.2 ≤ o.walSeq)
  from_completed : ∀ o ∈ r.1, o ∈ completed
  stops : ∀ o ∈ r.2.1, o.walSeq ≠ r.2.2

theorem release_spec (fuel : Nat) (completed : List WalObject) (next : Nat) (hfuel : completed.length ≤ fuel) :
    Released completed next (release fuel completed next) := by
  induction fuel generalizing completed next with
  | zero =>
    have hnil : completed = [] := List.eq_nil_of_length_eq_zero (by omega)
    subst hnil
    exact ⟨rfl, rfl, by simp [release], by simp [release], by simp [release]⟩
  | succ fuel ih =>
    unfold release
    split
    next hnone =>
      rw [List.find?_eq_none] at hnone
      have hne : ∀ o ∈ completed, o.walSeq ≠ next := fun o ho => by simpa using hnone o ho
      refine ⟨rfl, rfl, ?_, by simp, hne⟩
      intro o
      constructor
      · intro ho
        exact ⟨ho, Nat.lt_or_ge _ _⟩
      · exact fun h => h.1
    next d hd =>
      have hdn : d.walSeq = next := by simpa using List.find?_some hd
      have hdm : d ∈ completed := List.mem_of_find?_eq_some hd
      have hlen : (completed.filter fun o => decide (o.walSeq ≠ next)).length < completed.length :=
        List.length_filter_lt_length_iff_exists.mpr ⟨d, hdm, by simp [hdn]⟩
      have r := ih (completed.filter fun o => o.walSeq ≠ next) (next + 1) (by omega)
      have hnx := r.next_eq
      refine ⟨?_, ?_, ?_, ?_, r.stops⟩
      · rw [List.map_cons, r.out, hdn, List.length_cons, List.range'_succ]
      · simp only [List.length_cons]
        omega
      · intro o
        simp only [r.left, List.mem_filter, decide_eq_true_eq]
        constructor
        · rintro ⟨⟨ho, hne⟩, h⟩
          exact ⟨ho, by omega⟩
        · rintro ⟨ho, h⟩
          exact ⟨⟨ho, by omega⟩, by omega⟩
      · intro o ho
        rcases List.mem_cons.mp ho with rfl | ho
        · exact hdm
        · exact (List.mem_filter.mp (r.from_completed o ho)).1

/-- Every accepted frame stands in a started object or in its group's buffer, each group's in acceptance order, and no
accepted call is split. -/
structure BufInv (start : Nat) (fl : Flusher) : Prop where
  taken : ∀ g, fl.acceptedFrames g = (fl.started.flatMap fun o => o.framesOf g) ++ (fl.buf g).frames
  order : ∀ g, (fl.acceptedFrames g).Pairwise fun f f' => f.seq < f'.seq
  ever : ∀ g, ∀ f ∈ fl.acceptedFrames g, (fl.buf g).haveEver = true ∧ f.seq ≤ (fl.buf g).lastEver
  whole : ∀ c ∈ fl.accepted, c.2 <:+: (fl.buf c.1).frames ∨ ∃ o ∈ fl.started, c.2 <:+: o.framesOf c.1
  dirty : ∀ g, frameBytes (fl.buf g).frames ≤ fl.dirtyBytes
  numbered : fl.started.map WalObject.walSeq = List.range' start fl.started.length
  next : fl.nextSeq = start + fl.started.length

theorem BufInv.new (cfg : FlusherConfig) : BufInv cfg.start (newFlusher cfg) where
  taken g := by simp [acceptedFrames, newFlusher, buf, GroupBuf.empty]
  order g := by simp [acceptedFrames, newFlusher]
  ever g := by simp [acceptedFrames, newFlusher]
  whole := by simp [newFlusher]
  dirty g := by simp [newFlusher, buf, GroupBuf.empty, frameBytes]
  numbered := rfl
  next := rfl

theorem BufInv.congr {start : Nat} {fl fl' : Flusher} (h : BufInv start fl) (hg : fl'.groups = fl.groups)
    (ha : fl'.accepted = fl.accepted) (hs : fl'.started = fl.started) (hd : fl'.dirtyBytes = fl.dirtyBytes)
    (hn : fl'.nextSeq = fl.nextSeq) : BufInv start fl' := by
  have hbuf : ∀ g, fl'.buf g = fl.buf g := fun g => by rw [buf, buf, hg]
  have hacc : ∀ g, fl'.acceptedFrames g = fl.acceptedFrames g := fun g => by rw [acceptedFrames, acceptedFrames, ha]
  refine ⟨?_, ?_, ?_, ?_, ?_, ?_, ?_⟩
  · intro g
    rw [hacc, hbuf, hs, h.taken]
  · intro g
    rw [hacc]
    exact h.order g
  · intro g
    rw [hacc, hbuf]
    exact h.ever g
  · intro c hc
    rw [hbuf, hs]
    exact h.whole c (ha ▸ hc)
  · intro g
    rw [hbuf, hd]
    exact h.dirty g
  · rw [hs]
    exact h.numbered
  · rw [hn, hs]
    exact h.next

theorem seq_le_getLast {fs : List WalFrame} (hp : fs.Pairwise fun a b => a.seq < b.seq) (hne : fs ≠ []) :
    ∀ f ∈ fs, f.seq ≤ (fs.getLast hne).seq := by
  intro f hf
  rw [← List.dropLast_append_getLast hne] at hf hp
  rcases List.mem_append.mp hf with hf | hf
  · exact Nat.le_of_lt ((List.pairwise_append.mp hp).2.2 f hf _ (List.mem_singleton_self _))
  · rw [List.mem_singleton.mp hf]

theorem acceptedFrames_took (fl : Flusher) (group g : Nat) (b : GroupBuf) (epoch : Nat) (f : WalFrame)
    (fs : List WalFrame) : (fl.took group b epoch f fs).acceptedFrames g =
      fl.acceptedFrames g ++ if g = group then f :: fs else [] := by
  unfold acceptedFrames took accept noteAppended
  simp only [List.filter_append, List.flatMap_append]
  by_cases hg : group = g
  · simp [hg]
  · simp [hg, Ne.symm hg]

theorem BufInv.append {start group : Nat} {fl fl' : Flusher} (h : BufInv start fl) (ha : Appends fl group fl') :
    BufInv start fl' := by
  obtain ⟨epoch, f, fs, rfl, hlt, hinc⟩ := ha.run
  have hbuf := fun g => buf_took fl group g (fl.buf group) epoch f fs
  have hacc := fun g => acceptedFrames_took fl group g (fl.buf group) epoch f fs
  refine ⟨?_, ?_, ?_, ?_, ?_, h.numbered, h.next⟩
  · intro g
    rw [hacc, hbuf, h.taken]
    by_cases hg : g = group
    · subst hg
      simp [took, accept, noteAppended]
    · simp [hg, took, accept, noteAppended]
  · intro g
    rw [hacc]
    by_cases hg : g = group
    · subst hg
      rw [if_pos rfl, List.pairwise_append]
      refine ⟨h.order g, hinc, ?_⟩
      intro a ha' b hb
      obtain ⟨hev, hle⟩ := h.ever g a ha'
      have hf := hlt hev
      rcases List.mem_cons.mp hb with rfl | hb
      · omega
      · have := (List.pairwise_cons.mp hinc).1 b hb
        omega
    · rw [if_neg hg, List.append_nil]
      exact h.order g
  · intro g a ha'
    rw [hacc] at ha'
    by_cases hg : g = group
    · subst hg
      have hb : (fl.took g (fl.buf g) epoch f fs).buf g =
          { frames := (fl.buf g).frames ++ f :: fs
            firstSeq := if (fl.buf g).frames = [] then f.seq else (fl.buf g).firstSeq
            lastSeq := ((f :: fs).getLast (List.cons_ne_nil f fs)).seq
            epoch := if (fl.buf g).frames = [] then epoch else (fl.buf g).epoch
            lastEver := ((f :: fs).getLast (List.cons_ne_nil f fs)).seq
            haveEver := true } := by
        simp [buf, took, accept, noteAppended]
      rw [hb]
      refine ⟨rfl, ?_⟩
      have hlast := seq_le_getLast hinc (List.cons_ne_nil f fs)
      rcases List.mem_append.mp ha' with ha' | ha'
      · obtain ⟨hev, hle⟩ := h.ever g a ha'
        have hf := hlt hev
        have := hlast f List.mem_cons_self
        exact (show a.seq ≤ f.seq by omega).trans this
      · exact hlast a (by simpa using ha')
    · have hb : (fl.took group (fl.buf group) epoch f fs).buf g = fl.buf g := by
        simp [buf, took, accept, noteAppended, Std.ExtTreeMap.getElem?_insert, Ne.symm hg]
      rw [hb]
      exact h.ever g a (by simpa [hg] using ha')
  · intro c hc
    rw [hbuf]
    rcases List.mem_append.mp hc with hc | hc
    · rcases h.whole c hc with hin | ho
      · left
        split
        next hg =>
          rw [hg] at hin
          exact hin.trans (List.prefix_append _ _).isInfix
        · exact hin
      · exact Or.inr ho
    · rw [List.mem_singleton.mp hc]
      left
      rw [if_pos rfl]
      exact (List.suffix_append _ _).isInfix
  · intro g
    rw [hbuf]
    have hd : (fl.took group (fl.buf group) epoch f fs).dirtyBytes = fl.dirtyBytes + frameBytes (f :: fs) := rfl
    rw [hd]
    split
    · have := h.dirty group
      unfold frameBytes at this ⊢
      rw [List.map_append, List.sum_append]
      omega
    · exact (h.dirty g).trans (Nat.le_add_right _ _)

theorem BufInv.startFlush {start : Nat} {fl : Flusher} (h : BufInv start fl) : BufInv start fl.startFlush := by
  have hbuf := fun g => buf_startFlush fl g
  have hfr := fun g => framesOf_dirtySections fl fl.nextSeq g
  refine ⟨?_, h.order, ?_, ?_, ?_, ?_, ?_⟩
  · intro g
    have hs : fl.startFlush.started = fl.started ++ [⟨fl.nextSeq, fl.dirtySections⟩] := rfl
    rw [hbuf, hs, List.flatMap_append, List.flatMap_singleton, hfr, List.append_nil]
    exact h.taken g
  · intro g f hf
    rw [hbuf]
    exact h.ever g f hf
  · intro c hc
    right
    rcases h.whole c hc with hin | ⟨o, ho, hin⟩
    · exact ⟨⟨fl.nextSeq, fl.dirtySections⟩, List.mem_append_right _ (List.mem_singleton_self _), (hfr c.1).symm ▸ hin⟩
    · exact ⟨o, List.mem_append_left _ ho, hin⟩
  · intro g
    rw [hbuf]
    exact Nat.le_refl 0
  · have hs : fl.startFlush.started = fl.started ++ [⟨fl.nextSeq, fl.dirtySections⟩] := rfl
    rw [hs, List.map_append, h.numbered, List.length_append, List.range'_append_1 |>.symm, h.next]
    rfl
  · have hs : fl.startFlush.started = fl.started ++ [⟨fl.nextSeq, fl.dirtySections⟩] := rfl
    have hn : fl.startFlush.nextSeq = fl.nextSeq + 1 := rfl
    rw [hs, hn, List.length_append, h.next]
    rfl

/-- What the sink was handed starts the started objects; while nothing failed, the objects not yet handed over are in
flight or completed, and none of the completed ones is next. -/
structure PipeInv (start : Nat) (fl : Flusher) : Prop where
  sunk_prefix : fl.sunk <+: fl.started
  handed : fl.failed = false → start ≤ fl.nextDeliver ∧ fl.nextDeliver ≤ fl.nextSeq ∧
    fl.sunk ++ fl.deliverC = fl.started.take (fl.nextDeliver - start)
  riding : ∀ o ∈ fl.inflight ++ fl.completed, o ∈ fl.started
  waiting : fl.failed = false → ∀ s, fl.nextDeliver ≤ s → s < fl.nextSeq → ∃ o ∈ fl.inflight ++ fl.completed, o.walSeq = s
  behind : fl.failed = false → ∀ o ∈ fl.inflight, fl.nextDeliver ≤ o.walSeq ∧ ∀ p ∈ fl.completed, p.walSeq ≠ o.walSeq
  gap : fl.failed = false → ∀ o ∈ fl.completed, fl.nextDeliver < o.walSeq
  returned : fl.running = false → fl.inflight = [] ∧ (fl.failed = true ∨ (fl.stopping = true ∧ fl.dirtyBytes = 0))
  finished : fl.done = true → fl.running = false ∧ fl.deliverC = []

theorem PipeInv.new (cfg : FlusherConfig) : PipeInv cfg.start (newFlusher cfg) where
  sunk_prefix := List.prefix_rfl
  handed _ := ⟨Nat.le_refl _, Nat.le_refl _, by simp [newFlusher]⟩
  riding := by simp [newFlusher]
  waiting _ s hs hs' := absurd hs' (Nat.not_lt.mpr hs)
  behind _ := by simp [newFlusher]
  gap _ := by simp [newFlusher]
  returned h := by cases h
  finished h := by cases h

theorem PipeInv.append {start group : Nat} {fl fl' : Flusher} (h : PipeInv start fl) (ha : Appends fl group fl') :
    PipeInv start fl' := by
  obtain ⟨hf, hs⟩ := ha.running
  obtain ⟨epoch, f, fs, rfl, -⟩ := ha.run
  refine ⟨h.sunk_prefix, h.handed, h.riding, h.waiting, h.behind, h.gap, ?_, h.finished⟩
  intro hr
  rcases (h.returned hr).2 with hfail | ⟨hstop, -⟩
  · rw [hf] at hfail
    cases hfail
  · rw [hs] at hstop
    cases hstop

theorem PipeInv.startFlush {start : Nat} {fl : Flusher} (h : PipeInv start fl) (hb : BufInv start fl)
    (hrun : fl.running = true) : PipeInv start fl.startFlush := by
  have hlen := hb.next
  refine ⟨h.sunk_prefix.trans (List.prefix_append _ _), ?_, ?_, ?_, ?_, h.gap, ?_, h.finished⟩
  · intro hf
    obtain ⟨hlo, hhi, heq⟩ := h.handed hf
    refine ⟨hlo, Nat.le_succ_of_le hhi, ?_⟩
    have htake : (fl.started ++ [WalObject.mk fl.nextSeq fl.dirtySections]).take (fl.nextDeliver - start) =
        fl.started.take (fl.nextDeliver - start) := List.take_append_of_le_length (by omega)
    exact heq.trans htake.symm
  · intro o ho
    rcases List.mem_append.mp ho with ho | ho
    · rcases List.mem_append.mp ho with ho | ho
      · exact List.mem_append_left _ (h.riding o (List.mem_append_left _ ho))
      · exact List.mem_append_right _ ho
    · exact List.mem_append_left _ (h.riding o (List.mem_append_right _ ho))
  · intro hf s hs hs'
    by_cases hlt : s < fl.nextSeq
    · obtain ⟨o, ho, hos⟩ := h.waiting hf s hs hlt
      refine ⟨o, ?_, hos⟩
      rcases List.mem_append.mp ho with ho | ho
      · exact List.mem_append_left _ (List.mem_append_left _ ho)
      · exact List.mem_append_right _ ho
    · have hn : fl.startFlush.nextSeq = fl.nextSeq + 1 := rfl
      exact ⟨⟨fl.nextSeq, fl.dirtySections⟩,
        List.mem_append_left _ (List.mem_append_right _ (List.mem_singleton_self _)), by show fl.nextSeq = s; omega⟩
  · intro hf o ho
    rcases List.mem_append.mp ho with ho | ho
    · exact h.behind hf o ho
    · rw [List.mem_singleton.mp ho]
      refine ⟨(h.handed hf).2.1, ?_⟩
      -- every completed object was started before this one
      intro p hp
      have hps := h.riding p (List.mem_append_right _ hp)
      have hm : p.walSeq ∈ fl.started.map WalObject.walSeq := List.mem_map_of_mem hps
      rw [hb.numbered, List.mem_range'_1] at hm
      show p.walSeq ≠ fl.nextSeq
      omega
  · intro hr
    have hr' : fl.running = false := hr
    rw [hrun] at hr'
    cases hr'

/-- The objects numbered from `next` on that the release loop hands over are the started ones there. -/
theorem take_released {start n : Nat} {started out : List WalObject}
    (hnum : started.map WalObject.walSeq = List.range' start started.length) (hn : start ≤ n)
    (hout : out.map WalObject.walSeq = List.range' n out.length) (hmem : ∀ o ∈ out, o ∈ started) :
    started.take (n - start) ++ out = started.take (n + out.length - start) := by
  induction out generalizing n with
  | nil => simp
  | cons o out ih =>
    rw [List.map_cons, List.length_cons, List.range'_succ] at hout
    obtain ⟨hos, hout⟩ := List.cons.inj hout
    obtain ⟨i, hi, hio⟩ := List.getElem_of_mem (hmem o List.mem_cons_self)
    have hseq : started[i].walSeq = start + i := by
      have hi' : i < (started.map WalObject.walSeq).length := by simpa using hi
      have h1 : (started.map WalObject.walSeq)[i] = started[i].walSeq := List.getElem_map _
      rw [← h1]
      simp [hnum]
    have hin : i = n - start := by
      rw [hio, hos] at hseq
      omega
    have hstep : started.take (n - start) ++ [o] = started.take (n + 1 - start) := by
      rw [show n + 1 - start = (n - start) + 1 by omega, List.take_add_one, ← hin, List.getElem?_eq_getElem hi, hio]
      rfl
    have hrest := ih (show start ≤ n + 1 by omega) hout fun p hp => hmem p (List.mem_cons_of_mem _ hp)
    calc started.take (n - start) ++ o :: out = started.take (n - start) ++ [o] ++ out := by simp
      _ = started.take (n + 1 - start) ++ out := by rw [hstep]
      _ = started.take (n + 1 + out.length - start) := hrest
      _ = started.take (n + (o :: out).length - start) := by rw [List.length_cons, Nat.add_right_comm, Nat.add_assoc]

theorem PipeInv.finishPut {start : Nat} {fl : Flusher} (h : PipeInv start fl) (hb : BufInv start fl) {o : WalObject}
    (ho : o ∈ fl.inflight) (ok : Bool) : PipeInv start (fl.finishPut o ok) := by
  have hsub : ∀ p ∈ fl.inflight.filter (fun p => decide (p.walSeq ≠ o.walSeq)), p ∈ fl.inflight ∧ p.walSeq ≠ o.walSeq := by
    intro p hp
    obtain ⟨hp, hne⟩ := List.mem_filter.mp hp
    exact ⟨hp, by simpa using hne⟩
  have hret : fl.running = true := by
    by_contra hr
    rw [(h.returned (by simpa using hr)).1] at ho
    cases ho
  unfold Flusher.finishPut
  dsimp only
  split
  next hbad =>
    refine ⟨h.sunk_prefix, by simp, ?_, by simp, by simp, by simp, ?_, h.finished⟩
    · intro p hp
      rcases List.mem_append.mp hp with hp | hp
      · exact h.riding p (List.mem_append_left _ (hsub p hp).1)
      · exact h.riding p (List.mem_append_right _ hp)
    · intro hr
      have hr' : fl.running = false := hr
      rw [hret] at hr'
      cases hr'
  next hgood =>
    have hf : fl.failed = false := by
      cases hff : fl.failed
      · rfl
      · simp [hff] at hgood
    obtain ⟨hlo, hhi, heq⟩ := h.handed hf
    have r := release_spec _ (fl.completed ++ [o]) fl.nextDeliver (Nat.le_refl _)
    revert r
    generalize release (fl.completed ++ [o]).length (fl.completed ++ [o]) fl.nextDeliver = rel
    intro r
    have hstarted : ∀ p ∈ fl.completed ++ [o], p ∈ fl.started := by
      intro p hp
      rcases List.mem_append.mp hp with hp | hp
      · exact h.riding p (List.mem_append_right _ hp)
      · rw [List.mem_singleton.mp hp]
        exact h.riding o (List.mem_append_left _ ho)
    have hseq : ∀ p ∈ fl.started, p.walSeq < fl.nextSeq := by
      intro p hp
      have hm : p.walSeq ∈ fl.started.map WalObject.walSeq := List.mem_map_of_mem hp
      rw [hb.numbered, List.mem_range'_1] at hm
      have := hb.next
      omega
    have hge : ∀ p ∈ fl.completed ++ [o], fl.nextDeliver ≤ p.walSeq := by
      intro p hp
      rcases List.mem_append.mp hp with hp | hp
      · exact Nat.le_of_lt (h.gap hf p hp)
      · rw [List.mem_singleton.mp hp]
        exact (h.behind hf o ho).1
    have hnx := r.next_eq
    -- the numbers handed over are those of completed objects
    have hcov : ∀ s, fl.nextDeliver ≤ s → s < rel.2.2 → ∃ p ∈ fl.completed ++ [o], p.walSeq = s := by
      intro s hs hs'
      have hm : s ∈ rel.1.map WalObject.walSeq := by
        rw [r.out, List.mem_range'_1]
        omega
      obtain ⟨p, hp, hps⟩ := List.mem_map.mp hm
      exact ⟨p, r.from_completed p hp, hps⟩
    refine ⟨h.sunk_prefix, ?_, ?_, ?_, ?_, ?_, ?_, ?_⟩
    · intro _
      refine ⟨show start ≤ rel.2.2 by omega, ?_, ?_⟩
      · show rel.2.2 ≤ fl.nextSeq
        by_contra hlt
        obtain ⟨p, hp, hps⟩ := hcov fl.nextSeq hhi (by omega)
        have := hseq p (hstarted p hp)
        omega
      · show fl.sunk ++ (fl.deliverC ++ rel.1) = fl.started.take (rel.2.2 - start)
        rw [← List.append_assoc, heq, hnx]
        exact take_released hb.numbered hlo r.out fun p hp => hstarted p (r.from_completed p hp)
    · intro p hp
      rcases List.mem_append.mp hp with hp | hp
      · exact h.riding p (List.mem_append_left _ (hsub p hp).1)
      · exact hstarted p ((r.left p).mp hp).1
    · intro _ s hs hs'
      have hs2 : rel.2.2 ≤ s := hs
      obtain ⟨p, hp, hps⟩ := h.waiting hf s (by omega) hs'
      by_cases hpo : p.walSeq = o.walSeq
      · exact ⟨o, List.mem_append_right _ ((r.left o).mpr ⟨List.mem_append_right _ (List.mem_singleton_self _),
          Or.inr (by omega)⟩), by omega⟩
      · rcases List.mem_append.mp hp with hp | hp
        · exact ⟨p, List.mem_append_left _ (List.mem_filter.mpr ⟨hp, by simpa using hpo⟩), hps⟩
        · exact ⟨p, List.mem_append_right _ ((r.left p).mpr ⟨List.mem_append_left _ hp, Or.inr (by omega)⟩), hps⟩
    · intro _ p hp
      obtain ⟨hp, hpo⟩ := hsub p hp
      obtain ⟨hple, hpc⟩ := h.behind hf p hp
      have hdiff : ∀ q ∈ fl.completed ++ [o], q.walSeq ≠ p.walSeq := by
        intro q hq
        rcases List.mem_append.mp hq with hq | hq
        · exact hpc q hq
        · rw [List.mem_singleton.mp hq]
          exact Ne.symm hpo
      refine ⟨?_, fun q hq => hdiff q ((r.left q).mp hq).1⟩
      show rel.2.2 ≤ p.walSeq
      by_contra hlt
      obtain ⟨q, hq, hqs⟩ := hcov p.walSeq hple (by omega)
      exact hdiff q hq hqs
    · intro _ p hp
      obtain ⟨hpc, hside⟩ := (r.left p).mp hp
      have hne := r.stops p hp
      have := hge p hpc
      show rel.2.2 < p.walSeq
      omega
    · intro hr
      have hr' : fl.running = false := hr
      rw [hret] at hr'
      cases hr'
    · intro hd
      have hd' : fl.done = true := hd
      rw [(h.finished hd').1] at hret
      cases hret

theorem PipeInv.deliver {start : Nat} {fl : Flusher} (h : PipeInv start fl) {d : WalObject} {rest : List WalObject}
    (hd : fl.deliverC = d :: rest) (ok : Bool) : PipeInv start (fl.deliver d rest ok) := by
  have hfin : fl.done = false := by
    by_contra hdone
    rw [(h.finished (by simpa using hdone)).2] at hd
    cases hd
  have hfin' : ∀ {P : Prop}, fl.done = true → P := fun hdone => by
    rw [hfin] at hdone
    cases hdone
  unfold Flusher.deliver
  split
  next hf =>
    have hno : ∀ {P : Prop}, fl.failed = false → P := fun hff => by
      rw [hf] at hff
      cases hff
    exact ⟨h.sunk_prefix, fun hff => hno hff, h.riding, fun hff => hno hff, fun hff => hno hff, fun hff => hno hff,
      h.returned, fun hdone => hfin' hdone⟩
  next hf =>
    have hff : fl.failed = false := by simpa using hf
    obtain ⟨hlo, hhi, heq⟩ := h.handed hff
    have heq' : fl.sunk ++ [d] ++ rest = fl.started.take (fl.nextDeliver - start) := by
      rw [← heq, hd]
      simp
    refine ⟨?_, fun _ => ⟨hlo, hhi, heq'⟩, h.riding, fun _ => h.waiting hff, fun _ => h.behind hff, fun _ => h.gap hff, ?_,
      fun hdone => hfin' hdone⟩
    · exact (List.prefix_append _ rest).trans (heq' ▸ List.take_prefix _ _)
    · intro hr
      obtain ⟨hin, hor⟩ := h.returned hr
      refine ⟨hin, ?_⟩
      rcases hor with hfail | hstop
      · rw [hff] at hfail
        cases hfail
      · exact Or.inr hstop

theorem inv_step {start : Nat} {fl fl' : Flusher} {ev : FlushEvent} (hb : BufInv start fl) (hp : PipeInv start fl)
    (h : fl.step ev = some fl') : BufInv start fl' ∧ PipeInv start fl' := by
  -- an append call either takes its frames or changes nothing
  have happend : ∀ {group : Nat} {r : Option Flusher}, (∀ fl', r = some fl' → Appends fl group fl') →
      some (r.getD fl) = some fl' → BufInv start fl' ∧ PipeInv start fl' := by
    intro group r hr he
    cases hres : r with
    | none =>
      rw [hres] at he
      rw [← Option.some.inj he]
      exact ⟨hb, hp⟩
    | some fl'' =>
      rw [hres] at he
      rw [← Option.some.inj he]
      exact ⟨hb.append (hr fl'' hres), hp.append (hr fl'' hres)⟩
  cases ev with
  | appendOp group epoch f => exact happend (fun _ h => appendOp_spec h) h
  | appendStrSet group epoch slot seq key value expiryMs ladder => exact happend (fun _ h => appendOp_spec h) h
  | appendRun group epoch frames => exact happend (fun _ h => appendRun_spec h) h
  | barrier =>
    rw [← Option.some.inj h]
    exact ⟨hb.congr rfl rfl rfl rfl rfl,
      ⟨hp.sunk_prefix, hp.handed, hp.riding, hp.waiting, hp.behind, hp.gap, hp.returned, hp.finished⟩⟩
  | swap aged floor =>
    simp only [step] at h
    split at h
    next hc =>
      rw [← Option.some.inj h]
      exact ⟨hb.startFlush, hp.startFlush hb hc.1⟩
    · cases h
  | putDone walSeq ok =>
    simp only [step] at h
    split at h
    · cases h
    next o ho =>
      rw [← Option.some.inj h]
      refine ⟨?_, hp.finishPut hb (List.mem_of_find?_eq_some ho) _⟩
      unfold Flusher.finishPut
      dsimp only
      split
      · exact hb.congr rfl rfl rfl rfl rfl
      · exact hb.congr rfl rfl rfl rfl rfl
  | deliver ok =>
    simp only [step] at h
    split at h
    · cases h
    next d rest hd =>
      rw [← Option.some.inj h]
      refine ⟨?_, hp.deliver hd ok⟩
      unfold Flusher.deliver
      split
      · exact hb.congr rfl rfl rfl rfl rfl
      · exact hb.congr rfl rfl rfl rfl rfl
  | close =>
    rw [← Option.some.inj h]
    refine ⟨hb.congr rfl rfl rfl rfl rfl,
      ⟨hp.sunk_prefix, hp.handed, hp.riding, hp.waiting, hp.behind, hp.gap, ?_, hp.finished⟩⟩
    intro hr
    obtain ⟨hin, hor⟩ := hp.returned hr
    exact ⟨hin, hor.imp id fun hs => ⟨rfl, hs.2⟩⟩
  | runReturn =>
    simp only [step] at h
    split at h
    next hc =>
      rw [← Option.some.inj h]
      refine ⟨hb.congr rfl rfl rfl rfl rfl,
        ⟨hp.sunk_prefix, hp.handed, hp.riding, hp.waiting, hp.behind, hp.gap, fun _ => ⟨hc.2.1, hc.2.2⟩, ?_⟩⟩
      intro hd
      exact ⟨rfl, (hp.finished hd).2⟩
    · cases h
  | loopReturn =>
    simp only [step] at h
    split at h
    next hc =>
      rw [← Option.some.inj h]
      exact ⟨hb.congr rfl rfl rfl rfl rfl,
        ⟨hp.sunk_prefix, hp.handed, hp.riding, hp.waiting, hp.behind, hp.gap, hp.returned, fun _ => hc⟩⟩
    · cases h

end Flusher

theorem FlushReach.inv {cfg : FlusherConfig} {fl : Flusher} (h : FlushReach cfg fl) :
    Flusher.BufInv cfg.start fl ∧ Flusher.PipeInv cfg.start fl := by
  induction h with
  | new => exact ⟨Flusher.BufInv.new cfg, Flusher.PipeInv.new cfg⟩
  | step _ hstep ih => exact Flusher.inv_step ih.1 ih.2 hstep

theorem Flusher.frames_eq_nil_of_frameBytes {fs : List WalFrame} (h : frameBytes fs = 0) : fs = [] := by
  cases fs with
  | nil => rfl
  | cons f fs =>
    have := f.flen_pos
    simp only [frameBytes, List.map_cons, List.sum_cons] at h
    omega

theorem Flusher.drained {start : Nat} {fl : Flusher} (hb : BufInv start fl) (hp : PipeInv start fl) (hc : fl.closedClean = true) :
    fl.sunk = fl.started ∧ ∀ g, (fl.buf g).frames = [] := by
  simp only [closedClean, Bool.and_eq_true, Bool.not_eq_true'] at hc
  obtain ⟨⟨-, hdone⟩, hf⟩ := hc
  obtain ⟨hrun, hq⟩ := hp.finished hdone
  obtain ⟨hin, hor⟩ := hp.returned hrun
  obtain ⟨hlo, hhi, heq⟩ := hp.handed hf
  have hdirty : fl.dirtyBytes = 0 := by
    rcases hor with hfail | hs
    · rw [hf] at hfail
      cases hfail
    · exact hs.2
  have hnext : fl.nextDeliver = fl.nextSeq := by
    by_contra hne
    obtain ⟨o, ho, hos⟩ := hp.waiting hf fl.nextDeliver (Nat.le_refl _) (by omega)
    rw [hin, List.nil_append] at ho
    have := hp.gap hf o ho
    omega
  constructor
  · have hlen := hb.next
    rw [hq, List.append_nil] at heq
    rw [heq, List.take_of_length_le (by omega)]
  · intro g
    have := hb.dirty g
    exact frames_eq_nil_of_frameBytes (by omega)

/-- An object that carries one frame of an accepted call carries them all, side by side. -/
theorem Flusher.run_in_object {start : Nat} {fl : Flusher} (hb : BufInv start fl) {c : Nat × List WalFrame} (hc : c ∈ fl.accepted)
    {o : WalObject} (ho : o ∈ fl.started) {f : WalFrame} (hf : f ∈ c.2) (hfo : f ∈ o.framesOf c.1) :
    c.2 <:+: o.framesOf c.1 := by
  have hord := hb.order c.1
  rw [hb.taken, List.pairwise_append] at hord
  obtain ⟨hobj, -, hcross⟩ := hord
  rcases hb.whole c hc with hin | ⟨p, hp, hin⟩
  · -- the same frame would stand in the object and in the buffer
    have := hcross f (List.mem_flatMap.mpr ⟨o, ho, hfo⟩) f (hin.subset hf)
    omega
  · by_cases hpo : o = p
    · rw [hpo]
      exact hin
    · exfalso
      have hpair := List.pairwise_iff_getElem.mp (List.pairwise_flatMap.mp hobj).2
      have hfp := hin.subset hf
      obtain ⟨i, hi, rfl⟩ := List.getElem_of_mem ho
      obtain ⟨j, hj, rfl⟩ := List.getElem_of_mem hp
      rcases Nat.lt_trichotomy i j with hij | hij | hij
      · exact Nat.lt_irrefl _ (hpair i j hi hj hij f hfo f hfp)
      · subst hij
        exact hpo rfl
      · exact Nat.lt_irrefl _ (hpair j i hj hi hij f hfp f hfo)

/-- Whatever the callers, the swap triggers, the order the PUTs finish in and the sink do: the sink is handed the objects
numbered from the start on, one after the other; a group's frames there are the first ones accepted for it, and all of
them once `Close` has returned nil; and a run's frames stay side by side in one object, whether or not the sink gets to it. -/
theorem FlushReach.delivers_in_order {cfg : FlusherConfig} {fl : Flusher} (h : FlushReach cfg fl) :
    fl.sunk.map WalObject.walSeq = List.range' cfg.start fl.sunk.length ∧
    (∀ g, fl.sunkFrames g <+: fl.acceptedFrames g) ∧
    (fl.closedClean = true → ∀ g, fl.sunkFrames g = fl.acceptedFrames g) ∧
    (fl.sunk <+: fl.started ∧ ∀ c ∈ fl.accepted, ∀ o ∈ fl.started, ∀ f ∈ c.2, f ∈ o.framesOf c.1 → c.2 <:+: o.framesOf c.1) := by
  obtain ⟨hb, hp⟩ := h.inv
  refine ⟨?_, ?_, ?_, ?_⟩
  · obtain ⟨rest, hrest⟩ := hp.sunk_prefix
    have hnum := hb.numbered
    rw [← hrest, List.length_append, ← List.range'_append_1, List.map_append] at hnum
    exact (List.append_inj hnum (by simp)).1
  · intro g
    rw [hb.taken]
    obtain ⟨rest, hrest⟩ := hp.sunk_prefix
    rw [← hrest, List.flatMap_append, List.append_assoc]
    exact List.prefix_append _ _
  · intro hc g
    obtain ⟨hall, hnil⟩ := Flusher.drained hb hp hc
    rw [hb.taken, hnil, List.append_nil, Flusher.sunkFrames, hall]
  · exact ⟨hp.sunk_prefix, fun c hc o ho f hf hfo => Flusher.run_in_object hb hc ho hf hfo⟩

/-- Two groups, two objects whose PUTs finish in the other order, and a close. -/
def overtakingPuts : List FlushEvent :=
  [.appendRun 7 3 [⟨2, 0, 5, 1, [107], [1]⟩, ⟨2, 0, 5, 2, [107], [2]⟩], .appendStrSet 2 3 4 9 [97] [98] 0 0, .swap true false,
    .appendOp 7 3 ⟨2, 0, 5, 3, [107], [3]⟩, .barrier, .swap false true, .putDone 2 true, .putDone 1 true, .deliver true,
    .close, .deliver true, .runReturn, .loopReturn]

theorem overtakingPuts_runs : ((newFlusher ⟨1, 0, 0⟩).run overtakingPuts).isSome = true := by decide +kernel

theorem overtakingPuts_delivers_all : ∃ fl, FlushReach ⟨1, 0, 0⟩ fl ∧ fl.sunk.map WalObject.walSeq = [1, 2] ∧
    (fl.sunkFrames 7).map WalFrame.seq = [1, 2, 3] ∧ fl.sunkFrames 2 = [strSetFrame 4 9 [97] [98] 0 0] ∧
    fl.closedClean = true ∧ ∀ g, fl.sunkFrames g = fl.acceptedFrames g := by
  have hr : FlushReach ⟨1, 0, 0⟩ (((newFlusher ⟨1, 0, 0⟩).run overtakingPuts).get overtakingPuts_runs) :=
    FlushReach.new.of_run (Option.some_get _).symm
  exact ⟨_, hr, by decide +kernel, by decide +kernel, by decide +kernel, by decide +kernel, hr.delivers_in_order.2.2.1 (by decide +kernel)⟩

end Aki.Obs1
