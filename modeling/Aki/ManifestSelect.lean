import Aki.LeaseFoldPrime

namespace Aki.Obs1

structure ManifestSeg where
  segSeq : Nat
  level : Nat
  ttlClass : Nat
  size : Nat
  nRecords : Nat
  rawBytes : Nat
  minExpMS : Nat
  maxExpMS : Nat
  deadFrac : Nat
  footerOff : Nat
  footerLen : Nat
deriving DecidableEq

/-- A group's complete truth after a fold. -/
structure Manifest where
  group : Nat
  epoch : Nat
  manSeq : Nat
  foldPos : ChainPos
  foldSeq : Nat
  segs : List ManifestSeg
deriving DecidableEq

/-- Where the epoch was granted, as far as the fold saw it. -/
def LeaseFold.grantAt (f : LeaseFold) (group epoch : Nat) : Option ChainPos := f.grants[group]?.bind fun m => m[epoch]?

def LeaseFold.epochCurrentAtOrAfter (f : LeaseFold) (group epoch : Nat) (since : ChainPos) : Bool :=
  match f.groups[group]? with
  | none => false
  | some g =>
    if epoch = 0 ∨ g.epoch < epoch then false
    else if epoch = g.epoch then true
    else (f.grantAt group ((epoch + 1) % 2 ^ 32)).any fun stop => decide (since.seq < stop.seq)

/-- The selection so far: the winner, its fold cursor, and the slot last looked at. -/
structure Selection where
  best : Option Manifest
  cursor : ChainPos
  prevSeq : Option Nat

def selectStep (hist : Nat → ChainPos → Bool) (group : Nat) (s : Selection) (m : Manifest) : Selection :=
  if m.group ≠ group then s
  else if s.prevSeq.any fun p => decide (m.manSeq ≤ p) then s
  else if hist m.epoch s.cursor then ⟨some m, m.foldPos, some m.manSeq⟩
  else { s with prevSeq := some m.manSeq }

/-- The highest-slot manifest whose epoch was current at or after the fold cursor of the valid one before it. -/
def selectManifest (hist : Nat → ChainPos → Bool) (group : Nat) (ms : List Manifest) : Option Manifest :=
  (ms.foldl (selectStep hist group) ⟨none, ⟨0, 0⟩, none⟩).best

/-- The group's slots from `lo` on, without a hole. -/
def DenseManifests (group : Nat) : Nat → List Manifest → Prop
  | _, [] => True
  | lo, m :: ms => m.group = group ∧ m.manSeq = lo ∧ DenseManifests group (lo + 1) ms

namespace LeaseFold

theorem grantAt_applyGrant (f : LeaseFold) (pos : ChainPos) (r : GrantRecord) (group epoch : Nat) :
    (f.applyGrant pos r).grantAt group epoch =
      if f.grantFolds r ∧ r.group = group ∧ r.epoch = epoch then some pos else f.grantAt group epoch := by
  unfold applyGrant
  split
  · next hf =>
    simp only [grantAt, Std.ExtTreeMap.getElem?_insert, hf, true_and]
    by_cases hg : r.group = group
    · subst hg
      simp only [Nat.compare_eq_eq, if_true, Option.bind_some, Std.ExtTreeMap.getElem?_insert, true_and]
      split
      · rfl
      · cases hx : f.grants[r.group]? with
        | none => simp
        | some x => simp
    · simp [hg]
  · next hf => simp [grantAt, hf]

theorem grantAt_applyRecord (f : LeaseFold) (pos : ChainPos) (writer inc : Nat) (r : ChainRecord) (group epoch : Nat) :
    (f.applyRecord pos writer inc r).1.grantAt group epoch =
      match r with
      | .grant g => if f.grantFolds g ∧ g.group = group ∧ g.epoch = epoch then some pos else f.grantAt group epoch
      | _ => f.grantAt group epoch := by
  cases r with
  | grant g => exact f.grantAt_applyGrant pos g group epoch
  | release g =>
    simp only [applyRecord, applyRelease]
    split
    · rfl
    · split <;> rfl
  | heartbeat => rfl
  | commit c => rfl
  | member op m =>
    cases op <;> simp only [applyRecord, applyMember] <;> (try split) <;> rfl
  | checkpoint q =>
    simp only [applyRecord]
    split <;> rfl

/-- Every grant the fold knows stands at or before `cut`. -/
def GrantsBy (cut : Nat) (f : LeaseFold) : Prop := ∀ group epoch pos, f.grantAt group epoch = some pos → pos.seq ≤ cut

/-- The fold `p` knows the grants of `f` past `cut`, and no others. -/
def GrantsPast (cut : Nat) (f p : LeaseFold) : Prop :=
  ∀ group epoch, p.grantAt group epoch = (f.grantAt group epoch).filter fun pos => decide (cut < pos.seq)

theorem GrantsBy.applyRecord {cut : Nat} {f : LeaseFold} (h : GrantsBy cut f) {pos : ChainPos} (hpos : pos.seq ≤ cut)
    (writer inc : Nat) (r : ChainRecord) : GrantsBy cut (f.applyRecord pos writer inc r).1 := by
  intro group epoch q hq
  rw [grantAt_applyRecord] at hq
  cases r with
  | grant g =>
    dsimp only at hq
    split at hq
    · obtain rfl := Option.some.inj hq
      exact hpos
    · exact h group epoch q hq
  | _ => exact h group epoch q hq

theorem GrantsBy.applyRecords {cut : Nat} (pos : ChainPos) (hpos : pos.seq ≤ cut) (writer inc : Nat) (rs : List ChainRecord)
    {f : LeaseFold} (h : GrantsBy cut f) : GrantsBy cut (LeaseFold.applyRecords pos writer inc f rs).1 := by
  induction rs generalizing f with
  | nil => exact h
  | cons r rs ih => exact ih (h.applyRecord hpos writer inc r)

theorem grantAt_begin (f : LeaseFold) (pos : ChainPos) : (f.begin pos).grantAt = f.grantAt := by
  unfold LeaseFold.begin
  dsimp only
  split <;> split <;> rfl

theorem GrantsBy.applyObjects {cut dd : Nat} (chain : List (Nat × ChainBatch)) {seq : Nat} {f f' : LeaseFold}
    {evs : List FoldEvent} (h : GrantsBy cut f) (hcut : seq + chain.length ≤ cut + 1)
    (hc : LeaseFold.applyObjects dd seq f chain = some (f', evs)) : GrantsBy cut f' := by
  induction chain generalizing seq f evs with
  | nil =>
    obtain ⟨rfl, rfl⟩ := Prod.mk.inj (Option.some.inj hc)
    exact h
  | cons o rest ih =>
    obtain ⟨writer, batch⟩ := o
    rw [LeaseFold.applyObjects] at hc
    split at hc
    · cases hc
    · next g evs' hstep =>
      obtain ⟨⟨g', evs''⟩, hrest, heq⟩ := Option.map_eq_some_iff.mp hc
      obtain ⟨rfl, rfl⟩ := Prod.mk.inj heq
      rw [List.length_cons] at hcut
      refine ih ?_ (by omega) hrest
      obtain ⟨-, -, rfl, -⟩ := applyChain_some hstep
      have hb : GrantsBy cut (f.begin ⟨dd, seq⟩) := by
        intro group epoch q hq
        rw [grantAt_begin] at hq
        exact h group epoch q hq
      have hr := hb.applyRecords ⟨dd, seq⟩ (show seq ≤ cut by omega) writer batch.incarnation batch.records
      exact hr

theorem GrantsPast.applyRecord {cut : Nat} {f p : LeaseFold} (h : GrantsPast cut f p) (ha : Agrees f p) {pos : ChainPos}
    (hpos : cut < pos.seq) (writer inc : Nat) (r : ChainRecord) :
    GrantsPast cut (f.applyRecord pos writer inc r).1 (p.applyRecord pos writer inc r).1 := by
  intro group epoch
  rw [grantAt_applyRecord, grantAt_applyRecord]
  cases r with
  | grant g =>
    dsimp only
    rw [ha.grantFolds]
    split
    · rw [Option.filter_some, if_pos (decide_eq_true hpos)]
    · exact h group epoch
  | _ => exact h group epoch

theorem GrantsPast.applyRecords {cut : Nat} (pos : ChainPos) (hpos : cut < pos.seq) (writer inc : Nat) (rs : List ChainRecord)
    {f p : LeaseFold} (h : GrantsPast cut f p) (ha : Agrees f p) :
    GrantsPast cut (LeaseFold.applyRecords pos writer inc f rs).1 (LeaseFold.applyRecords pos writer inc p rs).1 := by
  induction rs generalizing f p with
  | nil => exact h
  | cons r rs ih => exact ih (h.applyRecord ha hpos writer inc r) (ha.applyRecord pos writer inc r).1

/-- The two folds go on along the rest of the chain and learn the same grants. -/
theorem GrantsPast.applyObjects {cut dd : Nat} (chain : List (Nat × ChainBatch)) {seq : Nat} {f p f' p' : LeaseFold}
    {evs evs' : List FoldEvent} (h : GrantsPast cut f p) (ha : Agrees f p) (hcut : cut < seq)
    (hf : LeaseFold.applyObjects dd seq f chain = some (f', evs))
    (hp : LeaseFold.applyObjects dd seq p chain = some (p', evs')) : GrantsPast cut f' p' ∧ Agrees f' p' := by
  induction chain generalizing seq f p evs evs' with
  | nil =>
    obtain ⟨rfl, rfl⟩ := Prod.mk.inj (Option.some.inj hf)
    obtain ⟨rfl, rfl⟩ := Prod.mk.inj (Option.some.inj hp)
    exact ⟨h, ha⟩
  | cons o rest ih =>
    obtain ⟨writer, batch⟩ := o
    rw [LeaseFold.applyObjects] at hf hp
    split at hf
    · cases hf
    next g gevs hstep =>
    split at hp
    · cases hp
    next q qevs hstep' =>
    obtain ⟨⟨g', gevs'⟩, hrest, heq⟩ := Option.map_eq_some_iff.mp hf
    obtain ⟨⟨q', qevs'⟩, hrest', heq'⟩ := Option.map_eq_some_iff.mp hp
    obtain ⟨rfl, rfl⟩ := Prod.mk.inj heq
    obtain ⟨rfl, rfl⟩ := Prod.mk.inj heq'
    obtain ⟨q₁, hq₁, hagree⟩ := ha.applyChain hstep
    obtain ⟨rfl, -⟩ := Prod.mk.inj (Option.some.inj (hstep'.symm.trans hq₁))
    refine ih ?_ hagree (by omega) hrest hrest'
    obtain ⟨-, -, rfl, -⟩ := applyChain_some hstep
    obtain ⟨-, -, rfl, -⟩ := applyChain_some hstep'
    have hb : GrantsPast cut (f.begin ⟨dd, seq⟩) (p.begin ⟨dd, seq⟩) := by
      intro group epoch
      rw [grantAt_begin, grantAt_begin]
      exact h group epoch
    have hr := hb.applyRecords ⟨dd, seq⟩ hcut writer batch.incarnation batch.records (ha.begin _)
    exact hr

/-- A fold that booted at `cut` answers as the full one for the epochs current at or after it, and never for the others. -/
theorem GrantsPast.epochCurrentAtOrAfter {cut : Nat} {f p : LeaseFold} (h : GrantsPast cut f p) (ha : Agrees f p)
    (group epoch : Nat) (since : ChainPos) :
    p.epochCurrentAtOrAfter group epoch since =
      (f.epochCurrentAtOrAfter group epoch since && f.epochCurrentAtOrAfter group epoch ⟨0, cut⟩) := by
  have hl := ha.lease group
  simp only [lease] at hl
  unfold LeaseFold.epochCurrentAtOrAfter
  cases hf : f.groups[group]? with
  | none =>
    rw [hf, Option.map_none, Option.map_eq_none_iff] at hl
    rw [hl]
    rfl
  | some g =>
    rw [hf, Option.map_some] at hl
    obtain ⟨q, hq, heq⟩ := Option.map_eq_some_iff.mp hl
    obtain ⟨hepoch, -⟩ := Prod.mk.inj heq
    rw [hq]
    dsimp only
    rw [hepoch, h]
    split
    · rfl
    split
    · rfl
    · cases f.grantAt group ((epoch + 1) % 2 ^ 32) with
      | none => rfl
      | some stop => by_cases hs : cut < stop.seq <;> simp [Option.filter, hs]

theorem epochCurrentAtOrAfter_antitone (f : LeaseFold) (group epoch : Nat) {since later : ChainPos} (hle : since.seq ≤ later.seq)
    (h : f.epochCurrentAtOrAfter group epoch later = true) : f.epochCurrentAtOrAfter group epoch since = true := by
  unfold epochCurrentAtOrAfter at h ⊢
  cases hg : f.groups[group]? with
  | none => simp [hg] at h
  | some g =>
    rw [hg] at h
    dsimp only at h ⊢
    split at h
    · cases h
    next hne =>
      rw [if_neg hne]
      split
      · rfl
      next he =>
        rw [if_neg he] at h
        cases hstop : f.grantAt group ((epoch + 1) % 2 ^ 32) with
        | none =>
          rw [hstop] at h
          cases h
        | some stop =>
          rw [hstop] at h
          exact decide_eq_true (Nat.lt_of_le_of_lt hle (of_decide_eq_true h))

end LeaseFold

theorem selectStep_of_slot {hist : Nat → ChainPos → Bool} {group : Nat} {s : Selection} {m : Manifest} (hg : m.group = group)
    (hs : ∀ p, s.prevSeq = some p → p < m.manSeq) : selectStep hist group s m =
      if hist m.epoch s.cursor then ⟨some m, m.foldPos, some m.manSeq⟩ else { s with prevSeq := some m.manSeq } := by
  have hslot : (s.prevSeq.any fun p => decide (m.manSeq ≤ p)) = false := by
    cases hx : s.prevSeq with
    | none => rfl
    | some p => simpa using hs p hx
  rw [selectStep, if_neg (by simpa using hg), if_neg (by simp [hslot])]

theorem selectStep_best (hist : Nat → ChainPos → Bool) (group : Nat) (s : Selection) (m : Manifest) :
    (selectStep hist group s m).best = s.best ∨ (selectStep hist group s m).best = some m ∧ hist m.epoch s.cursor = true := by
  unfold selectStep
  split
  · exact Or.inl rfl
  split
  · exact Or.inl rfl
  split
  next h => exact Or.inr ⟨rfl, h⟩
  next => exact Or.inl rfl

/-- No manifest of an epoch over at `cut` decides the pick, where `current e q` is whether epoch `e` was current at or after position
`q` and `t` is the least fold position since the latest manifest of an epoch current at or after `cut`: its epoch was over at `t`
already, or it was folded by `cut` and a manifest of an epoch current at or after `cut` comes later. -/
def Settles (current : Nat → Nat → Bool) (cut : Nat) : Nat → List Manifest → Prop
  | _, [] => True
  | t, m :: ms =>
    (current m.epoch cut = true ∨ current m.epoch t = false ∨ m.foldPos.seq ≤ cut ∧ ∃ n ∈ ms, current n.epoch cut = true) ∧
      Settles current cut (if current m.epoch cut then m.foldPos.seq else min t m.foldPos.seq) ms

section Settled

variable {current : Nat → Nat → Bool} {group cut : Nat} {ms : List Manifest}

theorem exists_rest {m : Manifest} (ho : current m.epoch cut = false) (h : ∃ n ∈ m :: ms, current n.epoch cut = true) :
    ∃ n ∈ ms, current n.epoch cut = true := by
  obtain ⟨n, hn, hcur⟩ := h
  rcases List.mem_cons.mp hn with rfl | hn
  · rw [ho] at hcur
    cases hcur
  · exact ⟨n, hn, hcur⟩

/-- The two readers after the same slots: they agree, or both cursors are still at or before `cut` and a manifest both accept is to
come. -/
structure Abreast (current : Nat → Nat → Bool) (cut t lo : Nat) (ms : List Manifest) (s s' : Selection) : Prop where
  same : (s'.best = s.best ∧ s'.cursor = s.cursor) ∨
    (s.cursor.seq ≤ cut ∧ s'.cursor.seq ≤ cut ∧ ∃ n ∈ ms, current n.epoch cut = true)
  floor : min t cut ≤ s.cursor.seq
  slot : (∀ p, s.prevSeq = some p → p < lo) ∧ ∀ p, s'.prevSeq = some p → p < lo

theorem Abreast.step (hanti : ∀ e q q', q ≤ q' → current e q' = true → current e q = true) {t lo : Nat} {m : Manifest}
    {s s' : Selection} (h : Abreast current cut t lo (m :: ms) s s') (hg : m.group = group) (hm : m.manSeq = lo)
    (hset : current m.epoch cut = true ∨ current m.epoch t = false ∨ m.foldPos.seq ≤ cut ∧ ∃ n ∈ ms, current n.epoch cut = true) :
    Abreast current cut (if current m.epoch cut then m.foldPos.seq else min t m.foldPos.seq) (lo + 1) ms
      (selectStep (fun e c => current e c.seq) group s m) (selectStep (fun e c => current e c.seq && current e cut) group s' m) := by
  rw [selectStep_of_slot hg (by rw [hm]; exact h.slot.1), selectStep_of_slot hg (by rw [hm]; exact h.slot.2)]
  have hslot : ∀ p, some m.manSeq = some p → p < lo + 1 := by
    intro p hx
    cases hx
    omega
  cases ho : current m.epoch cut with
  | true =>
    rw [Bool.and_true, if_pos rfl]
    have hin : ∀ c : ChainPos, c.seq ≤ cut → current m.epoch c.seq = true := fun c hc => hanti _ _ _ hc ho
    cases hc : current m.epoch s.cursor.seq with
    | true =>
      have hc' : current m.epoch s'.cursor.seq = true := by
        rcases h.same with ⟨-, he⟩ | ⟨-, hle, -⟩
        · rw [he]; exact hc
        · exact hin _ hle
      rw [hc', if_pos rfl, if_pos rfl]
      exact ⟨Or.inl ⟨rfl, rfl⟩, Nat.min_le_left _ _, hslot, hslot⟩
    | false =>
      -- the cursor is past the epoch, and so past `cut`
      have hpast : cut < s.cursor.seq := Nat.lt_of_not_le fun hle => by simp [hin _ hle] at hc
      rcases h.same with ⟨hb, he⟩ | ⟨hle, -⟩
      · rw [he, hc, if_neg Bool.false_ne_true, if_neg Bool.false_ne_true]
        exact ⟨Or.inl ⟨hb, rfl⟩, (Nat.min_le_right _ _).trans hpast.le, hslot, hslot⟩
      · exact absurd hle (Nat.not_le.mpr hpast)
  | false =>
    rw [Bool.and_false, if_neg Bool.false_ne_true, if_neg Bool.false_ne_true]
    cases hc : current m.epoch s.cursor.seq with
    | true =>
      have hlt : s.cursor.seq < cut := Nat.lt_of_not_le fun hle => by simp [hanti _ _ _ hle hc] at ho
      have hfold : m.foldPos.seq ≤ cut ∧ ∃ n ∈ ms, current n.epoch cut = true := by
        rcases hset with hx | hx | hx
        · rw [ho] at hx
          cases hx
        · have hfl := h.floor
          have : current m.epoch t = true := hanti _ _ _ (by omega) hc
          rw [hx] at this
          cases this
        · exact hx
      have hle' : s'.cursor.seq ≤ cut := by
        rcases h.same with ⟨-, he⟩ | ⟨-, hle, -⟩
        · rw [he]; omega
        · exact hle
      rw [if_pos rfl]
      exact ⟨Or.inr ⟨hfold.1, hle', hfold.2⟩, by dsimp only; omega, hslot, hslot⟩
    | false =>
      rw [if_neg Bool.false_ne_true]
      refine ⟨?_, ?_, hslot, hslot⟩
      · rcases h.same with hs | ⟨h₁, h₂, h₃⟩
        · exact Or.inl hs
        · exact Or.inr ⟨h₁, h₂, exists_rest ho h₃⟩
      · have := h.floor
        dsimp only
        omega

/-- Where the manifests settle, leaving out those of epochs over at `cut` does not change the pick. -/
theorem Settles.select (hanti : ∀ e q q', q ≤ q' → current e q' = true → current e q = true) {lo : Nat}
    (hd : DenseManifests group lo ms) (hset : Settles current cut 0 ms) :
    selectManifest (fun e c => current e c.seq && current e cut) group ms = selectManifest (fun e c => current e c.seq) group ms := by
  suffices hgen : ∀ t s s', Settles current cut t ms → Abreast current cut t lo ms s s' →
      (ms.foldl (selectStep (fun e c => current e c.seq && current e cut) group) s').best =
        (ms.foldl (selectStep (fun e c => current e c.seq) group) s).best by
    exact hgen 0 _ _ hset ⟨Or.inl ⟨rfl, rfl⟩, by simp, by simp, by simp⟩
  clear hset
  induction ms generalizing lo with
  | nil =>
    intro t s s' _ h
    rcases h.same with ⟨hb, -⟩ | ⟨-, -, n, hn, -⟩
    · exact hb
    · cases hn
  | cons m ms ih =>
    intro t s s' hset h
    exact ih hd.2.2 _ _ _ hset.2 (h.step hanti hd.1 hd.2.1 hset.1)

/-- The fold positions rise along the slots, and the manifests of epochs over at `cut` were folded by then. -/
structure Orderly (current : Nat → Nat → Bool) (cut : Nat) (ms : List Manifest) : Prop where
  rises : ms.Pairwise fun a b => a.foldPos.seq ≤ b.foldPos.seq
  folded : ∀ m ∈ ms, current m.epoch cut = false → current m.epoch 0 = true → m.foldPos.seq ≤ cut

/-- With no manifest of an epoch current at or after `cut` to come, the booted reader keeps its pick and the other one, once it has
picked a manifest of an epoch that was over, never comes back to it. -/
theorem select_apart (hno : ∀ n ∈ ms, current n.epoch cut = false) {s s' : Selection} {b : Manifest} (hb : s.best = some b)
    (hover : current b.epoch cut = false) (hb' : ∀ x, s'.best = some x → current x.epoch cut = true) :
    (ms.foldl (selectStep (fun e c => current e c.seq && current e cut) group) s').best ≠
      (ms.foldl (selectStep (fun e c => current e c.seq) group) s).best := by
  induction ms generalizing s s' b with
  | nil =>
    intro heq
    have := hb' b (heq.trans hb)
    rw [hover] at this
    cases this
  | cons m ms ih =>
    have hm := hno m (by simp)
    have hrest : ∀ n ∈ ms, current n.epoch cut = false := fun n hn => hno n (by simp [hn])
    have hkeep : ∀ x, (selectStep (fun e c => current e c.seq && current e cut) group s' m).best = some x →
        current x.epoch cut = true := by
      intro x hx
      rcases selectStep_best (fun e c => current e c.seq && current e cut) group s' m with he | ⟨-, hh⟩
      · exact hb' x (he.symm.trans hx)
      · simp [hm] at hh
    rcases selectStep_best (fun e c => current e c.seq) group s m with he | ⟨he, -⟩
    · exact ih hrest (he.trans hb) hover hkeep
    · exact ih hrest he hm hkeep

/-- The two readers of orderly manifests after the same slots. -/
structure Tracks (current : Nat → Nat → Bool) (cut t lo : Nat) (ms : List Manifest) (s s' : Selection) : Prop where
  same : (s'.best = s.best ∧ s'.cursor = s.cursor ∧ (t = s.cursor.seq ∨ cut < t ∧ cut < s.cursor.seq)) ∨
    (s.cursor.seq ≤ cut ∧ s'.cursor.seq ≤ cut ∧ ∃ n ∈ ms, current n.epoch cut = true)
  ahead : ∀ m ∈ ms, t ≤ m.foldPos.seq ∧ s.cursor.seq ≤ m.foldPos.seq
  best : ∀ b, s'.best = some b → current b.epoch cut = true
  slot : (∀ p, s.prevSeq = some p → p < lo) ∧ ∀ p, s'.prevSeq = some p → p < lo

theorem Tracks.step (hanti : ∀ e q q', q ≤ q' → current e q' = true → current e q = true) {t lo : Nat} {m : Manifest}
    {s s' : Selection} (h : Tracks current cut t lo (m :: ms) s s') (hg : m.group = group) (hm : m.manSeq = lo)
    (hle : ∀ n ∈ ms, m.foldPos.seq ≤ n.foldPos.seq) (hfold : current m.epoch cut = false → current m.epoch 0 = true → m.foldPos.seq ≤ cut)
    (hlate : current m.epoch cut = true ∨ (∃ n ∈ ms, current n.epoch cut = true) ∨ current m.epoch s.cursor.seq = false) :
    Tracks current cut (if current m.epoch cut then m.foldPos.seq else min t m.foldPos.seq) (lo + 1) ms
      (selectStep (fun e c => current e c.seq) group s m) (selectStep (fun e c => current e c.seq && current e cut) group s' m) := by
  rw [selectStep_of_slot hg (by rw [hm]; exact h.slot.1), selectStep_of_slot hg (by rw [hm]; exact h.slot.2)]
  have hslot : ∀ p, some m.manSeq = some p → p < lo + 1 := by
    intro p hx
    cases hx
    omega
  have hahead : ∀ n ∈ ms, t ≤ n.foldPos.seq ∧ s.cursor.seq ≤ n.foldPos.seq := fun n hn => h.ahead n (by simp [hn])
  obtain ⟨htm, hcm⟩ := h.ahead m (by simp)
  cases ho : current m.epoch cut with
  | true =>
    rw [Bool.and_true, if_pos rfl]
    have hin : ∀ c : ChainPos, c.seq ≤ cut → current m.epoch c.seq = true := fun c hc => hanti _ _ _ hc ho
    cases hc : current m.epoch s.cursor.seq with
    | true =>
      have hc' : current m.epoch s'.cursor.seq = true := by
        rcases h.same with ⟨-, he, -⟩ | ⟨-, hle, -⟩
        · rw [he]; exact hc
        · exact hin _ hle
      rw [hc', if_pos rfl, if_pos rfl]
      refine ⟨Or.inl ⟨rfl, rfl, Or.inl rfl⟩, fun n hn => ⟨hle n hn, hle n hn⟩, ?_, hslot, hslot⟩
      intro b hb
      cases hb
      exact ho
    | false =>
      have hpast : cut < s.cursor.seq := Nat.lt_of_not_le fun hle => by simp [hin _ hle] at hc
      rcases h.same with ⟨hb, he, -⟩ | ⟨hle, -⟩
      · rw [he, hc, if_neg Bool.false_ne_true, if_neg Bool.false_ne_true]
        exact ⟨Or.inl ⟨hb, rfl, Or.inr ⟨hpast.trans_le hcm, hpast⟩⟩, fun n hn => ⟨hle n hn, (hahead n hn).2⟩, h.best, hslot, hslot⟩
      · exact absurd hle (Nat.not_le.mpr hpast)
  | false =>
    rw [Bool.and_false, if_neg Bool.false_ne_true, if_neg Bool.false_ne_true, Nat.min_eq_left htm]
    cases hc : current m.epoch s.cursor.seq with
    | true =>
      -- the full reader alone takes it, by `cut`
      have hlt : s.cursor.seq < cut := Nat.lt_of_not_le fun hle => by simp [hanti _ _ _ hle hc] at ho
      have hmore : ∃ n ∈ ms, current n.epoch cut = true := by simpa [ho, hc] using hlate
      have hcut' : s'.cursor.seq ≤ cut := by
        rcases h.same with ⟨-, he, -⟩ | ⟨-, hle, -⟩
        · rw [he]; exact hlt.le
        · exact hle
      rw [if_pos rfl]
      exact ⟨Or.inr ⟨hfold ho (hanti _ _ _ (Nat.zero_le _) hc), hcut', hmore⟩, fun n hn => ⟨(hahead n hn).1, hle n hn⟩, h.best, hslot, hslot⟩
    | false =>
      rw [if_neg Bool.false_ne_true]
      refine ⟨?_, hahead, h.best, hslot, hslot⟩
      rcases h.same with hs | ⟨h₁, h₂, h₃⟩
      · exact Or.inl hs
      · exact Or.inr ⟨h₁, h₂, exists_rest ho h₃⟩

theorem Settles.of_select (hanti : ∀ e q q', q ≤ q' → current e q' = true → current e q = true) {lo : Nat}
    (hd : DenseManifests group lo ms) (ho : Orderly current cut ms)
    (heq : selectManifest (fun e c => current e c.seq && current e cut) group ms = selectManifest (fun e c => current e c.seq) group ms) :
    Settles current cut 0 ms := by
  suffices hgen : ∀ t s s', Tracks current cut t lo ms s s' →
      (ms.foldl (selectStep (fun e c => current e c.seq && current e cut) group) s').best =
        (ms.foldl (selectStep (fun e c => current e c.seq) group) s).best → Settles current cut t ms by
    exact hgen 0 _ _ ⟨Or.inl ⟨rfl, rfl, Or.inl rfl⟩, by simp, by simp, by simp, by simp⟩ heq
  clear heq
  induction ms generalizing lo with
  | nil => exact fun _ _ _ _ _ => trivial
  | cons m ms ih =>
    intro t s s' h heq
    obtain ⟨hle, hrise⟩ := List.pairwise_cons.mp ho.rises
    have hfold := ho.folded m (by simp)
    have hlate : current m.epoch cut = true ∨ (∃ n ∈ ms, current n.epoch cut = true) ∨ current m.epoch s.cursor.seq = false := by
      by_contra hnot
      simp only [not_or, Bool.not_eq_true, not_exists, not_and, Bool.not_eq_false] at hnot
      obtain ⟨hopen, hno, hc⟩ := hnot
      -- nothing would bring the two picks together again
      rw [List.foldl_cons, List.foldl_cons, selectStep_of_slot hd.1 (by rw [hd.2.1]; exact h.slot.2),
        selectStep_of_slot hd.1 (by rw [hd.2.1]; exact h.slot.1), hopen, hc, Bool.and_false, if_neg Bool.false_ne_true, if_pos rfl] at heq
      exact absurd heq (select_apart hno rfl hopen h.best)
    refine ⟨?_, ih hd.2.2 ⟨hrise, fun n hn => ho.folded n (by simp [hn])⟩ _ _ _ (h.step hanti hd.1 hd.2.1 hle hfold hlate) heq⟩
    cases hopen : current m.epoch cut with
    | true => exact Or.inl rfl
    | false =>
      cases hz : current m.epoch t with
      | false => exact Or.inr (Or.inl rfl)
      | true =>
        refine Or.inr (Or.inr ⟨hfold hopen (hanti _ _ _ (Nat.zero_le _) hz), ?_⟩)
        rcases hlate with hx | hlate | hc
        · rw [hopen] at hx
          cases hx
        · exact hlate
        · rcases h.same with ⟨-, -, ht | ht⟩ | ⟨-, -, hx⟩
          · rw [ht, hc] at hz
            cases hz
          · have := hanti _ _ _ ht.1.le hz
            rw [hopen] at this
            cases this
          · exact exists_rest hopen hx

end Settled

/-- Group 0 granted to node 1, then to node 2. -/
def LeaseFold.twoGrants : List (Nat × ChainBatch) :=
  [(1, ⟨1, 1, [.grant ⟨0, 1, 1⟩]⟩), (2, ⟨1, 1, [.grant ⟨0, 2, 2⟩]⟩)]

/-- Node 1 folded once, with its cursor at its grant. -/
def LeaseFold.firstManifest : Manifest := ⟨0, 1, 0, ⟨0, 1⟩, 5, []⟩

/-- Node 2 folded behind it, before its own grant was checkpointed. -/
def LeaseFold.secondManifest : Manifest := ⟨0, 2, 1, ⟨0, 2⟩, 7, []⟩

end Aki.Obs1
