import Aki.LittleEndian
import Aki.StoreBatch

namespace Aki.Sqlo1b

/-- What a frame does to the map from keys to records. -/
def Frame.onRecs (m : Key → Option Record) : Frame → Key → Option Record
  | .put r => Function.update m r.key (some r)
  | .del k => Function.update m k none
  | .genbump k g =>
    if ((m k).bind genOf).any (g ≤ ·) then m else Function.update m k (some (genRecord k g))
  | .mark _ => m
  | .sealed _ => m

/-- A frame the replay can install: no root image, no record under a reserved key, nothing too big. -/
def Frame.Plain : Frame → Prop
  | .put r => r.validateEnvelope = true ∧ Installable r.encodedLen ∧ r.rtype ≠ .root ∧ r.rtype ≠ .metadata ∧
      subkind r.key ≠ some 0
  | .genbump k _ => ∃ rooth, k = genKey rooth
  | _ => True

/-- Reserved keys hold generation records only. -/
def GenClean (m : Key → Option Record) : Prop := ∀ rooth r, m (genKey rooth) = some r → (genOf r).isSome

theorem leBytes_length (n v : Nat) : (leBytes n v).length = n := LittleEndian.bytes_length n v

theorem leNat_leBytes (n v : Nat) : leNat (leBytes n v) = v % 256 ^ n := LittleEndian.toNat_bytes n v

theorem genKey_length (rooth : Nat) : (genKey rooth).length = subkeySize := by
  simp [genKey, leBytes_length, subkeySize]

theorem genKey_subkind (rooth : Nat) : subkind (genKey rooth) = some 0 := by
  rw [subkind, if_pos (genKey_length rooth), genKey, List.getElem?_append_right (Nat.le_of_eq (leBytes_length ..)),
    leBytes_length]
  rfl

theorem genOf_genRecord (k : Key) (g : Nat) : (genOf (genRecord k g)).isSome := by
  simp [genOf, genRecord, leBytes_length]

theorem GenClean.onRecs {m : Key → Option Record} {f : Frame} (hm : GenClean m) (hf : f.Plain) :
    GenClean (f.onRecs m) := by
  intro rooth r hr
  cases f with
  | put x =>
    rw [Frame.onRecs, Function.update_apply] at hr
    split at hr
    next heq => exact absurd (heq ▸ genKey_subkind rooth) hf.2.2.2.2
    · exact hm rooth r hr
  | del k =>
    rw [Frame.onRecs, Function.update_apply] at hr
    split at hr
    · cases hr
    · exact hm rooth r hr
  | genbump k g =>
    rw [Frame.onRecs] at hr
    split at hr
    · exact hm rooth r hr
    · rw [Function.update_apply] at hr
      split at hr
      · obtain rfl := Option.some.inj hr
        exact genOf_genRecord k g
      · exact hm rooth r hr
  | mark seq => exact hm rooth r hr
  | sealed ext => exact hm rooth r hr

/-- `t` is `s` after the frames: same sidecar up to buffered seals, the map moved on. -/
structure Replayed (s t : Store) (fs : List Frame) : Prop where
  placed : Placed t
  recs : t.recs = fs.foldl Frame.onRecs s.recs
  broken : t.broken = s.broken
  segSize : t.wal.segSize = s.wal.segSize
  log : t.wal.log = s.wal.log
  tail : t.wal.tail = s.wal.tail
  buf : ∃ exts : List Nat, t.wal.buf = s.wal.buf ++ exts.map Frame.sealed
  extents : t.grid.extentCount ≤ s.grid.extentCount + fs.length * storeGrowExtents

namespace Replayed

variable {s t u : Store} {fs gs : List Frame}

theorem nil (hp : Placed s) : Replayed s s [] := ⟨hp, rfl, rfl, rfl, rfl, rfl, ⟨[], by simp⟩, by simp⟩

theorem trans (h : Replayed s t fs) (h' : Replayed t u gs) : Replayed s u (fs ++ gs) where
  placed := h'.placed
  recs := by rw [h'.recs, h.recs, List.foldl_append]
  broken := h'.broken.trans h.broken
  segSize := h'.segSize.trans h.segSize
  log := h'.log.trans h.log
  tail := h'.tail.trans h.tail
  buf := by
    obtain ⟨a, ha⟩ := h.buf
    obtain ⟨b, hb⟩ := h'.buf
    exact ⟨a ++ b, by simp [hb, ha]⟩
  extents := by
    have h1 := h.extents
    have h2 := h'.extents
    rw [List.length_append, Nat.add_mul]
    omega

end Replayed

theorem Placed.withRecs {s : Store} (hp : Placed s) (recs : Key → Option Record) (hw : Int) :
    Placed { s with recs := recs, hw := hw } :=
  ⟨hp.extents, hp.segSize, hp.vlog, hp.blob, hp.vlogExt, hp.blobExt, hp.blobNext, hp.builder⟩

theorem Record.encodedLen_pos (r : Record) : 0 < r.encodedLen := by
  rw [Record.encodedLen]
  omega

namespace Store

variable {s t : Store} {f : Frame} {fs : List Frame} {r : Record}

theorem place_ok (hp : Placed s) (hroom : s.grid.extentCount + storeGrowExtents ≤ 2 ^ 40)
    (hvalid : r.validateEnvelope = true) (hfit : Installable r.encodedLen) :
    ∃ t, s.place r = some t ∧ Placed t ∧ SameData s t ∧
      t.grid.extentCount ≤ s.grid.extentCount + storeGrowExtents := by
  obtain ⟨t, pos, happend, ht, hdata, hcount⟩ := appendVlog_ok hp hroom r.encodedLen_pos hfit
  exact ⟨t, by simp [place, hvalid, happend], ht, hdata, hcount⟩

theorem applyPut_ok (hp : Placed s) (hroom : s.grid.extentCount + storeGrowExtents ≤ 2 ^ 40)
    (hvalid : r.validateEnvelope = true) (hfit : Installable r.encodedLen) :
    ∃ t, s.applyPut r = some t ∧ Replayed s t [.put r] := by
  obtain ⟨t, hplace, ht, hdata, hcount⟩ := place_ok hp hroom hvalid hfit
  refine ⟨t.setRec r, by simp [applyPut, hplace], ht.withRecs _ _, ?_, hdata.broken, hdata.segSize, hdata.log,
    hdata.tail, hdata.buf, by simpa [setRec] using hcount⟩
  rw [setRec, hdata.recs]
  rfl

theorem genRecord_valid (rooth g : Nat) : (genRecord (genKey rooth) g).validateEnvelope = true := by
  simp [Record.validateEnvelope, genRecord, genKey_length, leBytes_length, subkeySize, Record.planed, Record.encodedLen,
    Record.optLen]

theorem genRecord_installable (rooth g : Nat) : Installable (genRecord (genKey rooth) g).encodedLen := by
  left
  simp [genRecord, genKey_length, leBytes_length, subkeySize, Record.encodedLen, Record.optLen, blobThreshold]

theorem applyGenbump_ok (rooth g : Nat) (hp : Placed s) (hroom : s.grid.extentCount + storeGrowExtents ≤ 2 ^ 40)
    (hclean : GenClean s.recs) :
    ∃ t, s.applyGenbump (genKey rooth) g = some t ∧ Replayed s t [.genbump (genKey rooth) g] := by
  obtain ⟨t, hput, hr⟩ := applyPut_ok hp hroom (genRecord_valid rooth g) (genRecord_installable rooth g)
  unfold applyGenbump
  cases hold : s.recs (genKey rooth) with
  | none =>
    refine ⟨t, hput, hr.placed, ?_, hr.broken, hr.segSize, hr.log, hr.tail, hr.buf, hr.extents⟩
    simp only [hr.recs, List.foldl_cons, List.foldl_nil, Frame.onRecs, hold]
    rfl
  | some old =>
    obtain ⟨g', hg'⟩ := Option.isSome_iff_exists.mp (hclean rooth old hold)
    simp only [hg']
    split
    next hle =>
      refine ⟨s, rfl, hp, ?_, rfl, rfl, rfl, rfl, ⟨[], by simp⟩, by simp⟩
      simp [Frame.onRecs, hold, hg', hle]
    next hgt =>
      refine ⟨t, hput, hr.placed, ?_, hr.broken, hr.segSize, hr.log, hr.tail, hr.buf, hr.extents⟩
      simp only [hr.recs, List.foldl_cons, List.foldl_nil, Frame.onRecs, hold, Option.bind_some, hg', Option.any_some,
        hgt, decide_false, Bool.false_eq_true, if_false]
      rfl

theorem replayStep_ok (hp : Placed s) (hroom : s.grid.extentCount + storeGrowExtents ≤ 2 ^ 40)
    (hclean : GenClean s.recs) (hf : f.Plain) : ∃ t, s.replayStep f = some t ∧ Replayed s t [f] := by
  cases f with
  | put r => exact applyPut_ok hp hroom hf.1 hf.2.1
  | genbump k g =>
    obtain ⟨rooth, rfl⟩ := hf
    exact applyGenbump_ok rooth g hp hroom hclean
  | del k => exact ⟨_, rfl, hp.withRecs _ _, rfl, rfl, rfl, rfl, rfl, ⟨[], by simp [applyDel]⟩, by simp [applyDel]⟩
  | mark seq => exact ⟨_, rfl, hp.withRecs _ _, rfl, rfl, rfl, rfl, rfl, ⟨[], by simp⟩, by simp⟩
  | sealed ext => exact ⟨_, rfl, hp, rfl, rfl, rfl, rfl, rfl, ⟨[], by simp⟩, by simp⟩

theorem replayFrom_ok (hp : Placed s) (hclean : GenClean s.recs) (hfs : ∀ f ∈ fs, f.Plain)
    (hroom : s.grid.extentCount + fs.length * storeGrowExtents ≤ 2 ^ 40) (i : Nat) :
    ∃ t, s.replayFrom [] i fs = some t ∧ Replayed s t fs := by
  induction fs generalizing s i with
  | nil => exact ⟨s, rfl, .nil hp⟩
  | cons f fs ih =>
    rw [List.length_cons, Nat.add_one_mul] at hroom
    obtain ⟨t, hstep, hr⟩ := replayStep_ok hp (by omega) hclean (hfs f List.mem_cons_self)
    have hcount : t.grid.extentCount ≤ s.grid.extentCount + storeGrowExtents := by simpa using hr.extents
    have hclean' : GenClean t.recs := hr.recs ▸ hclean.onRecs (hfs f List.mem_cons_self)
    obtain ⟨u, hrest, hr'⟩ := ih hr.placed hclean' (fun g hg => hfs g (List.mem_cons_of_mem _ hg)) (by omega) (i + 1)
    exact ⟨u, by simp [replayFrom, hstep, hrest], hr.trans hr'⟩

theorem replayFrom_installable {i : Nat} (h : s.replayFrom [] i fs = some t) (hr : Frame.put r ∈ fs) :
    Installable r.encodedLen := by
  induction fs generalizing s i with
  | nil => cases hr
  | cons f fs ih =>
    simp only [replayFrom, List.contains_nil, Bool.false_eq_true, if_false] at h
    split at h
    · cases h
    next s' hstep =>
      rcases List.mem_cons.mp hr with heq | hmem
      · by_contra hnot
        simp [← heq, replayStep, applyPut, place, appendVlog_none hnot] at hstep
      · exact ih h hmem

end Store

section Tail

variable {a b fs : List Frame}

theorem truncateTail_append_mark (h : b.any Frame.isMark = true) : truncateTail (a ++ b) = a ++ truncateTail b := by
  induction a with
  | nil => rfl
  | cons f a ih => simp [truncateTail, List.any_append, h, ih]

theorem truncateTail_sublist (fs : List Frame) : (truncateTail fs).Sublist fs := by
  induction fs with
  | nil => exact .slnil
  | cons f fs ih =>
    rw [truncateTail]
    split
    · exact ih.cons_cons f
    · exact ih.cons f

/-- Past the last mark only the generation bumps stay. -/
theorem truncateTail_append_unmarked (h : ∀ f ∈ b, f.isMark = false) :
    truncateTail (a ++ b) = truncateTail a ++ b.filter Frame.isGenbump := by
  have hmark : b.any Frame.isMark = false := List.any_eq_false.mpr fun f hf => by simp [h f hf]
  have hb : truncateTail b = b.filter Frame.isGenbump := by
    clear hmark
    induction b with
    | nil => rfl
    | cons f b ih =>
      obtain ⟨hf, hb⟩ := List.forall_mem_cons.mp h
      have hrest : b.any Frame.isMark = false := List.any_eq_false.mpr fun g hg => by simp [hb g hg]
      simp only [truncateTail, hf, hrest, Bool.false_or, List.filter_cons, ih hb]
  induction a with
  | nil => simpa [truncateTail] using hb
  | cons f a ih =>
    simp only [List.cons_append, truncateTail, List.any_append, hmark, Bool.or_false, ih]
    split <;> simp

theorem truncateTail_marked (seq : Int) : truncateTail (a ++ [.mark seq]) = a ++ [.mark seq] := by
  rw [truncateTail_append_mark (by simp [Frame.isMark])]
  rfl

theorem tailOps_append : tailOps (a ++ b) = tailOps a ++ tailOps b := List.filter_append ..

theorem tailOps_sealed (exts : List Nat) : tailOps (exts.map Frame.sealed) = [] := by
  simp [tailOps, Frame.sealedExt]

theorem tailOps_eq_self (h : ∀ f ∈ fs, f.sealedExt = none) : tailOps fs = fs := by
  rw [tailOps, List.filter_eq_self]
  intro f hf
  simp [h f hf]

end Tail

section NoRoots

variable {c : RootCodec} {w : Walk} {ops fs : List Frame}

/-- Not a root image. -/
def Frame.Bare (f : Frame) : Prop := ∀ r, f = .put r → r.rtype ≠ .root

theorem Frame.Plain.bare {f : Frame} (h : f.Plain) : f.Bare := by
  rintro r rfl
  exact h.2.2.1

def Walk.Rootless (w : Walk) : Prop := ∀ k r, w.rootRecs k ≠ some (some r)

theorem Walk.Rootless.op {f : Frame} {i : Nat} {lookup : Key → Option Record} (hw : w.Rootless) (hf : f.Bare) :
    (w.op c lookup i f).Rootless := by
  cases f with
  | mark seq => exact hw
  | genbump k g => exact hw
  | sealed ext => exact hw
  | del k =>
    simp only [Walk.op, Walk.delOp]
    split
    · exact hw
    split
    · exact hw
    split
    · exact hw
    · intro k' r h
      dsimp only at h
      rw [Function.update_apply] at h
      split at h
      · cases h
      · exact hw k' r h
  | put r =>
    have hroot := hf r rfl
    simp only [Walk.op, Walk.putOp]
    split
    · exact hw
    cases hr : r.rtype with
    | root => exact absurd hr hroot
    | seg =>
      simp only [Walk.segOp]
      split
      · split <;> exact hw
      · split <;> exact hw
    | fence =>
      dsimp only
      split
      · exact hw
      · split <;> exact hw
    | string => exact hw
    | tomb => exact hw
    | metadata => exact hw

theorem Walk.Rootless.overFrom {lookup : Key → Option Record} (hw : w.Rootless) (hfs : ∀ f ∈ fs, f.Bare) (i : Nat) :
    (w.overFrom c lookup i fs).Rootless := by
  induction fs generalizing w i with
  | nil => exact hw
  | cons f fs ih =>
    exact ih (hw.op (hfs f List.mem_cons_self)) (fun g hg => hfs g (List.mem_cons_of_mem _ hg)) (i + 1)

theorem settle_rootless (hw : w.Rootless) (acc : Settled) (rooth : Nat) :
    settle c (fun _ => none) ops w acc rooth = some acc := by
  have hnone : (planeKey (fun _ => none) w rooth).bind (planeRoot (fun _ => none) w) = none := by
    cases planeKey (fun _ => none) w rooth with
    | none => rfl
    | some ukey =>
      simp only [Option.bind_some, planeRoot]
      split
      next r hr =>
        cases r with
        | none => rfl
        | some r => exact absurd hr (hw ukey r)
      · rfl
  rw [settle, hnone]

theorem reconcileTail_rootless (hfs : ∀ f ∈ fs, f.Bare) :
    reconcileTail c (fun _ => none) fs = some ⟨[], []⟩ := by
  have hw : (startWalk.overFrom c (fun _ => none) 0 fs).Rootless :=
    Walk.Rootless.overFrom (by intro k r h; cases h) hfs 0
  simp only [reconcileTail]
  induction settleRooths fs (startWalk.overFrom c (fun _ => none) 0 fs) with
  | nil => rfl
  | cons rooth rest ih => rw [List.foldlM_cons, settle_rootless hw]; exact ih

end NoRoots

/-- A grid loaded from a bitmap: only free and sealed extents. -/
def Grid.Settled (g : Grid) : Prop := ∀ st ∈ g.states, st = .free ∨ st = .sealed

theorem restoreGrid_ok {g : Grid} (hg : g.Settled) (hpos : 1 ≤ g.extentCount) (exts : List Nat) :
    ∃ g', restoreGrid g exts = some g' ∧ 1 ≤ g'.extentCount ∧ g'.active = g.active := by
  induction exts generalizing g with
  | nil => exact ⟨g, rfl, hpos, rfl⟩
  | cons ext exts ih =>
    obtain ⟨g₁, hg₁⟩ : ∃ g₁, g₁ = if g.extentCount ≤ ext then g.grow (ext - g.extentCount + 1) else g := ⟨_, rfl⟩
    have hsettled : g₁.Settled := by
      rw [hg₁]
      split
      · intro st hst
        rcases List.mem_append.mp hst with h | h
        · exact hg st h
        · exact .inl (List.eq_of_mem_replicate h)
      · exact hg
    have hcount : 1 ≤ g₁.extentCount ∧ g₁.active = g.active := by
      rw [hg₁]
      split
      · exact ⟨by rw [Grid.extentCount_grow]; omega, rfl⟩
      · exact ⟨hpos, rfl⟩
    have hstate : g₁.state ext = .free ∨ g₁.state ext = .sealed := by
      rw [Grid.state, List.getD_eq_getElem?_getD]
      cases h : g₁.states[ext]? with
      | none => exact .inr rfl
      | some st => exact hsettled st (List.mem_of_getElem? h)
    obtain ⟨g', hrest, hpos', hactive⟩ := ih (g := { g₁ with states := g₁.states.set ext .sealed })
      (fun st hst => (List.mem_or_eq_of_mem_set hst).elim (hsettled st) .inr)
      (by simpa [Grid.extentCount] using hcount.1)
    refine ⟨g', ?_, hpos', hactive.trans hcount.2⟩
    rw [restoreGrid, ← hg₁, if_pos hstate]
    exact hrest

theorem newGrid_settled (n : Nat) : (newGrid n).Settled := by
  intro st hst
  rcases List.mem_or_eq_of_mem_set hst with h | h
  · exact .inl (List.eq_of_mem_replicate h)
  · exact .inr h

theorem newGrid_extentCount (n : Nat) : (newGrid n).extentCount = n := by simp [newGrid, Grid.extentCount]

theorem placed_idle {w : Wal} {g : Grid} {recs : Key → Option Record} {hw : Int} {broken : Bool}
    (hseg : Frame.len (.sealed 0) ≤ w.segSize) (hpos : 1 ≤ g.extentCount) (hactive : g.active = fun _ => none) :
    Placed ⟨w, g, idleCursor, idleCursor, none, 0, 0, recs, hw, broken⟩ :=
  ⟨hpos, hseg, by simp [hactive, idleCursor], by simp [hactive, idleCursor], by simp [idleCursor], by simp [idleCursor],
    by simp [idleCursor], fun _ h => nomatch h⟩

/-- The extents of a reopened grid, before anything is re-applied. -/
def restoredExtents (fs : List Frame) : Nat :=
  (restoreGrid (newGrid storeInitialExtents) (fs.filterMap Frame.sealedExt)).elim 0 Grid.extentCount

theorem openStore_ok (c : RootCodec) {segSize : Nat} (fs : List Frame) (hseg : Frame.len (.sealed 0) ≤ segSize)
    (hfs : ∀ f ∈ truncateTail (tailOps fs), f.Plain)
    (hroom : restoredExtents fs + (truncateTail (tailOps fs)).length * storeGrowExtents ≤ 2 ^ 40) :
    ∃ t, openStore c segSize fs = some t ∧ t.wal.log = fs ∧ t.wal.tail = [] ∧ t.wal.segSize = segSize ∧
      t.broken = false ∧ Placed t ∧ (∃ exts : List Nat, t.wal.buf = exts.map Frame.sealed) ∧
      t.recs = (truncateTail (tailOps fs)).foldl Frame.onRecs (fun _ => none) := by
  obtain ⟨g, hgrid, hpos, hactive⟩ := restoreGrid_ok (newGrid_settled storeInitialExtents)
    (by rw [newGrid_extentCount]; decide) (fs.filterMap Frame.sealedExt)
  obtain ⟨s, hs⟩ : ∃ s : Store, s = ⟨⟨segSize, fs, [], []⟩, g, idleCursor, idleCursor, none, 0, 0, fun _ => none, 0, false⟩ :=
    ⟨_, rfl⟩
  have hplaced : Placed s := hs ▸ placed_idle hseg hpos hactive
  have hrecs : s.recs = fun _ => none := by rw [hs]
  have hroom' : s.grid.extentCount + (truncateTail (tailOps fs)).length * storeGrowExtents ≤ 2 ^ 40 := by
    rw [restoredExtents, hgrid] at hroom
    rw [hs]
    exact hroom
  obtain ⟨t, hreplay, hr⟩ := Store.replayFrom_ok hplaced (by rw [hrecs]; exact fun _ _ h => nomatch h) hfs hroom' 0
  refine ⟨t, ?_, ?_, ?_, ?_, ?_, hr.placed, ?_, hrecs ▸ hr.recs⟩
  · have hrestore : restoreStore segSize fs = some s := by rw [restoreStore, hgrid, hs]; rfl
    simp only [openStore, hrestore, hrecs, reconcileTail_rootless fun f hf => (hfs f hf).bare, List.append_nil]
    exact hreplay
  · rw [hr.log, hs]
  · rw [hr.tail, hs]
  · rw [hr.segSize, hs]
  · rw [hr.broken, hs]
  · obtain ⟨exts, hbuf⟩ := hr.buf
    exact ⟨exts, by rw [hbuf, hs]; rfl⟩

/-- A store that opens on a tail without roots found room for every record of it. -/
theorem openStore_installable {c : RootCodec} {segSize : Nat} {fs : List Frame} {t : Store}
    (h : openStore c segSize fs = some t) (hfs : ∀ f ∈ truncateTail (tailOps fs), f.Bare) {r : Record}
    (hr : Frame.put r ∈ truncateTail (tailOps fs)) : Installable r.encodedLen := by
  unfold openStore at h
  split at h
  · cases h
  next s hs =>
    obtain ⟨g, -, rfl⟩ := Option.map_eq_some_iff.mp hs
    simp only [reconcileTail_rootless hfs, List.append_nil] at h
    exact Store.replayFrom_installable h hr

end Aki.Sqlo1b
