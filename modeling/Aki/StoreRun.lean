import Aki.StoreReplaySpec

namespace Aki.Sqlo1b

inductive Event
  | apply (io : CallIO) (b : Batch)
  /-- The crash keeps the synced frames and the first `kept` of those past them, then the store is opened. -/
  | crash (b : Option Batch) (kept : Nat)

def Op.frame : Op → Frame
  | .put r => .put (seamRecord r)
  | .del k => .del k

def Bump.frame (b : Bump) : Frame := .genbump (genKey b.rooth) b.newGen

namespace Batch

/-- No collection root, nothing under a reserved key. -/
def Rootless (b : Batch) : Prop := ∀ r, Op.put r ∈ b.ops → r.root = false ∧ subkind r.key ≠ some 0

def Fits (b : Batch) : Prop := ∀ r, Op.put r ∈ b.ops → Installable (seamRecord r).encodedLen

def frames (b : Batch) : List Frame := b.ops.map Op.frame ++ b.bumps.map Bump.frame ++ [.mark b.seq]

end Batch

/-- The map the caller has in mind: plain records by key. -/
def plainView (m : Key → Option Record) (k : Key) : Option Record := (m k).filter fun r => decide (r.rtype = .string)

def Op.onPlain (m : Key → Option Record) : Op → Key → Option Record
  | .put r => Function.update m r.key (some (seamRecord r) |>.filter fun x => decide (x.rtype = .string))
  | .del k => Function.update m k none

def Batch.onPlain (m : Key → Option Record) (b : Batch) : Key → Option Record := b.ops.foldl Op.onPlain m

section Step

variable (c : RootCodec)

namespace Store

/-- `none`: the store cannot be opened again. -/
def step (s : Store) : Event → Option Store
  | .apply io b => some (s.applyBatch c io b).1
  | .crash b kept => openStore c s.wal.segSize (s.wal.log ++ (s.unsynced c b).take kept)

def run (s : Store) (h : List Event) : Option Store := h.foldlM (step c) s

/-- The batches an event makes part of the log: the one a call returned nil for (a batch at or below the high-water
mark went in before), and the one in flight at a crash when its mark is in the sidecar. -/
def committed (s : Store) : Event → List Batch
  | .apply io b => if (s.applyBatch c io b).2 = .ok ∧ s.hw < b.seq then [b] else []
  | .crash none _ => []
  | .crash (some b) kept => if (s.launch c b).isSome ∧ (s.unsynced c (some b)).length ≤ kept then [b] else []

def history (s : Store) : List Event → List Batch
  | [] => []
  | e :: es => s.committed c e ++ ((s.step c e).elim [] fun s' => s'.history es)

end Store

end Step

section Plan

variable {c : RootCodec} {b : Batch} {ps : List Planned}

theorem mapM_eq_map {α β : Type} {f : α → Option β} {g : α → β} {l : List α} {out : List β}
    (hf : ∀ x ∈ l, ∀ y, f x = some y → y = g x) (h : l.mapM f = some out) :
    out = l.map g ∧ ∀ x ∈ l, f x = some (g x) := by
  induction l generalizing out with
  | nil => simp_all
  | cons x l ih =>
    rw [List.mapM_cons] at h
    obtain ⟨y, hy, h⟩ := Option.bind_eq_some_iff.mp h
    obtain ⟨ys, hys, h⟩ := Option.bind_eq_some_iff.mp h
    obtain ⟨rfl, hrest⟩ := ih (fun z hz => hf z (List.mem_cons_of_mem _ hz)) hys
    have hx := hf x List.mem_cons_self y hy
    subst hx
    exact ⟨(Option.some.inj h).symm, List.forall_mem_cons.mpr ⟨hy, hrest⟩⟩

def Op.planned : Op → Planned
  | .put r => .put (seamRecord r)
  | .del k => .del k

def Batch.planned (b : Batch) : List Planned := b.ops.map Op.planned ++ b.bumps.map Planned.bump ++ [.mark b.seq]

theorem seamRecord_rtype {r : SeamRecord} (h : r.root = false) :
    (seamRecord r).rtype ≠ .root ∧ (seamRecord r).rtype ≠ .metadata := by
  simp only [seamRecord, h, Bool.false_eq_true, if_false]
  split
  · exact ⟨nofun, nofun⟩
  split <;> exact ⟨nofun, nofun⟩

theorem planOp_rootless {op : Op} {out : List Planned} (hroot : ∀ r, op = .put r → r.root = false)
    (h : planOp c op = some out) :
    out = [op.planned] ∧ ∀ r, op = .put r → (seamRecord r).validateEnvelope = true := by
  cases op with
  | del k =>
    rw [planOp] at h
    split at h
    · cases h
    · exact ⟨(Option.some.inj h).symm, nofun⟩
  | put r =>
    have hr := (seamRecord_rtype (hroot r rfl)).1
    rw [planOp, planPut] at h
    split at h
    · cases h
    simp only [hr, if_false] at h
    split at h
    next hvalid =>
      refine ⟨(Option.some.inj h).symm, ?_⟩
      intro r' hr'
      cases hr'
      exact hvalid
    · cases h

/-- A rootless batch is planned op by op, and every record in it has a valid envelope. -/
theorem plan_rootless (hb : b.Rootless) (h : plan c b = some ps) :
    ps = b.planned ∧ ∀ r, Op.put r ∈ b.ops → (seamRecord r).validateEnvelope = true := by
  unfold plan at h
  split at h
  next ops bumps hops hbumps =>
    have hroot (op : Op) (hop : op ∈ b.ops) : ∀ r, op = .put r → r.root = false := by
      intro r hr
      exact (hb r (hr ▸ hop)).1
    obtain ⟨rfl, hplan⟩ := mapM_eq_map (g := fun op => [op.planned])
      (fun op hop out hout => (planOp_rootless (hroot op hop) hout).1) hops
    obtain ⟨rfl, -⟩ := mapM_eq_map (g := Planned.bump)
      (fun bp _ out hout => by
        rw [planBump] at hout
        split at hout
        · cases hout
        · exact (Option.some.inj hout).symm) hbumps
    refine ⟨?_, fun r hr => (planOp_rootless (hroot _ hr) (hplan _ hr)).2 r rfl⟩
    rw [← Option.some.inj h, ← List.flatMap_def, ← List.map_eq_flatMap, Batch.planned]
  · cases h

theorem frames_of_plan : b.planned.filterMap Planned.frame? = b.frames := by
  have hops : (b.ops.map Op.planned).filterMap Planned.frame? = b.ops.map Op.frame := by
    rw [List.filterMap_map, ← List.filterMap_eq_map]
    exact List.filterMap_congr fun op _ => by cases op <;> rfl
  have hbumps : (b.bumps.map Planned.bump).filterMap Planned.frame? = b.bumps.map Bump.frame := by
    rw [List.filterMap_map, ← List.filterMap_eq_map]
    rfl
  simp only [Batch.planned, List.filterMap_append, hops, hbumps, Batch.frames]
  rfl

theorem Batch.frames_plain (hb : b.Rootless) (hfits : b.Fits)
    (hvalid : ∀ r, Op.put r ∈ b.ops → (seamRecord r).validateEnvelope = true) : ∀ f ∈ b.frames, f.Plain := by
  intro f hf
  simp only [Batch.frames, List.mem_append, List.mem_map, List.mem_singleton] at hf
  rcases hf with (⟨op, hop, rfl⟩ | ⟨bp, -, rfl⟩) | rfl
  · cases op with
    | put r => exact ⟨hvalid r hop, hfits r hop, (seamRecord_rtype (hb r hop).1).1, (seamRecord_rtype (hb r hop).1).2, (hb r hop).2⟩
    | del k => trivial
  · exact ⟨bp.rooth, rfl⟩
  · trivial

theorem Batch.frames_notSealed : ∀ f ∈ b.frames, f.sealedExt = none := by
  intro f hf
  simp only [Batch.frames, List.mem_append, List.mem_map, List.mem_singleton] at hf
  rcases hf with (⟨op, -, rfl⟩ | ⟨bp, -, rfl⟩) | rfl
  · cases op <;> rfl
  · rfl
  · rfl

def planFrames (c : RootCodec) (b : Batch) : List Frame := ((plan c b).getD []).filterMap Planned.frame?

theorem planFrames_rootless (hb : b.Rootless) : plan c b = none ∧ planFrames c b = [] ∨
    plan c b = some b.planned ∧ planFrames c b = b.frames ∧ ∀ r, Op.put r ∈ b.ops → (seamRecord r).validateEnvelope = true := by
  cases hplan : plan c b with
  | none => exact .inl ⟨rfl, by rw [planFrames, hplan]; rfl⟩
  | some ps =>
    obtain ⟨rfl, hvalid⟩ := plan_rootless hb hplan
    exact .inr ⟨rfl, by rw [planFrames, hplan, Option.getD_some, frames_of_plan], hvalid⟩

/-- A plan ends with the mark, so it has a frame. -/
theorem plan_frames_ne_nil (h : plan c b = some ps) : ps.filterMap Planned.frame? ≠ [] := by
  unfold plan at h
  split at h
  · rw [← Option.some.inj h, List.filterMap_append]
    exact List.append_ne_nil_of_right_ne_nil _ (by simp [Planned.frame?])
  · cases h

theorem Wal.appendAll_spec (fs : List Frame) (w : Wal) : ∃ n, (w.appendAll fs).1 = { w with buf := w.buf ++ fs.take n } ∧
    ((w.appendAll fs).2 = true → fs.take n = fs) ∧ (n = 0 → ∀ f ∈ fs.head?, w.segSize < f.len) := by
  induction fs generalizing w with
  | nil => exact ⟨0, by simp [Wal.appendAll], fun _ => rfl, by simp⟩
  | cons f fs ih =>
    rw [Wal.appendAll, Wal.append]
    split
    next hw =>
      split at hw
      next hlen => exact ⟨0, by simp, fun h => (Bool.false_ne_true h).elim, by simpa using hlen⟩
      next => cases hw
    next w' hw =>
      split at hw
      next => cases hw
      next =>
        obtain rfl := Option.some.inj hw
        obtain ⟨n, h1, h2, -⟩ := ih { w with buf := w.buf ++ [f] }
        exact ⟨n + 1, by simp [h1], fun h => by simp [h2 h], fun h => absurd h (Nat.succ_ne_zero n)⟩

theorem Wal.flush_some {w w' : Wal} {writes : Bool} (h : w.flush writes = some w') :
    w' = { w with tail := w.tail ++ w.buf, buf := [] } ∧ w.flush true = some w' := by
  unfold Wal.flush at h ⊢
  split at h
  next hbuf =>
    obtain rfl := Option.some.inj h
    exact ⟨by rw [hbuf, List.append_nil, ← hbuf], if_pos hbuf⟩
  next hbuf =>
    split at h
    · cases h
    next hlen =>
      split at h
      · rw [if_neg hbuf, if_neg hlen, if_pos rfl]
        exact ⟨(Option.some.inj h).symm, h⟩
      · cases h

end Plan

section Install

variable {s t : Store} {ps : List Planned} {rs : List Record}

theorem Store.placeAll_ok (rs : List Record) (hp : Placed s) (hrs : ∀ r ∈ rs, r.validateEnvelope = true ∧ Installable r.encodedLen)
    (hroom : s.grid.extentCount + rs.length * storeGrowExtents ≤ 2 ^ 40) :
    ∃ t, s.placeAll rs = some t ∧ Placed t ∧ SameData s t ∧
      t.grid.extentCount ≤ s.grid.extentCount + rs.length * storeGrowExtents := by
  induction rs generalizing s with
  | nil => exact ⟨s, rfl, hp, .refl, by simp⟩
  | cons r rs ih =>
    rw [List.length_cons, Nat.add_one_mul] at hroom ⊢
    obtain ⟨hvalid, hfit⟩ := hrs r List.mem_cons_self
    obtain ⟨u, hplace, hu, hdata, hcount⟩ := Store.place_ok hp (by omega) hvalid hfit
    obtain ⟨t, hrest, ht, hdata', hcount'⟩ := ih hu (fun x hx => hrs x (List.mem_cons_of_mem _ hx)) (by omega)
    exact ⟨t, by simp [placeAll, hplace, hrest], ht, hdata.trans hdata', by omega⟩

theorem Store.placeAll_installable (h : s.placeAll rs = some t) : ∀ r ∈ rs, Installable r.encodedLen := by
  induction rs generalizing s with
  | nil => nofun
  | cons r rs ih =>
    rw [placeAll] at h
    split at h
    · cases h
    next s' hplace =>
      refine List.forall_mem_cons.mpr ⟨?_, ih h⟩
      by_contra hnot
      simp [place, appendVlog_none hnot] at hplace

theorem Store.indexAll_ok (ps : List Planned) (hp : Placed s) (hclean : GenClean s.recs) (hps : ∀ p ∈ ps, ∃ f, p.frame? = some f ∧ f.Plain)
    (hroom : s.grid.extentCount + ps.length * storeGrowExtents ≤ 2 ^ 40) :
    ∃ t, s.indexAll ps = some t ∧ Replayed s t (ps.filterMap Planned.frame?) := by
  induction ps generalizing s with
  | nil => exact ⟨s, rfl, .nil hp⟩
  | cons p ps ih =>
    rw [List.length_cons, Nat.add_one_mul] at hroom
    obtain ⟨f, hf, hplain⟩ := hps p List.mem_cons_self
    have hstep : ∃ u, s.indexStep p = some u ∧ Replayed s u [f] := by
      cases p with
      | put r =>
        obtain rfl := Option.some.inj hf
        exact ⟨_, rfl, hp.withRecs _ _, rfl, rfl, rfl, rfl, rfl, ⟨[], by simp [setRec]⟩, by simp [setRec]⟩
      | elided r => cases hf
      | del k =>
        obtain rfl := Option.some.inj hf
        exact ⟨_, rfl, hp.withRecs _ _, rfl, rfl, rfl, rfl, rfl, ⟨[], by simp [applyDel]⟩, by simp [applyDel]⟩
      | bump b =>
        obtain rfl := Option.some.inj hf
        exact applyGenbump_ok b.rooth b.newGen hp (by omega) hclean
      | mark seq =>
        obtain rfl := Option.some.inj hf
        exact ⟨s, rfl, hp, rfl, rfl, rfl, rfl, rfl, ⟨[], by simp⟩, by simp⟩
    obtain ⟨u, hu, hr⟩ := hstep
    have hcount : u.grid.extentCount ≤ s.grid.extentCount + storeGrowExtents := by simpa using hr.extents
    have hclean' : GenClean u.recs := hr.recs ▸ hclean.onRecs hplain
    obtain ⟨t, ht, hr'⟩ := ih hr.placed hclean' (fun q hq => hps q (List.mem_cons_of_mem _ hq)) (by omega)
    refine ⟨t, by simp [indexAll, hu, ht], ?_⟩
    simp only [List.filterMap_cons, hf]
    exact hr.trans hr'

end Install

theorem foldl_genClean {m : Key → Option Record} {fs : List Frame} (hm : GenClean m) (hfs : ∀ f ∈ fs, f.Plain) :
    GenClean (fs.foldl Frame.onRecs m) := by
  induction fs generalizing m with
  | nil => exact hm
  | cons f fs ih =>
    exact ih (hm.onRecs (hfs f List.mem_cons_self)) (fun g hg => hfs g (List.mem_cons_of_mem _ hg))

section PlainView

variable {m : Key → Option Record} {f : Frame} {b : Batch}

theorem plainView_update (k : Key) (v : Option Record) :
    plainView (Function.update m k v) = Function.update (plainView m) k (v.filter fun r => decide (r.rtype = .string)) := by
  funext x
  by_cases h : x = k
  · subst h
    simp [plainView]
  · simp [plainView, Function.update_of_ne h]

theorem plainView_genbump (hm : GenClean m) (rooth g : Nat) :
    plainView ((Frame.genbump (genKey rooth) g).onRecs m) = plainView m := by
  rw [Frame.onRecs]
  split
  · rfl
  · rw [plainView_update, Function.update_eq_iff]
    refine ⟨?_, fun _ _ => rfl⟩
    cases hold : m (genKey rooth) with
    | none => simp [plainView, hold, genRecord]
    | some r =>
      obtain ⟨g', hg'⟩ := Option.isSome_iff_exists.mp (hm rooth r hold)
      have hmeta : r.rtype = .metadata := by
        by_contra hne
        simp [genOf, hne] at hg'
      simp [plainView, hold, genRecord, Option.filter, hmeta]

theorem plainView_quiet (hm : GenClean m) (fs : List Frame) (hfs : ∀ f ∈ fs, f.Plain ∧ f.isData = false) :
    plainView (fs.foldl Frame.onRecs m) = plainView m := by
  induction fs generalizing m with
  | nil => rfl
  | cons f fs ih =>
    obtain ⟨⟨hplain, hdata⟩, hrest⟩ := List.forall_mem_cons.mp hfs
    rw [List.foldl_cons, ih (hm.onRecs hplain) hrest]
    cases f with
    | genbump k g =>
      obtain ⟨rooth, rfl⟩ := hplain
      exact plainView_genbump hm rooth g
    | put r => cases hdata
    | del k => cases hdata
    | mark seq => rfl
    | sealed ext => rfl

theorem plainView_ops (ops : List Op) :
    plainView ((ops.map Op.frame).foldl Frame.onRecs m) = ops.foldl Op.onPlain (plainView m) := by
  induction ops generalizing m with
  | nil => rfl
  | cons op ops ih =>
    rw [List.map_cons, List.foldl_cons, List.foldl_cons, ih]
    congr 1
    cases op with
    | put r => exact plainView_update ..
    | del k => exact plainView_update ..

theorem Batch.frames_eq (b : Batch) : ∃ rest, b.frames = b.ops.map Op.frame ++ rest ∧ ∀ f ∈ rest, f.isData = false := by
  refine ⟨b.bumps.map Bump.frame ++ [.mark b.seq], by rw [Batch.frames, List.append_assoc], fun f hf => ?_⟩
  rcases List.mem_append.mp hf with hf | hf
  · obtain ⟨bp, -, rfl⟩ := List.mem_map.mp hf
    rfl
  · rw [List.mem_singleton.mp hf]
    rfl

theorem plainView_take (n : Nat) (hm : GenClean m) (hb : ∀ f ∈ b.frames, f.Plain) :
    plainView ((b.frames.take n).foldl Frame.onRecs m) = (b.ops.take n).foldl Op.onPlain (plainView m) := by
  obtain ⟨rest, hframes, hrest⟩ := b.frames_eq
  rw [hframes] at hb ⊢
  rw [List.take_append, List.foldl_append, ← List.map_take, plainView_quiet, plainView_ops]
  · refine foldl_genClean hm fun f hf => hb f (List.mem_append_left _ ?_)
    rw [List.map_take] at hf
    exact List.mem_of_mem_take hf
  · intro f hf
    have hf := List.mem_of_mem_take hf
    exact ⟨hb f (List.mem_append_right _ hf), hrest f hf⟩

theorem plainView_batch (hm : GenClean m) (hb : ∀ f ∈ b.frames, f.Plain) :
    plainView (b.frames.foldl Frame.onRecs m) = b.onPlain (plainView m) := by
  have h := plainView_take b.frames.length hm hb
  have hlen : b.ops.length ≤ b.frames.length := by simp [Batch.frames]
  rwa [List.take_length, List.take_of_length_le hlen] at h

end PlainView

section Call

variable {c : RootCodec} {s t : Store} {b : Batch} {io : CallIO} {ps : List Planned}

/-- Space for every extent the call may open, under the 40 bits of an extent number. -/
def Batch.Room (s : Store) (b : Batch) : Prop :=
  s.grid.extentCount + (2 * b.ops.length + b.bumps.length + 1) * storeGrowExtents ≤ 2 ^ 40

theorem planned_records_mem {r : Record} (hr : r ∈ b.planned.filterMap Planned.record?) :
    ∃ x, Op.put x ∈ b.ops ∧ r = seamRecord x := by
  obtain ⟨p, hp, hrec⟩ := List.mem_filterMap.mp hr
  simp only [Batch.planned, List.mem_append, List.mem_map, List.mem_singleton] at hp
  rcases hp with (⟨op, hop, rfl⟩ | ⟨bp, -, rfl⟩) | rfl
  · cases op with
    | put x => exact ⟨x, hop, (Option.some.inj hrec).symm⟩
    | del k => cases hrec
  · cases hrec
  · cases hrec

theorem planned_record_of_put {x : SeamRecord} (hx : Op.put x ∈ b.ops) :
    seamRecord x ∈ b.planned.filterMap Planned.record? := by
  refine List.mem_filterMap.mpr ⟨.put (seamRecord x), ?_, rfl⟩
  simp only [Batch.planned, List.mem_append]
  exact .inl (.inl (List.mem_map.mpr ⟨_, hx, rfl⟩))

theorem planned_records_length : (b.planned.filterMap Planned.record?).length ≤ b.ops.length := by
  have hbumps : (b.bumps.map Planned.bump).filterMap Planned.record? = [] :=
    List.filterMap_eq_nil_iff.mpr fun p hp => by
      obtain ⟨bp, -, rfl⟩ := List.mem_map.mp hp
      rfl
  rw [Batch.planned, List.filterMap_append, List.filterMap_append, hbumps, List.append_nil]
  show (_ ++ []).length ≤ _
  rw [List.append_nil]
  exact Nat.le_trans (List.length_filterMap_le ..) (by simp)

theorem planned_frame {p : Planned} (hp : p ∈ b.planned) : ∃ f, p.frame? = some f ∧ f ∈ b.frames := by
  have hframe : ∃ f, p.frame? = some f := by
    simp only [Batch.planned, List.mem_append, List.mem_map, List.mem_singleton] at hp
    rcases hp with (⟨op, -, rfl⟩ | ⟨bp, -, rfl⟩) | rfl
    · cases op <;> exact ⟨_, rfl⟩
    · exact ⟨_, rfl⟩
    · exact ⟨_, rfl⟩
  obtain ⟨f, hf⟩ := hframe
  exact ⟨f, hf, by rw [← frames_of_plan]; exact List.mem_filterMap.mpr ⟨p, hp, hf⟩⟩

/-- Everything appended so far that is not a seal, on disk or not. -/
def Store.appended (s : Store) : List Frame := tailOps (s.wal.log ++ (s.wal.tail ++ s.wal.buf))

/-- A store whose sidecar replays: every frame appended to it can be installed. -/
structure Sane (s : Store) : Prop where
  notBroken : s.broken = false
  placed : Placed s
  genClean : GenClean s.recs
  plain : ∀ f ∈ s.appended, f.Plain

structure Flushed (segSize : Nat) (fs : List Frame) (t : Store) : Prop where
  segSize : t.wal.segSize = segSize
  tail : t.wal.tail = []
  buf : ∃ exts : List Nat, t.wal.buf = exts.map Frame.sealed
  log : tailOps t.wal.log = fs

theorem Flushed.appended {segSize : Nat} {fs : List Frame} (h : Flushed segSize fs t) : t.appended = fs := by
  obtain ⟨exts, hbuf⟩ := h.buf
  rw [Store.appended, h.tail, hbuf, List.nil_append, tailOps_append, tailOps_sealed, List.append_nil, h.log]

theorem sane_createStore {segSize : Nat} (hseg : Frame.len (.sealed 0) ≤ segSize) : Sane (createStore segSize) :=
  ⟨rfl, placed_idle hseg (by rw [newGrid_extentCount]; decide) rfl, fun _ _ h => (Option.some_ne_none _ h.symm).elim,
    fun _ h => absurd h List.not_mem_nil⟩

def synced (s : Store) (b : Batch) : Store :=
  { s with wal := ⟨s.wal.segSize, s.wal.log ++ (s.wal.tail ++ s.wal.buf ++ b.frames), [], []⟩ }

theorem tailOps_synced : tailOps (synced s b).wal.log = s.appended ++ b.frames := by
  show tailOps (s.wal.log ++ (s.wal.tail ++ s.wal.buf ++ b.frames)) = _
  rw [← List.append_assoc, tailOps_append, tailOps_eq_self Batch.frames_notSealed]
  rfl

theorem truncateTail_batch (fs : List Frame) : truncateTail (fs ++ b.frames) = fs ++ b.frames := by
  rw [Batch.frames, ← List.append_assoc, truncateTail_marked]

theorem install_ok (hs : Sane s) (hplain : ∀ f ∈ b.frames, f.Plain)
    (hvalid : ∀ r, Op.put r ∈ b.ops → (seamRecord r).validateEnvelope = true) (hfits : b.Fits) (hroom : b.Room s) :
    ∃ t, (synced s b).install b.planned = some t ∧ Sane { t with hw := b.seq } ∧
      Flushed s.wal.segSize (s.appended ++ b.frames) t ∧ t.recs = b.frames.foldl Frame.onRecs s.recs := by
  have hplaced : Placed (synced s b) := ⟨hs.placed.extents, hs.placed.segSize, hs.placed.vlog, hs.placed.blob, hs.placed.vlogExt,
    hs.placed.blobExt, hs.placed.blobNext, hs.placed.builder⟩
  obtain ⟨n, hn⟩ : ∃ n, n = (b.planned.filterMap Planned.record?).length := ⟨_, rfl⟩
  have hlen : n ≤ b.ops.length := hn ▸ planned_records_length
  have hsplit : n * storeGrowExtents + (b.ops.length + b.bumps.length + 1) * storeGrowExtents ≤
      (2 * b.ops.length + b.bumps.length + 1) * storeGrowExtents := by
    rw [← Nat.add_mul]
    exact Nat.mul_le_mul_right _ (by omega)
  have hroom' : (synced s b).grid.extentCount + (2 * b.ops.length + b.bumps.length + 1) * storeGrowExtents ≤ 2 ^ 40 := hroom
  obtain ⟨u, hplace, hu, hdata, hcount⟩ := Store.placeAll_ok (s := synced s b)
    ((b.planned.filterMap Planned.record?).mergeSort placedBefore) hplaced
    (fun r hr => by
      obtain ⟨x, hx, rfl⟩ := planned_records_mem (List.mem_mergeSort.mp hr)
      exact ⟨hvalid x hx, hfits x hx⟩)
    (by rw [List.length_mergeSort, ← hn]; omega)
  rw [List.length_mergeSort, ← hn] at hcount
  have hplen : b.planned.length = b.ops.length + b.bumps.length + 1 := by simp [Batch.planned, Nat.add_assoc]
  obtain ⟨t, hindex, hr⟩ := Store.indexAll_ok b.planned hu
    (by rw [hdata.recs]; exact hs.genClean)
    (fun p hp => by
      obtain ⟨f, hf, hmem⟩ := planned_frame hp
      exact ⟨f, hf, hplain f hmem⟩)
    (by rw [hplen]; omega)
  rw [frames_of_plan] at hr
  have hrecs : t.recs = b.frames.foldl Frame.onRecs s.recs := hr.recs.trans (by rw [hdata.recs]; rfl)
  obtain ⟨a, ha⟩ := hdata.buf
  obtain ⟨d, hd⟩ := hr.buf
  have hflushed : Flushed s.wal.segSize (s.appended ++ b.frames) t := by
    refine ⟨hr.segSize.trans hdata.segSize, hr.tail.trans hdata.tail, ⟨a ++ d, ?_⟩, ?_⟩
    · rw [List.map_append, hd, ha]
      rfl
    · rw [hr.log, hdata.log, tailOps_synced]
  refine ⟨t, by rw [Store.install, hplace]; exact hindex, ⟨?_, hr.placed.withRecs _ _, ?_, fun f hf => ?_⟩, hflushed, hrecs⟩
  · exact (hr.broken.trans hdata.broken).trans hs.notBroken
  · show GenClean t.recs
    rw [hrecs]
    exact foldl_genClean hs.genClean hplain
  · rw [show Store.appended { t with hw := b.seq } = s.appended ++ b.frames from hflushed.appended] at hf
    exact (List.mem_append.mp hf).elim (hs.plain f) (hplain f)

/-- The call fails before its first append goes through: the store is poisoned, the context is done, an op does not encode, or the
first frame is longer than a segment. -/
def TurnedDownEarly (c : RootCodec) (io : CallIO) (s : Store) (b : Batch) : Prop :=
  s.broken = true ∨ io.stands = false ∨ plan c b = none ∨ ∃ f, (planFrames c b).head? = some f ∧ s.wal.segSize < f.len

/-- What a call turned down leaves in the sidecar: the frames in front of the refusal. -/
structure Leaves (c : RootCodec) (io : CallIO) (s : Store) (b : Batch) (w : Wal) (n : Nat) : Prop where
  segSize : w.segSize = s.wal.segSize
  log : w.log = s.wal.log
  pending : w.tail ++ w.buf = s.wal.tail ++ s.wal.buf ++ (planFrames c b).take n
  late : ¬ TurnedDownEarly c io s b → 0 < n
  failed : io = ⟨true, true, true⟩ → s.launch c b = none

/-- A call either did its work before, or was turned down touching at most the sidecar, or reached the sync. -/
theorem applyBatch_cases (c : RootCodec) (io : CallIO) (s : Store) (b : Batch) :
    (s.applyBatch c io b = (s, .ok) ∧ b.seq ≤ s.hw ∧ s.launch c b = none) ∨
    (∃ w n, s.applyBatch c io b = ({ s with wal := w }, .rejected) ∧ Leaves c io s b w n) ∨
    ∃ ps s', plan c b = some ps ∧ s.hw < b.seq ∧ io.syncs = true ∧ (s.launch c b).isSome = true ∧
      s' = ({ s with wal := ⟨s.wal.segSize, s.wal.log ++ (s.wal.tail ++ s.wal.buf ++ ps.filterMap Planned.frame?), [], []⟩ } : Store) ∧
      s.applyBatch c io b =
        (s'.install ps).elim ({ s' with broken := true }, .poisoned) fun t => ({ t with hw := b.seq }, .ok) := by
  unfold Store.applyBatch
  split
  next hbroken =>
    exact .inr (.inl ⟨s.wal, 0, rfl, rfl, rfl, by simp, fun h => (h (.inl hbroken)).elim, fun _ => by simp [Store.launch, hbroken]⟩)
  next hbroken =>
  split
  next hdone =>
    rw [Bool.not_eq_true'] at hdone
    exact .inr (.inl ⟨s.wal, 0, rfl, rfl, rfl, by simp, fun h => (h (.inr (.inl hdone))).elim, fun h => by simp [h] at hdone⟩)
  next =>
  split
  next hseq => exact .inl ⟨rfl, hseq, by simp [Store.launch, hseq]⟩
  next hseq =>
  split
  next hplan =>
    exact .inr (.inl ⟨s.wal, 0, rfl, rfl, rfl, by simp, fun h => (h (.inr (.inr (.inl hplan)))).elim,
      fun _ => by simp [Store.launch, hplan]⟩)
  next ps hplan =>
  have hframes : planFrames c b = ps.filterMap Planned.frame? := by rw [planFrames, hplan, Option.getD_some]
  have hlaunch : s.launch c b =
      let r := s.wal.appendAll (ps.filterMap Planned.frame?)
      if r.2 then r.1.flush true else none := by
    rw [Store.launch, if_neg (not_or.mpr ⟨hbroken, hseq⟩), hplan]
    dsimp only
    rcases s.wal.appendAll _ with ⟨w, _ | _⟩ <;> rfl
  obtain ⟨n, hw, hall, hzero⟩ := Wal.appendAll_spec (ps.filterMap Planned.frame?) s.wal
  -- late refusals leave a frame, since the first one fits
  have hlate : ¬ TurnedDownEarly c io s b → 0 < n := by
    intro h
    by_contra hn
    obtain ⟨f, fs, hfs⟩ := List.exists_cons_of_ne_nil (plan_frames_ne_nil hplan)
    have hhead : (ps.filterMap Planned.frame?).head? = some f := by rw [hfs]; rfl
    exact h (.inr (.inr (.inr ⟨f, by rw [hframes]; exact hhead, hzero (by omega) f hhead⟩)))
  generalize s.wal.appendAll (ps.filterMap Planned.frame?) = r at hw hall hlaunch ⊢
  obtain ⟨w, ok⟩ := r
  dsimp only at hw hall
  subst hw
  cases ok with
  | false =>
    exact .inr (.inl ⟨_, n, rfl, rfl, rfl, by rw [hframes]; simp [List.append_assoc], hlate, fun _ => hlaunch⟩)
  | true =>
    rw [hall rfl]
    dsimp only
    split
    next hflush =>
      refine .inr (.inl ⟨_, n, rfl, rfl, rfl, by rw [hframes, hall rfl]; simp [List.append_assoc], hlate, fun h => ?_⟩)
      rw [hlaunch, hall rfl]
      simpa [h] using hflush
    next w' hflush =>
      obtain ⟨rfl, htrue⟩ := Wal.flush_some hflush
      split
      next hsyncs =>
        refine .inr (.inr ⟨ps, _, hplan, by omega, hsyncs, by rw [hlaunch, hall rfl]; simp [htrue], rfl, ?_⟩)
        simp only [Wal.sync, ← List.append_assoc]
        cases Store.install _ ps <;> rfl
      next hsyncs =>
        refine .inr (.inl ⟨_, n, rfl, rfl, rfl, by rw [hframes, hall rfl]; simp [List.append_assoc], hlate, fun h => ?_⟩)
        simp [h] at hsyncs

end Call

section Steps

variable {c : RootCodec} {s : Store} {b : Batch} {io : CallIO}

theorem Sane.frames_plain (hb : b.Rootless) (hfits : b.Fits) : ∀ f ∈ planFrames c b, f.Plain := by
  rcases planFrames_rootless (c := c) hb with ⟨-, hnil⟩ | ⟨-, heq, hvalid⟩
  · rw [hnil]
    exact fun f hf => absurd hf List.not_mem_nil
  · rw [heq]
    exact b.frames_plain hb hfits hvalid

theorem Sane.apply (hs : Sane s) (c : RootCodec) (io : CallIO) (hb : b.Rootless) (hfits : b.Fits) (hroom : b.Room s) :
    (s.applyBatch c io b = (s, .ok) ∧ b.seq ≤ s.hw) ∨
    (∃ w n, s.applyBatch c io b = ({ s with wal := w }, .rejected) ∧ Leaves c io s b w n ∧ Sane { s with wal := w }) ∨
    ∃ t, s.applyBatch c io b = (t, .ok) ∧ s.hw < b.seq ∧ io.syncs = true ∧ (s.launch c b).isSome = true ∧ Sane t ∧
      Flushed s.wal.segSize (s.appended ++ b.frames) t ∧ t.recs = b.frames.foldl Frame.onRecs s.recs ∧ ∀ f ∈ b.frames, f.Plain := by
  rcases applyBatch_cases c io s b with ⟨h, hseq, -⟩ | ⟨w, n, h, hleaves⟩ | ⟨ps, s', hplan, hseq, hsyncs, hlaunch, hs', h⟩
  · exact .inl ⟨h, hseq⟩
  · refine .inr (.inl ⟨w, n, h, hleaves, hs.notBroken, ?_, hs.genClean, fun f hf => ?_⟩)
    · exact ⟨hs.placed.extents, hleaves.segSize ▸ hs.placed.segSize, hs.placed.vlog, hs.placed.blob, hs.placed.vlogExt,
        hs.placed.blobExt, hs.placed.blobNext, hs.placed.builder⟩
    · have hmem : f ∈ s.appended ++ tailOps ((planFrames c b).take n) := by
        simpa only [Store.appended, hleaves.log, hleaves.pending, ← List.append_assoc, tailOps_append] using hf
      rcases List.mem_append.mp hmem with hf | hf
      · exact hs.plain f hf
      · exact Sane.frames_plain hb hfits f (List.mem_of_mem_take (List.mem_of_mem_filter hf))
  · obtain ⟨rfl, hvalid⟩ := plan_rootless hb hplan
    have hplain := b.frames_plain hb hfits hvalid
    obtain ⟨t, hinstall, hsane, hflushed, hrecs⟩ := install_ok hs hplain hvalid hfits hroom
    rw [frames_of_plan] at hs'
    rw [show s' = synced s b from hs', hinstall] at h
    exact .inr (.inr ⟨_, h, hseq, hsyncs, hlaunch, hsane, ⟨hflushed.segSize, hflushed.tail, hflushed.buf, hflushed.log⟩, hrecs, hplain⟩)

theorem unsynced_cases (c : RootCodec) (s : Store) (b : Option Batch) (hb : ∀ x, b = some x → x.Rootless) :
    (s.unsynced c b = s.wal.tail ∧ ∀ x, b = some x → s.launch c x = none) ∨
    ∃ x, b = some x ∧ (s.launch c x).isSome = true ∧ s.unsynced c b = s.wal.tail ++ s.wal.buf ++ x.frames ∧
      ∀ r, Op.put r ∈ x.ops → (seamRecord r).validateEnvelope = true := by
  cases b with
  | none => exact .inl ⟨rfl, fun x hx => (Option.some_ne_none x hx.symm).elim⟩
  | some x =>
    cases hlaunch : s.launch c x with
    | none =>
      refine .inl ⟨by rw [Store.unsynced, Option.bind_some, hlaunch]; rfl, fun y hy => ?_⟩
      obtain rfl := Option.some.inj hy
      exact hlaunch
    | some w =>
      have hsome : (s.launch c x).isSome = true := by rw [hlaunch]; rfl
      rw [Store.unsynced, Option.bind_some, hlaunch, Option.getD_some]
      unfold Store.launch at hlaunch
      split at hlaunch
      · cases hlaunch
      split at hlaunch
      · cases hlaunch
      next ps hplan =>
        obtain ⟨rfl, hvalid⟩ := plan_rootless (hb x rfl) hplan
        refine .inr ⟨x, rfl, hsome, ?_, hvalid⟩
        obtain ⟨n, hw, hall, -⟩ := Wal.appendAll_spec (x.planned.filterMap Planned.frame?) s.wal
        generalize s.wal.appendAll (x.planned.filterMap Planned.frame?) = r at hw hall hlaunch
        obtain ⟨w', ok⟩ := r
        dsimp only at hw hall hlaunch
        subst hw
        cases ok with
        | false => cases hlaunch
        | true =>
          rw [(Wal.flush_some hlaunch).1, hall rfl, frames_of_plan]
          simp [List.append_assoc]

theorem Sane.reopen (c : RootCodec) (kept : List Frame) (hs : Sane s) (hplain : ∀ f ∈ tailOps (s.wal.log ++ kept), f.Plain)
    (hroom : restoredExtents (s.wal.log ++ kept) + (s.wal.log ++ kept).length * storeGrowExtents ≤ 2 ^ 40) :
    ∃ t, openStore c s.wal.segSize (s.wal.log ++ kept) = some t ∧ Sane t ∧
      Flushed s.wal.segSize (tailOps (s.wal.log ++ kept)) t ∧
      t.recs = (truncateTail (tailOps (s.wal.log ++ kept))).foldl Frame.onRecs fun _ => none := by
  have hcut : ∀ f ∈ truncateTail (tailOps (s.wal.log ++ kept)), f.Plain := fun f hf => hplain f ((truncateTail_sublist _).subset hf)
  have hlen : (truncateTail (tailOps (s.wal.log ++ kept))).length ≤ (s.wal.log ++ kept).length :=
    Nat.le_trans (truncateTail_sublist _).length_le (List.length_filter_le ..)
  obtain ⟨t, hopen, hlog, htail, hseg, hbroken, hplaced, hbuf, hrecs⟩ := openStore_ok c (s.wal.log ++ kept) hs.placed.segSize hcut
    (Nat.le_trans (Nat.add_le_add_left (Nat.mul_le_mul_right _ hlen) _) hroom)
  have hflushed : Flushed s.wal.segSize (tailOps (s.wal.log ++ kept)) t := ⟨hseg, htail, hbuf, by rw [hlog]⟩
  refine ⟨t, hopen, ⟨hbroken, hplaced, ?_, ?_⟩, hflushed, hrecs⟩
  · rw [hrecs]
    exact foldl_genClean (fun _ _ h => (Option.some_ne_none _ h.symm).elim) hcut
  · rw [hflushed.appended]
    exact hplain

/-- The batches are plain and fit, and there is room for the extents they may open. -/
def Event.Plain (c : RootCodec) (s : Store) : Event → Prop
  | .apply _ b => b.Rootless ∧ b.Fits ∧ b.Room s
  | .crash b kept => (∀ x, b = some x → x.Rootless ∧ x.Fits) ∧
      restoredExtents (s.wal.log ++ (s.unsynced c b).take kept) +
        (s.wal.log ++ (s.unsynced c b).take kept).length * storeGrowExtents ≤ 2 ^ 40

theorem Sane.crash {b : Option Batch} {kept : Nat} (hs : Sane s) (he : (Event.crash b kept).Plain c s) :
    ∃ t, s.step c (.crash b kept) = some t ∧ Sane t ∧
      Flushed s.wal.segSize (tailOps (s.wal.log ++ (s.unsynced c b).take kept)) t ∧
      t.recs = (truncateTail (tailOps (s.wal.log ++ (s.unsynced c b).take kept))).foldl Frame.onRecs fun _ => none := by
  obtain ⟨hb, hroom⟩ := he
  refine hs.reopen c _ (fun f hf => ?_) hroom
  rw [tailOps_append] at hf
  have hin : ∀ g ∈ tailOps (s.wal.log ++ (s.wal.tail ++ s.wal.buf)), g.Plain := hs.plain
  rw [tailOps_append, tailOps_append] at hin
  rcases List.mem_append.mp hf with hf | hf
  · exact hin f (List.mem_append_left _ hf)
  · obtain ⟨hmem, hopen⟩ := List.mem_filter.mp hf
    have hmem := List.mem_of_mem_take hmem
    rcases unsynced_cases c s b fun x hx => (hb x hx).1 with ⟨heq, -⟩ | ⟨x, rfl, -, heq, hvalid⟩
    · rw [heq] at hmem
      exact hin f (List.mem_append_right _ (List.mem_append_left _ (List.mem_filter.mpr ⟨hmem, hopen⟩)))
    · rw [heq, List.append_assoc] at hmem
      rcases List.mem_append.mp hmem with hmem | hmem
      · exact hin f (List.mem_append_right _ (List.mem_append_left _ (List.mem_filter.mpr ⟨hmem, hopen⟩)))
      rcases List.mem_append.mp hmem with hmem | hmem
      · exact hin f (List.mem_append_right _ (List.mem_append_right _ (List.mem_filter.mpr ⟨hmem, hopen⟩)))
      · exact x.frames_plain (hb x rfl).1 (hb x rfl).2 hvalid f hmem

/-- Every event of the history meets its condition in the state it happens in. -/
def AllFrom (P : Store → Event → Prop) (c : RootCodec) (s : Store) : List Event → Prop
  | [] => True
  | e :: es => P s e ∧ ∀ t, s.step c e = some t → AllFrom P c t es

theorem AllFrom.imp {P Q : Store → Event → Prop} (hPQ : ∀ s e, P s e → Q s e) {h : List Event} (hh : AllFrom P c s h) :
    AllFrom Q c s h := by
  induction h generalizing s with
  | nil => trivial
  | cons e es ih => exact ⟨hPQ s e hh.1, fun t ht => ih (hh.2 t ht)⟩

/-- Whatever the calls and crashes, a store of plain records stays sane and opens again. -/
theorem Sane.run {h : List Event} (hs : Sane s) (hh : AllFrom (fun s e => e.Plain c s) c s h) : ∃ t, s.run c h = some t ∧ Sane t := by
  induction h generalizing s with
  | nil => exact ⟨s, rfl, hs⟩
  | cons e es ih =>
    have hstep : ∃ t, s.step c e = some t ∧ Sane t := by
      cases e with
      | apply io b =>
        refine ⟨_, rfl, ?_⟩
        rcases hs.apply c io hh.1.1 hh.1.2.1 hh.1.2.2 with ⟨heq, -⟩ | ⟨w, n, heq, -, hw⟩ | ⟨t, heq, -, -, -, ht, -⟩
        · rw [heq]
          exact hs
        · rw [heq]
          exact hw
        · rw [heq]
          exact ht
      | crash b kept =>
        obtain ⟨t, ht, hsane, -⟩ := hs.crash hh.1
        exact ⟨t, ht, hsane⟩
    obtain ⟨t, ht, hsane⟩ := hstep
    obtain ⟨u, hu, hsane'⟩ := ih hsane (hh.2 t ht)
    exact ⟨u, by rw [Store.run, List.foldlM_cons, ht]; exact hu, hsane'⟩

end Steps

section Exact

variable {c : RootCodec} {s t : Store} {b : Batch} {e : Event}

/-- The plain records in memory are those a reopening would find. -/
def Exact (s : Store) : Prop :=
  plainView s.recs = plainView ((truncateTail (tailOps s.wal.log)).foldl Frame.onRecs fun _ => none)

/-- No put, delete or mark of a batch that is not in the log stands past the last mark. -/
def Store.Clean (s : Store) : Prop :=
  truncateTail (tailOps s.wal.log) = tailOps s.wal.log ∧ ∀ f ∈ s.wal.tail ++ s.wal.buf, f.isData = false ∧ f.isMark = false

/-- What keeps a step exact: the sidecar is clean whenever a mark lands in it. -/
def Event.Sound (c : RootCodec) (s : Store) (e : Event) : Prop :=
  e.Plain c s ∧ match e with
    | .apply io b => io.syncs = true → (s.launch c b).isSome = true → s.Clean
    | .crash b kept => ((s.unsynced c b).take kept).any Frame.isMark = true → s.Clean

theorem empty_genClean : GenClean fun _ => none := fun _ _ h => (Option.some_ne_none _ h.symm).elim

/-- With a clean sidecar everything appended amounts to the records in memory. -/
theorem Sane.clean_view (hs : Sane s) (hx : Exact s) (hc : s.Clean) :
    plainView (s.appended.foldl Frame.onRecs fun _ => none) = plainView s.recs ∧
      GenClean (s.appended.foldl Frame.onRecs fun _ => none) := by
  refine ⟨?_, foldl_genClean empty_genClean hs.plain⟩
  have hplain := hs.plain
  rw [Store.appended, tailOps_append] at hplain ⊢
  rw [List.foldl_append, plainView_quiet (foldl_genClean empty_genClean fun f hf => hplain f (List.mem_append_left _ hf)), hx, hc.1]
  exact fun f hf => ⟨hplain f (List.mem_append_right _ hf), (hc.2 f (List.mem_of_mem_filter hf)).1⟩

/-- Behind the mark of a batch everything counts. -/
theorem Flushed.exact {segSize : Nat} {fs : List Frame} (h : Flushed segSize (fs ++ b.frames) t)
    (hview : plainView t.recs = plainView ((fs ++ b.frames).foldl Frame.onRecs fun _ => none)) : Exact t := by
  rw [Exact, h.log, truncateTail_batch, hview]

theorem Sane.apply_exact {io : CallIO} (hs : Sane s) (hx : Exact s) (he : (Event.apply io b).Sound c s) :
    Sane (s.applyBatch c io b).1 ∧ Exact (s.applyBatch c io b).1 ∧
      plainView (s.applyBatch c io b).1.recs = (s.committed c (.apply io b)).foldl Batch.onPlain (plainView s.recs) := by
  obtain ⟨⟨hb, hfits, hroom⟩, hclean⟩ := he
  rw [Store.committed]
  rcases hs.apply c io hb hfits hroom with ⟨h, hseq⟩ | ⟨w, n, h, hleaves, hw⟩ | ⟨t, h, hseq, hsyncs, hlaunch, ht, hf, hrecs, hplain⟩
  · rw [h, if_neg (by rw [not_and]; exact fun _ => by omega)]
    exact ⟨hs, hx, rfl⟩
  · rw [h, if_neg (by simp)]
    exact ⟨hw, by rw [Exact, hleaves.log]; exact hx, rfl⟩
  · obtain ⟨hview, hgen⟩ := hs.clean_view hx (hclean hsyncs hlaunch)
    have hbatch : plainView t.recs = b.onPlain (plainView s.recs) := by rw [hrecs, plainView_batch hs.genClean hplain]
    rw [h, if_pos ⟨rfl, hseq⟩]
    refine ⟨ht, hf.exact ?_, hbatch⟩
    rw [List.foldl_append, plainView_batch hgen hplain, hview, hbatch]

/-- Short of its last frame, a batch in flight leaves no mark. -/
theorem frames_mark {x : Batch} {fs : List Frame} {kept : Nat} (hfs : ∀ f ∈ fs, f.isMark = false) :
    ((fs ++ x.frames).take kept).any Frame.isMark = true ↔ (fs ++ x.frames).length ≤ kept := by
  have hsplit : fs ++ x.frames = (fs ++ x.ops.map Op.frame ++ x.bumps.map Bump.frame) ++ [.mark x.seq] := by
    simp [Batch.frames]
  rw [hsplit]
  constructor
  · intro h
    by_contra hshort
    rw [List.length_append, List.length_singleton] at hshort
    rw [List.take_append_of_le_length (by omega)] at h
    obtain ⟨f, hf, hmark⟩ := List.any_eq_true.mp h
    have hf := List.mem_of_mem_take hf
    simp only [List.mem_append, List.mem_map] at hf
    rcases hf with (hf | ⟨op, -, rfl⟩) | ⟨bp, -, rfl⟩
    · rw [hfs f hf] at hmark
      cases hmark
    · cases op <;> cases hmark
    · cases hmark
  · intro h
    rw [List.take_of_length_le h, List.any_append]
    simp [Frame.isMark]

theorem Sane.crash_exact {b : Option Batch} {kept : Nat} (hs : Sane s) (hx : Exact s) (he : (Event.crash b kept).Sound c s) :
    ∃ t, s.step c (.crash b kept) = some t ∧ Sane t ∧ Exact t ∧
      plainView t.recs = (s.committed c (.crash b kept)).foldl Batch.onPlain (plainView s.recs) := by
  obtain ⟨hplain, hclean⟩ := he
  obtain ⟨t, hstep, ht, hf, hrecs⟩ := hs.crash hplain
  refine ⟨t, hstep, ht, by rw [Exact, hf.log, hrecs], ?_⟩
  rw [hrecs]
  have hall : ∀ f ∈ tailOps (s.wal.log ++ (s.unsynced c b).take kept), f.Plain := by
    rw [← hf.appended]
    exact ht.plain
  rw [tailOps_append] at hall ⊢
  cases hmark : ((s.unsynced c b).take kept).any Frame.isMark with
  | false =>
    -- no mark landed: of what was kept only generation bumps stay
    have hunmarked : ∀ f ∈ tailOps ((s.unsynced c b).take kept), f.isMark = false := fun f hf =>
      Bool.not_eq_true _ ▸ List.any_eq_false.mp hmark f (List.mem_of_mem_filter hf)
    have hnone : s.committed c (.crash b kept) = [] := by
      cases b with
      | none => rfl
      | some x =>
        refine if_neg fun h => ?_
        rcases unsynced_cases c s (some x) fun y hy => (hplain.1 y hy).1 with ⟨-, hlaunch⟩ | ⟨y, hy, -, heq, -⟩
        · rw [hlaunch x rfl] at h
          exact Bool.false_ne_true h.1
        · rw [List.take_of_length_le h.2, heq, List.any_append] at hmark
          simp [Batch.frames, Frame.isMark] at hmark
    rw [hnone, truncateTail_append_unmarked hunmarked, List.foldl_append, plainView_quiet, ← hx]
    · rfl
    · exact foldl_genClean empty_genClean fun f hf => hall f (List.mem_append_left _ ((truncateTail_sublist _).subset hf))
    · intro f hf
      obtain ⟨hmem, hbump⟩ := List.mem_filter.mp hf
      exact ⟨hall f (List.mem_append_right _ hmem), by cases f <;> simp_all [Frame.isGenbump, Frame.isData]⟩
  | true =>
    -- a mark landed on a clean sidecar: it is the batch's own, and all of it is there
    have hc := hclean hmark
    have hpending : ∀ f ∈ s.wal.tail ++ s.wal.buf, f.isMark = false := fun f hf => (hc.2 f hf).2
    rcases unsynced_cases c s b fun x hx => (hplain.1 x hx).1 with ⟨heq, -⟩ | ⟨x, rfl, hlaunch, heq, hvalid⟩
    · rw [heq] at hmark
      obtain ⟨f, hf, hm⟩ := List.any_eq_true.mp hmark
      rw [hpending f (List.mem_append_left _ (List.mem_of_mem_take hf))] at hm
      cases hm
    · have hlen : (s.unsynced c (some x)).length ≤ kept := by
        rw [heq] at hmark ⊢
        exact (frames_mark hpending).mp hmark
      have hframes := x.frames_plain (hplain.1 x rfl).1 (hplain.1 x rfl).2 hvalid
      obtain ⟨hview, hgen⟩ := hs.clean_view hx hc
      rw [Store.committed, if_pos ⟨hlaunch, hlen⟩, List.take_of_length_le hlen, heq, ← tailOps_append, ← List.append_assoc,
        tailOps_append, tailOps_eq_self Batch.frames_notSealed, truncateTail_batch, List.foldl_append]
      exact (plainView_batch hgen hframes).trans (by rw [← hview]; rfl)

theorem Sane.step_exact (hs : Sane s) (hx : Exact s) (he : e.Sound c s) : ∃ t, s.step c e = some t ∧ Sane t ∧ Exact t ∧
    plainView t.recs = (s.committed c e).foldl Batch.onPlain (plainView s.recs) := by
  cases e with
  | apply io b => exact ⟨_, rfl, hs.apply_exact hx he⟩
  | crash b kept => exact hs.crash_exact hx he

theorem Sane.run_exact {h : List Event} (hs : Sane s) (hx : Exact s) (hh : AllFrom (fun s e => e.Sound c s) c s h) :
    ∃ t, s.run c h = some t ∧ Sane t ∧ Exact t ∧ plainView t.recs = (s.history c h).foldl Batch.onPlain (plainView s.recs) := by
  induction h generalizing s with
  | nil => exact ⟨s, rfl, hs, hx, rfl⟩
  | cons e es ih =>
    obtain ⟨u, hstep, hu, hux, hview⟩ := hs.step_exact hx hh.1
    obtain ⟨t, hrun, ht, htx, hview'⟩ := ih hu hux (hh.2 u hstep)
    refine ⟨t, by rw [Store.run, List.foldlM_cons, hstep]; exact hrun, ht, htx, ?_⟩
    rw [hview', hview, Store.history, hstep, List.foldl_append]
    rfl

end Exact

end Aki.Sqlo1b
