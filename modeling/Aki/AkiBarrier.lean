import Mathlib.Tactic.NormNum
import Aki.AkiFileRun

namespace Aki.Akifile

open ByteDevice LittleEndian

/-- A group append, whatever fails in it, or a crash while one is in flight and the reopen after it. -/
inductive Call where
  | append (group : List Pending) (fault : Fault)
  | crash (group : List Pending) (fates : List Fate)
  deriving DecidableEq, Repr

def State.call (s : State) : Call → State
  | .append group fault => (s.appendGroup .always true group fault).1
  | .crash group fates => s.crash group fates

def State.calls (s : State) (cs : List Call) : State := cs.foldl State.call s

/-- Nothing is left abandoned where a call looks: neither where an append leaves the cursor nor on the edges of a group a crash cut
short. -/
def Fit (s : State) : Call → Prop
  | .append group fault => Clear s group fault
  | .crash group fates => Cut s group fates

def FitCalls : State → List Call → Prop
  | _, [] => True
  | s, c :: cs => Fit s c ∧ FitCalls (s.call c) cs

/-- What each call adds to the file: a returned group all of its segments, one that failed or was in flight at a crash at most the
first of them. -/
inductive Adds : State → List Call → List Seg → Prop
  | nil (s : State) : Adds s [] []
  | returned (s : State) (group : List Pending) (fault : Fault) (cs : List Call) (xs : List Seg)
      (hok : (s.appendGroup .always true group fault).2.2 = true) (h : Adds (s.call (.append group fault)) cs xs) :
      Adds s (.append group fault :: cs) (s.file.segs group ++ xs)
  | failed (s : State) (group : List Pending) (fault : Fault) (cs : List Call) (xs : List Seg) (m : Nat)
      (hok : (s.appendGroup .always true group fault).2.2 = false) (h : Adds (s.call (.append group fault)) cs xs) :
      Adds s (.append group fault :: cs) ((s.file.segs group).take m ++ xs)
  | crash (s : State) (group : List Pending) (fates : List Fate) (cs : List Call) (xs : List Seg) (m : Nat)
      (h : Adds (s.call (.crash group fates)) cs xs) : Adds s (.crash group fates :: cs) ((s.file.segs group).take m ++ xs)

/-- The segments of the groups that returned, in append order. -/
def State.returned : State → List Call → List Seg
  | _, [] => []
  | s, .append group fault :: cs =>
    (if (s.appendGroup .always true group fault).2.2 then s.file.segs group else []) ++ State.returned (s.call (.append group fault)) cs
  | s, .crash group fates :: cs => State.returned (s.call (.crash group fates)) cs

/-- The segments in flight at the latest crash, `xs` if the calls have none. -/
def State.inFlight : State → List Call → List Seg → List Seg
  | _, [], xs => xs
  | s, .append group fault :: cs, xs => State.inFlight (s.call (.append group fault)) cs xs
  | s, .crash group fates :: cs, _ => State.inFlight (s.call (.crash group fates)) cs (s.file.segs group)

/-- An append fails at its first segment if it fails, and no crash but the last call leaves an intact segment at the tail. -/
def Undisturbed : State → List Call → Prop
  | _, [] => True
  | s, .append group fault :: cs =>
    (fault = .none ∨ ∃ n, fault = .header 0 n ∨ fault = .payload 0 n) ∧ Undisturbed (s.call (.append group fault)) cs
  | s, .crash group fates :: cs =>
    (cs = [] ∨ segAt (s.crashedDev group fates) (s.crashedDev group fates).size s.file.cursor = none) ∧
      Undisturbed (s.call (.crash group fates)) cs

variable {s : State} {group : List Pending} {fault : Fault} {fates : List Fate}

theorem appendGroup_always (s : State) (group : List Pending) (fault : Fault) :
    ((s.appendGroup .always true group fault).2.2 = true ∧ (s.appendGroup .always true group fault).1 = s ∧ group = []) ∨
      ((s.appendGroup .always true group fault).2.2 = true ∧ (s.file.lay group fault).landed = s.file.segs group ∧
        (s.appendGroup .always true group fault).1 = (s.lays (s.file.lay group fault)).flush) ∨
      (s.appendGroup .always true group fault).2.2 = false ∧
        (s.appendGroup .always true group fault).1 = s.lays (s.file.lay group fault) := by
  have hland : (s.file.lay group fault).landed.length = group.length → (s.file.lay group fault).landed = s.file.segs group := by
    intro hlen
    obtain ⟨m, hm⟩ := lay_landed group s.file fault
    rw [hm, List.length_take, segs_length] at hlen
    rw [hm, List.take_of_length_le (by rw [segs_length]; omega)]
  unfold State.appendGroup
  dsimp only
  split
  next h => exact Or.inl ⟨rfl, rfl, h⟩
  next =>
    split
    next => exact Or.inr (Or.inr ⟨rfl, rfl⟩)
    next hlen =>
      have hlen := hland (not_not.mp hlen)
      rw [if_pos (show SyncPolicy.always.flushes true = true from rfl)]
      split
      · exact Or.inr (Or.inr ⟨rfl, rfl⟩)
      · exact Or.inr (Or.inl ⟨rfl, hlen, rfl⟩)

theorem appendGroup_none (s : State) (group : List Pending) : (s.appendGroup .always true group .none).2.2 = true := by
  have hlen : (s.file.lay group .none).landed.length = group.length := segs_length s.file group
  unfold State.appendGroup
  dsimp only
  split
  · rfl
  · simp [hlen, SyncPolicy.flushes]

theorem Inv.call (h : Inv s) {c : Call} (hfit : Fit s c) : Inv (s.call c) := by
  cases c with
  | append group fault => exact h.appendGroup hfit _ _
  | crash group fates => exact (h.crash hfit).1

/-- Appended segments that no flush followed may be cut off by a later crash, so of `young` a first part stays. -/
theorem calls_adds (h : Inv s) (cs : List Call) (hfit : FitCalls s cs) :
    Inv (s.calls cs) ∧ ∃ xs k, Adds s cs xs ∧ (s.calls cs).log = s.flushed ++ s.young.take k ++ xs := by
  induction cs generalizing s with
  | nil => exact ⟨h, [], s.young.length, .nil s, by rw [List.take_length, List.append_nil]; rfl⟩
  | cons c cs ih =>
    obtain ⟨hend, xs, k, hadds, hlog⟩ := ih (h.call hfit.1) hfit.2
    refine ⟨hend, ?_⟩
    change ∃ ys j, Adds s (c :: cs) ys ∧ ((s.call c).calls cs).log = s.flushed ++ s.young.take j ++ ys
    cases c with
    | append group fault =>
      rcases appendGroup_always s group fault with ⟨hok, he, rfl⟩ | ⟨hok, hland, he⟩ | ⟨hok, he⟩
      · refine ⟨_, k, .returned s [] fault cs xs hok hadds, ?_⟩
        rw [hlog, show s.call (.append [] fault) = s from he]
        rfl
      · refine ⟨_, s.young.length, .returned s group fault cs xs hok hadds, ?_⟩
        rw [hlog, show s.call (.append group fault) = _ from he]
        simp [State.flush, State.lays, State.log, hland]
      · -- what landed of the failed group is not flushed and shares the fate of `young`
        obtain ⟨m, hm⟩ := lay_landed group s.file fault
        refine ⟨_, k, .failed s group fault cs xs (min (k - s.young.length) m) hok hadds, ?_⟩
        rw [hlog, show s.call (.append group fault) = _ from he]
        simp only [State.lays, hm, List.take_append, List.take_take, List.append_assoc]
    | crash group fates =>
      obtain ⟨-, m, hm⟩ := h.crash hfit.1
      refine ⟨_, m, .crash s group fates cs xs (m - s.young.length) hadds, ?_⟩
      have hfl : (s.call (.crash group fates)).flushed = s.flushed ++ (s.young ++ s.file.segs group).take m :=
        (List.append_nil _).symm.trans hm
      rw [hlog, hfl, show (s.call (.crash group fates)).young = [] from rfl, List.take_append]
      simp only [List.take_nil, List.append_nil, List.append_assoc]

/-- A crash after which no intact segment stands at the tail leaves the flushed segments alone. -/
theorem Inv.crash_bare (h : Inv s) (hy : s.young = []) (hc : Cut s group fates)
    (hnone : segAt (s.crashedDev group fates) (s.crashedDev group fates).size s.file.cursor = none) :
    (s.crash group fates).log = s.log := by
  obtain ⟨hinv, m, hlog⟩ := h.crash hc
  obtain ⟨base, hb, -⟩ := h.durable
  have hcur : base = s.file.cursor := by
    have hyc := (h.base_le hb).2
    rw [hy] at hyc
    exact hyc
  rw [hlog, State.log, hy, List.nil_append, List.append_nil]
  have hchain := hinv.chain
  rw [hlog, hy, List.nil_append] at hchain
  obtain ⟨mid, h₁, h₂⟩ := chain_append.mp hchain
  rw [chain_end h₁ hb, hcur] at h₂
  cases hseg : (s.file.segs group).take m with
  | nil => exact List.append_nil _
  | cons x xs =>
    rw [hseg] at h₂
    exact absurd (h₂.1.symm.trans hnone) (Option.some_ne_none x)

theorem lay_first_failed {n : Nat} (hf : fault = .header 0 n ∨ fault = .payload 0 n) (f : File) (group : List Pending) :
    (f.lay group fault).landed = [] := by
  cases group with
  | nil => rcases hf with rfl | rfl <;> rfl
  | cons p ps => rcases hf with rfl | rfl <;> rfl

theorem calls_undisturbed (h : Inv s) (hy : s.young = []) (cs : List Call) (hfit : FitCalls s cs) (hu : Undisturbed s cs) (xs : List Seg) :
    ∃ m, (s.calls cs).log = s.log ++ s.returned cs ++ (s.inFlight cs xs).take m := by
  induction cs generalizing s xs with
  | nil => exact ⟨0, by simp [State.calls, State.returned]⟩
  | cons c cs ih =>
    cases c with
    | append group fault =>
      rcases appendGroup_always s group fault with ⟨hok, he, rfl⟩ | ⟨hok, hland, he⟩ | ⟨hok, he⟩
      · obtain ⟨m, hm⟩ := ih (h.call hfit.1) ((congrArg State.young he).trans hy) hfit.2 hu.2 xs
        refine ⟨m, hm.trans ?_⟩
        rw [State.returned, State.inFlight, if_pos hok, show s.call (.append [] fault) = s from he]
        rfl
      · obtain ⟨m, hm⟩ := ih (h.call hfit.1) (congrArg State.young he) hfit.2 hu.2 xs
        refine ⟨m, hm.trans ?_⟩
        have hlog : (s.call (.append group fault)).log = s.log ++ s.file.segs group := by
          rw [show s.call (.append group fault) = _ from he, flush_log, lays_log, hland]
        rw [State.returned, State.inFlight, if_pos hok, hlog, ← List.append_assoc]
      · -- it failed at its first segment, so nothing landed
        have hland : (s.file.lay group fault).landed = [] := by
          rcases hu.1 with rfl | ⟨n, hf⟩
          · simp [appendGroup_none] at hok
          · exact lay_first_failed hf s.file group
        have hlog : (s.call (.append group fault)).log = s.log := by
          rw [show s.call (.append group fault) = _ from he, lays_log, hland, List.append_nil]
        have hyoung : (s.call (.append group fault)).young = [] := by
          rw [show s.call (.append group fault) = _ from he, State.lays, hland, hy]
          rfl
        obtain ⟨m, hm⟩ := ih (h.call hfit.1) hyoung hfit.2 hu.2 xs
        refine ⟨m, hm.trans ?_⟩
        rw [State.returned, State.inFlight, hok, hlog]
        rfl
    | crash group fates =>
      rcases hu.1 with rfl | hnone
      · obtain ⟨-, m, hm⟩ := h.crash hfit.1
        refine ⟨m, ?_⟩
        rw [hy, List.nil_append] at hm
        change (s.crash group fates).log = s.flushed ++ s.young ++ [] ++ (s.file.segs group).take m
        rw [hm, hy, List.append_nil, List.append_nil]
      · obtain ⟨m, hm⟩ := ih (h.call hfit.1) rfl hfit.2 hu.2 (s.file.segs group)
        refine ⟨m, hm.trans ?_⟩
        rw [show (s.call (.crash group fates)).log = s.log from h.crash_bare hy hfit.1 hnone]
        rfl

/-- The walk from the header page visits what the calls added, each group that returned whole and of each group that failed or was
cut short by a crash at most its first segments, in order and with increasing sequence numbers. Where appends fail at their first
segment and only a crash at the end leaves segments at the tail, those are the returned groups and behind them a first part of the
group in flight. -/
theorem walk_visits_appended {cs : List Call} (hfit : FitCalls created cs) :
    Adds created cs (tailSegs (created.calls cs).live) ∧
      (tailSegs (created.calls cs).live).Pairwise (fun a b => a.header.globalSeq < b.header.globalSeq) ∧
      (Undisturbed created cs →
        ∃ m, tailSegs (created.calls cs).live = created.returned cs ++ (created.inFlight cs []).take m) := by
  obtain ⟨hs, xs, k, hadds, hlog⟩ := calls_adds created_inv cs hfit
  rw [tailSegs_chain hs.chain hs.stop]
  have hlog' : (created.calls cs).log = xs := by simpa [created] using hlog
  exact ⟨hlog' ▸ hadds, hs.increasing, fun hu => calls_undisturbed created_inv rfl cs hfit hu []⟩

def emptySeg : Pending := ⟨0, kindLog, 0, 0, 0, 0, []⟩

/-- A group, one whose header write fails, another group, and a crash that keeps the first of two segments in flight. -/
def keptFirst : List Call :=
  [.append [emptySeg] .none, .append [emptySeg] (.header 0 10), .append [emptySeg] .none,
    .crash [emptySeg, emptySeg] [.kept, .kept, .lost, .lost]]

theorem keptFirst_fit : FitCalls created keptFirst := by
  have hlen : ∀ p ∈ [emptySeg, emptySeg], p.payload.length < 2 ^ 64 := by decide
  have hlen₁ : ∀ p ∈ [emptySeg], p.payload.length < 2 ^ 64 := by decide
  have hown : ∀ b ∈ ((created.calls (keptFirst.take 3)).flushed.map Seg.stop).getLastD pageSize ::
        ((created.calls (keptFirst.take 3)).young ++ (created.calls (keptFirst.take 3)).file.segs [emptySeg, emptySeg]).map Seg.stop,
      (segAt ((created.calls (keptFirst.take 3)).crashedDev [emptySeg, emptySeg] [.kept, .kept, .lost, .lost])
        ((created.calls (keptFirst.take 3)).crashedDev [emptySeg, emptySeg] [.kept, .kept, .lost, .lost]).size b).all
          (fun x => decide (x ∈ (created.calls (keptFirst.take 3)).young ++
            (created.calls (keptFirst.take 3)).file.segs [emptySeg, emptySeg])) = true := by decide +kernel
  refine ⟨⟨by decide +kernel, hlen₁, fun _ => by decide +kernel, fun hne => absurd (segs_length _ _) hne⟩,
    ⟨by decide +kernel, hlen₁, fun h => absurd h (by decide +kernel), fun _ => by decide +kernel⟩,
    ⟨by decide +kernel, hlen₁, fun _ => by decide +kernel, fun hne => absurd (segs_length _ _) hne⟩,
    ⟨by decide +kernel, hlen, fun b hb x hx => ?_⟩, trivial⟩
  have := hown b hb
  have hx : segAt ((created.calls (keptFirst.take 3)).crashedDev [emptySeg, emptySeg] [.kept, .kept, .lost, .lost])
    ((created.calls (keptFirst.take 3)).crashedDev [emptySeg, emptySeg] [.kept, .kept, .lost, .lost]).size b = some x := hx
  rw [hx] at this
  exact of_decide_eq_true this

theorem keptFirst_visited :
    FitCalls created keptFirst ∧ Undisturbed created keptFirst ∧
      ∃ m, tailSegs (created.calls keptFirst).live = [emptySeg.seg 16384 1, emptySeg.seg 20480 3] ++
        [emptySeg.seg 24576 4, emptySeg.seg 28672 5].take m := by
  have hu : Undisturbed created keptFirst :=
    ⟨Or.inl rfl, ⟨Or.inr ⟨10, Or.inl rfl⟩, Or.inl rfl, Or.inl rfl, trivial⟩⟩
  have hret : created.returned keptFirst = [emptySeg.seg 16384 1, emptySeg.seg 20480 3] := by decide +kernel
  have hfl : created.inFlight keptFirst [] = [emptySeg.seg 24576 4, emptySeg.seg 28672 5] := by decide +kernel
  have h := (walk_visits_appended keptFirst_fit).2.2 hu
  rw [hret, hfl] at h
  exact ⟨keptFirst_fit, hu, h⟩

/-- A record segment of shard 0 two alignment units long. -/
def longSeg : Pending := ⟨0, kindLog, 0, 0, 0, 0, List.replicate 4033 0⟩

/-- A crash keeps the second of two segments in flight, past the tail of the reopened file; the second of two later groups ends
there. -/
def abandonedVisited : List Call :=
  [.crash [longSeg, emptySeg] [.lost, .lost, .kept, .kept], .append [emptySeg] .none, .append [emptySeg] .none]

/-- The reopen leaves the segment at 24576 behind the tail, and the walk visits it again after the two groups that returned, under the
sequence number of the second. -/
theorem abandoned_segment_visited :
    tailSegs (created.calls (abandonedVisited.take 1)).live = [] ∧
      created.returned abandonedVisited = [emptySeg.seg 16384 1, emptySeg.seg 20480 2] ∧
      tailSegs (created.calls abandonedVisited).live = [emptySeg.seg 16384 1, emptySeg.seg 20480 2, emptySeg.seg 24576 2] := by
  decide +kernel

/-- The bytes of BAR3. -/
def barrierMagic : List UInt8 := [66, 65, 82, 51]

def barrierHeaderLen : Nat := 24

def barrierShardSize : Nat := 16

structure BarrierHeader where
  wbar : Nat
  shardCount : Nat
  deriving DecidableEq, Repr

structure BarrierShard where
  tailSeg : UInt64
  tailSeq : UInt64
  deriving DecidableEq, Repr

def BarrierShard.fields (r : BarrierShard) : List (Nat × Nat) := [(8, r.tailSeg.toNat), (8, r.tailSeq.toNat)]

def marshalBarrier (h : BarrierHeader) (rows : List BarrierShard) : List UInt8 :=
  barrierMagic ++ layout ([(4, 0), (8, h.wbar), (8, h.shardCount)] ++ rows.flatMap BarrierShard.fields)

def parseBarrierHeader (b : List UInt8) : Option BarrierHeader :=
  if b.length < barrierHeaderLen then none
  else if b.take 4 ≠ barrierMagic then none
  else some ⟨word b 8 8, word b 16 8⟩

def barrierShards (payload : List UInt8) (h : BarrierHeader) : Option (List BarrierShard) :=
  if payload.length < barrierHeaderLen then none
  else if (payload.length - barrierHeaderLen) / barrierShardSize < h.shardCount then none
  else some <| (List.range h.shardCount).map fun i =>
    ⟨UInt64.ofNat (word payload (barrierHeaderLen + barrierShardSize * i) 8),
      UInt64.ofNat (word payload (barrierHeaderLen + barrierShardSize * i + 8) 8)⟩

def barrierConsistent (h : BarrierHeader) (rows : List BarrierShard) : Bool := rows.all fun r => decide (r.tailSeq.toNat ≤ h.wbar)

theorem rows_width (rows : List BarrierShard) : width (rows.flatMap BarrierShard.fields) = 16 * rows.length := by
  induction rows with
  | nil => rfl
  | cons r rows ih =>
    simp only [width, List.flatMap_cons, List.map_append, List.sum_append, List.length_cons, BarrierShard.fields] at ih ⊢
    rw [ih]
    simp
    omega

theorem marshalBarrier_length (h : BarrierHeader) (rows : List BarrierShard) :
    (marshalBarrier h rows).length = barrierHeaderLen + 16 * rows.length := by
  have hw := rows_width rows
  simp only [width] at hw
  simp [marshalBarrier, barrierMagic, width, hw, barrierHeaderLen]
  omega

theorem marshalBarrier_field (h : BarrierHeader) (rows : List BarrierShard) (fs : List (Nat × Nat)) {gs : List (Nat × Nat)} {n v : Nat}
    (hf : [(4, 0), (8, h.wbar), (8, h.shardCount)] ++ rows.flatMap BarrierShard.fields = fs ++ (n, v) :: gs) :
    word (marshalBarrier h rows) (4 + width fs) n = v % 256 ^ n := by
  have hs := word_skip barrierMagic (layout ([(4, 0), (8, h.wbar), (8, h.shardCount)] ++ rows.flatMap BarrierShard.fields)) (width fs) n
  rw [marshalBarrier]
  refine hs.trans ?_
  rw [hf]
  simpa using word_layout fs n v gs []

theorem parse_marshalBarrier (h : BarrierHeader) (rows : List BarrierShard) (hw : h.wbar < 2 ^ 64) (hc : h.shardCount < 2 ^ 64) :
    parseBarrierHeader (marshalBarrier h rows) = some h := by
  have hmagic : (marshalBarrier h rows).take 4 = barrierMagic := List.take_left' rfl
  have e8 : word (marshalBarrier h rows) 8 8 = h.wbar % 256 ^ 8 := marshalBarrier_field h rows [(4, 0)] rfl
  have e16 : word (marshalBarrier h rows) 16 8 = h.shardCount % 256 ^ 8 := marshalBarrier_field h rows [(4, 0), (8, _)] rfl
  rw [parseBarrierHeader, if_neg (by rw [marshalBarrier_length]; omega), hmagic, if_neg (by simp), e8, e16,
    Nat.mod_eq_of_lt (lt_of_lt_of_eq hw (by norm_num)), Nat.mod_eq_of_lt (lt_of_lt_of_eq hc (by norm_num))]

theorem barrierShards_marshal (w : Nat) (rows : List BarrierShard) :
    barrierShards (marshalBarrier ⟨w, rows.length⟩ rows) ⟨w, rows.length⟩ = some rows := by
  rw [barrierShards, if_neg (by rw [marshalBarrier_length]; omega), if_neg (by
    rw [marshalBarrier_length, Nat.add_sub_cancel_left]
    simp [barrierShardSize])]
  refine congrArg some (List.ext_getElem (by simp) fun i h₁ h₂ => ?_)
  -- the rows before the i-th one take sixteen bytes each
  have hsplit : rows = rows.take i ++ rows[i] :: rows.drop (i + 1) := by
    rw [← List.drop_eq_getElem_cons h₂, List.take_append_drop]
  have hfields : [(4, 0), (8, w), (8, rows.length)] ++ rows.flatMap BarrierShard.fields =
      ([(4, 0), (8, w), (8, rows.length)] ++ (rows.take i).flatMap BarrierShard.fields) ++
        (8, rows[i].tailSeg.toNat) :: (8, rows[i].tailSeq.toNat) :: (rows.drop (i + 1)).flatMap BarrierShard.fields := by
    have hflat := congrArg (List.flatMap BarrierShard.fields) hsplit
    rw [List.flatMap_append, List.flatMap_cons] at hflat
    rw [hflat]
    simp [BarrierShard.fields]
  have hwid : width ([(4, 0), (8, w), (8, rows.length)] ++ (rows.take i).flatMap BarrierShard.fields) = 20 + 16 * i := by
    have hr := rows_width (rows.take i)
    rw [List.length_take, Nat.min_eq_left (by omega)] at hr
    simp only [width, List.map_append, List.sum_append] at hr ⊢
    rw [hr]
    rfl
  have hseg := marshalBarrier_field ⟨w, rows.length⟩ rows _ hfields
  have hnext : [(4, 0), (8, w), (8, rows.length)] ++ rows.flatMap BarrierShard.fields =
      ([(4, 0), (8, w), (8, rows.length)] ++ (rows.take i).flatMap BarrierShard.fields ++ [(8, rows[i].tailSeg.toNat)]) ++
        (8, rows[i].tailSeq.toNat) :: (rows.drop (i + 1)).flatMap BarrierShard.fields := by rw [hfields]; simp
  have hseq := marshalBarrier_field ⟨w, rows.length⟩ rows _ hnext
  have hwid' : width ([(4, 0), (8, w), (8, rows.length)] ++ (rows.take i).flatMap BarrierShard.fields ++ [(8, rows[i].tailSeg.toNat)]) =
      28 + 16 * i := by
    simp only [width, List.map_append, List.sum_append] at hwid ⊢
    rw [hwid]
    simp
    omega
  rw [hwid, show 4 + (20 + 16 * i) = barrierHeaderLen + barrierShardSize * i by simp [barrierHeaderLen, barrierShardSize]; omega] at hseg
  rw [hwid', show 4 + (28 + 16 * i) = barrierHeaderLen + barrierShardSize * i + 8 by simp [barrierHeaderLen, barrierShardSize]; omega] at hseq
  simp only [List.getElem_map, List.getElem_range, hseg, hseq, ofNat_word8]

inductive BarrierErr where
  | barrier
  | noBarrier
  deriving DecidableEq, Repr

/-- The error a visitor returns to end a walk it is done with. -/
inductive Stop where
  | stopScan

structure Found where
  hit : Option (BarrierHeader × List BarrierShard × Nat)
  bad : Bool

def findVisit (wbar : Nat) (st : Found) (x : Seg) : Found × Option Stop :=
  if x.header.kind ≠ kindBarrier then (st, none)
  else
    match parseBarrierHeader x.payload with
    | none => (st, none)
    | some bh =>
      if bh.wbar ≠ wbar then (st, none)
      else
        match barrierShards x.payload bh with
        | none => ({ st with bad := true }, some .stopScan)
        | some rows =>
          if x.header.globalSeq ≠ bh.wbar ∨ barrierConsistent bh rows = false then ({ st with bad := true }, some .stopScan)
          else ({ st with hit := some (bh, rows, x.off) }, some .stopScan)

def findBarrier (d : Dev) (wbar : Nat) : Except BarrierErr (BarrierHeader × List BarrierShard × Nat) :=
  let st := (replayTail (findVisit wbar) d pageSize d.size ⟨none, false⟩).1
  if st.bad then .error .barrier
  else
    match st.hit with
    | none => .error .noBarrier
    | some hit => .ok hit

def cutVisit (wbar : Nat) (acc : List Seg) (x : Seg) : List Seg × Option Stop :=
  if wbar < x.header.globalSeq then (acc, some .stopScan)
  else if x.header.kind = kindBarrier then (acc, none)
  else (acc ++ [x], none)

/-- `ReplayToBarrier` from the header page: what it returns, and the segments it hands to a visitor that takes them all. -/
def replayToBarrier (d : Dev) (wbar : Nat) : Except BarrierErr (BarrierHeader × List BarrierShard) × List Seg :=
  match findBarrier d wbar with
  | .error e => (.error e, [])
  | .ok (hdr, shards, _) => (.ok (hdr, shards), (replayTail (cutVisit wbar) d pageSize d.size []).1)

def dataSegs (xs : List Seg) : List Seg := xs.filter fun x => decide (x.header.kind ≠ kindBarrier)

/-- A barrier as `WriteBarrier` frames it: its watermark is its own sequence number. -/
def Genuine (x : Seg) (rows : List BarrierShard) : Prop :=
  x.header.kind = kindBarrier ∧ x.payload = marshalBarrier ⟨x.header.globalSeq, rows.length⟩ rows ∧
    barrierConsistent ⟨x.header.globalSeq, rows.length⟩ rows = true ∧ x.header.globalSeq < 2 ^ 64 ∧ rows.length < 2 ^ 64

section Visit

variable {σ ε : Type}

theorem visitAll_append (visit : σ → Seg → σ × Option ε) (xs ys : List Seg) (st : σ) :
    visitAll visit (xs ++ ys) st = match visitAll visit xs st with
      | (st', some e) => (st', some e)
      | (st', none) => visitAll visit ys st' := by
  induction xs generalizing st with
  | nil => rfl
  | cons x xs ih =>
    rw [List.cons_append, visitAll, visitAll]
    cases visit st x with
    | mk st' o =>
      cases o with
      | some e => rfl
      | none => exact ih st'

end Visit

theorem findVisit_genuine {x : Seg} {rows : List BarrierShard} (h : Genuine x rows) (w : Nat) (st : Found) :
    findVisit w st x = if x.header.globalSeq = w then
      ({ st with hit := some (⟨w, rows.length⟩, rows, x.off) }, some .stopScan) else (st, none) := by
  obtain ⟨hk, hp, hcons, hseq, hlen⟩ := h
  unfold findVisit
  rw [if_neg (by simp [hk]), hp, parse_marshalBarrier _ _ hseq hlen]
  dsimp only
  by_cases hw : x.header.globalSeq = w
  · rw [if_neg (by simp [hw]), if_pos hw, barrierShards_marshal]
    dsimp only
    rw [if_neg (by simp [hcons]), hw]
  · rw [if_pos hw, if_neg hw]

theorem find_before {xs : List Seg} {w : Nat} (hg : ∀ x ∈ xs, x.header.kind = kindBarrier → ∃ rows, Genuine x rows)
    (hlt : ∀ x ∈ xs, x.header.globalSeq < w) (st : Found) : visitAll (findVisit w) xs st = (st, none) := by
  induction xs generalizing st with
  | nil => rfl
  | cons x xs ih =>
    have hx : findVisit w st x = (st, none) := by
      by_cases hk : x.header.kind = kindBarrier
      · obtain ⟨rows, hr⟩ := hg x (by simp) hk
        have := hlt x (by simp)
        rw [findVisit_genuine hr, if_neg (by omega)]
      · simp [findVisit, hk]
    rw [visitAll, hx]
    exact ih (fun y hy => hg y (by simp [hy])) (fun y hy => hlt y (by simp [hy])) st

theorem cut_before {xs : List Seg} {w : Nat} (hle : ∀ x ∈ xs, x.header.globalSeq ≤ w) (acc : List Seg) :
    visitAll (cutVisit w) xs acc = (acc ++ dataSegs xs, none) := by
  induction xs generalizing acc with
  | nil => simp [visitAll, dataSegs]
  | cons x xs ih =>
    have hx := hle x (by simp)
    have hxs : ∀ y ∈ xs, y.header.globalSeq ≤ w := fun y hy => hle y (by simp [hy])
    rw [visitAll, cutVisit, if_neg (by omega)]
    by_cases hk : x.header.kind = kindBarrier
    · rw [if_pos hk]
      simp only [dataSegs, List.filter_cons, hk]
      exact ih hxs acc
    · rw [if_neg hk]
      dsimp only
      rw [ih hxs]
      simp [dataSegs, hk]

theorem replayToBarrier_chain {d : Dev} {pre post : List Seg} {x : Seg} {e : Nat} {rows : List BarrierShard}
    (hc : Chain d d.size pageSize (pre ++ x :: post) e) (he : segAt d d.size e = none)
    (hi : (pre ++ x :: post).Pairwise (fun a b => a.header.globalSeq < b.header.globalSeq))
    (hg : ∀ y ∈ pre, y.header.kind = kindBarrier → ∃ rows, Genuine y rows) (hx : Genuine x rows) :
    replayToBarrier d x.header.globalSeq = (.ok (⟨x.header.globalSeq, rows.length⟩, rows), dataSegs pre) := by
  obtain ⟨-, hpost, hcross⟩ := List.pairwise_append.mp hi
  have hlt : ∀ y ∈ pre, y.header.globalSeq < x.header.globalSeq := fun y hy => hcross y hy x (by simp)
  have hfind : findBarrier d x.header.globalSeq = .ok (⟨x.header.globalSeq, rows.length⟩, rows, x.off) := by
    have hstop : visitAll (findVisit x.header.globalSeq) (pre ++ x :: post) ⟨none, false⟩ =
        (⟨some (⟨x.header.globalSeq, rows.length⟩, rows, x.off), false⟩, some .stopScan) := by
      rw [visitAll_append, find_before hg hlt]
      dsimp only
      rw [visitAll, findVisit_genuine hx, if_pos rfl]
    rw [findBarrier, (replayTail_chain _ hc he _).1, hstop]
    rfl
  have hcut : (replayTail (cutVisit x.header.globalSeq) d pageSize d.size []).1 = dataSegs pre := by
    rw [(replayTail_chain _ hc he _).1, visitAll_append, cut_before fun y hy => Nat.le_of_lt (hlt y hy)]
    dsimp only
    rw [visitAll, cutVisit, if_neg (Nat.lt_irrefl _), if_pos hx.1, List.nil_append]
    dsimp only
    cases post with
    | nil => rfl
    | cons y post =>
      have := (List.pairwise_cons.mp hpost).1 y (by simp)
      rw [visitAll, cutVisit, if_pos this]
  rw [replayToBarrier, hfind]
  dsimp only
  rw [hcut]

/-- Without an intact barrier at the watermark nothing is visited, whatever the device holds. -/
theorem replayToBarrier_absent (d : Dev) (w : Nat)
    (h : ∀ x ∈ tailSegs d, x.header.kind = kindBarrier → ∀ bh, parseBarrierHeader x.payload = some bh → bh.wbar ≠ w) :
    replayToBarrier d w = (.error .noBarrier, []) := by
  obtain ⟨xs, e, hc, he⟩ := exists_chain d d.size pageSize
  rw [tailSegs_chain hc he] at h
  have hnone : ∀ (ys : List Seg) (st : Found), (∀ x ∈ ys, x ∈ xs) → visitAll (findVisit w) ys st = (st, none) := by
    intro ys
    induction ys with
    | nil => exact fun st _ => rfl
    | cons y ys ih =>
      intro st hsub
      have hy : findVisit w st y = (st, none) := by
        unfold findVisit
        by_cases hk : y.header.kind = kindBarrier
        · rw [if_neg (by simp [hk])]
          cases hp : parseBarrierHeader y.payload with
          | none => rfl
          | some bh => simp [h y (hsub y (by simp)) hk bh hp]
        · simp [hk]
      rw [visitAll, hy]
      exact ih st fun x hx => hsub x (by simp [hx])
  have hfind : findBarrier d w = .error .noBarrier := by
    rw [findBarrier, (replayTail_chain _ hc he _).1, hnone xs _ fun x hx => hx]
    rfl
  rw [replayToBarrier, hfind]

def barrierPending (wbar : Nat) (rows : List BarrierShard) : Pending :=
  ⟨shardOwnerless, kindBarrier, 0, 0, 0, 0, marshalBarrier ⟨wbar, rows.length⟩ rows⟩

/-- `WriteBarrier`: the state after it, and the offset and watermark it returns. -/
def State.writeBarrier (policy : SyncPolicy) (due : Bool) (rows : List BarrierShard) (fault : Fault) (s : State) :
    State × Option (Nat × Nat) :=
  let wbar := s.file.globalSeq + 1
  if barrierConsistent ⟨wbar, rows.length⟩ rows then
    let r := s.appendGroup policy due [barrierPending wbar rows] fault
    (r.1, if r.2.2 then r.2.1.head?.map fun off => (off, wbar) else none)
  else (s, none)

/-- What a crash interrupts: a group append, or the append of a barrier. -/
inductive Flight where
  | group (group : List Pending)
  | barrier (rows : List BarrierShard)
  deriving DecidableEq, Repr

def Flight.pending (s : State) : Flight → List Pending
  | .group ps => ps
  | .barrier rows =>
    if barrierConsistent ⟨s.file.globalSeq + 1, rows.length⟩ rows then [barrierPending (s.file.globalSeq + 1) rows] else []

inductive Op where
  | append (due : Bool) (group : List Pending) (fault : Fault)
  | barrier (due : Bool) (rows : List BarrierShard) (fault : Fault)
  | sync (ok : Bool)
  | crash (flight : Flight) (fates : List Fate)
  deriving DecidableEq, Repr

def State.op (policy : SyncPolicy) (s : State) : Op → State
  | .append due group fault => (s.appendGroup policy due group fault).1
  | .barrier due rows fault => (s.writeBarrier policy due rows fault).1
  | .sync ok => if ok then s.flush else s
  | .crash flight fates => s.crash (flight.pending s) fates

def State.ops (policy : SyncPolicy) (s : State) (os : List Op) : State := os.foldl (State.op policy) s

/-- Barriers come from `WriteBarrier` alone, and neither an append nor a crash runs into a segment abandoned earlier. -/
def FitOp (s : State) : Op → Prop
  | .append _ group fault => Clear s group fault ∧ ∀ p ∈ group, p.kind ≠ kindBarrier
  | .barrier _ rows fault => barrierConsistent ⟨s.file.globalSeq + 1, rows.length⟩ rows = true →
      Clear s [barrierPending (s.file.globalSeq + 1) rows] fault
  | .sync _ => True
  | .crash flight fates => Cut s (flight.pending s) fates ∧ ∀ group, flight = .group group → ∀ p ∈ group, p.kind ≠ kindBarrier

def FitOps (policy : SyncPolicy) : State → List Op → Prop
  | _, [] => True
  | s, o :: os => FitOp s o ∧ FitOps policy (s.op policy o) os

/-- The segment `x` is in the file after every operation. -/
def Keeps (policy : SyncPolicy) (x : Seg) : State → List Op → Prop
  | s, [] => x ∈ s.log
  | s, o :: os => x ∈ s.log ∧ Keeps policy x (s.op policy o) os

structure CutInv (s : State) : Prop extends Inv s where
  genuine : ∀ x ∈ s.log, x.header.kind = kindBarrier → ∃ rows, Genuine x rows

variable {s : State} {policy : SyncPolicy} {group : List Pending}

/-- A group that brings no barrier, or the one barrier of `WriteBarrier`. -/
def Honest (s : State) (group : List Pending) : Prop :=
  (∀ p ∈ group, p.kind ≠ kindBarrier) ∨
    ∃ rows, group = [barrierPending (s.file.globalSeq + 1) rows] ∧
      barrierConsistent ⟨s.file.globalSeq + 1, rows.length⟩ rows = true

theorem segs_genuine (hh : Honest s group) (hseq : s.file.globalSeq + group.length < 2 ^ 64)
    (hlen : ∀ p ∈ group, p.payload.length < 2 ^ 64) {x : Seg} (hx : x ∈ s.file.segs group) (hk : x.header.kind = kindBarrier) :
    ∃ rows, Genuine x rows := by
  rcases hh with hno | ⟨rows, rfl, hcons⟩
  · obtain ⟨p, hp, he⟩ := segs_kind _ _ hx
    exact absurd (he.symm.trans hk) (hno p hp)
  · obtain rfl : x = (barrierPending (s.file.globalSeq + 1) rows).seg s.file.cursor (s.file.globalSeq + 1) := by
      rw [segs_cons] at hx
      rcases List.mem_cons.mp hx with he | hx
      · exact he
      · exact absurd hx List.not_mem_nil
    have hpay := hlen _ List.mem_cons_self
    simp only [barrierPending, marshalBarrier_length] at hpay
    exact ⟨rows, rfl, rfl, hcons, hseq, by omega⟩

theorem landed_segs (f : File) (group : List Pending) (fault : Fault) {x : Seg} (hx : x ∈ (f.lay group fault).landed) :
    x ∈ f.segs group := by
  obtain ⟨m, hm⟩ := lay_landed group f fault
  rw [hm] at hx
  exact List.mem_of_mem_take hx

theorem CutInv.lays (h : CutInv s) {fault : Fault} (hc : Clear s group fault) (hh : Honest s group) :
    CutInv (s.lays (s.file.lay group fault)) where
  toInv := h.toInv.lays hc
  genuine := fun x hx hk => by
    rw [lays_log] at hx
    rcases List.mem_append.mp hx with hx | hx
    · exact h.genuine x hx hk
    · exact segs_genuine hh hc.seq hc.len (landed_segs _ _ _ hx) hk

theorem CutInv.flush (h : CutInv s) : CutInv s.flush where
  toInv := h.toInv.flush
  genuine := by rw [flush_log]; exact h.genuine

theorem CutInv.appendGroup (h : CutInv s) (policy : SyncPolicy) {fault : Fault} (hc : Clear s group fault) (hh : Honest s group) (due : Bool) :
    CutInv (s.appendGroup policy due group fault).1 ∧
      ∃ m, (s.appendGroup policy due group fault).1.log = s.log ++ (s.file.segs group).take m := by
  obtain ⟨m, hm⟩ := lay_landed group s.file fault
  rcases appendGroup_cases policy due group fault s with ⟨he, -⟩ | he | he
  · rw [he]; exact ⟨h, 0, (List.append_nil _).symm⟩
  · rw [he]; exact ⟨h.lays hc hh, m, by rw [lays_log, hm]⟩
  · rw [he]; exact ⟨(h.lays hc hh).flush, m, by rw [flush_log, lays_log, hm]⟩

theorem flight_honest {flight : Flight} (h : ∀ group, flight = .group group → ∀ p ∈ group, p.kind ≠ kindBarrier) :
    Honest s (flight.pending s) := by
  cases flight with
  | group g => exact Or.inl (h g rfl)
  | barrier rows =>
    change Honest s (if barrierConsistent ⟨s.file.globalSeq + 1, rows.length⟩ rows then _ else [])
    split
    next hc => exact Or.inr ⟨rows, rfl, hc⟩
    next => exact Or.inl (by simp)

/-- One operation keeps the invariant, and the file after it is a first part of the file before it and of what was appended. -/
theorem CutInv.op (h : CutInv s) (policy : SyncPolicy) {o : Op} (hfit : FitOp s o) :
    CutInv (s.op policy o) ∧ ∃ xs m, (∀ x ∈ xs, s.file.cursor ≤ x.off) ∧ (s.op policy o).log = (s.log ++ xs).take m := by
  have hoff : ∀ (g : List Pending), (s.file.globalSeq + g.length < 2 ^ 64) → (∀ p ∈ g, p.payload.length < 2 ^ 64) →
      ∀ x ∈ s.file.segs g, s.file.cursor ≤ x.off := fun g h₁ h₂ x hx =>
    (chain_mem (lay_lays g s.file .none s.live h₁ h₂).chain hx).1
  have happend : ∀ (due : Bool) (g : List Pending) (fault : Fault), Clear s g fault → Honest s g →
      CutInv (s.appendGroup policy due g fault).1 ∧
        ∃ xs m, (∀ x ∈ xs, s.file.cursor ≤ x.off) ∧ (s.appendGroup policy due g fault).1.log = (s.log ++ xs).take m := by
    intro due g fault hc hh
    obtain ⟨hinv, m, hlog⟩ := h.appendGroup policy hc hh due
    refine ⟨hinv, (s.file.segs g).take m, (s.log ++ (s.file.segs g).take m).length, fun x hx => ?_, ?_⟩
    · exact hoff g hc.seq hc.len x (List.mem_of_mem_take hx)
    · rw [hlog, List.take_length]
  cases o with
  | append due g fault => exact happend due g fault hfit.1 (Or.inl hfit.2)
  | barrier due rows fault =>
    rw [State.op, State.writeBarrier]
    dsimp only
    split
    next hc => exact happend due _ fault (hfit hc) (Or.inr ⟨rows, rfl, hc⟩)
    next => exact ⟨h, [], s.log.length, by simp, by simp⟩
  | sync ok =>
    rw [State.op]
    split
    · exact ⟨h.flush, [], s.log.length, by simp, by simp [flush_log]⟩
    · exact ⟨h, [], s.log.length, by simp, by simp⟩
  | crash flight fates =>
    obtain ⟨hinv, m, hlog⟩ := h.toInv.crash hfit.1
    have hown : (s.crash (flight.pending s) fates).log =
        (s.log ++ s.file.segs (flight.pending s)).take (s.flushed.length + m) := by
      rw [hlog, State.log, List.append_assoc, List.take_length_add_append]
    refine ⟨{ toInv := hinv, genuine := fun x hx hk => ?_ }, s.file.segs (flight.pending s), s.flushed.length + m,
      hoff _ hfit.1.seq hfit.1.len, hown⟩
    change x ∈ (s.crash (flight.pending s) fates).log at hx
    rw [hown] at hx
    rcases List.mem_append.mp (List.mem_of_mem_take hx) with hx | hx
    · exact h.genuine x hx hk
    · exact segs_genuine (flight_honest hfit.2) hfit.1.seq hfit.1.len hx hk

theorem created_cutInv : CutInv created := { toInv := created_inv, genuine := by simp [created, State.log] }

theorem ops_cutInv (h : CutInv s) (os : List Op) (hfit : FitOps policy s os) : CutInv (s.ops policy os) := by
  induction os generalizing s with
  | nil => exact h
  | cons o os ih => exact ih (h.op policy hfit.1).1 hfit.2

/-- A segment of the file stands at one place in it, so what keeps it keeps all before it. -/
theorem CutInv.op_keeps (h : CutInv s) {o : Op} (hfit : FitOp s o) {pre : List Seg} {x : Seg} (hpre : ∃ post, s.log = pre ++ x :: post)
    (hx : x ∈ (s.op policy o).log) : ∃ post, (s.op policy o).log = pre ++ x :: post := by
  obtain ⟨post, hpost⟩ := hpre
  obtain ⟨-, xs, m, hxs, hlog⟩ := h.op policy hfit
  rw [hpost, List.append_assoc, List.cons_append] at hlog
  have hchain := h.toInv.chain
  rw [hpost] at hchain
  obtain ⟨mid, hc₁, hc₂⟩ := chain_append.mp hchain
  have hxoff := segAt_off hc₂.1
  have hpos : pre.length < m := by
    by_contra hle
    rw [hlog, List.take_append_of_le_length (by omega)] at hx
    have hmem := List.mem_of_mem_take hx
    have h₁ := (chain_mem hc₁ hmem).2.1
    have h₂ := segAt_lt_stop (chain_mem hc₁ hmem).2.2
    omega
  refine ⟨(post ++ xs).take (m - pre.length - 1), ?_⟩
  rw [hlog, List.take_append, List.take_of_length_le (by omega)]
  congr 1
  obtain ⟨n, hn⟩ : ∃ n, m - pre.length = n + 1 := ⟨m - pre.length - 1, by omega⟩
  rw [hn, List.take_succ_cons]
  congr 2

theorem ops_keeps (h : CutInv s) (os : List Op) (hfit : FitOps policy s os) {pre : List Seg} {x : Seg}
    (hpre : ∃ post, s.log = pre ++ x :: post) (hk : Keeps policy x s os) : ∃ post, (s.ops policy os).log = pre ++ x :: post := by
  induction os generalizing s with
  | nil => exact hpre
  | cons o os ih =>
    have hx : x ∈ (s.op policy o).log := by
      cases os with
      | nil => exact hk.2
      | cons o' os' => exact hk.2.1
    exact ih (h.op policy hfit.1).1 hfit.2 (h.op_keeps hfit.1 hpre hx) hk.2

/-- The barrier `WriteBarrier` returned stands behind everything in the file before it. -/
theorem writeBarrier_log {due : Bool} {rows : List BarrierShard} {fault : Fault} {off w : Nat}
    (hret : (s.writeBarrier policy due rows fault).2 = some (off, w)) :
    w = s.file.globalSeq + 1 ∧ barrierConsistent ⟨w, rows.length⟩ rows = true ∧
      (s.writeBarrier policy due rows fault).1.log = s.log ++ [(barrierPending w rows).seg off w] := by
  unfold State.writeBarrier at hret ⊢
  dsimp only at hret ⊢
  split at hret
  next hc =>
    rw [if_pos hc]
    dsimp only at hret ⊢
    split at hret
    next hok =>
      obtain ⟨o, ho, heq⟩ := Option.map_eq_some_iff.mp hret
      obtain ⟨rfl, rfl⟩ : o = off ∧ s.file.globalSeq + 1 = w := by simpa using heq
      refine ⟨rfl, hc, ?_⟩
      -- it returned, so its one segment landed
      unfold State.appendGroup at hok ho ⊢
      dsimp only at hok ho ⊢
      rw [if_neg (by simp)] at hok ho ⊢
      split at hok
      next => simp at hok
      next hlen =>
        rw [if_neg hlen] at ho ⊢
        have hland : (s.file.lay [barrierPending (s.file.globalSeq + 1) rows] fault).landed =
            [(barrierPending (s.file.globalSeq + 1) rows).seg s.file.cursor (s.file.globalSeq + 1)] := by
          obtain ⟨m, hm⟩ := lay_landed [barrierPending (s.file.globalSeq + 1) rows] s.file fault
          have hl : (s.file.segs [barrierPending (s.file.globalSeq + 1) rows]).length = 1 := segs_length _ _
          rw [hm, List.length_take, hl] at hlen
          simp only [List.length_singleton, ne_eq, not_not] at hlen
          rw [hm, List.take_of_length_le (by omega)]
          rfl
        have hoff : s.file.cursor = o := by
          split at ho
          · split at ho <;> simpa [hland, Pending.seg] using ho
          · simpa [hland, Pending.seg] using ho
        split
        · split
          · rw [lays_log, hland, hoff]
          · rw [flush_log, lays_log, hland, hoff]
        · rw [lays_log, hland, hoff]
    next => simp at hret
  next => simp at hret

/-- While no append or crash runs into an abandoned segment and barriers come from `WriteBarrier` alone: as long as a barrier it
returned is in the file, the cut at its watermark is exactly the data segments in the file before it; and where no intact barrier
has the watermark nothing is visited. -/
theorem barriers_cut (policy : SyncPolicy) (before later : List Op) (due : Bool) (rows : List BarrierShard) (fault : Fault)
    (hfit : FitOps policy created (before ++ .barrier due rows fault :: later)) :
    (∀ off w, ((created.ops policy before).writeBarrier policy due rows fault).2 = some (off, w) →
      Keeps policy ((barrierPending w rows).seg off w) ((created.ops policy before).op policy (.barrier due rows fault)) later →
      replayToBarrier (created.ops policy (before ++ .barrier due rows fault :: later)).live w =
        (.ok (⟨w, rows.length⟩, rows), dataSegs (created.ops policy before).log)) ∧
    ∀ w, (∀ x ∈ tailSegs (created.ops policy (before ++ .barrier due rows fault :: later)).live, x.header.kind = kindBarrier →
        ∀ bh, parseBarrierHeader x.payload = some bh → bh.wbar ≠ w) →
      replayToBarrier (created.ops policy (before ++ .barrier due rows fault :: later)).live w = (.error .noBarrier, []) := by
  refine ⟨fun off w hret hk => ?_, fun w => replayToBarrier_absent _ w⟩
  have hsplit : ∀ (os : List Op) (s : State), FitOps policy s (os ++ .barrier due rows fault :: later) →
      FitOps policy s os ∧ FitOps policy (s.ops policy os) (.barrier due rows fault :: later) := by
    intro os
    induction os with
    | nil => exact fun s h => ⟨trivial, h⟩
    | cons o os ih => exact fun s h => ⟨⟨h.1, (ih _ h.2).1⟩, (ih _ h.2).2⟩
  obtain ⟨hbefore, hop, hlater⟩ := hsplit before created hfit
  have hinv := ops_cutInv created_cutInv before hbefore
  obtain ⟨hw, hcons, hlog⟩ := writeBarrier_log hret
  have hinv' := (hinv.op policy hop).1
  obtain ⟨post, hpost⟩ := ops_keeps hinv' later hlater ⟨[], hlog⟩ hk
  have hfinal : created.ops policy (before ++ .barrier due rows fault :: later) =
      ((created.ops policy before).op policy (.barrier due rows fault)).ops policy later := by
    simp [State.ops, List.foldl_append]
  rw [hfinal]
  have hend := ops_cutInv hinv' later hlater
  have hc := hend.toInv.chain
  have hi := hend.toInv.increasing
  have hg := hend.genuine
  rw [hpost] at hc hi hg
  have hx : Genuine ((barrierPending w rows).seg off w) rows := by
    have hpay := (hop (by rw [← hw]; exact hcons)).len _ List.mem_cons_self
    have hseq := (hop (by rw [← hw]; exact hcons)).seq
    simp only [barrierPending, marshalBarrier_length] at hpay
    simp only [List.length_singleton] at hseq
    exact ⟨rfl, rfl, hcons, by rw [hw]; exact hseq, by omega⟩
  exact replayToBarrier_chain hc hend.toInv.stop hi (fun y hy hk => hg y (List.mem_append_left _ hy) hk) hx

/-- A group, a barrier behind it and a group behind the barrier. -/
def barrierBetween : List Op := [.append false [emptySeg] .none, .barrier false [] .none, .append false [emptySeg] .none]

theorem barrierBetween_fit : FitOps .no created barrierBetween := by
  have hlen : ∀ p ∈ [emptySeg], p.payload.length < 2 ^ 64 := by decide
  have hkind : ∀ p ∈ [emptySeg], p.kind ≠ kindBarrier := by decide
  have hwhole : ∀ {s : State} {group : List Pending} {P : Prop}, (s.file.lay group .none).landed.length = group.length →
      (s.file.lay group .none).landed.length ≠ group.length → P := fun h hne => absurd h hne
  exact ⟨⟨⟨by decide +kernel, hlen, fun _ => by decide +kernel, hwhole (by decide +kernel)⟩, hkind⟩,
    fun _ => ⟨by decide +kernel, by decide +kernel, fun _ => by decide +kernel, hwhole (by decide +kernel)⟩,
    ⟨⟨by decide +kernel, hlen, fun _ => by decide +kernel, hwhole (by decide +kernel)⟩, hkind⟩, trivial⟩

theorem barrierBetween_cut :
    FitOps .no created barrierBetween ∧
      replayToBarrier (created.ops .no barrierBetween).live 2 = (.ok (⟨2, 0⟩, []), dataSegs [emptySeg.seg 16384 1]) ∧
      replayToBarrier (created.ops .no barrierBetween).live 1 = (.error .noBarrier, []) := by
  have h := barriers_cut .no [.append false [emptySeg] .none] [.append false [emptySeg] .none] false [] .none barrierBetween_fit
  have hlog : (created.ops .no [.append false [emptySeg] .none]).log = [emptySeg.seg 16384 1] := by decide +kernel
  refine ⟨barrierBetween_fit, ?_, h.2 1 (by decide +kernel)⟩
  have hin : (barrierPending 2 []).seg 20480 2 ∈ (created.ops .no barrierBetween).log := by decide +kernel
  have hcut := h.1 20480 2 (by decide +kernel) ⟨by decide +kernel, hin⟩
  rw [hlog] at hcut
  exact hcut

/-- A crash keeps the second of two segments in flight, past where the reopened file goes on; a group and a barrier end there. -/
def abandonedBehind : List Op :=
  [.crash (.group [longSeg, emptySeg]) [.lost, .lost, .kept, .kept], .append false [emptySeg] .none]

/-- The cut at the barrier holds the abandoned segment behind it. -/
theorem cut_holds_abandoned :
    ((created.ops .always abandonedBehind).writeBarrier .always false [] .none).2 = some (20480, 2) ∧
      (replayToBarrier (created.ops .always (abandonedBehind ++ [.barrier false [] .none])).live 2).2 =
        [emptySeg.seg 16384 1, emptySeg.seg 24576 2] ∧
      dataSegs (created.ops .always abandonedBehind).log = [emptySeg.seg 16384 1] := by
  decide +kernel

end Aki.Akifile
