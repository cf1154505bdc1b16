import Aki.AkiFile

namespace Aki.Akifile

open ByteDevice LittleEndian

inductive SyncPolicy where
  | always
  | everySec
  | no
  deriving DecidableEq, Repr

/-- Whether the append path flushes; `due` is whether the interval has run out. -/
def SyncPolicy.flushes : SyncPolicy → Bool → Bool
  | .always, _ => true
  | .everySec, due => due
  | .no, _ => false

/-- The device as of the last successful flush, the writes issued since, and the open file. Not in the program are the segments
the file consists of, those flushed and those appended since. -/
structure State where
  synced : Dev
  since : List Write
  file : File
  flushed : List Seg
  young : List Seg

def State.log (s : State) : List Seg := s.flushed ++ s.young

/-- The device as the process sees it. -/
def State.live (s : State) : Dev := s.synced.writes s.since

def State.lays (s : State) (l : Laying) : State :=
  { s with since := s.since ++ l.writes, file := l.file, young := s.young ++ l.landed }

def State.flush (s : State) : State := { s with synced := s.live, since := [], flushed := s.log, young := [] }

/-- `AppendGroup`: the state after it, the offsets it returns, and whether it returned without an error. -/
def State.appendGroup (policy : SyncPolicy) (due : Bool) (group : List Pending) (fault : Fault) (s : State) : State × List Nat × Bool :=
  let l := s.file.lay group fault
  let offs := l.landed.map Seg.off
  if group = [] then (s, [], true)
  else if l.landed.length ≠ group.length then (s.lays l, offs, false)
  else if policy.flushes due then
    if fault = .sync then (s.lays l, offs, false) else ((s.lays l).flush, offs, true)
  else (s.lays l, offs, true)

/-- What a crash makes of one write issued since the last flush. -/
inductive Fate where
  | kept
  | lost
  | torn (data : List UInt8)
  deriving DecidableEq, Repr

/-- The device a crash leaves; writes without a fate are lost. -/
def crashed : Dev → List Write → List Fate → Dev
  | d, w :: ws, .kept :: fates => crashed (d.write w) ws fates
  | d, _ :: ws, .lost :: fates => crashed d ws fates
  | d, w :: ws, .torn data :: fates => crashed (d.write ⟨w.off, data.take w.data.length⟩) ws fates
  | d, _, _ => d

/-- A file opened on a device with nothing in flight. -/
def reopened (d : Dev) : State := ⟨d, [], openOnDevice d, tailSegs d, []⟩

/-- The device after a crash while `group` was being appended. -/
def State.crashedDev (s : State) (group : List Pending) (fates : List Fate) : Dev :=
  crashed s.synced (s.since ++ (s.file.lay group .none).writes) fates

def State.crash (s : State) (group : List Pending) (fates : List Fate) : State := reopened (s.crashedDev group fates)

def created : State := ⟨⟨fun _ => 0, pageSize⟩, [], ⟨pageSize, 0⟩, [], []⟩

structure Inv (s : State) : Prop where
  chain : Chain s.live s.live.size pageSize s.log s.file.cursor
  stop : segAt s.live s.live.size s.file.cursor = none
  increasing : s.log.Pairwise (fun a b => a.header.globalSeq < b.header.globalSeq)
  bounded : ∀ x ∈ s.log, x.header.globalSeq ≤ s.file.globalSeq
  /-- What was flushed ends before everything written since. -/
  durable : ∃ base, Chain s.synced s.synced.size pageSize s.flushed base ∧ ∀ w ∈ s.since, base ≤ w.off

/-- No intact segment stands where the cursor comes to rest: before the append when all of the group lands, and behind the failed
write otherwise. The counter and the lengths fit their 64 bits. -/
structure Clear (s : State) (group : List Pending) (fault : Fault) : Prop where
  seq : s.file.globalSeq + group.length < 2 ^ 64
  len : ∀ p ∈ group, p.payload.length < 2 ^ 64
  whole : (s.file.lay group fault).landed.length = group.length → segAt s.live s.live.size (s.file.lay group fault).file.cursor = none
  failed : (s.file.lay group fault).landed.length ≠ group.length →
    segAt (s.live.writes (s.file.lay group fault).writes) (s.live.writes (s.file.lay group fault).writes).size
      (s.file.lay group fault).file.cursor = none

variable {s : State} {group : List Pending} {fault : Fault}

theorem created_inv : Inv created where
  chain := rfl
  stop := by
    rw [segAt, if_neg]
    simp [created, State.live, Dev.writes, segHeaderLen]
  increasing := List.Pairwise.nil
  bounded := by simp [created, State.log]
  durable := ⟨pageSize, rfl, by simp [created]⟩

theorem lays_live (s : State) (l : Laying) : (s.lays l).live = s.live.writes l.writes := writes_append _ _ _

theorem lays_log (s : State) (l : Laying) : (s.lays l).log = s.log ++ l.landed := (List.append_assoc _ _ _).symm

theorem flush_log (s : State) : s.flush.log = s.log := List.append_nil _

theorem Inv.base_le (h : Inv s) {base : Nat} (hb : Chain s.synced s.synced.size pageSize s.flushed base) :
    base ≤ s.file.cursor ∧ Chain s.live s.live.size base s.young s.file.cursor := by
  obtain ⟨mid, hmid, hrest⟩ := chain_append.mp h.chain
  rw [chain_end hmid hb] at hrest
  exact ⟨chain_le hrest, hrest⟩

theorem Inv.lays (h : Inv s) (hc : Clear s group fault) : Inv (s.lays (s.file.lay group fault)) := by
  have hl := lay_lays group s.file fault s.live hc.seq hc.len
  have hsize := size_le_writes s.live (s.file.lay group fault).writes
  refine ⟨?_, ?_, ?_, ?_, ?_⟩
  · rw [lays_live, lays_log]
    refine chain_append.mpr ⟨s.file.cursor, chain_congr h.chain (fun i hi => writes_bytes_below hl.above hi _) hsize hsize, hl.chain⟩
  · rw [lays_live]
    by_cases hw : (s.file.lay group fault).landed.length = group.length
    · exact segAt_past (fun i hi => writes_bytes_above (hl.below hw) hi _) (writes_size_le (hl.below hw) _) (hc.whole hw)
    · exact hc.failed hw
  · rw [lays_log]
    refine List.pairwise_append.mpr ⟨h.increasing, hl.increasing, fun x hx y hy => ?_⟩
    have := h.bounded x hx
    have := (hl.bound y hy).1
    omega
  · intro x hx
    rw [lays_log] at hx
    rcases List.mem_append.mp hx with hx | hx
    · exact (h.bounded x hx).trans hl.seq_le
    · exact (hl.bound x hx).2
  · obtain ⟨base, hb, habove⟩ := h.durable
    refine ⟨base, hb, fun w hw => ?_⟩
    rcases List.mem_append.mp hw with hw | hw
    · exact habove w hw
    · exact (h.base_le hb).1.trans (hl.above w hw)

theorem Inv.flush (h : Inv s) : Inv s.flush where
  chain := by rw [flush_log]; exact h.chain
  stop := h.stop
  increasing := by rw [flush_log]; exact h.increasing
  bounded := by rw [flush_log]; exact h.bounded
  durable := ⟨s.file.cursor, h.chain, by simp [State.flush]⟩

/-- What `AppendGroup` leaves: the group's own segments behind the log, flushed or not. -/
theorem appendGroup_cases (policy : SyncPolicy) (due : Bool) (group : List Pending) (fault : Fault) (s : State) :
    ((s.appendGroup policy due group fault).1 = s ∧ group = []) ∨
      (s.appendGroup policy due group fault).1 = s.lays (s.file.lay group fault) ∨
      (s.appendGroup policy due group fault).1 = (s.lays (s.file.lay group fault)).flush := by
  unfold State.appendGroup
  dsimp only
  split
  next h => exact Or.inl ⟨rfl, h⟩
  next =>
    refine Or.inr ?_
    split
    · exact Or.inl rfl
    · split
      · split
        · exact Or.inl rfl
        · exact Or.inr rfl
      · exact Or.inl rfl

theorem Inv.appendGroup (h : Inv s) (hc : Clear s group fault) (policy : SyncPolicy) (due : Bool) :
    Inv (s.appendGroup policy due group fault).1 := by
  rcases appendGroup_cases policy due group fault s with ⟨he, -⟩ | he | he
  · rw [he]; exact h
  · rw [he]; exact h.lays hc
  · rw [he]; exact (h.lays hc).flush

theorem crashed_size (d : Dev) (ws : List Write) (fates : List Fate) : d.size ≤ (crashed d ws fates).size := by
  induction ws generalizing d fates with
  | nil => simp [crashed]
  | cons w ws ih =>
    cases fates with
    | nil => simp [crashed]
    | cons f fates =>
      cases f with
      | kept => exact (size_le_write d w).trans (ih _ _)
      | lost => exact ih _ _
      | torn data => exact (size_le_write d _).trans (ih _ _)

theorem crashed_bytes_below {lo i : Nat} {ws : List Write} (h : ∀ w ∈ ws, lo ≤ w.off) (hi : i < lo) (d : Dev) (fates : List Fate) :
    (crashed d ws fates).bytes i = d.bytes i := by
  induction ws generalizing d fates with
  | nil => simp [crashed]
  | cons w ws ih =>
    have hw := h w (by simp)
    have hws : ∀ w ∈ ws, lo ≤ w.off := fun v hv => h v (by simp [hv])
    cases fates with
    | nil => simp [crashed]
    | cons f fates =>
      cases f with
      | kept => exact (ih hws _ _).trans (write_bytes_outside (Or.inl (by omega)))
      | lost => exact ih hws _ _
      | torn data => exact (ih hws _ _).trans (write_bytes_outside (Or.inl (by dsimp only; omega)))

/-- After the crash, an intact segment where the flushed part ends or where a segment appended since ends is the file's own, or one
of the group in flight: no torn write verifies, and nothing abandoned stands there. The counter and the lengths of the group in
flight fit their 64 bits. -/
structure Cut (s : State) (group : List Pending) (fates : List Fate) : Prop where
  seq : s.file.globalSeq + group.length < 2 ^ 64
  len : ∀ p ∈ group, p.payload.length < 2 ^ 64
  own : ∀ b ∈ (s.flushed.map Seg.stop).getLastD pageSize :: (s.young ++ s.file.segs group).map Seg.stop,
    ∀ x, segAt (s.crashedDev group fates) (s.crashedDev group fates).size b = some x → x ∈ s.young ++ s.file.segs group

theorem chain_last {d : Dev} {size off e : Nat} {xs : List Seg} (h : Chain d size off xs e) : (xs.map Seg.stop).getLastD off = e := by
  induction xs generalizing off with
  | nil => exact h
  | cons x xs ih => rw [List.map_cons, List.getLastD_cons]; exact ih h.2

theorem chain_own {d : Dev} {size b e : Nat} {ys rs : List Seg} (hc : Chain d size b ys e)
    (hb : ∀ x, segAt d size b = some x → x ∈ rs) (hown : ∀ y ∈ rs, ∀ x, segAt d size y.stop = some x → x ∈ rs) :
    ∀ y ∈ ys, y ∈ rs := by
  induction ys generalizing b with
  | nil => simp
  | cons y ys ih =>
    intro z hz
    rcases List.mem_cons.mp hz with rfl | hz
    · exact hb z hc.1
    · exact ih hc.2 (hown y (hb y hc.1)) z hz

theorem reopened_inv {d : Dev} {xs : List Seg} {e : Nat} (hc : Chain d d.size pageSize xs e) (he : segAt d d.size e = none)
    (hi : xs.Pairwise (fun a b => a.header.globalSeq < b.header.globalSeq)) : (reopened d).log = xs ∧ Inv (reopened d) := by
  have ho := openOnDevice_chain hc he
  have ht := tailSegs_chain hc he
  have hlog : (reopened d).log = xs := by rw [State.log, reopened, ht, List.append_nil]
  refine ⟨hlog, ⟨?_, ?_, by rw [hlog]; exact hi, ?_, ⟨e, ?_, by simp [reopened]⟩⟩⟩
  · rw [hlog]
    simp only [reopened, State.live, Dev.writes, List.foldl_nil, ho]
    exact hc
  · simp only [reopened, State.live, Dev.writes, List.foldl_nil, ho]
    exact he
  · rw [hlog]
    simp only [reopened, ho]
    exact (le_maxSeq _ _).2
  · simp only [reopened, ht]
    exact hc

/-- The flushed part survives a crash whole, and behind it a first part of what was appended since or was in flight. -/
theorem Inv.crash (h : Inv s) {fates : List Fate} (hcut : Cut s group fates) :
    Inv (s.crash group fates) ∧ ∃ m, (s.crash group fates).log = s.flushed ++ (s.young ++ s.file.segs group).take m := by
  have hl := lay_lays group s.file .none s.live hcut.seq hcut.len
  obtain ⟨base, hbase, hsince⟩ := h.durable
  obtain ⟨hle, hyoung⟩ := h.base_le hbase
  have habove : ∀ w ∈ s.since ++ (s.file.lay group .none).writes, base ≤ w.off := by
    intro w hw
    rcases List.mem_append.mp hw with hw | hw
    · exact hsince w hw
    · exact hle.trans (hl.above w hw)
  have hsize : s.synced.size ≤ (s.crashedDev group fates).size := crashed_size _ _ _
  have hold : Chain (s.crashedDev group fates) (s.crashedDev group fates).size pageSize s.flushed base :=
    chain_congr hbase (fun i hi => crashed_bytes_below habove hi s.synced fates) hsize hsize
  obtain ⟨ys, e, hys, he⟩ := exists_chain (s.crashedDev group fates) (s.crashedDev group fates).size base
  -- what the append in flight would have made of the file
  have hgrow := size_le_writes s.live (s.file.lay group .none).writes
  have hfull := chain_append.mpr ⟨s.file.cursor, chain_congr hyoung (fun i hi => writes_bytes_below hl.above hi _) hgrow hgrow, hl.chain⟩
  have hlast : (s.flushed.map Seg.stop).getLastD pageSize = base := chain_last hbase
  have hmem := chain_own hys (hcut.own _ (by rw [hlast]; exact List.mem_cons_self)) fun y hy =>
    hcut.own _ (List.mem_cons_of_mem _ (List.mem_map_of_mem hy))
  obtain ⟨m, hm⟩ := chain_take hfull hys hmem
  have hpairs : (s.flushed ++ ys).Pairwise (fun a b => a.header.globalSeq < b.header.globalSeq) := by
    have hall : (s.log ++ s.file.segs group).Pairwise (fun a b => a.header.globalSeq < b.header.globalSeq) := by
      refine List.pairwise_append.mpr ⟨h.increasing, hl.increasing, fun x hx y hy => ?_⟩
      have := h.bounded x hx
      have := (hl.bound y hy).1
      omega
    rw [State.log, List.append_assoc] at hall
    rw [hm]
    exact hall.sublist ((List.take_sublist _ _).append_left _)
  obtain ⟨hlog, hinv⟩ := reopened_inv (chain_append.mpr ⟨base, hold, hys⟩) he hpairs
  exact ⟨hinv, m, hlog.trans (congrArg (s.flushed ++ ·) hm)⟩

end Aki.Akifile
