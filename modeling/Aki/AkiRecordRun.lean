import Aki.AkiRecord

namespace Aki.Akifile

open ByteDevice LittleEndian Uvarint

/-- The file, every shard's writer and the batches sealed for a committer. Not in the program are the rows placed in the file, with
their shards and the addresses returned for them. -/
structure LogState where
  st : State
  writers : UInt16 → Writer
  handed : List (UInt16 × Writer)
  placed : List (UInt16 × Nat × RecordRow)

namespace LogState

def setWriter (s : LogState) (shard : UInt16) (w : Writer) : LogState :=
  { s with writers := fun i => if i = shard then w else s.writers i }

def logPending (shard : UInt16) (shardSeq : UInt64) (payload : List UInt8) : Pending :=
  ⟨shard, kindLog, shardSeq, 0, 0, 0, payload⟩

/-- One log segment for a batch, and the addresses of its rows. -/
def cut (policy : SyncPolicy) (due : Bool) (shard : UInt16) (shardSeq : UInt64) (w : Writer) (s : LogState) :
    LogState × Option (List Nat) :=
  let r := s.st.appendGroup policy due [logPending shard shardSeq w.pending] .none
  match r.2 with
  | (off :: _, true) =>
    let addrs := w.frames.map fun fr => off + segHeaderLen + fr.frameOff
    ({ s with st := r.1, placed := s.placed ++ (addrs.zip w.rows).map (Prod.mk shard) }, some addrs)
  | _ => ({ s with st := r.1 }, none)

def flush (policy : SyncPolicy) (due : Bool) (shard : UInt16) (shardSeq : UInt64) (s : LogState) : LogState × Option (List Nat) :=
  if (s.writers shard).frames = [] then (s, some [])
  else
    let r := s.cut policy due shard shardSeq (s.writers shard)
    match r.2 with
    | some addrs => (r.1.setWriter shard .empty, some addrs)
    | none => r

def sealBatch (shard : UInt16) (s : LogState) : LogState :=
  if (s.writers shard).frames = [] then s
  else { s.setWriter shard .empty with handed := s.handed ++ [(shard, s.writers shard)] }

def commit (policy : SyncPolicy) (due : Bool) (i : Nat) (shardSeq : UInt64) (s : LogState) : LogState × Option (List Nat) :=
  match s.handed[i]? with
  | none => (s, none)
  | some (shard, w) =>
    let r := s.cut policy due shard shardSeq w
    ({ r.1 with handed := s.handed.eraseIdx i }, r.2)

def compactRecords (policy : SyncPolicy) (due : Bool) (shard : UInt16) (shardSeq : UInt64) (live : List Nat) (s : LogState) :
    LogState × Option (List Nat) :=
  if live = [] then (s, some [])
  else
    match live.mapM (readRecordAt s.st.live) with
    | .error _ => (s, none)
    | .ok rows => s.cut policy due shard shardSeq (rows.foldl Writer.stage .empty)

end LogState

inductive LogOp where
  | stage (shard : UInt16) (row : RecordRow)
  | sealBatch (shard : UInt16)
  | commit (due : Bool) (i : Nat) (shardSeq : UInt64)
  | flush (due : Bool) (shard : UInt16) (shardSeq : UInt64)
  | compact (due : Bool) (shard : UInt16) (shardSeq : UInt64) (live : List Nat)
  | other (due : Bool) (group : List Pending)

def LogState.op (policy : SyncPolicy) (s : LogState) : LogOp → LogState
  | .stage shard row => s.setWriter shard ((s.writers shard).stage row)
  | .sealBatch shard => s.sealBatch shard
  | .commit due i shardSeq => (s.commit policy due i shardSeq).1
  | .flush due shard shardSeq => (s.flush policy due shard shardSeq).1
  | .compact due shard shardSeq live => (s.compactRecords policy due shard shardSeq live).1
  | .other due group => { s with st := (s.st.appendGroup policy due group .none).1 }

def LogState.ops (policy : SyncPolicy) (s : LogState) (os : List LogOp) : LogState := os.foldl (LogState.op policy) s

def createdLog : LogState := ⟨created, fun _ => .empty, [], []⟩

/-- The sequence number and the length of one more log segment fit their 64 bits. -/
def Room (s : LogState) (payload : List UInt8) : Prop := s.st.file.globalSeq + 1 < 2 ^ 64 ∧ payload.length < 2 ^ 64

/-- Staged rows are as the framer expects them with a body below 2^32 bytes, compaction is given addresses of rows in the file, log
segments come from the writers alone, and numbers fit. -/
def FitLogOp (s : LogState) : LogOp → Prop
  | .stage _ row => row.Wf ∧ row.body.length < 2 ^ 32
  | .sealBatch _ => True
  | .commit _ i _ => ∀ b, s.handed[i]? = some b → Room s b.2.pending
  | .flush _ shard _ => Room s (s.writers shard).pending
  | .compact _ _ _ live => (∀ a ∈ live, a ∈ s.placed.map fun p => p.2.1) ∧
      ∀ rows, live.mapM (readRecordAt s.st.live) = .ok rows → Room s (frames rows)
  | .other _ group => (∀ p ∈ group, p.kind ≠ kindLog ∧ p.payload.length < 2 ^ 64) ∧ s.st.file.globalSeq + group.length < 2 ^ 64

def FitLog (policy : SyncPolicy) : LogState → List LogOp → Prop
  | _, [] => True
  | s, o :: os => FitLogOp s o ∧ FitLog policy (s.op policy o) os

section Whole

variable {s : State}

/-- A device that ends before the cursor: the append lays all of the group down and returns its offsets. -/
theorem append_whole (group : List Pending) (h : Inv s) (hsize : s.live.size ≤ s.file.cursor) (hseq : s.file.globalSeq + group.length < 2 ^ 64)
    (hlen : ∀ p ∈ group, p.payload.length < 2 ^ 64) (policy : SyncPolicy) (due : Bool) :
    (s.appendGroup policy due group .none).2 = ((s.file.segs group).map Seg.off, true) ∧
      (s.appendGroup policy due group .none).1.log = s.log ++ s.file.segs group ∧
      Inv (s.appendGroup policy due group .none).1 ∧
      (s.appendGroup policy due group .none).1.live.size ≤ (s.appendGroup policy due group .none).1.file.cursor := by
  have hl := lay_lays group s.file .none s.live hseq hlen
  have hall : (s.file.lay group .none).landed.length = group.length := segs_length s.file group
  have hclear : Clear s group .none := by
    refine ⟨hseq, hlen, fun _ => ?_, fun hne => absurd hall hne⟩
    rw [segAt, if_neg]
    have := hl.cursor_le
    simp only [segHeaderLen]
    omega
  have hinv := h.appendGroup hclear policy due
  have hsz : (s.lays (s.file.lay group .none)).live.size ≤ (s.lays (s.file.lay group .none)).file.cursor := by
    rw [lays_live]
    change _ ≤ (s.file.lay group .none).file.cursor
    rcases writes_size_le (hl.below hall) s.live with he | hle
    · rw [he]
      exact hsize.trans hl.cursor_le
    · exact hle
  refine ⟨?_, ?_, hinv, ?_⟩
  · unfold State.appendGroup
    dsimp only
    split
    next hg => rw [hg]; rfl
    next =>
      rw [if_neg (by simp [hall])]
      split
      · rw [if_neg (by simp)]; rfl
      · rfl
  · rcases appendGroup_cases policy due group .none s with ⟨he, hg⟩ | he | he
    · rw [he, hg]; exact (List.append_nil _).symm
    · rw [he, lays_log]; rfl
    · rw [he, flush_log, lays_log]; rfl
  · rcases appendGroup_cases policy due group .none s with ⟨he, -⟩ | he | he
    · rw [he]; exact hsize
    · rw [he]; exact hsz
    · rw [he]; exact hsz

end Whole

structure LogInv (s : LogState) : Prop where
  file : Inv s.st
  ended : s.st.live.size ≤ s.st.file.cursor
  writers : ∀ shard, (s.writers shard).Ok ∧ ∀ r ∈ (s.writers shard).rows, r.body.length < 2 ^ 32
  handed : ∀ b ∈ s.handed, b.2.Ok
  rows : Rows s.st.log s.placed

variable {s : LogState} {policy : SyncPolicy}

theorem created_logInv : LogInv createdLog where
  file := created_inv
  ended := Nat.le_refl _
  writers := fun _ => ⟨Writer.empty_ok, by simp [createdLog, Writer.empty]⟩
  handed := by simp [createdLog]
  rows := .nil

theorem LogInv.setWriter (h : LogInv s) (shard : UInt16) {w : Writer} (hw : w.Ok) (hr : ∀ r ∈ w.rows, r.body.length < 2 ^ 32) :
    LogInv (s.setWriter shard w) where
  file := h.file
  ended := h.ended
  writers := by
    intro i
    change (if i = shard then w else s.writers i).Ok ∧ ∀ r ∈ (if i = shard then w else s.writers i).rows, _
    split
    · exact ⟨hw, hr⟩
    · exact h.writers i
  handed := h.handed
  rows := h.rows

/-- A batch is cut into one segment behind the file, and its rows are where the returned addresses say. -/
theorem LogInv.cut (h : LogInv s) (policy : SyncPolicy) (due : Bool) (shard : UInt16) (shardSeq : UInt64) {w : Writer} (hw : w.Ok)
    (hroom : Room s w.pending) :
    ∃ addrs, (s.cut policy due shard shardSeq w).2 = some addrs ∧ addrs.zip w.rows = placeRows (s.st.file.cursor + segHeaderLen) w.rows ∧
      addrs.length = w.rows.length ∧
      (s.cut policy due shard shardSeq w).1.placed = s.placed ++ (addrs.zip w.rows).map (Prod.mk shard) ∧
      (s.cut policy due shard shardSeq w).1.writers = s.writers ∧ (s.cut policy due shard shardSeq w).1.handed = s.handed ∧
      LogInv (s.cut policy due shard shardSeq w).1 := by
  have hlen : ∀ p ∈ [LogState.logPending shard shardSeq w.pending], p.payload.length < 2 ^ 64 := by
    intro p hp
    rw [List.mem_singleton.mp hp]
    exact hroom.2
  obtain ⟨hret, hlog, hinv, hsize⟩ := append_whole [_] h.file h.ended hroom.1 hlen policy due
  have hseg : s.st.file.segs [LogState.logPending shard shardSeq w.pending] =
      [(LogState.logPending shard shardSeq w.pending).seg s.st.file.cursor (s.st.file.globalSeq + 1)] := rfl
  have haddr : w.frames.map (fun fr => s.st.file.cursor + segHeaderLen + fr.frameOff) =
      (placeRows (s.st.file.cursor + segHeaderLen) w.rows).map Prod.fst := by
    rw [hw.table, frameTable_addrs]
    rfl
  have hzip : (w.frames.map fun fr => s.st.file.cursor + segHeaderLen + fr.frameOff).zip w.rows =
      placeRows (s.st.file.cursor + segHeaderLen) w.rows := by
    have hz := List.zip_of_prod rfl (placeRows_snd (s.st.file.cursor + segHeaderLen) w.rows)
    rw [haddr]
    exact hz.symm
  have hcut : s.cut policy due shard shardSeq w =
      ({ s with st := (s.st.appendGroup policy due [LogState.logPending shard shardSeq w.pending] .none).1,
                placed := s.placed ++ ((w.frames.map fun fr => s.st.file.cursor + segHeaderLen + fr.frameOff).zip w.rows).map
                  (Prod.mk shard) },
        some (w.frames.map fun fr => s.st.file.cursor + segHeaderLen + fr.frameOff)) := by
    rw [LogState.cut]
    dsimp only
    rw [hret, hseg]
    rfl
  rw [hcut]
  refine ⟨_, rfl, hzip, ?_, rfl, rfl, rfl, ⟨hinv, hsize, h.writers, h.handed, ?_⟩⟩
  · rw [haddr, List.length_map, placeRows_length]
  · dsimp only
    rw [hlog, hseg, hzip]
    refine h.rows.append ?_
    have hone := Rows.log ((LogState.logPending shard shardSeq w.pending).seg s.st.file.cursor (s.st.file.globalSeq + 1)) [] w.rows []
      rfl hw.pending hw.wf .nil
    rw [List.append_nil] at hone
    exact hone

theorem LogInv.readAll (h : LogInv s) {live : List Nat} (hlive : ∀ a ∈ live, a ∈ s.placed.map fun p => p.2.1) :
    ∃ rows, live.mapM (readRecordAt s.st.live) = .ok rows ∧ live.map (readRecordAt s.st.live) = rows.map Except.ok ∧
      ∀ r ∈ rows, r.Wf := by
  induction live with
  | nil => exact ⟨[], rfl, rfl, by simp⟩
  | cons a live ih =>
    obtain ⟨rows, hm, hmap, hwf⟩ := ih fun b hb => hlive b (List.mem_cons_of_mem _ hb)
    obtain ⟨p, hp, ha⟩ := List.mem_map.mp (hlive a List.mem_cons_self)
    have hr := h.rows.read h.file.chain hp
    rw [ha] at hr
    refine ⟨p.2.2 :: rows, ?_, ?_, ?_⟩
    · rw [List.mapM_cons, hr, hm]
      rfl
    · rw [List.map_cons, List.map_cons, hr, hmap]
    · intro r hr
      rcases List.mem_cons.mp hr with rfl | hr
      · exact (h.rows.mem hp).1
      · exact hwf r hr

theorem frames_nil {w : Writer} (h : w.Ok) (hf : w.frames = []) : w.rows = [] := by
  have ht := h.table
  rw [hf] at ht
  cases hr : w.rows with
  | nil => rfl
  | cons r rs => rw [hr, frameTable] at ht; exact absurd ht (by simp)

theorem LogInv.flush (h : LogInv s) (policy : SyncPolicy) (due : Bool) (shard : UInt16) (shardSeq : UInt64) (hroom : Room s (s.writers shard).pending) :
    ∃ addrs, (s.flush policy due shard shardSeq).2 = some addrs ∧ addrs.length = (s.writers shard).rows.length ∧
      (s.flush policy due shard shardSeq).1.placed = s.placed ++ (addrs.zip (s.writers shard).rows).map (Prod.mk shard) ∧
      LogInv (s.flush policy due shard shardSeq).1 := by
  unfold LogState.flush
  split
  next hf =>
    have hnil := frames_nil (h.writers shard).1 hf
    exact ⟨[], rfl, by rw [hnil]; rfl, by simp, h⟩
  next =>
    obtain ⟨addrs, hret, -, hlen, hplaced, -, -, hinv⟩ := h.cut policy due shard shardSeq (h.writers shard).1 hroom
    dsimp only
    rw [hret]
    exact ⟨addrs, rfl, hlen, hplaced, hinv.setWriter shard Writer.empty_ok (by simp [Writer.empty])⟩

theorem LogInv.compact (h : LogInv s) (policy : SyncPolicy) (due : Bool) (shard : UInt16) (shardSeq : UInt64) {live : List Nat}
    (hfit : FitLogOp s (.compact due shard shardSeq live)) :
    ∃ addrs rows, (s.compactRecords policy due shard shardSeq live).2 = some addrs ∧ addrs.length = rows.length ∧
      live.map (readRecordAt s.st.live) = rows.map Except.ok ∧
      (s.compactRecords policy due shard shardSeq live).1.placed = s.placed ++ (addrs.zip rows).map (Prod.mk shard) ∧
      LogInv (s.compactRecords policy due shard shardSeq live).1 := by
  unfold LogState.compactRecords
  split
  next hl => exact ⟨[], [], rfl, rfl, by rw [hl]; rfl, by simp, h⟩
  next =>
    obtain ⟨rows, hm, hmap, hwf⟩ := h.readAll hfit.1
    rw [hm]
    dsimp only
    obtain ⟨hok, hrows⟩ := Writer.empty_ok.stageAll hwf
    rw [show Writer.empty.rows ++ rows = rows from rfl] at hrows
    have hroom : Room s (rows.foldl Writer.stage Writer.empty).pending := by
      rw [hok.pending, hrows]
      exact hfit.2 rows hm
    obtain ⟨addrs, hret, -, hlen, hplaced, -, -, hinv⟩ := h.cut policy due shard shardSeq hok hroom
    rw [hrows] at hlen hplaced
    exact ⟨addrs, rows, hret, hlen, hmap, hplaced, hinv⟩

theorem LogInv.op (h : LogInv s) {o : LogOp} (hfit : FitLogOp s o) : LogInv (s.op policy o) := by
  cases o with
  | stage shard row =>
    refine h.setWriter shard ((h.writers shard).1.stage hfit.1) fun r hr => ?_
    rcases List.mem_append.mp hr with hr | hr
    · exact (h.writers shard).2 r hr
    · rw [List.mem_singleton.mp hr]
      exact hfit.2
  | sealBatch shard =>
    change LogInv (s.sealBatch shard)
    unfold LogState.sealBatch
    split
    · exact h
    · have hset := h.setWriter shard Writer.empty_ok (by simp [Writer.empty])
      refine ⟨hset.file, hset.ended, hset.writers, fun b hb => ?_, hset.rows⟩
      rcases List.mem_append.mp hb with hb | hb
      · exact h.handed b hb
      · rw [List.mem_singleton.mp hb]
        exact (h.writers shard).1
  | commit due i shardSeq =>
    change LogInv (s.commit policy due i shardSeq).1
    unfold LogState.commit
    split
    next => exact h
    next shard w he =>
      obtain ⟨-, -, -, -, -, -, -, hinv⟩ := h.cut policy due shard shardSeq (h.handed _ (List.mem_of_getElem? he)) (hfit _ he)
      exact ⟨hinv.file, hinv.ended, hinv.writers, fun b hb => h.handed b (List.mem_of_mem_eraseIdx hb), hinv.rows⟩
  | flush due shard shardSeq =>
    obtain ⟨-, -, -, -, hinv⟩ := h.flush policy due shard shardSeq hfit
    exact hinv
  | compact due shard shardSeq live =>
    obtain ⟨-, -, -, -, -, -, hinv⟩ := h.compact policy due shard shardSeq hfit
    exact hinv
  | other due group =>
    obtain ⟨-, hlog, hinv, hsize⟩ := append_whole group h.file h.ended hfit.2 (fun p hp => (hfit.1 p hp).2) policy due
    refine ⟨hinv, hsize, h.writers, h.handed, ?_⟩
    change Rows (s.st.appendGroup policy due group .none).1.log s.placed
    have hothers : Rows (s.st.file.segs group) [] := Rows.others fun x hx => by
      obtain ⟨p, hp, he⟩ := segs_kind _ _ hx
      rw [he]
      exact (hfit.1 p hp).1
    rw [hlog, ← List.append_nil s.placed]
    exact h.rows.append hothers

theorem LogInv.ops (h : LogInv s) {os : List LogOp} (hfit : FitLog policy s os) : LogInv (s.ops policy os) := by
  induction os generalizing s with
  | nil => exact h
  | cons o os ih => exact ih (h.op hfit.1) hfit.2

/-- The walk yields the rows placed, in order and at the addresses returned for them, and so does the walk of one shard; every such
address reads its row back; a staged row reads back as the row the next flush places at its index; and compaction returns, index by
index, addresses of the same rows. -/
structure Faithful (policy : SyncPolicy) (s : LogState) : Prop where
  walk : walkRecords s.st.live s.st.file.cursor pageSize = (s.placed.map Prod.snd, none)
  shard : ∀ shard, walkShardRecords shard s.st.live s.st.file.cursor pageSize =
    ((s.placed.filter fun p => decide (p.1 = shard)).map Prod.snd, none)
  read : ∀ p ∈ s.placed, readRecordAt s.st.live p.2.1 = .ok p.2.2
  flush : ∀ due shard shardSeq, Room s (s.writers shard).pending → ∃ addrs, (s.flush policy due shard shardSeq).2 = some addrs ∧
    addrs.length = (s.writers shard).rows.length ∧
    (s.flush policy due shard shardSeq).1.placed = s.placed ++ (addrs.zip (s.writers shard).rows).map (Prod.mk shard) ∧
    ∀ (i : Nat) (row : RecordRow), (s.writers shard).rows[i]? = some row → (s.writers shard).readStaged i = .ok row ∧
      ∃ a, addrs[i]? = some a ∧ readRecordAt (s.flush policy due shard shardSeq).1.st.live a = .ok row
  compact : ∀ due shard shardSeq live, FitLogOp s (.compact due shard shardSeq live) →
    ∃ addrs, (s.compactRecords policy due shard shardSeq live).2 = some addrs ∧
      addrs.map (readRecordAt (s.compactRecords policy due shard shardSeq live).1.st.live) = live.map (readRecordAt s.st.live) ∧
      ∀ a ∈ live, ∃ row, readRecordAt s.st.live a = .ok row

theorem zip_getElem {α β : Type} {as : List α} {bs : List β} (hlen : as.length = bs.length) {i : Nat} {b : β} (hb : bs[i]? = some b) :
    ∃ a, as[i]? = some a ∧ (a, b) ∈ as.zip bs := by
  obtain ⟨hi, he⟩ := List.getElem?_eq_some_iff.mp hb
  have hi' : i < as.length := by omega
  refine ⟨as[i], List.getElem?_eq_getElem hi', ?_⟩
  rw [List.mem_iff_getElem]
  exact ⟨i, by rw [List.length_zip]; omega, by rw [List.getElem_zip, he]⟩

/-- In every run whose staged rows are as the framer expects them, with bodies below 2^32 bytes, the record log is faithful. -/
theorem record_log_faithful (policy : SyncPolicy) (os : List LogOp) (hfit : FitLog policy createdLog os) :
    Faithful policy (createdLog.ops policy os) := by
  have h := created_logInv.ops hfit
  obtain ⟨hwalk, hshard⟩ := h.rows.walk h.file.chain
  refine ⟨hwalk, hshard, fun p hp => h.rows.read h.file.chain hp, fun due shard shardSeq hroom => ?_,
    fun due shard shardSeq live hl => ?_⟩
  · obtain ⟨addrs, hret, hlen, hplaced, hinv⟩ := h.flush policy due shard shardSeq hroom
    refine ⟨addrs, hret, hlen, hplaced, fun i row hi => ⟨?_, ?_⟩⟩
    · exact (h.writers shard).1.readStaged hi ((h.writers shard).2 row (List.mem_of_getElem? hi))
    · obtain ⟨a, ha, hm⟩ := zip_getElem hlen hi
      refine ⟨a, ha, hinv.rows.read hinv.file.chain (p := (shard, a, row)) ?_⟩
      rw [hplaced]
      exact List.mem_append_right _ (List.mem_map_of_mem hm)
  · obtain ⟨addrs, rows, hret, hlen, hmap, hplaced, hinv⟩ := h.compact policy due shard shardSeq hl
    refine ⟨addrs, hret, ?_, fun a ha => ?_⟩
    · rw [hmap]
      refine List.ext_getElem (by simp [hlen]) fun i h₁ h₂ => ?_
      simp only [List.getElem_map]
      rw [List.length_map] at h₁ h₂
      obtain ⟨a, ha, hm⟩ := zip_getElem hlen (List.getElem?_eq_getElem h₂)
      rw [List.getElem?_eq_getElem h₁] at ha
      rw [Option.some.inj ha]
      refine hinv.rows.read hinv.file.chain (p := (shard, a, rows[i])) ?_
      rw [hplaced]
      exact List.mem_append_right _ (List.mem_map_of_mem hm)
    · have hm := List.mem_map_of_mem (f := readRecordAt (createdLog.ops policy os).st.live) ha
      rw [hmap] at hm
      obtain ⟨row, -, he⟩ := List.mem_map.mp hm
      exact ⟨row, he.symm⟩

/-- A one-byte value inline under a one-byte key. -/
def smallRow : RecordRow := ⟨2, 0, 1, 0, [7], [8]⟩

theorem smallRow_wf : smallRow.Wf := ⟨by decide, by decide, by decide +kernel⟩

theorem smallRow_logged :
    FitLog .always createdLog [.stage 0 smallRow, .flush false 0 1, .stage 0 smallRow] ∧
      Faithful .always (createdLog.ops .always [.stage 0 smallRow, .flush false 0 1, .stage 0 smallRow]) ∧
      (createdLog.ops .always [.stage 0 smallRow, .flush false 0 1, .stage 0 smallRow]).placed = [(0, 16448, smallRow)] := by
  have hbody : smallRow.body.length < 2 ^ 32 := by decide +kernel
  have hroom : Room (createdLog.op .always (.stage 0 smallRow)) ((createdLog.op .always (.stage 0 smallRow)).writers 0).pending :=
    ⟨by decide +kernel, by decide +kernel⟩
  have hfit : FitLog .always createdLog [.stage 0 smallRow, .flush false 0 1, .stage 0 smallRow] :=
    ⟨⟨smallRow_wf, hbody⟩, hroom, ⟨smallRow_wf, hbody⟩, trivial⟩
  exact ⟨hfit, record_log_faithful .always _ hfit, by decide +kernel⟩

/-- A value of `n` zero bytes inline under the empty key. -/
def zerosRow (n : Nat) : RecordRow := ⟨recFlagInline, 0, UInt32.ofNat n, 0, List.replicate n 0, []⟩

theorem inline_chunked : chunkedRow recFlagInline = false := by decide

theorem inline_payload : framePayload recFlagInline = true := by decide

theorem zerosRow_body (n : Nat) : (zerosRow n).body.length = 24 + n := by
  have hslot : (zerosRow n).slot = List.replicate n 0 := by
    simp only [RecordRow.slot, zerosRow, inline_chunked, inline_payload, if_true, Bool.false_eq_true, if_false]
  rw [(zerosRow n).body_length, hslot, List.length_append, List.length_replicate]
  rfl

theorem zerosRow_wf {n : Nat} (h : n < 2 ^ 32) : (zerosRow n).Wf where
  payload := fun _ => ⟨inline_chunked, by
    change (UInt32.ofNat n).toNat = (List.replicate n (0 : UInt8)).length
    rw [List.length_replicate, UInt32.toNat_ofNat']
    exact Nat.mod_eq_of_lt h⟩
  plain := fun hf => absurd (inline_payload.symm.trans hf) (by decide)
  fits := by
    rw [zerosRow_body]
    omega

theorem zerosRow_readStaged {n : Nat} (h : (24 + n) % 2 ^ 32 < 24) : (Writer.empty.stage (zerosRow n)).readStaged 0 = .error .short := by
  have hlen : (UInt32.ofNat (zerosRow n).body.length).toNat = (24 + n) % 2 ^ 32 := by
    rw [zerosRow_body, UInt32.toNat_ofNat']
  have hframes : (Writer.empty.stage (zerosRow n)).frames[0]? = some (appendRecordFrame [] (zerosRow n)).2 := rfl
  rw [Writer.readStaged, hframes]
  dsimp only [appendRecordFrame]
  rw [hlen, parseRecordBody, if_pos]
  rw [List.length_take]
  exact Nat.lt_of_le_of_lt (Nat.min_le_left _ _) h

/-- The frame keeps the length of its body in 32 bits, so a staged row with the longest inline value does not read back. -/
theorem longest_row_not_read :
    (zerosRow (2 ^ 32 - 1)).Wf ∧ (Writer.empty.stage (zerosRow (2 ^ 32 - 1))).rows[0]? = some (zerosRow (2 ^ 32 - 1)) ∧
      (Writer.empty.stage (zerosRow (2 ^ 32 - 1))).readStaged 0 = .error .short :=
  ⟨zerosRow_wf (by decide), rfl, zerosRow_readStaged (by decide)⟩

end Aki.Akifile
