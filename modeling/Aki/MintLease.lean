import Aki.StoreReplaySpec

namespace Aki.Sqlo1b

def maxRoothCounter : Nat := 2 ^ 48 - 1

/-- The mark past a lease of `n` counters from `start`, inside the 48-bit counter space. -/
def leaseEnd (start n : Nat) : Option Nat :=
  if n = 0 then none
  else if maxRoothCounter + 1 < start ∨ maxRoothCounter + 1 - start < n then none
  else some (start + n)

/-- The kind-0 subkey whose segment bytes spell lease. -/
def leaseKey : Key := List.replicate 9 0 ++ [108, 101, 97, 115, 101, 0, 0]

def leaseValueSize : Nat := 8

def leaseRecord (mark : Nat) : Record := ⟨.metadata, leaseKey, leBytes leaseValueSize mark, none, none⟩

def leaseOf (r : Record) : Option Nat :=
  if r.rtype = .metadata ∧ r.value.length = leaseValueSize then some (leNat r.value) else none

/-- The sidecar's frames with those the batch path does not write: leases and checkpoint notes. -/
inductive SideFrame
  | data (f : Frame)
  | lease (mark : Nat)
  | ckpt (superSeq : Nat)
deriving DecidableEq

namespace SideFrame

def len : SideFrame → Nat
  | .data f => f.len
  | .lease mark => (Frame.put (leaseRecord mark)).len
  | .ckpt _ => walHdrSize + 8

/-- The frames recovery hands to the store. -/
def isOp : SideFrame → Bool
  | .data f => f.sealedExt.isNone
  | .lease _ => true
  | .ckpt _ => false

def isMark : SideFrame → Bool
  | .data f => f.isMark
  | _ => false

/-- Kept past the last mark: bumps and leases are synced on their own. -/
def standalone : SideFrame → Bool
  | .data f => f.isGenbump
  | .lease _ => true
  | .ckpt _ => false

/-- What the reconciling walk sees; it passes over a lease as over a seal. -/
def walked : SideFrame → Frame
  | .data f => f
  | _ => .sealed 0

end SideFrame

/-- The sidecar: synced frames, frames written since, and the append buffer. A frame's number is its place. -/
structure Sidecar where
  segSize : Nat
  log : List SideFrame
  tail : List SideFrame
  buf : List SideFrame

namespace Sidecar

def append (w : Sidecar) (f : SideFrame) : Option Sidecar :=
  if w.segSize < f.len then none else some { w with buf := w.buf ++ [f] }

/-- The appends of one call, up to the first that is refused. -/
def appendAll (w : Sidecar) : List SideFrame → Sidecar × Bool
  | [] => (w, true)
  | f :: fs =>
    match w.append f with
    | none => (w, false)
    | some w' => w'.appendAll fs

/-- A flush that fails keeps the buffer. -/
def flush (w : Sidecar) (writes : Bool) : Option Sidecar :=
  if w.buf = [] then some w
  else if w.segSize < (w.buf.map SideFrame.len).sum then none
  else if writes then some { w with tail := w.tail ++ w.buf, buf := [] } else none

def sync (w : Sidecar) : Sidecar := { w with log := w.log ++ w.tail, tail := [] }

/-- The number of the last appended frame, flushed or not. -/
def lastSeq (w : Sidecar) : Nat := w.log.length + w.tail.length + w.buf.length

end Sidecar

abbrev RecMap := Key → Option Record

namespace RecMap

def putRec (m : RecMap) (r : Record) : RecMap := Function.update m r.key (some r)

def delRec (m : RecMap) (k : Key) : RecMap := Function.update m k none

/-- Generations only rise. -/
def bumpRec (m : RecMap) (key : Key) (newgen : Nat) : Option RecMap :=
  match m key with
  | none => some (m.putRec (genRecord key newgen))
  | some old =>
    match genOf old with
    | none => none
    | some g => if newgen ≤ g then some m else some (m.putRec (genRecord key newgen))

/-- The recorded lease mark, 0 when nothing was leased; `none` is a record that does not read as one. -/
def currentLease (m : RecMap) : Option Nat :=
  match m leaseKey with
  | none => some 0
  | some r => leaseOf r

/-- The mark only rises. -/
def applyLease (m : RecMap) (mark : Nat) : Option RecMap :=
  match m leaseKey with
  | none => some (m.putRec (leaseRecord mark))
  | some old =>
    match leaseOf old with
    | none => none
    | some oldMark => if mark ≤ oldMark then some m else some (m.putRec (leaseRecord mark))

def index (m : RecMap) : Planned → Option RecMap
  | .put r => some (m.putRec r)
  | .elided r => some (m.putRec r)
  | .del k => some (m.delRec k)
  | .bump b => m.bumpRec (genKey b.rooth) b.newGen
  | .mark _ => some m

def replay (m : RecMap) : SideFrame → Option RecMap
  | .data (.put r) => some (m.putRec r)
  | .data (.del k) => some (m.delRec k)
  | .data (.genbump k g) => m.bumpRec k g
  | .data _ => some m
  | .lease mark => m.applyLease mark
  | .ckpt _ => some m

/-- Re-application of the tail; the indices reconciliation dropped are skipped. -/
def replayFrom (dropped : List Nat) (m : RecMap) : Nat → List SideFrame → Option RecMap
  | _, [] => some m
  | i, f :: fs =>
    if dropped.contains i then m.replayFrom dropped (i + 1) fs
    else
      match m.replay f with
      | none => none
      | some m' => m'.replayFrom dropped (i + 1) fs

end RecMap

/-- A committed superblock, with the map its pages hold. -/
structure MintSuper where
  seq : Nat
  trim : Nat
  recs : RecMap
  hw : Int

/-- A store with its checkpoints. Besides the superblock it runs on, `written` are those that commits with an error may have
left on disk; `leases` are the ranges handed out so far. -/
structure MintStore where
  wal : Sidecar
  recs : RecMap
  hw : Int
  broken : Bool
  sb : MintSuper
  written : List MintSuper
  leases : List (Nat × Nat)

/-- What placing records in the data file did: whether it went through, and the extents it sealed, whose frames wait in the
sidecar's buffer. -/
structure Placing where
  ok : Bool
  seals : List Nat
deriving DecidableEq

def sealFrames (exts : List Nat) : List SideFrame := exts.map fun ext => .data (.sealed ext)

/-- Where a checkpoint ends. -/
inductive CkptFault
  | done
  /-- before the superblock is written -/
  | early
  /-- the superblock's write or its sync -/
  | commit
  /-- the flush of the note in the sidecar -/
  | note
deriving DecidableEq

namespace MintStore

/-- Frames that wait for a sync, synced with the call. -/
def emit (s : MintStore) (io : CallIO) (fs : List SideFrame) : MintStore × Bool :=
  match s.wal.appendAll fs with
  | (w, false) => ({ s with wal := w }, false)
  | (w, true) =>
    match w.flush io.writes with
    | none => ({ s with wal := w }, false)
    | some w' => if io.syncs then ({ s with wal := w'.sync }, true) else ({ s with wal := w' }, false)

/-- What a call applies past its sync; an error there poisons the store. -/
def settle (s : MintStore) (place : Placing) (recs : Option RecMap) : MintStore × Bool :=
  let s := { s with wal.buf := s.wal.buf ++ sealFrames place.seals }
  match place.ok, recs with
  | true, some m => ({ s with recs := m }, true)
  | _, _ => ({ s with broken := true }, false)

/-- The range's first counter, or `none` with an error. -/
def mintLease (s : MintStore) (n : Nat) (io : CallIO) (place : Placing) : MintStore × Option Nat :=
  if s.broken ∨ io.stands = false then (s, none)
  else
    match s.recs.currentLease with
    | none => (s, none)
    | some start =>
      match leaseEnd start n with
      | none => (s, none)
      | some mark =>
        match s.emit io [.lease mark] with
        | (s, false) => (s, none)
        | (s, true) =>
          match s.settle place (s.recs.applyLease mark) with
          | (s, false) => (s, none)
          | (s, true) => ({ s with leases := s.leases ++ [(start, mark)] }, some start)

def genBump (s : MintStore) (rooth newgen : Nat) (io : CallIO) (place : Placing) : MintStore :=
  if s.broken ∨ io.stands = false ∨ newgen = 0 then s
  else
    match s.emit io [.data (.genbump (genKey rooth) newgen)] with
    | (s, false) => s
    | (s, true) => (s.settle place (s.recs.bumpRec (genKey rooth) newgen)).1

section Codec

variable (c : RootCodec)

def applyBatch (s : MintStore) (b : Batch) (io : CallIO) (place : Placing) : MintStore :=
  if s.broken ∨ io.stands = false ∨ b.seq ≤ s.hw then s
  else
    match plan c b with
    | none => s
    | some ps =>
      match s.emit io ((ps.filterMap Planned.frame?).map .data) with
      | (s, false) => s
      | (s, true) =>
        match s.settle place (ps.foldlM RecMap.index s.recs) with
        | (s, false) => s
        | (s, true) => { s with hw := b.seq }

/-- The target is frozen at the last appended frame; nothing syncs the sidecar. The pages the checkpoint writes seal extents
of their own. -/
def checkpoint (s : MintStore) (fault : CkptFault) (seals : List Nat) : MintStore :=
  if s.broken then s
  else
    let next : MintSuper := ⟨s.sb.seq + 1, s.wal.lastSeq, s.recs, s.hw⟩
    let wal := { s.wal with buf := s.wal.buf ++ sealFrames seals }
    if fault = .early then { s with wal := wal }
    else if fault = .commit then { s with wal := wal, written := next :: s.written }
    else
      match wal.append (.ckpt next.seq) with
      | none => { s with wal := wal, written := next :: s.written }
      | some w =>
        match w.flush (decide (fault = .done)) with
        | none => { s with wal := w, written := next :: s.written }
        | some w' => { s with wal := w', sb := next, written := [] }

def truncateOps : List SideFrame → List SideFrame
  | [] => []
  | f :: fs => if f.isMark || fs.any SideFrame.isMark || f.standalone then f :: truncateOps fs else truncateOps fs

/-- Opening on a superblock and the frames the sidecar still holds. -/
def openOn (x : MintSuper) (fs : List SideFrame) : Option (RecMap × List SideFrame) :=
  let past := fs.drop x.trim
  if past.any fun f => match f with | .ckpt q => decide (x.seq < q) | _ => false then none
  else
    let ops := truncateOps (past.filter SideFrame.isOp)
    match reconcileTail c x.recs (ops.map SideFrame.walked) with
    | none => none
    | some r => (x.recs.replayFrom r.dropped 0 (ops ++ r.patches.map .data)).map fun m => (m, ops)

def replayedHw (hw : Int) (ops : List SideFrame) : Int :=
  ops.foldl (fun hw f => match f with | .data (.mark seq) => seq | _ => hw) hw

/-- A crash that keeps some of the frames written since the last sync, and the open that follows. -/
def reopen (s : MintStore) (root kept : Nat) : Option MintStore :=
  let x := (s.sb :: s.written).getD root s.sb
  let fs := s.wal.log ++ s.wal.tail.take kept
  (openOn c x fs).map fun r =>
    ⟨⟨s.wal.segSize, fs, [], []⟩, r.1, replayedHw x.hw r.2, false, x, [], s.leases⟩

end Codec

end MintStore

def createMintStore (segSize : Nat) : MintStore :=
  ⟨⟨segSize, [], [], []⟩, fun _ => none, 0, false, ⟨1, 0, fun _ => none, 0⟩, [], []⟩

inductive MintOp
  | mintLease (n : Nat) (io : CallIO) (place : Placing)
  | genBump (rooth newgen : Nat) (io : CallIO) (place : Placing)
  | applyBatch (b : Batch) (io : CallIO) (place : Placing)
  | checkpoint (fault : CkptFault) (seals : List Nat)
  | close
  | reopen (root kept : Nat)

def MintStore.step (c : RootCodec) (s : MintStore) : MintOp → Option MintStore
  | .mintLease n io place => some (s.mintLease n io place).1
  | .genBump rooth newgen io place => some (s.genBump rooth newgen io place)
  | .applyBatch b io place => some (s.applyBatch c b io place)
  | .checkpoint fault seals => some (s.checkpoint fault seals)
  | .close => some { s with wal := (s.wal.flush true).getD s.wal }
  | .reopen root kept => s.reopen c root kept

namespace Walk

/-- Every place in the tail the walk remembers is one of these. -/
structure Indexed (P : Nat → Prop) (w : Walk) : Prop where
  wins : ∀ rooth, ∀ o ∈ w.wins rooth, P o.idx
  aux : ∀ rooth, ∀ i ∈ w.aux rooth, P i
  pages : ∀ k, ∀ img ∈ w.fpages k, P img.idx

namespace Indexed

variable {P : Nat → Prop} {w : Walk}

theorem addWin (h : w.Indexed P) (rooth : Nat) {o : PlaneSegOp} (ho : P o.idx) : (w.addWin rooth o).Indexed P := by
  refine ⟨fun r p hp => ?_, h.aux, h.pages⟩
  by_cases hr : r = rooth
  · subst hr
    simp only [Walk.addWin, Function.update_self, List.mem_append, List.mem_singleton] at hp
    rcases hp with hp | rfl
    · exact h.wins r p hp
    · exact ho
  · simp only [Walk.addWin, Function.update_of_ne hr] at hp
    exact h.wins r p hp

theorem addAux (h : w.Indexed P) (rooth : Nat) {i : Nat} (hi : P i) : (w.addAux rooth i).Indexed P := by
  refine ⟨h.wins, fun r j hj => ?_, h.pages⟩
  by_cases hr : r = rooth
  · subst hr
    simp only [Walk.addAux, Function.update_self, List.mem_append, List.mem_singleton] at hj
    rcases hj with hj | rfl
    · exact h.aux r j hj
    · exact hi
  · simp only [Walk.addAux, Function.update_of_ne hr] at hj
    exact h.aux r j hj

theorem addPage (h : w.Indexed P) (k : Key) {img : TailPageImg} (hi : P img.idx) : (w.addPage k img).Indexed P := by
  refine ⟨h.wins, h.aux, fun k' p hp => ?_⟩
  by_cases hk : k' = k
  · subst hk
    simp only [Walk.addPage, Function.update_self, List.mem_append, List.mem_singleton] at hp
    rcases hp with hp | rfl
    · exact h.pages k' p hp
    · exact hi
  · simp only [Walk.addPage, Function.update_of_ne hk] at hp
    exact h.pages k' p hp

theorem clearWin (h : w.Indexed P) (rooth : Nat) : (w.clearWin rooth).Indexed P := by
  refine ⟨fun r p hp => ?_, h.aux, h.pages⟩
  by_cases hr : r = rooth
  · simp [Walk.clearWin, hr] at hp
  · simp only [Walk.clearWin, Function.update_of_ne hr] at hp
    exact h.wins r p hp

theorem clearAux (h : w.Indexed P) (rooth : Nat) : (w.clearAux rooth).Indexed P := by
  refine ⟨h.wins, fun r p hp => ?_, h.pages⟩
  by_cases hr : r = rooth
  · simp [Walk.clearAux, hr] at hp
  · simp only [Walk.clearAux, Function.update_of_ne hr] at hp
    exact h.aux r p hp

theorem congr {w' : Walk} (h : w.Indexed P) (hw : w'.wins = w.wins) (ha : w'.aux = w.aux) (hp : w'.fpages = w.fpages) :
    w'.Indexed P :=
  ⟨fun r => by rw [hw]; exact h.wins r, fun r => by rw [ha]; exact h.aux r, fun k => by rw [hp]; exact h.pages k⟩

theorem op {c : RootCodec} {lookup : Key → Option Record} {i : Nat} {f : Frame} (h : w.Indexed P)
    (hf : f.isData = true → P i) : (w.op c lookup i f).Indexed P := by
  cases f with
  | mark seq => exact h.congr rfl rfl rfl
  | genbump k g => exact (h.clearWin _).clearAux _
  | sealed ext => exact h
  | del k =>
    have hi := hf rfl
    simp only [Walk.op, Walk.delOp]
    split
    · exact (h.addWin (roothOf k) hi).congr rfl rfl rfl
    · split
      · exact h.addPage k hi
      · split
        · exact h.addAux _ hi
        · exact h.congr rfl rfl rfl
  | put r =>
    have hi := hf rfl
    simp only [Walk.op, Walk.putOp]
    split
    · exact h.congr rfl rfl rfl
    · split
      · split
        · exact h.addPage r.key hi
        · split
          · exact h.addAux _ hi
          · exact h
      · split
        · unfold Walk.segOp
          split
          · exact h
          · exact (h.addWin _ hi).congr rfl rfl rfl
        · split
          · exact h.addAux _ hi
          · exact h
      · have hroot : ({ w with rootRecs := Function.update w.rootRecs r.key (some (some r)) } : Walk).Indexed P := h.congr rfl rfl rfl
        unfold Walk.rootOp
        dsimp only
        split
        · exact (hroot.clearWin _).congr rfl rfl rfl
        · exact ((hroot.clearWin _).clearAux _).congr rfl rfl rfl
        · exact hroot
      · exact h

theorem overFrom {c : RootCodec} {lookup : Key → Option Record} (fs : List Frame) {w : Walk} (h : w.Indexed P) (i : Nat)
    (hf : ∀ j f, fs[j]? = some f → f.isData = true → P (i + j)) : (w.overFrom c lookup i fs).Indexed P := by
  induction fs generalizing w i with
  | nil => exact h
  | cons f fs ih =>
    refine ih (h.op (hf 0 f rfl)) (i + 1) fun j g hg hdata => ?_
    have := hf (j + 1) g hg hdata
    rwa [Nat.add_assoc, Nat.add_comm 1 j]

end Indexed

end Walk

/-- What settling may produce: edits of the tail dropped, root records put. -/
structure Settled.Sane (P : Nat → Prop) (r : Settled) : Prop where
  dropped : ∀ i ∈ r.dropped, P i
  patches : ∀ f ∈ r.patches, ∃ rec', f = .put rec' ∧ rec'.rtype = .root

theorem pagesPast_sound {P : Nat → Prop} {w : Walk} (hw : w.Indexed P) (ops : List Frame) (rooth : Nat) :
    ∀ img ∈ pagesPast ops w rooth, P img.idx := by
  intro img himg
  obtain ⟨k, -, hk⟩ := List.mem_flatMap.mp himg
  exact hw.pages k img (List.mem_of_mem_filter hk)

theorem settleReconcile_sane {c : RootCodec} {lookup : Key → Option Record} {P : Nat → Prop} {ops : List Frame} {w : Walk}
    {rooth : Nat} {root : Record} {acc r : Settled} (hw : w.Indexed P) (hroot : root.rtype = .root) (ha : acc.Sane P)
    (h : settleReconcile c lookup ops w rooth root acc = some r) : r.Sane P := by
  unfold settleReconcile at h
  split at h
  · cases h
  · next fenced _ =>
    dsimp only at h
    have hdrop : ∀ i ∈ acc.dropped ++ ((w.wins rooth).drop (keptLen (w.wins rooth) fenced)).map PlaneSegOp.idx ++
        (((w.wins rooth)[keptLen (w.wins rooth) fenced]?).elim [] fun o =>
          (pagesPast ops w rooth).filter fun img => decide (o.batch ≤ img.batch)).map TailPageImg.idx, P i := by
      intro i hi
      rcases List.mem_append.mp hi with hi | hi
      · rcases List.mem_append.mp hi with hi | hi
        · exact ha.dropped i hi
        · obtain ⟨o, ho, rfl⟩ := List.mem_map.mp hi
          exact hw.wins rooth o (List.mem_of_mem_drop ho)
      · obtain ⟨img, himg, rfl⟩ := List.mem_map.mp hi
        cases ho : (w.wins rooth)[keptLen (w.wins rooth) fenced]? with
        | none => simp [ho] at himg
        | some o =>
          simp only [ho, Option.elim_some] at himg
          exact pagesPast_sound hw ops rooth img (List.mem_of_mem_filter himg)
    split at h
    · cases h
      exact ⟨hdrop, ha.patches⟩
    · obtain ⟨v, -, rfl⟩ := Option.map_eq_some_iff.mp h
      refine ⟨hdrop, fun f hf => ?_⟩
      rcases List.mem_append.mp hf with hf | hf
      · exact ha.patches f hf
      · exact ⟨_, List.mem_singleton.mp hf, hroot⟩

theorem settle_sane {c : RootCodec} {lookup : Key → Option Record} {P : Nat → Prop} {ops : List Frame} {w : Walk} {rooth : Nat}
    {acc r : Settled} (hw : w.Indexed P) (ha : acc.Sane P) (h : settle c lookup ops w acc rooth = some r) : r.Sane P := by
  unfold settle at h
  split at h
  · cases h
    exact ha
  · next root _ =>
    split at h
    · cases h
      exact ha
    · next hroot =>
      have hroot : root.rtype = .root := by simpa using hroot
      split at h
      · split at h
        · cases h
          exact ha
        · cases h
          refine ⟨fun i hi => ?_, ha.patches⟩
          rcases List.mem_append.mp hi with hi | hi
          · rcases List.mem_append.mp hi with hi | hi
            · rcases List.mem_append.mp hi with hi | hi
              · exact ha.dropped i hi
              · obtain ⟨o, ho, rfl⟩ := List.mem_map.mp hi
                exact hw.wins rooth o ho
            · exact hw.aux rooth i hi
          · obtain ⟨img, himg, rfl⟩ := List.mem_map.mp hi
            exact pagesPast_sound hw ops rooth img himg
      · split at h
        · cases h
          exact ha
        · split at h
          · cases h
            exact ha
          · exact settleReconcile_sane hw hroot ha h

theorem foldlM_settle_sane {c : RootCodec} {lookup : Key → Option Record} {P : Nat → Prop} {ops : List Frame} {w : Walk}
    (hw : w.Indexed P) (rooths : List Nat) {acc r : Settled} (ha : acc.Sane P)
    (h : rooths.foldlM (settle c lookup ops w) acc = some r) : r.Sane P := by
  induction rooths generalizing acc with
  | nil =>
    cases h
    exact ha
  | cons rooth rooths ih =>
    rw [List.foldlM_cons] at h
    obtain ⟨mid, h1, h2⟩ := Option.bind_eq_some_iff.mp h
    exact ih (settle_sane hw ha h1) h2

theorem reconcileTail_sane {c : RootCodec} {lookup : Key → Option Record} {ops : List Frame} {r : Settled}
    (h : reconcileTail c lookup ops = some r) : r.Sane fun i => ∃ f, ops[i]? = some f ∧ f.isData = true := by
  refine foldlM_settle_sane (Walk.Indexed.overFrom ops ⟨fun _ _ h => absurd h List.not_mem_nil, fun _ _ h => absurd h List.not_mem_nil,
    fun _ _ h => absurd h List.not_mem_nil⟩ 0
    fun j f hf hdata => ?_) _ ⟨fun _ h => absurd h List.not_mem_nil, fun _ h => absurd h List.not_mem_nil⟩ h
  rw [Nat.zero_add]
  exact ⟨f, hf, hdata⟩

/-- No frame but a lease gives the lease key a readable record, and none takes it away. -/
def SideFrame.Clean : SideFrame → Prop
  | .data (.put r) => r.key = leaseKey → r.rtype ≠ .metadata
  | .data (.del k) => k ≠ leaseKey
  | .data (.genbump k _) => k ≠ leaseKey
  | .lease mark => mark < 2 ^ 64
  | _ => True

theorem leaseOf_leaseRecord {mark : Nat} (h : mark < 2 ^ 64) : leaseOf (leaseRecord mark) = some mark := by
  have hlen : (leBytes leaseValueSize mark).length = leaseValueSize := by simp [leBytes]
  rw [leaseOf, if_pos ⟨rfl, hlen⟩]
  simp only [leaseRecord, leNat_leBytes, leaseValueSize]
  rw [Nat.mod_eq_of_lt (by omega)]

theorem leaseOf_of_not_metadata {r : Record} (h : r.rtype ≠ .metadata) : leaseOf r = none := by
  rw [leaseOf, if_neg fun hno => h hno.1]

/-- What replay did to the lease mark: a mark read afterwards was readable before, and is at or above it and every lease
replayed. -/
def Raised (fs : List SideFrame) (m m' : RecMap) : Prop :=
  ∀ k', m'.currentLease = some k' → ∃ k, m.currentLease = some k ∧ k ≤ k' ∧ ∀ mark, .lease mark ∈ fs → mark ≤ k'

namespace Raised

variable {m m' m'' : RecMap}

theorem refl (m : RecMap) : Raised [] m m := fun k' hk => ⟨k', hk, Nat.le_refl _, fun _ h => (nomatch h)⟩

theorem trans {fs gs : List SideFrame} (h : Raised fs m m') (h' : Raised gs m' m'') : Raised (fs ++ gs) m m'' := by
  intro k'' hk''
  obtain ⟨k', hk', hle', hg⟩ := h' k'' hk''
  obtain ⟨k, hk, hle, hf⟩ := h k' hk'
  refine ⟨k, hk, Nat.le_trans hle hle', fun mark hm => ?_⟩
  rcases List.mem_append.mp hm with hm | hm
  · exact Nat.le_trans (hf mark hm) hle'
  · exact hg mark hm

theorem of_eq (h : m' leaseKey = m leaseKey) : Raised [] m m' := by
  intro k' hk'
  refine ⟨k', ?_, Nat.le_refl _, fun mark hm => absurd hm List.not_mem_nil⟩
  rw [← hk']
  simp only [RecMap.currentLease, h]

theorem other {f : SideFrame} (hf : ∀ mark, f ≠ .lease mark) (h : Raised [] m m') : Raised [f] m m' := by
  intro k' hk'
  obtain ⟨k, hk, hle, -⟩ := h k' hk'
  exact ⟨k, hk, hle, fun mark hm => absurd (List.mem_singleton.mp hm).symm (hf mark)⟩

end Raised

theorem currentLease_putRec_lease {m : RecMap} {mark : Nat} (h : mark < 2 ^ 64) :
    (m.putRec (leaseRecord mark)).currentLease = some mark := by
  have hkey : (leaseRecord mark).key = leaseKey := rfl
  simp only [RecMap.currentLease, RecMap.putRec, hkey, Function.update_self]
  exact leaseOf_leaseRecord h

theorem applyLease_raised {m m' : RecMap} {mark : Nat} (hm : mark < 2 ^ 64) (h : m.applyLease mark = some m') :
    Raised [.lease mark] m m' := by
  have hput {k : Nat} (hk : m.currentLease = some k) (hle : k ≤ mark) : Raised [.lease mark] m (m.putRec (leaseRecord mark)) := by
    intro k' hk'
    rw [currentLease_putRec_lease hm] at hk'
    cases hk'
    exact ⟨k, hk, hle, fun x hx => Nat.le_of_eq (SideFrame.lease.inj (List.mem_singleton.mp hx))⟩
  unfold RecMap.applyLease at h
  split at h
  · next hnone =>
    cases h
    exact hput (by simp only [RecMap.currentLease, hnone]) (Nat.zero_le _)
  · next old hold =>
    split at h
    · cases h
    · next oldMark hof =>
      have hcur : m.currentLease = some oldMark := by simpa only [RecMap.currentLease, hold] using hof
      split at h
      · next hle =>
        cases h
        intro k' hk'
        rw [hcur] at hk'
        cases hk'
        refine ⟨oldMark, hcur, Nat.le_refl _, fun x hx => ?_⟩
        rw [SideFrame.lease.inj (List.mem_singleton.mp hx)]
        exact hle
      · next hgt =>
        cases h
        exact hput hcur (by omega)

/-- A record of another type at the lease key makes the mark unreadable. -/
theorem putRec_raised {m : RecMap} {r : Record} (hr : r.key = leaseKey → r.rtype ≠ .metadata) : Raised [] m (m.putRec r) := by
  by_cases hk : r.key = leaseKey
  · intro k' hk'
    simp only [RecMap.currentLease, RecMap.putRec, hk, Function.update_self, leaseOf_of_not_metadata (hr hk)] at hk'
    cases hk'
  · exact .of_eq (Function.update_of_ne (Ne.symm hk) ..)

theorem bumpRec_raised {m m' : RecMap} {k : Key} {g : Nat} (hk : k ≠ leaseKey) (h : m.bumpRec k g = some m') :
    Raised [] m m' := by
  have hput : (m.putRec (genRecord k g)) leaseKey = m leaseKey := Function.update_of_ne (Ne.symm hk) ..
  unfold RecMap.bumpRec at h
  split at h
  · cases h
    exact .of_eq hput
  · split at h
    · cases h
    · split at h
      · cases h
        exact .of_eq rfl
      · cases h
        exact .of_eq hput

theorem replay_raised {m m' : RecMap} {f : SideFrame} (hf : f.Clean) (h : m.replay f = some m') : Raised [f] m m' := by
  cases f with
  | lease mark => exact applyLease_raised hf h
  | ckpt q =>
    cases h
    exact .other (fun _ => nofun) (.of_eq rfl)
  | data d =>
    have hne : ∀ mark, SideFrame.data d ≠ .lease mark := fun _ => nofun
    cases d with
    | put r =>
      cases h
      exact .other hne (putRec_raised hf)
    | del k =>
      cases h
      exact .other hne (.of_eq (Function.update_of_ne (Ne.symm hf) ..))
    | genbump k g => exact .other hne (bumpRec_raised hf h)
    | mark seq =>
      cases h
      exact .other hne (.of_eq rfl)
    | sealed ext =>
      cases h
      exact .other hne (.of_eq rfl)

theorem replayFrom_raised {dropped : List Nat} (fs : List SideFrame) {m m' : RecMap} (i : Nat) (hfs : ∀ f ∈ fs, f.Clean)
    (hdrop : ∀ j mark, fs[j]? = some (.lease mark) → i + j ∉ dropped) (h : m.replayFrom dropped i fs = some m') : Raised fs m m' := by
  induction fs generalizing m i with
  | nil =>
    cases h
    exact .refl _
  | cons f fs ih =>
    have hnext (j mark : Nat) (hj : fs[j]? = some (.lease mark)) : i + 1 + j ∉ dropped := by
      have := hdrop (j + 1) mark hj
      rwa [Nat.add_assoc, Nat.add_comm 1 j]
    have hrest := fun g hg => hfs g (List.mem_cons_of_mem f hg)
    simp only [RecMap.replayFrom] at h
    split at h
    · next hskip =>
      have hne (mark : Nat) : f ≠ .lease mark := by
        rintro rfl
        exact hdrop 0 mark rfl (by simpa using hskip)
      exact Raised.trans (.other hne (.of_eq rfl)) (ih (i + 1) hrest hnext h)
    · split at h
      · cases h
      · next hstep => exact Raised.trans (replay_raised (hfs f List.mem_cons_self) hstep) (ih (i + 1) hrest hnext h)

theorem truncateOps_sublist (fs : List SideFrame) : (MintStore.truncateOps fs).Sublist fs := by
  induction fs with
  | nil => exact .slnil
  | cons f fs ih =>
    simp only [MintStore.truncateOps]
    split
    · exact ih.cons_cons f
    · exact ih.cons f

/-- A lease is kept wherever the last mark stands. -/
theorem lease_mem_truncateOps {fs : List SideFrame} {mark : Nat} (h : .lease mark ∈ fs) : .lease mark ∈ MintStore.truncateOps fs := by
  induction fs with
  | nil => exact absurd h List.not_mem_nil
  | cons f fs ih =>
    simp only [MintStore.truncateOps]
    rcases List.mem_cons.mp h with rfl | h
    · rw [if_pos (by simp [SideFrame.standalone])]
      exact List.mem_cons_self
    · split
      · exact List.mem_cons_of_mem _ (ih h)
      · exact ih h

theorem openOn_raised {c : RootCodec} {x : MintSuper} {fs : List SideFrame} {r : RecMap × List SideFrame}
    (hfs : ∀ f ∈ fs, f.Clean) (h : MintStore.openOn c x fs = some r) : Raised (fs.drop x.trim) x.recs r.1 := by
  unfold MintStore.openOn at h
  dsimp only at h
  split at h
  · cases h
  · generalize hops : MintStore.truncateOps ((fs.drop x.trim).filter SideFrame.isOp) = ops at h
    have hclean : ∀ f ∈ ops, f.Clean := fun f hf =>
      hfs f (List.mem_of_mem_drop (List.mem_of_mem_filter ((truncateOps_sublist _).subset (hops ▸ hf))))
    split at h
    · cases h
    · next st hst =>
      have hsane := reconcileTail_sane hst
      obtain ⟨m, hm, rfl⟩ := Option.map_eq_some_iff.mp h
      have hraised := replayFrom_raised (ops ++ st.patches.map .data) 0 (fun f hf => ?_) (fun j mark hj => ?_) hm
      · intro k' hk'
        obtain ⟨k, hk, hle, hmark⟩ := hraised k' hk'
        refine ⟨k, hk, hle, fun mark hmem => hmark mark (List.mem_append_left _ ?_)⟩
        rw [← hops]
        exact lease_mem_truncateOps (List.mem_filter.mpr ⟨hmem, rfl⟩)
      · rcases List.mem_append.mp hf with hf | hf
        · exact hclean f hf
        · obtain ⟨d, hd, rfl⟩ := List.mem_map.mp hf
          obtain ⟨r', rfl, hroot⟩ := hsane.patches d hd
          exact fun _ => by rw [hroot]; decide
      · -- the walk saw the lease as a seal
        rw [Nat.zero_add]
        intro hdrop
        obtain ⟨d, hd, hdata⟩ := hsane.dropped j hdrop
        rw [List.getElem?_map] at hd
        obtain ⟨f, hf, rfl⟩ := Option.map_eq_some_iff.mp hd
        rw [List.getElem?_append_left (List.getElem?_eq_some_iff.mp hf).1, hf] at hj
        cases hj
        cases hdata

end Aki.Sqlo1b
