import Aki.StorePlace

namespace Aki.Sqlo1b

/-- The type layer's readers of root, segment and fence payloads. -/
structure RootCodec where
  reconcileRef : List UInt8 → Option Nat
  rollbackRef : List UInt8 → Option Nat
  segCounts : List UInt8 → Option (Nat × Int)
  /-- The outer `none` is a payload that does not decode, the inner one a root without pages. -/
  reconcilePages : List UInt8 → Option (Option (List Nat))
  fencePageSegids : List UInt8 → Option (List Nat)
  reconcileFence : List UInt8 → Option (List Nat)
  reconcileRoot : List UInt8 → Int → Int → Option (List UInt8)

inductive Op
  | put (r : SeamRecord)
  | del (key : Key)
deriving DecidableEq

structure Bump where
  rooth : Nat
  newGen : Nat
deriving DecidableEq

structure Batch where
  seq : Int
  ops : List Op
  bumps : List Bump
deriving DecidableEq

/-- One step of a batch, encoded before anything is emitted; an elided root has no frame. -/
inductive Planned
  | put (r : Record)
  | elided (r : Record)
  | del (key : Key)
  | bump (b : Bump)
  | mark (seq : Int)

namespace Planned

def frame? : Planned → Option Frame
  | .put r => some (.put r)
  | .elided _ => none
  | .del k => some (.del k)
  | .bump b => some (.genbump (genKey b.rooth) b.newGen)
  | .mark seq => some (.mark seq)

/-- What the placement pass lays down. -/
def record? : Planned → Option Record
  | .put r => some r
  | .elided r => some r
  | _ => none

end Planned

section Plan

variable (c : RootCodec)

def planPut (r : SeamRecord) : Option (List Planned) :=
  if (r.delta && !r.root) || (r.fence && r.root) || (r.fence && decide (r.gen = 0)) then none
  else
    let rec' := seamRecord r
    let refs := if rec'.rtype = .root then (c.reconcileRef rec'.value, c.rollbackRef rec'.value) else (none, none)
    match refs with
    | (some rooth, _) =>
      if r.delta then some [.elided rec']
      else if (rootkeyRecord rooth rec'.key).validateEnvelope && rec'.validateEnvelope then
        some [.put (rootkeyRecord rooth rec'.key), .put rec']
      else none
    | (none, some rooth) =>
      if (rootkeyRecord rooth rec'.key).validateEnvelope && rec'.validateEnvelope then
        some [.put (rootkeyRecord rooth rec'.key), .put rec']
      else none
    | (none, none) => if rec'.validateEnvelope then some [.put rec'] else none

def planOp : Op → Option (List Planned)
  | .put r => planPut c r
  | .del k => if k.length = 0 ∨ 2 ^ 16 ≤ k.length then none else some [.del k]

def planBump (b : Bump) : Option Planned := if b.newGen = 0 then none else some (.bump b)

/-- Every frame of the batch, its high-water mark last; `none` rejects the batch. -/
def plan (b : Batch) : Option (List Planned) :=
  match b.ops.mapM (planOp c), b.bumps.mapM planBump with
  | some ops, some bumps => some (ops.flatten ++ bumps ++ [.mark b.seq])
  | _, _ => none

end Plan

/-- Records under a subkey sort on their root hash, all others on 0. -/
def placementRooth (r : Record) : Nat :=
  if r.planed ∧ r.key.length = subkeySize then leNat (r.key.take 8) else 0

def placementClass (r : Record) : Nat := if r.encodedLen = 0 then 0 else Nat.log2 r.encodedLen + 1

def placedBefore (a b : Record) : Bool :=
  decide (placementRooth a < placementRooth b) ||
    (decide (placementRooth a = placementRooth b) && decide (placementClass a ≤ placementClass b))

namespace Store

def setRec (s : Store) (r : Record) : Store := { s with recs := Function.update s.recs r.key (some r) }

def applyDel (s : Store) (key : Key) : Store := { s with recs := Function.update s.recs key none }

/-- Encoding validates the envelope once more. -/
def place (s : Store) (r : Record) : Option Store :=
  if r.validateEnvelope then (s.appendVlog r.encodedLen).map Prod.fst else none

def placeAll (s : Store) : List Record → Option Store
  | [] => some s
  | r :: rs =>
    match s.place r with
    | none => none
    | some s' => s'.placeAll rs

/-- The recovery path places and indexes one record at a time. -/
def applyPut (s : Store) (r : Record) : Option Store := (s.place r).map (·.setRec r)

/-- Generations only rise; a bump at or below the recorded one does nothing. -/
def applyGenbump (s : Store) (key : Key) (newgen : Nat) : Option Store :=
  match s.recs key with
  | none => s.applyPut (genRecord key newgen)
  | some old =>
    match genOf old with
    | none => none
    | some g => if newgen ≤ g then some s else s.applyPut (genRecord key newgen)

def indexStep (s : Store) : Planned → Option Store
  | .put r => some (s.setRec r)
  | .elided r => some (s.setRec r)
  | .del k => some (s.applyDel k)
  | .bump b => s.applyGenbump (genKey b.rooth) b.newGen
  | .mark _ => some s

def indexAll (s : Store) : List Planned → Option Store
  | [] => some s
  | p :: ps =>
    match s.indexStep p with
    | none => none
    | some s' => s'.indexAll ps

def install (s : Store) (ps : List Planned) : Option Store :=
  match s.placeAll ((ps.filterMap Planned.record?).mergeSort placedBefore) with
  | none => none
  | some s' => s'.indexAll ps

end Store

/-- What a call meets: whether its context still stands, and whether the sidecar's write and its sync succeed. -/
structure CallIO where
  stands : Bool
  writes : Bool
  syncs : Bool
deriving DecidableEq

inductive Outcome
  | ok
  /-- an error before the mark was synced -/
  | rejected
  /-- an error past it -/
  | poisoned
deriving DecidableEq

section

variable (c : RootCodec)

def Store.applyBatch (io : CallIO) (s : Store) (b : Batch) : Store × Outcome :=
  if s.broken then (s, .rejected)
  else if !io.stands then (s, .rejected)
  else if b.seq ≤ s.hw then (s, .ok)
  else
    match plan c b with
    | none => (s, .rejected)
    | some ps =>
      match s.wal.appendAll (ps.filterMap Planned.frame?) with
      | (w, false) => ({ s with wal := w }, .rejected)
      | (w, true) =>
        match w.flush io.writes with
        | none => ({ s with wal := w }, .rejected)
        | some w' =>
          if io.syncs then
            match ({ s with wal := w'.sync }).install ps with
            | none => ({ s with wal := w'.sync, broken := true }, .poisoned)
            | some s' => ({ s' with hw := b.seq }, .ok)
          else ({ s with wal := w' }, .rejected)

def Store.launch (s : Store) (b : Batch) : Option Wal :=
  if s.broken ∨ b.seq ≤ s.hw then none
  else
    match plan c b with
    | none => none
    | some ps =>
      match s.wal.appendAll (ps.filterMap Planned.frame?) with
      | (_, false) => none
      | (w, true) => w.flush true

/-- The frames past the synced ones that a crash may leave in the sidecar, while the batch is in flight. -/
def Store.unsynced (s : Store) (b : Option Batch) : List Frame := ((b.bind (s.launch c)).getD s.wal).tail

end

def Frame.isMark : Frame → Bool
  | .mark _ => true
  | _ => false

def Frame.isGenbump : Frame → Bool
  | .genbump _ _ => true
  | _ => false

def Frame.isData : Frame → Bool
  | .put _ => true
  | .del _ => true
  | _ => false

def Frame.sealedExt : Frame → Option Nat
  | .sealed ext => some ext
  | _ => none

/-- The data frames of a replay; seals go to the grid. -/
def tailOps (fs : List Frame) : List Frame := fs.filter fun f => f.sealedExt.isNone

/-- Everything up to the last mark, and the generation bumps past it. -/
def truncateTail : List Frame → List Frame
  | [] => []
  | f :: fs => if f.isMark || fs.any Frame.isMark || f.isGenbump then f :: truncateTail fs else truncateTail fs

def subkind (k : Key) : Option UInt8 := if k.length = subkeySize then k[8]? else none

def isSeg (k : Key) : Bool := decide (subkind k = some 1)

def isFence (k : Key) : Bool := decide (subkind k = some 3)

def isAux (k : Key) : Bool := (subkind k).any fun b => decide (b ≠ 0 ∧ b ≠ 1 ∧ b ≠ 3)

def roothOf (k : Key) : Nat := leNat (k.take 8)

def segidOf (k : Key) : Nat := leNat (k.drop 9)

/-- A segment frame in a plane's window past its last root frame. -/
structure PlaneSegOp where
  idx : Nat
  batch : Nat
  segid : Nat
  del : Bool
  dn : Int
  minExp : Int

/-- A tail image of a fence page; `none` is a delete. -/
structure TailPageImg where
  idx : Nat
  batch : Nat
  val : Option (List UInt8)

structure Walk where
  batch : Nat
  segs : Key → Option Nat
  wins : Nat → List PlaneSegOp
  aux : Nat → List Nat
  rootRecs : Key → Option (Option Record)
  rootKeys : Nat → Option Key
  fpages : Key → List TailPageImg
  rootAt : Nat → Option Nat

def startWalk : Walk := ⟨0, fun _ => none, fun _ => [], fun _ => [], fun _ => none, fun _ => none, fun _ => [], fun _ => none⟩

section Reconcile

variable (c : RootCodec) (lookup : Key → Option Record)

namespace Walk

def addWin (w : Walk) (rooth : Nat) (o : PlaneSegOp) : Walk :=
  { w with wins := Function.update w.wins rooth (w.wins rooth ++ [o]) }

def addAux (w : Walk) (rooth i : Nat) : Walk := { w with aux := Function.update w.aux rooth (w.aux rooth ++ [i]) }

def addPage (w : Walk) (k : Key) (img : TailPageImg) : Walk :=
  { w with fpages := Function.update w.fpages k (w.fpages k ++ [img]) }

def clearWin (w : Walk) (rooth : Nat) : Walk := { w with wins := Function.update w.wins rooth [] }

def clearAux (w : Walk) (rooth : Nat) : Walk := { w with aux := Function.update w.aux rooth [] }

def delOp (w : Walk) (i : Nat) (k : Key) : Walk :=
  if isSeg k then
    { w.addWin (roothOf k) ⟨i, w.batch, segidOf k, true, 0, 0⟩ with segs := Function.update w.segs k (some 0) }
  else if isFence k then w.addPage k ⟨i, w.batch, none⟩
  else if isAux k then w.addAux (roothOf k) i
  else { w with rootRecs := Function.update w.rootRecs k (some none) }

/-- The entry count of a segment before this frame. -/
def segPre (w : Walk) (k : Key) : Nat :=
  match w.segs k with
  | some n => n
  | none => ((lookup k).bind fun r => c.segCounts r.value).elim 0 Prod.fst

def rootOp (w : Walk) (i : Nat) (r : Record) : Walk :=
  let w := { w with rootRecs := Function.update w.rootRecs r.key (some (some r)) }
  match c.reconcileRef r.value, c.rollbackRef r.value with
  | some rooth, _ => { w.clearWin rooth with rootAt := Function.update w.rootAt rooth (some i) }
  | none, some rooth => { (w.clearWin rooth).clearAux rooth with rootAt := Function.update w.rootAt rooth (some i) }
  | none, none => w

def segOp (w : Walk) (i : Nat) (r : Record) : Walk :=
  match c.segCounts r.value with
  | none => w
  | some (post, postMin) =>
    { w.addWin (roothOf r.key) ⟨i, w.batch, segidOf r.key, false, (post : Int) - w.segPre c lookup r.key, postMin⟩ with
      segs := Function.update w.segs r.key (some post) }

def putOp (w : Walk) (i : Nat) (r : Record) : Walk :=
  if r.rtype = .metadata ∧ isRootkeyKey r.key then
    { w with rootKeys := Function.update w.rootKeys (roothOf r.key) (some r.value) }
  else
    match r.rtype with
    | .fence =>
      if isFence r.key then w.addPage r.key ⟨i, w.batch, some r.value⟩
      else if isAux r.key then w.addAux (roothOf r.key) i else w
    | .seg =>
      if isSeg r.key then w.segOp c lookup i r else if isAux r.key then w.addAux (roothOf r.key) i else w
    | .root => w.rootOp c i r
    | _ => w

def op (w : Walk) (i : Nat) : Frame → Walk
  | .mark _ => { w with batch := w.batch + 1 }
  | .genbump k _ => (w.clearWin (roothOf k)).clearAux (roothOf k)
  | .del k => w.delOp i k
  | .put r => w.putOp c lookup i r
  | .sealed _ => w

def overFrom (w : Walk) : Nat → List Frame → Walk
  | _, [] => w
  | i, f :: fs => (w.op c lookup i f).overFrom (i + 1) fs

end Walk

def Frame.key? : Frame → Option Key
  | .put r => some r.key
  | .del k => some k
  | .genbump k _ => some k
  | _ => none

def tailKeys (ops : List Frame) : List Key := (ops.filterMap Frame.key?).dedup

/-- The planes with a window, an auxiliary frame or a page frame, in order. -/
def settleRooths (ops : List Frame) (w : Walk) : List Nat :=
  (((tailKeys ops).filter fun k =>
      decide (w.wins (roothOf k) ≠ []) || decide (w.aux (roothOf k) ≠ []) || decide (w.fpages k ≠ [])).map roothOf).dedup.mergeSort

/-- The page frames of the plane that sit past its last root frame. -/
def pagesPast (ops : List Frame) (w : Walk) (rooth : Nat) : List TailPageImg :=
  ((tailKeys ops).filter fun k => decide (roothOf k = rooth)).flatMap fun k =>
    (w.fpages k).filter fun img => (w.rootAt rooth).all fun at' => decide (at' < img.idx)

/-- The segments a paged root references, each page as of the root frame. -/
def pagedFence (w : Walk) (rooth : Nat) (pages : List Nat) : Option (List Nat) :=
  (pages.mapM fun pid =>
    let pkey := leBytes 8 rooth ++ 3 :: leBytes 7 pid
    let tail := (w.rootAt rooth).bind fun limit =>
      ((w.fpages pkey).filter fun img => decide (img.idx ≤ limit)).getLast?.bind TailPageImg.val
    (tail <|> (lookup pkey).map Record.value).bind c.fencePageSegids).map List.flatten

def fencedSegids (w : Walk) (rooth : Nat) (root : Record) : Option (List Nat) :=
  match c.reconcilePages root.value with
  | none => none
  | some (some pages) => pagedFence c lookup w rooth pages
  | some none => c.reconcileFence root.value

/-- The window's length up to the batch with the first structural evidence. -/
def keptLen (win : List PlaneSegOp) (fenced : List Nat) : Nat :=
  let j := win.findIdx fun o => o.del || !fenced.contains o.segid
  match win[j]? with
  | none => win.length
  | some o => ((win.take j).reverse.dropWhile fun p => decide (p.batch = o.batch)).length

def minExpire (win : List PlaneSegOp) : Int :=
  win.foldl (fun m o => if o.minExp ≠ 0 ∧ (m = 0 ∨ o.minExp < m) then o.minExp else m) 0

/-- Frames appended after the tail, and the tail indices that are skipped. -/
structure Settled where
  patches : List Frame
  dropped : List Nat

/-- A reconcilable plane: patch the counts, or roll back from the first structural frame on. -/
def settleReconcile (ops : List Frame) (w : Walk) (rooth : Nat) (root : Record) (acc : Settled) : Option Settled :=
  match fencedSegids c lookup w rooth root with
  | none => none
  | some fenced =>
    let win := w.wins rooth
    let keep := keptLen win fenced
    let pages := (win[keep]?).elim [] fun o => (pagesPast ops w rooth).filter fun img => decide (o.batch ≤ img.batch)
    let dropped := acc.dropped ++ (win.drop keep).map PlaneSegOp.idx ++ pages.map TailPageImg.idx
    let dn := ((win.take keep).map PlaneSegOp.dn).sum
    let minExp := minExpire (win.take keep)
    if dn = 0 ∧ minExp = 0 then some ⟨acc.patches, dropped⟩
    else (c.reconcileRoot root.value dn minExp).map fun v =>
      ⟨acc.patches ++ [.put { root with value := v }], dropped⟩

/-- The user key a plane belongs to, from the tail or from the index. -/
def planeKey (w : Walk) (rooth : Nat) : Option Key :=
  w.rootKeys rooth <|> (lookup (rootkeyKey rooth)).map Record.value

def planeRoot (w : Walk) (ukey : Key) : Option Record :=
  match w.rootRecs ukey with
  | some r => r
  | none => lookup ukey

def settle (ops : List Frame) (w : Walk) (acc : Settled) (rooth : Nat) : Option Settled :=
  match (planeKey lookup w rooth).bind (planeRoot lookup w) with
  | none => some acc
  | some root =>
    if root.rtype ≠ .root then some acc
    else
      match c.rollbackRef root.value with
      | some rb =>
        if rb ≠ rooth then some acc
        else some ⟨acc.patches, acc.dropped ++ (w.wins rooth).map PlaneSegOp.idx ++ w.aux rooth ++
          (pagesPast ops w rooth).map TailPageImg.idx⟩
      | none =>
        if w.wins rooth = [] ∧ w.aux rooth = [] then some acc
        else if c.reconcileRef root.value ≠ some rooth then some acc
        else settleReconcile c lookup ops w rooth root acc

def reconcileTail (ops : List Frame) : Option Settled :=
  let w := startWalk.overFrom c lookup 0 ops
  (settleRooths ops w).foldlM (settle c lookup ops w) ⟨[], []⟩

end Reconcile

/-- Each extent sealed since the superblock becomes not free. -/
def restoreGrid (g : Grid) : List Nat → Option Grid
  | [] => some g
  | ext :: exts =>
    let g := if g.extentCount ≤ ext then g.grow (ext - g.extentCount + 1) else g
    if g.state ext = .free ∨ g.state ext = .sealed then
      restoreGrid { g with states := g.states.set ext .sealed } exts
    else none

/-- The store a never checkpointed superblock describes, over the sidecar's frames. -/
def restoreStore (segSize : Nat) (fs : List Frame) : Option Store :=
  (restoreGrid (newGrid storeInitialExtents) (fs.filterMap Frame.sealedExt)).map fun g =>
    ⟨⟨segSize, fs, [], []⟩, g, idleCursor, idleCursor, none, 0, 0, fun _ => none, 0, false⟩

def Store.replayStep (s : Store) : Frame → Option Store
  | .mark seq => some { s with hw := seq }
  | .del k => some (s.applyDel k)
  | .genbump k g => s.applyGenbump k g
  | .put r => s.applyPut r
  | .sealed _ => some s

/-- Re-application of the tail; the indices reconciliation dropped are skipped. -/
def Store.replayFrom (dropped : List Nat) (s : Store) : Nat → List Frame → Option Store
  | _, [] => some s
  | i, f :: fs =>
    if dropped.contains i then s.replayFrom dropped (i + 1) fs
    else
      match s.replayStep f with
      | none => none
      | some s' => s'.replayFrom dropped (i + 1) fs

/-- Opening a store that was never checkpointed on the frames its sidecar holds. -/
def openStore (c : RootCodec) (segSize : Nat) (fs : List Frame) : Option Store :=
  match restoreStore segSize fs with
  | none => none
  | some s =>
    let ops := truncateTail (tailOps fs)
    match reconcileTail c s.recs ops with
    | none => none
    | some r => s.replayFrom r.dropped 0 (ops ++ r.patches)

def createStore (segSize : Nat) : Store :=
  ⟨⟨segSize, [], [], []⟩, newGrid storeInitialExtents, idleCursor, idleCursor, none, 0, 0, fun _ => none, 0, false⟩

end Aki.Sqlo1b
