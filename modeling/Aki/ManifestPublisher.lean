import Aki.CondWrite
import Aki.ManifestSelect

namespace Aki.Obs1

/-- A published segment as the folder hands it on, without its placements. -/
structure FoldedSegment where
  group : Nat
  epoch : Nat
  segSeq : Nat
  size : Nat
  footerOff : Nat
  footerLen : Nat
  nRecords : Nat
  rawBytes : Nat
  coveredSeq : Nat
  ttlClass : Nat
  minExpMS : Nat
  maxExpMS : Nat
deriving DecidableEq

/-- A live commit section's coverage: frames through `last` were committed by the verdict at `pos`. -/
structure CovEntry where
  last : Nat
  pos : ChainPos
deriving DecidableEq

structure ManGroup where
  epoch : Nat
  manSeq : Nat
  foldSeq : Nat
  foldPos : ChainPos
  segs : List ManifestSeg
  cover : List CovEntry
  dirty : Bool
deriving DecidableEq

namespace ManGroup

def empty : ManGroup := ⟨0, 0, 0, ⟨0, 0⟩, [], [], false⟩

/-- `OnVerdict` on one live section: only what a later cursor can still ask for goes on the trail. -/
def onVerdict (g : ManGroup) (e : CovEntry) : ManGroup :=
  if e.last < g.foldSeq then g
  else if g.cover.getLast?.any fun c => decide (e.last ≤ c.last) then g
  else { g with cover := g.cover ++ [e] }

def row (seg : FoldedSegment) : ManifestSeg :=
  ⟨seg.segSeq, 0, seg.ttlClass, seg.size, seg.nRecords, seg.rawBytes, seg.minExpMS, seg.maxExpMS, 0, seg.footerOff, seg.footerLen⟩

/-- `OnFolded`: the row, the cursor, and the first trail entry that reaches it; none on a segment number out of order. -/
def onFolded (g : ManGroup) (seg : FoldedSegment) : Option ManGroup :=
  if g.segs.getLast?.any fun s => decide (seg.segSeq ≤ s.segSeq) then none
  else
    let foldSeq := max g.foldSeq seg.coveredSeq
    let cover := g.cover.dropWhile fun c => decide (c.last < foldSeq)
    some
      { g with
        epoch := seg.epoch
        segs := g.segs ++ [row seg]
        foldSeq := foldSeq
        cover := cover
        -- a fold no verdict on file covers keeps the position it had
        foldPos := (cover.head?.map CovEntry.pos).getD g.foldPos
        dirty := true }

def ofSeed (m : Manifest) : ManGroup := ⟨m.epoch, m.manSeq + 1, m.foldSeq, m.foldPos, m.segs, [], false⟩

end ManGroup

def chainSeqMax : Nat := 2 ^ 56 - 1

/-- The shape a manifest row must have to encode. -/
def ManifestSeg.wellFormed (s : ManifestSeg) : Bool :=
  decide (s.level ≤ 1) &&
  (if s.ttlClass = 0 then decide (s.minExpMS = 0) && decide (s.maxExpMS = 0)
    else decide (s.minExpMS ≠ 0) && decide (s.minExpMS ≤ s.maxExpMS)) &&
  decide (s.deadFrac ≤ 1000) && decide (s.footerOff + s.footerLen ≤ s.size) &&
  !(decide (s.footerLen = 0) && decide (s.size ≠ 0))

/-- What `AppendManifest` encodes; the slot plays no part in it. -/
def Manifest.builds (m : Manifest) : Bool :=
  decide (m.foldPos.seq ≤ chainSeqMax) && (m.segs.map ManifestSeg.segSeq).IsChain (· < ·) && m.segs.all ManifestSeg.wellFormed

/-- One node's publisher; `seed` and `published` record what it started from and the manifests it called back with. -/
structure ManifestPublisher where
  node : Nat
  groups : Nat → ManGroup
  queue : List Nat
  putting : Option Manifest
  closed : Bool
  seed : Nat → ManGroup
  published : List Manifest

def newManifestPublisher (node : Nat) (seeds : List Manifest) : ManifestPublisher :=
  let start := fun group => ((seeds.find? fun m => m.group = group).map ManGroup.ofSeed).getD ManGroup.empty
  ⟨node, start, [], none, false, start, []⟩

/-- The manifest slots of the bucket, each group's live verdicts along the chain, and the publisher over them, which hears
the verdicts from its own start on. -/
structure ManWorld where
  bucket : Nat → Nat → Option (Stored Manifest)
  verdicts : Nat → List CovEntry
  heardFrom : Nat → Nat
  pub : ManifestPublisher

inductive ManEvent
  | verdict (pos : ChainPos) (live : List (Nat × Nat))
  | folded (seg : FoldedSegment)
  | take
  | round (wire : Wire) (rereads : Bool)
  | close
  | abandon
  | foreign (writer slot : Nat) (m : Manifest)
  | restart (seeds : List Manifest)

namespace ManWorld

def heard (w : ManWorld) (group : Nat) : List CovEntry := (w.verdicts group).drop (w.heardFrom group)

def unheard (w : ManWorld) (group : Nat) : List CovEntry := (w.verdicts group).take (w.heardFrom group)

def setGroup (w : ManWorld) (group : Nat) (g : ManGroup) : ManWorld :=
  { w with pub := { w.pub with groups := Function.update w.pub.groups group g } }

def setCell (w : ManWorld) (group slot : Nat) (cell : Option (Stored Manifest)) : ManWorld :=
  { w with bucket := Function.update w.bucket group (Function.update (w.bucket group) slot cell) }

/-- One live section of a verdict, as the chain and the publisher get it. -/
def hear (w : ManWorld) (group : Nat) (e : CovEntry) : ManWorld :=
  { w.setGroup group ((w.pub.groups group).onVerdict e) with
    verdicts := Function.update w.verdicts group (w.verdicts group ++ [e]) }

def onFolded (w : ManWorld) (seg : FoldedSegment) : ManWorld :=
  match (w.pub.groups seg.group).onFolded seg with
  | none => w
  | some g =>
    let w' := w.setGroup seg.group g
    if (w.pub.groups seg.group).dirty then w' else { w' with pub := { w'.pub with queue := w.pub.queue ++ [seg.group] } }

/-- The group's manifest as the publisher states it next. -/
def nextManifest (w : ManWorld) (group : Nat) : Manifest :=
  let g := w.pub.groups group
  ⟨group, g.epoch, g.manSeq, g.foldPos, g.foldSeq, g.segs⟩

/-- The run goroutine takes the head of the queue; a manifest that does not encode is dropped. -/
def take (w : ManWorld) (group : Nat) (rest : List Nat) : ManWorld :=
  let m := w.nextManifest group
  let w' := w.setGroup group { w.pub.groups group with dirty := false }
  { w' with pub := { w'.pub with queue := rest, putting := if m.builds then some m else none } }

def finishPut (w : ManWorld) (m : Manifest) : ManWorld :=
  let w' := w.setGroup m.group { w.pub.groups m.group with manSeq := m.manSeq + 1 }
  { w' with pub := { w'.pub with putting := none, published := w.pub.published ++ [m] } }

/-- One round of `putManifest`: a slot another writer holds is passed over. -/
def round (w : ManWorld) (m : Manifest) (wire : Wire) (rereads : Bool) : ManWorld :=
  let r := putRound (w.bucket m.group m.manSeq) ⟨⟨w.pub.node, m.manSeq⟩, m⟩ wire rereads
  let w' := w.setCell m.group m.manSeq r.1
  match r.2 with
  | none => w'
  | some .stored => w'.finishPut m
  | some .ours => w'.finishPut m
  | some .other => { w' with pub := { w'.pub with putting := some { m with manSeq := m.manSeq + 1 } } }

def step (w : ManWorld) : ManEvent → Option ManWorld
  | .verdict pos live => some (live.foldl (fun w s => w.hear s.1 ⟨s.2, pos⟩) w)
  | .folded seg => some (w.onFolded seg)
  | .take =>
    match w.pub.queue with
    | [] => none
    | group :: rest => if w.pub.putting = none ∧ w.pub.closed = false then some (w.take group rest) else none
  | .round wire rereads => w.pub.putting.map fun m => w.round m wire rereads
  | .close => some { w with pub := { w.pub with closed := true } }
  | .abandon => if w.pub.closed then some { w with pub := { w.pub with putting := none } } else none
  | .foreign writer slot m =>
    if writer ≠ w.pub.node ∧ w.bucket m.group slot = none then some (w.setCell m.group slot (some ⟨⟨writer, slot⟩, m⟩)) else none
  -- the seeds are the winners `Recover` read from their slots, one to a group
  | .restart seeds =>
    if (∀ m ∈ seeds, (w.bucket m.group m.manSeq).map Stored.body = some m) ∧ (seeds.map Manifest.group).Nodup then
      some { w with heardFrom := fun group => (w.verdicts group).length, pub := newManifestPublisher w.pub.node seeds }
    else none

def run (w : ManWorld) (evs : List ManEvent) : Option ManWorld := evs.foldlM step w

/-- What every manifest called back with should be: the decoded object at its slot, with the position of the first live
verdict that reaches its cursor, or the seed's while the cursor is the seed's. -/
structure Stated (w : ManWorld) (m : Manifest) : Prop where
  stored : (w.bucket m.group m.manSeq).map Stored.body = some m
  foldPos : ((w.verdicts m.group).find? fun v => decide (m.foldSeq ≤ v.last)).map CovEntry.pos = some m.foldPos ∨
    (m.foldSeq = (w.pub.seed m.group).foldSeq ∧ m.foldPos = (w.pub.seed m.group).foldPos)

/-- A restart leaves no object of the node's own at or past a group's next slot; a fold's cursor is first reached by a
verdict this publisher heard, or is still the seed's with no heard verdict at it. -/
def Sound (w : ManWorld) : ManEvent → Prop
  | .restart seeds => ∀ group slot st, ((newManifestPublisher w.pub.node seeds).groups group).manSeq ≤ slot →
      w.bucket group slot = some st → st.tag ≠ ⟨w.pub.node, slot⟩
  | .folded seg =>
    ((w.unheard seg.group).all fun v => decide (v.last < max (w.pub.groups seg.group).foldSeq seg.coveredSeq)) = true ∧
      ((w.heard seg.group).any fun v => decide (max (w.pub.groups seg.group).foldSeq seg.coveredSeq ≤ v.last)) = true ∨
    max (w.pub.groups seg.group).foldSeq seg.coveredSeq = (w.pub.seed seg.group).foldSeq ∧
      ((w.heard seg.group).all fun v => decide (v.last < max (w.pub.groups seg.group).foldSeq seg.coveredSeq)) = true
  | _ => True

end ManWorld

/-- A bucket, a chain and a publisher that have seen nothing. -/
def newManWorld (node : Nat) : ManWorld := ⟨fun _ _ => none, fun _ => [], fun _ => 0, newManifestPublisher node []⟩

/-- The states reached when every step meets the condition. -/
inductive ManReach (node : Nat) (cond : ManWorld → ManEvent → Prop) : ManWorld → Prop
  | new : ManReach node cond (newManWorld node)
  | step {w w' : ManWorld} {ev : ManEvent} : ManReach node cond w → cond w ev → w.step ev = some w' → ManReach node cond w'

end Aki.Obs1
