import Mathlib.Data.List.Sort
import Mathlib.Tactic.Ring

namespace Aki.Obs1

def opStrSet : Nat := 0x01

structure WalFrame where
  kind : Nat
  flags : Nat
  slot : Nat
  seq : Nat
  key : List UInt8
  payload : List UInt8
deriving DecidableEq

namespace WalFrame

def walFrameFixed : Nat := 18

def flen (f : WalFrame) : Nat := walFrameFixed + f.key.length + f.payload.length

/-- The format's caps on a key and on a whole frame. -/
def encodes (f : WalFrame) : Bool := decide (f.key.length ≤ 0xFFFF) && decide (f.flen ≤ 0xFFFFFFFF)

theorem flen_pos (f : WalFrame) : 0 < f.flen := by
  unfold flen walFrameFixed
  omega

end WalFrame

/-- A string write's frame: the value, the little-endian deadline, and the ladder byte. -/
def strSetFrame (slot seq : Nat) (key value : List UInt8) (expiryMs : Nat) (ladder : UInt8) : WalFrame :=
  ⟨opStrSet, 0, slot, seq, key, value ++ ((List.range 8).map fun i => UInt8.ofNat (expiryMs / 256 ^ i)) ++ [ladder]⟩

structure RawSection where
  group : Nat
  epoch : Nat
  frames : List WalFrame
  firstSeq : Nat
  lastSeq : Nat
deriving DecidableEq

def frameBytes (fs : List WalFrame) : Nat := (fs.map WalFrame.flen).sum

/-- What `AppendWALRaw` accepts: some section, none of them empty or past the format's cap. -/
def encodable (sections : List RawSection) : Bool :=
  !sections.isEmpty && sections.all fun s => !s.frames.isEmpty && decide (frameBytes s.frames ≤ 0xFFFFFFFF)

structure WalObject where
  walSeq : Nat
  sections : List RawSection
deriving DecidableEq

def WalObject.framesOf (o : WalObject) (group : Nat) : List WalFrame :=
  (o.sections.filter fun s => s.group = group).flatMap RawSection.frames

structure FlusherConfig where
  node : Nat
  flushSize : Nat
  startSeq : Nat
deriving DecidableEq

def defaultFlushSize : Nat := 8 * 2 ^ 20

def walPipelineDepth : Nat := 4

/-- The first object number: one unless the restart hand-off sets it. -/
def FlusherConfig.start (cfg : FlusherConfig) : Nat := if cfg.startSeq = 0 then 1 else cfg.startSeq

def FlusherConfig.size (cfg : FlusherConfig) : Nat := if cfg.flushSize = 0 then defaultFlushSize else cfg.flushSize

/-- A group's open buffer; the frame numbers it has ever taken survive a swap. -/
structure Flusher.GroupBuf where
  frames : List WalFrame
  firstSeq : Nat
  lastSeq : Nat
  epoch : Nat
  lastEver : Nat
  haveEver : Bool
deriving DecidableEq

def Flusher.GroupBuf.empty : GroupBuf := ⟨[], 0, 0, 0, 0, false⟩

/-- The flusher with the locals of its two goroutines. `sunk` is what the sink was handed; `started` and `accepted` only
record the swaps and the append calls that returned nil. -/
structure Flusher where
  cfg : FlusherConfig
  groups : Std.ExtTreeMap Nat Flusher.GroupBuf
  dirtyBytes : Nat
  barrier : Bool
  nextSeq : Nat
  inflight : List WalObject
  stopping : Bool
  failed : Bool
  completed : List WalObject
  nextDeliver : Nat
  deliverC : List WalObject
  running : Bool
  done : Bool
  sunk : List WalObject
  started : List WalObject
  accepted : List (Nat × List WalFrame)

def newFlusher (cfg : FlusherConfig) : Flusher :=
  ⟨cfg, ∅, 0, false, cfg.start, [], false, false, [], cfg.start, [], true, false, [], [], []⟩

namespace Flusher

def buf (fl : Flusher) (group : Nat) : GroupBuf := fl.groups[group]?.getD GroupBuf.empty

/-- `admitLocked`: no buffer takes a second epoch before it is swapped out, and no group a frame number twice. -/
def admitOp (fl : Flusher) (group epoch seq : Nat) : Option GroupBuf :=
  if fl.failed then none
  else if fl.stopping then none
  else
    let b := fl.buf group
    if b.frames ≠ [] ∧ b.epoch ≠ epoch then none
    else if b.haveEver ∧ seq ≤ b.lastEver then none
    else some b

/-- A run of encoded frames goes into its group's buffer in one hold of the lock. -/
def noteAppended (fl : Flusher) (group : Nat) (b : GroupBuf) (epoch : Nat) (f : WalFrame) (fs : List WalFrame) : Flusher :=
  let last := ((f :: fs).getLast (List.cons_ne_nil f fs)).seq
  { fl with
    groups := fl.groups.insert group
      { frames := b.frames ++ f :: fs
        firstSeq := if b.frames = [] then f.seq else b.firstSeq
        lastSeq := last
        epoch := if b.frames = [] then epoch else b.epoch
        lastEver := last
        haveEver := true }
    dirtyBytes := fl.dirtyBytes + frameBytes (f :: fs) }

def appendOp (fl : Flusher) (group epoch : Nat) (f : WalFrame) : Option Flusher :=
  match fl.admitOp group epoch f.seq with
  | none => none
  | some b => if f.encodes then some (fl.noteAppended group b epoch f []) else none

def appendStrSet (fl : Flusher) (group epoch slot seq : Nat) (key value : List UInt8) (expiryMs : Nat) (ladder : UInt8) :
    Option Flusher :=
  fl.appendOp group epoch (strSetFrame slot seq key value expiryMs ladder)

/-- Strictly increasing frame numbers across a run. -/
def increasing : List WalFrame → Bool
  | [] => true
  | [_] => true
  | f :: f' :: fs => decide (f.seq < f'.seq) && increasing (f' :: fs)

/-- Every frame of the run or none of them. -/
def appendRun (fl : Flusher) (group epoch : Nat) (frames : List WalFrame) : Option Flusher :=
  match frames with
  | [] => none
  | f :: fs =>
    if increasing (f :: fs) then
      match fl.admitOp group epoch f.seq with
      | none => none
      | some b => if (f :: fs).all WalFrame.encodes then some (fl.noteAppended group b epoch f fs) else none
    else none

/-- Whether a swap is due; `aged` and `floor` say that the age and the barrier floor have passed. -/
def swapDue (fl : Flusher) (aged floor : Bool) : Bool :=
  if fl.dirtyBytes = 0 then false
  else fl.stopping || decide (fl.cfg.size ≤ fl.dirtyBytes) || aged || (fl.barrier && floor)

def sectionOf (group : Nat) (b : GroupBuf) : RawSection := ⟨group, b.epoch, b.frames, b.firstSeq, b.lastSeq⟩

def dirtySections (fl : Flusher) : List RawSection :=
  (fl.groups.toList.filter fun p => p.2.frames ≠ []).map fun p => sectionOf p.1 p.2

def startFlush (fl : Flusher) : Flusher :=
  let o : WalObject := ⟨fl.nextSeq, fl.dirtySections⟩
  { fl with
    groups := fl.groups.map fun _ b => { b with frames := [] }
    nextSeq := fl.nextSeq + 1
    dirtyBytes := 0
    barrier := false
    inflight := fl.inflight ++ [o]
    started := fl.started ++ [o] }

/-- The loop that hands the in-order prefix of the completed objects over; every turn takes one of them. -/
def release : Nat → List WalObject → Nat → List WalObject × List WalObject × Nat
  | 0, completed, next => ([], completed, next)
  | fuel + 1, completed, next =>
    match completed.find? fun o => o.walSeq = next with
    | none => ([], completed, next)
    | some d =>
      let r := release fuel (completed.filter fun o => o.walSeq ≠ next) (next + 1)
      (d :: r.1, r.2)

def finishPut (fl : Flusher) (o : WalObject) (ok : Bool) : Flusher :=
  let inflight := fl.inflight.filter fun p => p.walSeq ≠ o.walSeq
  if fl.failed || !ok then { fl with inflight := inflight, failed := true }
  else
    let completed := fl.completed ++ [o]
    let r := release completed.length completed fl.nextDeliver
    { fl with
      inflight := inflight
      deliverC := fl.deliverC ++ r.1
      completed := r.2.1
      nextDeliver := r.2.2 }

/-- One turn of `deliverLoop`: a failed flusher skips, and a sink error fails it. -/
def deliver (fl : Flusher) (d : WalObject) (rest : List WalObject) (ok : Bool) : Flusher :=
  if fl.failed then { fl with deliverC := rest }
  else { fl with deliverC := rest, sunk := fl.sunk ++ [d], failed := !ok }

end Flusher

/-- One atomic action of a caller, the run goroutine, a PUT goroutine or the delivery goroutine. -/
inductive FlushEvent
  | appendOp (group epoch : Nat) (f : WalFrame)
  | appendStrSet (group epoch slot seq : Nat) (key value : List UInt8) (expiryMs : Nat) (ladder : UInt8)
  | appendRun (group epoch : Nat) (frames : List WalFrame)
  | barrier
  | swap (aged floor : Bool)
  | putDone (walSeq : Nat) (ok : Bool)
  | deliver (ok : Bool)
  | close
  | runReturn
  | loopReturn
deriving DecidableEq

def Flusher.accept (group : Nat) (frames : List WalFrame) (fl : Flusher) : Flusher := { fl with accepted := fl.accepted ++ [(group, frames)] }

/-- The state after an event, or none when the code cannot take it there. A refused append changes nothing. -/
def Flusher.step (fl : Flusher) : FlushEvent → Option Flusher
  | .appendOp group epoch f => some (((fl.appendOp group epoch f).map (accept group [f])).getD fl)
  | .appendStrSet group epoch slot seq key value expiryMs ladder =>
    some (((fl.appendStrSet group epoch slot seq key value expiryMs ladder).map
      (accept group [strSetFrame slot seq key value expiryMs ladder])).getD fl)
  | .appendRun group epoch frames => some (((fl.appendRun group epoch frames).map (accept group frames)).getD fl)
  | .barrier => some { fl with barrier := fl.barrier || (!fl.failed && !fl.stopping && decide (0 < fl.dirtyBytes)) }
  | .swap aged floor =>
    if fl.running ∧ fl.failed = false ∧ fl.inflight.length < walPipelineDepth ∧ fl.swapDue aged floor then some fl.startFlush
    else none
  | .putDone walSeq ok =>
    match fl.inflight.find? fun o => o.walSeq = walSeq with
    | none => none
    -- an object that does not encode never reaches the store
    | some o => some (fl.finishPut o (ok && encodable o.sections))
  | .deliver ok =>
    match fl.deliverC with
    | [] => none
    | d :: rest => some (fl.deliver d rest ok)
  | .close => some { fl with stopping := true }
  | .runReturn =>
    if fl.running ∧ fl.inflight = [] ∧ (fl.failed ∨ (fl.stopping ∧ fl.dirtyBytes = 0)) then some { fl with running := false }
    else none
  | .loopReturn => if fl.running = false ∧ fl.deliverC = [] then some { fl with done := true } else none

def Flusher.run (fl : Flusher) (evs : List FlushEvent) : Option Flusher := evs.foldlM step fl

def Flusher.closedClean (fl : Flusher) : Bool := fl.stopping && fl.done && !fl.failed

/-- The frames the append calls took for a group, in the order they took them. -/
def Flusher.acceptedFrames (fl : Flusher) (group : Nat) : List WalFrame :=
  (fl.accepted.filter fun c => c.1 = group).flatMap Prod.snd

def Flusher.sunkFrames (fl : Flusher) (group : Nat) : List WalFrame := fl.sunk.flatMap fun o => o.framesOf group

inductive FlushReach (cfg : FlusherConfig) : Flusher → Prop
  | new : FlushReach cfg (newFlusher cfg)
  | step {fl fl' : Flusher} {ev : FlushEvent} : FlushReach cfg fl → fl.step ev = some fl' → FlushReach cfg fl'

theorem FlushReach.of_run {cfg : FlusherConfig} {fl fl' : Flusher} (h : FlushReach cfg fl) {evs : List FlushEvent}
    (hr : fl.run evs = some fl') : FlushReach cfg fl' := by
  induction evs generalizing fl with
  | nil =>
    rw [← Option.some.inj hr]
    exact h
  | cons ev evs ih =>
    simp only [Flusher.run, List.foldlM_cons, Option.bind_eq_bind, Option.bind_eq_some_iff] at hr
    obtain ⟨mid, hmid, hrest⟩ := hr
    exact ih (h.step hmid) hrest

end Aki.Obs1
