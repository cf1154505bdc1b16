import Aki.Arena
import Aki.StoreBatch

namespace Aki.Sqlo1

open Aki.Sqlo1b (Key SeamRecord Op)

inductive HdrState
  | free
  | dirty
  | resident
deriving DecidableEq

/-- The type tag byte: a type number and the flag bits beside it. -/
structure TypeTag where
  kind : Nat
  root : Bool
  delta : Bool
  fence : Bool
  intShadow : Bool
deriving DecidableEq

def tagString : TypeTag := ⟨1, false, false, false, false⟩

/-- A hot-tier header with the arena bytes behind its refs; no value is a tombstone. The queued byte is its three parts. -/
structure Hdr where
  key : Key
  val : Option (List UInt8)
  vptr : Nat
  state : HdrState
  tag : TypeTag
  queued : Bool
  defers : Bool
  volLaps : Nat
  expireLo : Nat
  expireRem : Nat
  gen : Nat
deriving DecidableEq

def zeroHdr : Hdr := ⟨[], none, 0, .free, ⟨0, false, false, false, false⟩, false, false, 0, 0, 0, 0⟩

/-- The exact deadline, 0 for none. -/
def Hdr.expMs (hd : Hdr) : Nat := if hd.expireLo = 0 then 0 else hd.expireLo * 1024 + hd.expireRem

def maxHdrExpMs : Nat := 2 ^ 42 - 1

/-- A deadline past the header's 42 bits clamps to that horizon. -/
def splitExpMs (atMs : Int) : Nat × Nat :=
  if atMs ≤ 0 then (0, 0)
  else
    let ms := min atMs.toNat maxHdrExpMs
    (ms / 1024, ms % 1024)

def Hdr.stamp (hd : Hdr) (atMs : Int) : Hdr := { hd with expireLo := (splitExpMs atMs).1, expireRem := (splitExpMs atMs).2 }

/-- The header's part of the key count: a live key the store is not known to hold, or a tombstone over one it does. -/
def keyDeltaOf (hd : Hdr) : Int :=
  if hd.gen ≠ 0 ∨ hd.tag.fence then 0
  else
    match hd.val with
    | some _ => if hd.vptr = 0 then 1 else 0
    | none => if hd.vptr = 0 then 0 else -1

/-- A bare value record, without a part in a collection. -/
def Hdr.plain (hd : Hdr) : Bool := decide (hd.gen = 0) && !hd.tag.root && !hd.tag.fence && !hd.tag.delta

def maxKlen : Nat := 2 ^ 16 - 1

def valLen (v : Option (List UInt8)) : Nat := v.elim 0 List.length

/-- The hot tier apart from its arenas, whose bytes stand in the headers; `room` in a call is whether the arenas took its bytes.
Slots are numbers below `len`; a slot on the free list has the zero header. -/
structure HotHeaders where
  cap : Nat
  hdrs : Nat → Hdr
  len : Nat
  freeSlots : List Nat
  index : Nat → Option Nat
  dups : Nat → List Nat
  nowMs : Nat
  keyDelta : Int
  queue : List Nat
  dirtyBytes : Int
  pinSlot : Option Nat
  intShadow : Nat → Option Int

def newHotHeaders (cap : Nat) : HotHeaders :=
  ⟨cap, fun _ => zeroHdr, 0, [], fun _ => none, fun _ => [], 0, 0, [], 0, none, fun _ => none⟩

namespace HotHeaders

def setHdr (t : HotHeaders) (s : Nat) (hd : Hdr) : HotHeaders := { t with hdrs := Function.update t.hdrs s hd }

def setNow (t : HotHeaders) (ms : Nat) : HotHeaders := { t with nowMs := ms }

/-- The coarse clock is 32 bits of it. -/
def tick (t : HotHeaders) : Nat := t.nowMs / 1024 % 2 ^ 32

def expired (t : HotHeaders) (hd : Hdr) : Bool :=
  decide (hd.expireLo ≠ 0) && decide (hd.expireLo ≤ t.tick) && decide (hd.expMs ≤ t.nowMs)

/-- Queues a slot on its way into dirty; a root already queued is marked to drain behind what was queued since. -/
def enqueueDirty (t : HotHeaders) (s : Nat) : HotHeaders :=
  let hd := t.hdrs s
  if hd.queued then if hd.tag.root then t.setHdr s { hd with defers := true } else t
  else { t.setHdr s { hd with queued := true, defers := false, volLaps := 0 } with queue := t.queue ++ [s] }

/-- The oldest entry that is neither pinned nor marked; those go back to the tail. -/
def popLoop : Nat → HotHeaders → HotHeaders × Option Nat
  | 0, t => (t, none)
  | fuel + 1, t =>
    match t.queue with
    | [] => (t, none)
    | s :: rest =>
      if t.pinSlot = some s then
        if rest = [] then (t, none) else popLoop fuel { t with queue := rest ++ [s] }
      else
        let hd := t.hdrs s
        if hd.defers then
          popLoop fuel { t.setHdr s { hd with queued := true, defers := false, volLaps := 0 } with queue := rest ++ [s] }
        else ({ t.setHdr s { hd with queued := false, defers := false } with queue := rest }, some s)

def popDirty (t : HotHeaders) : HotHeaders × Option Nat := popLoop (2 * t.queue.length + 2) t

def dropShadow (t : HotHeaders) (s : Nat) : HotHeaders :=
  let hd := t.hdrs s
  if hd.tag.intShadow then
    { t.setHdr s { hd with tag := { hd.tag with intShadow := false } } with intShadow := Function.update t.intShadow s none }
  else t

/-- A free slot with the key's bytes and the value's, none for a tombstone. -/
def claimSlot (t : HotHeaders) (key : Key) (val : Option (List UInt8)) (room : Bool) : Option (HotHeaders × Nat) :=
  let hd := { zeroHdr with key := key, val := val }
  match t.freeSlots.getLast? with
  | some s => if room then some ({ t.setHdr s hd with freeSlots := t.freeSlots.dropLast }, s) else none
  | none =>
    if t.len < t.cap then if room then some ({ t.setHdr t.len hd with len := t.len + 1 }, t.len) else none
    else none

def fileIndex (t : HotHeaders) (h s : Nat) : HotHeaders :=
  match t.index h with
  | some _ => { t with dups := Function.update t.dups h (t.dups h ++ [s]) }
  | none => { t with index := Function.update t.index h (some s) }

/-- The last element takes the place of `s`. -/
def swapRemove (ds : List Nat) (s : Nat) : List Nat :=
  match ds.getLast? with
  | none => ds
  | some last => if ds.contains s then (ds.set (ds.idxOf s) last).dropLast else ds

/-- The index without the slot: a colliding slot takes the primary entry. -/
def unindex (t : HotHeaders) (h s : Nat) : HotHeaders :=
  if (t.index h).getD 0 = s then
    match (t.dups h).getLast? with
    | some d => { t with index := Function.update t.index h (some d), dups := Function.update t.dups h (t.dups h).dropLast }
    | none => { t with index := Function.update t.index h none }
  else { t with dups := Function.update t.dups h (swapRemove (t.dups h) s) }

def removeSlot (t : HotHeaders) (h s : Nat) : HotHeaders :=
  let t := { t with keyDelta := t.keyDelta - keyDeltaOf (t.hdrs s) }
  let t := t.dropShadow s
  { t.setHdr s zeroHdr with freeSlots := t.freeSlots ++ [s] }.unindex h s

def evict (hash : Key → Nat) (t : HotHeaders) (s : Nat) : HotHeaders :=
  let hd := t.hdrs s
  if hd.state = .resident then t.removeSlot (hash hd.key) s else t

/-- A drained slot cools; a drained tombstone retires. -/
def drained (hash : Key → Nat) (t : HotHeaders) (s vptr : Nat) : HotHeaders :=
  let hd := t.hdrs s
  if hd.state ≠ .dirty then t
  else
    match hd.val with
    | none => { t with dirtyBytes := t.dirtyBytes - hd.key.length }.removeSlot (hash hd.key) s
    | some v =>
      let hd' := { hd with state := .resident, vptr := vptr, tag := { hd.tag with delta := false } }
      { t.setHdr s hd' with
        dirtyBytes := t.dirtyBytes - (hd.key.length + v.length), keyDelta := t.keyDelta + (keyDeltaOf hd' - keyDeltaOf hd) }

def keyIs (t : HotHeaders) (s : Nat) (key : Key) : Bool := decide ((t.hdrs s).key = key)

section Hash

variable (hash : Key → Nat)

def lookup (t : HotHeaders) (key : Key) : Option Nat :=
  match t.index (hash key) with
  | none => none
  | some s => if t.keyIs s key then some s else (t.dups (hash key)).find? (t.keyIs · key)

/-- The outer `none` leaves the question to the store; the inner one is a tombstone or an expired key. -/
def probeEntry (t : HotHeaders) (key : Key) : Option (Option (List UInt8 × TypeTag × Nat)) :=
  (t.lookup hash key).map fun s =>
    let hd := t.hdrs s
    if t.expired hd then none else hd.val.map fun v => (v, hd.tag, hd.expMs)

def get (t : HotHeaders) (key : Key) : Option (List UInt8) := ((t.probeEntry hash key).bind id).map Prod.fst

def setExpireMs (t : HotHeaders) (key : Key) (atMs : Int) : HotHeaders :=
  match t.lookup hash key with
  | none => t
  | some s =>
    let hd := t.hdrs s
    if hd.val.isNone || t.expired hd then t
    else if (hd.expireLo, hd.expireRem) = splitExpMs atMs then t
    else if hd.state = .resident then
      { t.setHdr s { hd.stamp atMs with state := .dirty } with
        dirtyBytes := t.dirtyBytes + (hd.key.length + valLen hd.val) }.enqueueDirty s
    else t.setHdr s (hd.stamp atMs)

/-- A delta write keeps its bit only in a window of delta writes. -/
def windowTag (hd : Hdr) (tag : TypeTag) : TypeTag :=
  if tag.delta && decide (hd.state = .dirty) && (hd.val.isNone || !(hd.tag.root && hd.tag.delta)) then
    { tag with delta := false }
  else tag

/-- The header a put starts from: the old life's deadline and its cached integer are dropped before the arena is asked. -/
def freshen (t : HotHeaders) (s : Nat) : HotHeaders :=
  let hd := t.hdrs s
  (if hd.val.isSome && t.expired hd then t.setHdr s { hd with expireLo := 0, expireRem := 0 } else t).dropShadow s

def putHeld (t : HotHeaders) (s : Nat) (val : List UInt8) (tag : TypeTag) (gen : Nat) (room : Bool) : HotHeaders × Bool :=
  let hd := t.hdrs s
  let t := t.freshen s
  if room then
    let hd' := { t.hdrs s with val := some val, state := .dirty, tag := windowTag hd tag, gen := gen }
    let grown : Int := match hd.val, hd.state with
      | none, _ => val.length
      | some old, .dirty => (val.length : Int) - old.length
      | some _, _ => (hd.key.length : Int) + val.length
    ({ t.setHdr s hd' with
      keyDelta := t.keyDelta + (keyDeltaOf hd' - keyDeltaOf hd), dirtyBytes := t.dirtyBytes + grown }.enqueueDirty s, true)
  else (t, false)

def putGen (t : HotHeaders) (key : Key) (val : List UInt8) (tag : TypeTag) (gen : Nat) (room : Bool) : HotHeaders × Bool :=
  if maxKlen < key.length then (t, false)
  else
    match t.lookup hash key with
    | some s => t.putHeld s val tag gen room
    | none =>
      match t.claimSlot key (some val) room with
      | none => (t, false)
      | some (t, s) =>
        let hd := { t.hdrs s with state := .dirty, tag := tag, gen := gen }
        (({ t.setHdr s hd with
          keyDelta := t.keyDelta + keyDeltaOf hd, dirtyBytes := t.dirtyBytes + (key.length + val.length) }.enqueueDirty s).fileIndex
            (hash key) s, true)

/-- A record of the store comes in clean. -/
def promote (t : HotHeaders) (key : Key) (val : List UInt8) (tag : TypeTag) (gen : Nat) (expMs : Int) (room : Bool) : HotHeaders :=
  if maxKlen < key.length then t
  else
    match t.lookup hash key with
    | some _ => t
    | none =>
      match t.claimSlot key (some val) room with
      | none => t
      | some (t, s) =>
        (t.setHdr s ({ t.hdrs s with vptr := 1, state := .resident, tag := tag, gen := gen }.stamp expMs)).fileIndex (hash key) s

/-- A tombstone for a key the table does not hold. -/
def delCold (t : HotHeaders) (key : Key) (keyClass room : Bool) : HotHeaders × Bool :=
  if maxKlen < key.length then (t, false)
  else
    match t.lookup hash key with
    | some _ => (t, false)
    | none =>
      match t.claimSlot key none room with
      | none => (t, false)
      | some (t, s) =>
        let hd := { t.hdrs s with state := .dirty, vptr := if keyClass then 1 else 0 }
        (({ t.setHdr s hd with
          keyDelta := t.keyDelta + keyDeltaOf hd, dirtyBytes := t.dirtyBytes + key.length }.enqueueDirty s).fileIndex (hash key) s, true)

def del (t : HotHeaders) (key : Key) : HotHeaders :=
  match t.lookup hash key with
  | none => t
  | some s =>
    let hd := t.hdrs s
    match hd.val with
    | none => t
    | some v =>
      let t := t.dropShadow s
      let hd' := { t.hdrs s with val := none, expireLo := 0, expireRem := 0, state := .dirty }
      let grown : Int := if hd.state = .dirty then -v.length else hd.key.length
      { t.setHdr s hd' with
        keyDelta := t.keyDelta + (keyDeltaOf hd' - keyDeltaOf hd), dirtyBytes := t.dirtyBytes + grown }.enqueueDirty s

def pinRoot (t : HotHeaders) (key : Key) : HotHeaders :=
  match t.lookup hash key with
  | none => t
  | some s => if (t.hdrs s).state = .dirty then { t with pinSlot := some s } else t

def unpinRoot (t : HotHeaders) : HotHeaders := { t with pinSlot := none }

def armIntShadow (t : HotHeaders) (key : Key) (n : Int) : HotHeaders :=
  match t.lookup hash key with
  | none => t
  | some s =>
    let hd := t.hdrs s
    if hd.val.isNone || t.expired hd || decide ({ hd.tag with intShadow := false } ≠ tagString) then t
    else { t.setHdr s { hd with tag := { hd.tag with intShadow := true } } with intShadow := Function.update t.intShadow s (some n) }

def intShadowOf (t : HotHeaders) (key : Key) : Option (Int × Nat) :=
  (t.lookup hash key).bind fun s =>
    let hd := t.hdrs s
    if hd.tag.intShadow && hd.val.isSome && !t.expired hd then (t.intShadow s).map (·, hd.expMs) else none

end Hash

/-- What the drain makes of a slot; an expired plain value drains as a delete. -/
def collectOp (t : HotHeaders) (s : Nat) : Op :=
  let hd := t.hdrs s
  match hd.val with
  | none => .del hd.key
  | some v =>
    if hd.expMs ≠ 0 ∧ hd.expMs ≤ t.nowMs ∧ hd.plain then .del hd.key
    else .put ⟨hd.key, v, hd.expMs, hd.gen, hd.tag.root, hd.tag.root && hd.tag.delta, hd.tag.fence⟩

def nextSlot (t : HotHeaders) : Option Nat :=
  match t.freeSlots.getLast? with
  | some s => some s
  | none => if t.len < t.cap then some t.len else none

end HotHeaders

/-- The calls on a table, with the drain's own moves on a slot; `reclaim` ends a pass that vacates a chunk. -/
inductive HotOp
  | now (ms : Nat)
  | put (key : Key) (val : List UInt8) (tag : TypeTag) (gen : Nat)
  | promote (key : Key) (val : List UInt8) (tag : TypeTag) (gen : Nat) (expMs : Int)
  | delCold (key : Key) (keyClass : Bool)
  | del (key : Key)
  | expire (key : Key) (atMs : Int)
  | arm (key : Key) (n : Int)
  | pin (key : Key)
  | unpin
  | pop
  | lap (s : Nat)
  | enqueue (s : Nat)
  | drained (s vptr : Nat)
  | evict (s : Nat)
  | reclaim

def HotHeaders.step (hash : Key → Nat) (t : HotHeaders) (room : Bool) : HotOp → HotHeaders
  | .now ms => t.setNow ms
  | .put key val tag gen => (t.putGen hash key val tag gen room).1
  | .promote key val tag gen expMs => t.promote hash key val tag gen expMs room
  | .delCold key keyClass => (t.delCold hash key keyClass room).1
  | .del key => t.del hash key
  | .expire key atMs => t.setExpireMs hash key atMs
  | .arm key n => t.armIntShadow hash key n
  | .pin key => t.pinRoot hash key
  | .unpin => t.unpinRoot
  | .pop => t.popDirty.1
  | .lap s => t.setHdr s { t.hdrs s with volLaps := (t.hdrs s).volLaps + 1 }
  | .enqueue s => t.enqueueDirty s
  | .drained s vptr => t.drained hash s vptr
  | .evict s => t.evict hash s
  | .reclaim => t

/-- The whole table: its headers, and the arenas with the refs of each slot's key and value; ref 0 is none. -/
structure HotTable where
  headers : HotHeaders
  keys : Arena
  vals : Arena
  budget : ArenaBudget
  keyRef : Nat → Nat
  valRef : Nat → Nat

def newHotTable (cap : Nat) (limit : Option Nat) : HotTable :=
  ⟨newHotHeaders cap, newArena, newArena, ⟨limit, 0⟩, fun _ => 0, fun _ => 0⟩

namespace HotTable

/-- The bytes of a held key's new value: in place within its slot's capacity, else in a slot taken before the old one is given
back. -/
def fundHeld (t : HotTable) (s n : Nat) : Option (HotTable × Bool) :=
  if t.valRef s ≠ 0 ∧ n ≤ t.vals.capacity (t.valRef s) then some (t, true)
  else
    match t.vals.alloc t.budget n with
    | none => none
    | some (vals, b, ref) =>
      if ref = 0 then some ({ t with vals := vals, budget := b }, false)
      else
        let r := if t.valRef s = 0 then (vals, b) else vals.release b (t.valRef s)
        some ({ t with vals := r.1, budget := r.2, valRef := Function.update t.valRef s ref }, true)

/-- The value's part of a new slot, of which a tombstone takes none; a refusal gives the key's bytes back. -/
def fundVal (t : HotTable) (s keyRef : Nat) (len : Option Nat) : Option (HotTable × Bool) :=
  let taken := { t with keyRef := Function.update t.keyRef s keyRef }
  match len with
  | none => some ({ taken with valRef := Function.update t.valRef s 0 }, true)
  | some n =>
    match t.vals.alloc t.budget n with
    | none => none
    | some (vals, b, ref) =>
      if ref = 0 then
        let r := t.keys.release b keyRef
        some ({ t with keys := r.1, vals := vals, budget := r.2 }, false)
      else some ({ taken with vals := vals, budget := b, valRef := Function.update t.valRef s ref }, true)

/-- The bytes of a new slot; a table without one does not ask the arenas. -/
def fundNew (t : HotTable) (klen : Nat) (len : Option Nat) : Option (HotTable × Bool) :=
  match t.headers.nextSlot with
  | none => some (t, false)
  | some s =>
    match t.keys.alloc t.budget klen with
    | none => none
    | some (keys, b, ref) =>
      let t := { t with keys := keys, budget := b }
      if ref = 0 then some (t, false) else t.fundVal s ref len

def releaseVal (t : HotTable) (s : Nat) : HotTable :=
  if t.valRef s = 0 then t
  else
    let r := t.vals.release t.budget (t.valRef s)
    { t with vals := r.1, budget := r.2, valRef := Function.update t.valRef s 0 }

def releaseSlot (t : HotTable) (s : Nat) : HotTable :=
  let r := t.keys.release t.budget (t.keyRef s)
  { t with keys := r.1, budget := r.2, keyRef := Function.update t.keyRef s 0 }.releaseVal s

def reclaim (t : HotTable) : HotTable :=
  let k := t.keys.reclaim t.budget
  let v := t.vals.reclaim k.2.1
  { t with keys := k.1, vals := v.1, budget := v.2.1 }

section Hash

variable (hash : Key → Nat)

/-- The arenas' part of a put of `n` bytes, with whether they took them; `none` is their panic. -/
def fund (t : HotTable) (key : Key) (n : Nat) : Option (HotTable × Bool) :=
  if maxKlen < key.length then some (t, false)
  else
    match t.headers.lookup hash key with
    | some s => t.fundHeld s n
    | none => t.fundNew key.length (some n)

def arenas (t : HotTable) : HotOp → Option (HotTable × Bool)
  | .put key val _ _ => t.fund hash key val.length
  | .promote key val _ _ _ =>
    if maxKlen < key.length ∨ (t.headers.lookup hash key).isSome then some (t, false) else t.fundNew key.length (some val.length)
  | .delCold key _ =>
    if maxKlen < key.length ∨ (t.headers.lookup hash key).isSome then some (t, false) else t.fundNew key.length none
  | .del key => some ((t.headers.lookup hash key).elim t t.releaseVal, true)
  | .drained s _ =>
    let hd := t.headers.hdrs s
    some (if hd.state = .dirty ∧ hd.val = none then t.releaseSlot s else t, true)
  | .evict s => some (if (t.headers.hdrs s).state = .resident then t.releaseSlot s else t, true)
  | .reclaim => some (t.reclaim, true)
  | _ => some (t, true)

def step (t : HotTable) (op : HotOp) : Option HotTable :=
  (t.arenas hash op).map fun r => { r.1 with headers := t.headers.step hash r.2 op }

def putGen (t : HotTable) (key : Key) (val : List UInt8) (tag : TypeTag) (gen : Nat) : Option (HotTable × Bool) :=
  (t.fund hash key val.length).map fun r =>
    let put := t.headers.putGen hash key val tag gen r.2
    ({ r.1 with headers := put.1 }, put.2)

end Hash

end HotTable

end Aki.Sqlo1
