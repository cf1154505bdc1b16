import Mathlib.Data.List.Basic
import Mathlib.Tactic.Ring

namespace Aki.Sqlo1b

abbrev Key := List UInt8

inductive RType
  | string
  | root
  | seg
  | tomb
  | fence
  | metadata
deriving DecidableEq

/-- A decoded value-log record; an optional field is there iff its flag bit is set. -/
structure Record where
  rtype : RType
  key : Key
  value : List UInt8
  expireMS : Option Nat
  rootgen : Option Nat
deriving DecidableEq

def subkeySize : Nat := 16

namespace Record

/-- Segment and fence records live under a subkey and carry a root generation. -/
def planed (r : Record) : Bool := decide (r.rtype = .seg) || decide (r.rtype = .fence)

def optLen (r : Record) : Nat := (if r.expireMS.isSome then 8 else 0) + if r.rootgen.isSome then 4 else 0

def encodedLen (r : Record) : Nat := 12 + r.optLen + r.key.length + r.value.length + 4

def validateEnvelope (r : Record) : Bool :=
  decide (0 < r.key.length) && decide (r.key.length < 2 ^ 16) &&
    (if r.planed then decide (r.key.length = subkeySize) && r.rootgen.isSome else r.rootgen.isNone) &&
    (decide (r.rtype ≠ .tomb) || r.value.isEmpty) && decide (r.encodedLen < 2 ^ 32)

end Record

def leBytes (n v : Nat) : List UInt8 := (List.range n).map fun i => UInt8.ofNat (v / 256 ^ i)

def leNat (b : List UInt8) : Nat := b.foldr (fun x acc => x.toNat + 256 * acc) 0

/-- The reserved key of a root's generation record: kind 0, segment 0. -/
def genKey (rooth : Nat) : Key := leBytes 8 rooth ++ List.replicate 8 0

def rootkeyTag : List UInt8 := [114, 111, 111, 116, 107, 101, 121]

def rootkeyKey (rooth : Nat) : Key := leBytes 8 rooth ++ 0 :: rootkeyTag

def isRootkeyKey (k : Key) : Bool :=
  decide (k.length = subkeySize) && decide (k.getD 8 1 = 0) && decide (k.drop 9 = rootkeyTag)

def rootkeyRecord (rooth : Nat) (userKey : Key) : Record := ⟨.metadata, rootkeyKey rooth, userKey, none, none⟩

def genRecord (key : Key) (gen : Nat) : Record := ⟨.metadata, key, leBytes 4 gen, none, none⟩

def genOf (r : Record) : Option Nat :=
  if r.rtype = .metadata ∧ r.value.length = 4 then some (leNat r.value) else none

/-- A record as it crosses the store seam. -/
structure SeamRecord where
  key : Key
  value : List UInt8
  expireMs : Int
  gen : Nat
  root : Bool
  delta : Bool
  fence : Bool
deriving DecidableEq

def seamRecord (r : SeamRecord) : Record where
  rtype := if r.root then .root else if r.fence then .fence else if 0 < r.gen then .seg else .string
  key := r.key
  value := r.value
  expireMS := if 0 < r.expireMs then some r.expireMs.toNat else none
  rootgen := if r.root then (if 0 < r.gen then some r.gen else none)
    else if r.fence then some r.gen else if 0 < r.gen then some r.gen else none

/-- The frames the store puts in the sidecar, by what their payload decodes to. -/
inductive Frame
  | put (r : Record)
  | del (key : Key)
  | genbump (key : Key) (newgen : Nat)
  | mark (seq : Int)
  | sealed (ext : Nat)
deriving DecidableEq

def walHdrSize : Nat := 28

def Frame.len : Frame → Nat
  | .put r => walHdrSize + (8 + r.optLen + r.key.length + r.value.length)
  | .del k => walHdrSize + (2 + k.length)
  | .genbump k _ => walHdrSize + (6 + k.length)
  | .mark _ => walHdrSize + (8 + 2 + 8)
  | .sealed _ => walHdrSize + 17

def framesLen (fs : List Frame) : Nat := (fs.map Frame.len).sum

/-- The sidecar: synced frames, frames written since, and the buffer all appends share. -/
structure Wal where
  segSize : Nat
  log : List Frame
  tail : List Frame
  buf : List Frame

namespace Wal

def append (w : Wal) (f : Frame) : Option Wal :=
  if w.segSize < f.len then none else some { w with buf := w.buf ++ [f] }

/-- A flush that fails keeps the buffer. -/
def flush (w : Wal) (writes : Bool) : Option Wal :=
  if w.buf = [] then some w
  else if w.segSize < framesLen w.buf then none
  else if writes then some { w with tail := w.tail ++ w.buf, buf := [] } else none

def sync (w : Wal) : Wal := { w with log := w.log ++ w.tail, tail := [] }

/-- The appends of one call, up to the first that is refused. -/
def appendAll (w : Wal) : List Frame → Wal × Bool
  | [] => (w, true)
  | f :: fs =>
    match w.append f with
    | none => (w, false)
    | some w' => w'.appendAll fs

end Wal

end Aki.Sqlo1b
