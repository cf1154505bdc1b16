import Aki.StreamBlock

namespace Aki

inductive Band
  | inline
  | native
deriving DecidableEq

def inlineMaxEntries : Nat := 16

def inlineMaxBytes : Nat := 512

def maxWord : Nat := 2 ^ 64 - 1

/-- An insert keeps the keys in order and files none twice. -/
def Stream.fileKey (id : StreamId) : List StreamId → List StreamId
  | [] => [id]
  | k :: ks => if id.treeKey < k.treeKey then id :: k :: ks else if id = k then k :: ks else k :: fileKey id ks

/-- The keys below the ID, and whether it is a key. -/
def Stream.rank (ks : List StreamId) (id : StreamId) : Nat × Bool := (ks.countP fun k => decide (k.treeKey < id.treeKey), decide (id ∈ ks))

/-- The counted tree as the block directory uses it, by what its operations do to its keys in order. -/
class Directory (δ : Type) where
  keys : δ → List StreamId
  new : δ
  insert : StreamId → δ → δ
  delete : StreamId → δ → δ
  rank : δ → StreamId → Nat × Bool
  keys_new : keys new = []
  keys_insert (id : StreamId) (d : δ) : keys (insert id d) = Stream.fileKey id (keys d)
  keys_delete (id : StreamId) (d : δ) : keys (delete id d) = (keys d).erase id
  rank_eq (d : δ) (id : StreamId) : rank d id = Stream.rank (keys d) id

/-- The keys themselves. -/
instance : Directory (List StreamId) where
  keys := id
  new := []
  insert := Stream.fileKey
  delete := fun id ks => ks.erase id
  rank := Stream.rank
  keys_new := rfl
  keys_insert := fun _ _ => rfl
  keys_delete := fun _ _ => rfl
  rank_eq := fun _ _ => rfl

/-- One stream: the append log of blocks and, in the native band, the directory with the first ID of each of them. -/
structure Stream (δ : Type) where
  kind : Band
  lastID : StreamId
  blocks : List Block
  dir : Option δ
  length : Nat
deriving DecidableEq

variable {δ : Type} [Directory δ]

def newStream : Stream δ := ⟨.inline, StreamId.zero, [], none, 0⟩

namespace Stream

def floorBlock (d : δ) (id : StreamId) : Nat :=
  match Directory.rank d id with
  | (rank, true) => rank
  | (rank, false) => rank - 1

def buildDir (bs : List Block) : δ := bs.foldl (fun d b => Directory.insert b.first d) Directory.new

def unfile (d : δ) (bs : List Block) : δ := bs.foldl (fun d b => Directory.delete b.first d) d

/-- The milliseconds wrap when the last ID is the greatest there is. -/
def autoID (s : Stream δ) (now : Nat) : StreamId :=
  let ms := max now s.lastID.ms
  if ms = s.lastID.ms then
    if s.lastID.seq = maxWord then streamId (ms + 1) 0 else streamId ms (s.lastID.seq + 1)
  else streamId ms 0

def partialID (s : Stream δ) (ms : Nat) : Option StreamId :=
  if ms < s.lastID.ms then none
  else if ms = s.lastID.ms then
    if s.lastID.seq = maxWord then none else some (streamId ms (s.lastID.seq + 1))
  else some (streamId ms 0)

def explicitID (s : Stream δ) (id : StreamId) : Option StreamId :=
  if id.ms = 0 ∧ id.seq = 0 then none
  else if id ≤ s.lastID then none
  else some id

/-- What an append asks for: `*`, `ms-*` or a whole ID. -/
inductive Alloc
  | auto (now : Nat)
  | ofMs (ms : Nat)
  | explicit (id : StreamId)

/-- `none` when the append is refused. -/
def allocID (s : Stream δ) : Alloc → Option StreamId
  | .auto now => some (s.autoID now)
  | .ofMs ms => s.partialID ms
  | .explicit id => s.explicitID id

def upgrade (s : Stream δ) : Stream δ := { s with kind := .native, dir := some (buildDir s.blocks) }

def ensureNative (s : Stream δ) : Stream δ := if s.kind = .inline then s.upgrade else s

def openBlock (s : Stream δ) (e : StreamEntry) : Stream δ :=
  { s with blocks := s.blocks ++ [newBlock.appendMaster e], dir := s.dir.map (Directory.insert e.id) }

def appendNative (s : Stream δ) (e : StreamEntry) : Stream δ :=
  match s.blocks.getLast? with
  | none => s.openBlock e
  | some b =>
    match b.appendEntry e with
    | some b' => { s with blocks := s.blocks.dropLast ++ [b'] }
    | none => s.openBlock e

/-- The inline band's one block, opened when there is none. -/
def withTail (s : Stream δ) : Stream δ := if s.blocks = [] then { s with blocks := [newBlock] } else s

def overflows (b : Block) (e : StreamEntry) : Bool :=
  decide (inlineMaxEntries < b.count + 1) || decide (inlineMaxBytes < b.size + b.projectedFrame e)

def appendInline (s : Stream δ) (e : StreamEntry) : Stream δ :=
  let s := s.withTail
  let b := s.blocks.getLastD newBlock
  if overflows b e then s.upgrade.appendNative e
  else { s with blocks := s.blocks.dropLast ++ [(b.appendEntry e).getD b] }

def appendEntry (s : Stream δ) (e : StreamEntry) : Stream δ :=
  let s' := if s.kind = .inline then s.appendInline e else s.appendNative e
  { s' with lastID := e.id, length := (s.length + 1) % 2 ^ 64 }

def blockIndexFor (s : Stream δ) (id : StreamId) : Option Nat :=
  if s.blocks = [] then none
  else
    match s.dir with
    | some d => some (floorBlock d id)
    | none => some 0

/-- The stream and whether a live entry went; `none` when the block index is out of range. -/
def delete (s : Stream δ) (id : StreamId) : Option (Stream δ × Bool) :=
  match s.blockIndexFor id with
  | none => some (s, false)
  | some i =>
    match s.blocks[i]? with
    | none => none
    | some b =>
      if b.covers id then
        match b.resident.tombstone id with
        | some b' => some ({ s with blocks := s.blocks.set i b', length := sub64 s.length 1 }, true)
        | none => some ({ s with blocks := s.blocks.set i b.resident }, false)
      else some (s, false)

/-- Refused below the last ID, but not on a stream with no live entry. -/
def setID (s : Stream δ) (id : StreamId) : Stream δ := if 0 < s.length ∧ id < s.lastID then s else { s with lastID := id }

inductive TrimBy
  | maxlen (n : Nat)
  | minid (id : StreamId)
deriving DecidableEq

structure TrimSpec where
  threshold : TrimBy
  approx : Bool
  limit : Option Int
deriving DecidableEq

/-- Whether `n` removals are more than the call may make. -/
def TrimSpec.over (sp : TrimSpec) (n : Nat) : Bool :=
  match sp.limit with
  | some limit => decide (limit < (n : Int))
  | none => false

/-- Whether the block may go whole after `droppedLive` entries have gone. -/
def TrimSpec.droppable (sp : TrimSpec) (length droppedLive : Nat) (b : Block) : Bool :=
  match sp.threshold with
  | .maxlen n => decide (n ≤ sub64 (sub64 length droppedLive) b.live)
  | .minid id => decide (b.last < id)

/-- How many of the blocks go whole, and their live entries. -/
def dropScan (sp : TrimSpec) (length : Nat) : List Block → Nat → Nat × Nat
  | [], droppedLive => (0, droppedLive)
  | b :: bs, droppedLive =>
    if !sp.over (droppedLive + b.live) && sp.droppable length droppedLive b then
      let r := dropScan sp length bs (droppedLive + b.live)
      (r.1 + 1, r.2)
    else (0, droppedLive)

/-- The first `n` blocks leave the directory, then the log. -/
def dropFront (s : Stream δ) (n live : Nat) : Stream δ :=
  { s with
    dir := s.dir.map fun d => unfile d (s.blocks.take n)
    blocks := s.blocks.drop n
    length := sub64 s.length live }

/-- The exact mode's tombstones in the front block, and their number. -/
def trimBoundary (sp : TrimSpec) (length : Nat) (b : Block) : Block × Nat :=
  match sp.threshold with
  | .maxlen n => if n < length then b.resident.tombstoneWhile (toInt64 (length - n)).toNat fun _ => true else (b, 0)
  | .minid id => if b.first < id then b.resident.tombstoneWhile (2 ^ 63 - 1) fun x => decide (x < id) else (b, 0)

/-- The stream and the entries removed; `none` where the exact mode indexes an empty log. -/
def trimNative (s : Stream δ) (sp : TrimSpec) : Option (Stream δ × Nat) :=
  let r := dropScan sp s.length s.blocks.dropLast 0
  let s' := if r.1 = 0 then s else s.dropFront r.1 r.2
  if sp.approx then some (s', r.2)
  else
    match s'.blocks with
    | [] => none
    | b :: bs =>
      let c := trimBoundary sp s'.length b
      some ({ s' with blocks := c.1 :: bs, length := sub64 s'.length c.2 }, r.2 + c.2)

/-- How many of the live entries an inline trim drops. -/
def inlineDrop (sp : TrimSpec) (live : List StreamEntry) : Int :=
  let drop : Nat := match sp.threshold with
    | .maxlen n => live.length - n
    | .minid id => (live.takeWhile fun e => decide (e.id < id)).length
  match sp.limit with
  | some limit => if limit < drop then limit else drop
  | none => drop

/-- `none` when a negative limit becomes a slice bound. -/
def trimInline (s : Stream δ) (sp : TrimSpec) : Option (Stream δ × Nat) :=
  match s.blocks with
  | [] => some (s, 0)
  | b :: bs =>
    let drop := inlineDrop sp b.entries
    if drop = 0 then some (s, 0)
    else if drop < 0 then none
    else
      some ({ s with
        blocks := Block.pack (b.entries.drop drop.toNat) :: bs
        length := sub64 s.length drop.toNat }, drop.toNat)

def trim (s : Stream δ) (sp : TrimSpec) : Option (Stream δ × Nat) :=
  if s.kind = .inline then s.trimInline sp else s.trimNative sp

/-- A sealed block the pass rewrites. -/
def ripe (b : Block) : Bool :=
  !b.cold && decide (b.deleted ≠ 0) && decide (b.live ≠ 0) && decide (b.count ≤ 2 * b.deleted)

/-- A sealed block the pass drops. -/
def dead (b : Block) : Bool := !b.cold && decide (0 < b.count) && decide (b.live = 0)

/-- The pass over the sealed blocks: a rewritten block whose first ID moved is filed anew. -/
def gcScan : List Block → δ → List Block × δ
  | [], d => ([], d)
  | b :: bs, d =>
    if ripe b then
      let nb := b.rewriteBlock
      let r := gcScan bs (if nb.first = b.first then d else Directory.insert nb.first (Directory.delete b.first d))
      (nb :: r.1, r.2)
    else
      let r := gcScan bs d
      (b :: r.1, r.2)

def gc (s : Stream δ) : Stream δ :=
  match s.kind, s.dir with
  | .native, some d =>
    if 1 < s.blocks.length then
      let r := gcScan s.blocks.dropLast d
      let tail := s.blocks.getLast?.toList
      if s.blocks.dropLast.any dead then
        let kept := r.1.filter (fun b => !dead b) ++ tail
        { s with blocks := kept, dir := some (buildDir kept) }
      else { s with blocks := r.1 ++ tail, dir := some r.2 }
    else s
  | _, _ => s

def demoteTailMargin : Nat := 2

def demoteQuantum : Nat := 8

/-- A run of at most `quantum` resident blocks goes cold. -/
def shedRun : Nat → List Block → List Block
  | 0, bs => bs
  | _, [] => []
  | quantum + 1, b :: bs =>
    if b.cold || decide (b.size = 0) then b :: shedRun (quantum + 1) bs else b.shed :: shedRun quantum bs

/-- `accepted` says whether the cold region took every append of the run. -/
def demote (s : Stream δ) (accepted : Bool) : Stream δ :=
  let limit := s.blocks.length - demoteTailMargin
  if accepted then { s with blocks := shedRun demoteQuantum (s.blocks.take limit) ++ s.blocks.drop limit } else s

def promote (s : Stream δ) (i : Nat) : Stream δ := { s with blocks := s.blocks.modify i Block.resident }

def entries (s : Stream δ) : List StreamEntry := s.blocks.flatMap Block.entries

def ids (s : Stream δ) : List StreamId := s.blocks.flatMap Block.ids

end Stream

end Aki
