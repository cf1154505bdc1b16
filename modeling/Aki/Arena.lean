import Mathlib.Logic.Function.Basic
import Mathlib.Tactic.Ring

namespace Aki.Sqlo1

def arenaChunkSize : Nat := 512 * 1024

/-- The length and capacity words in front of each payload. -/
def arenaAlign : Nat := 8

/-- The smallest footprint, prefix included. -/
def arenaMinClass : Nat := 16

def arenaMaxRefs : Nat := 2 ^ 16

/-- The byte cap shared by the arenas; no limit is the nil budget. -/
structure ArenaBudget where
  limit : Option Nat
  reserved : Nat
deriving DecidableEq

namespace ArenaBudget

def reserve (b : ArenaBudget) (n : Nat) : Option ArenaBudget :=
  match b.limit with
  | none => some b
  | some limit => if limit < b.reserved + n then none else some { b with reserved := b.reserved + n }

def unreserve (b : ArenaBudget) (n : Nat) : ArenaBudget :=
  match b.limit with
  | none => b
  | some _ => { b with reserved := b.reserved - n }

end ArenaBudget

/-- An arena without the payloads: the chunks by their sizes, the live footprint of each, and the capacity word of each slot by its
ref, which is the chunk's index and the offset in 8-byte units. -/
structure Arena where
  chunks : List (Option Nat)
  liveFp : List Nat
  freeChunks : List Nat
  cur : Nat
  curOff : Nat
  free : Nat → List Nat
  capacity : Nat → Nat

def newArena : Arena := ⟨[], [], [], 0, 0, fun _ => [], fun _ => 0⟩

/-- The footprint and the index of a payload's size class; a payload past the chunk size has none. -/
def classFor (n : Nat) : Option (Nat × Nat) :=
  let need := n + arenaAlign
  if arenaChunkSize < need then none
  else
    let f := if arenaMinClass < need then 2 ^ (Nat.log2 (need - 1) + 1) else arenaMinClass
    some (f, Nat.log2 f - 4)

namespace Arena

def chunkOf (ref : Nat) : Nat := ref / 2 ^ 16

/-- A chunk of that size against the budget, with its index unless the budget refuses; `none` is the panic of an arena out of
chunk indexes. -/
def newChunk (a : Arena) (b : ArenaBudget) (size : Nat) : Option (Arena × ArenaBudget × Option Nat) :=
  match b.reserve size with
  | none => some (a, b, none)
  | some b =>
    match a.freeChunks.getLast? with
    | some ci =>
      some ({ a with freeChunks := a.freeChunks.dropLast, chunks := a.chunks.set ci (some size), liveFp := a.liveFp.set ci 0 }, b, some ci)
    | none =>
      if arenaMaxRefs ≤ a.chunks.length then none
      else some ({ a with chunks := a.chunks ++ [some size], liveFp := a.liveFp ++ [0] }, b, some a.chunks.length)

def carve (a : Arena) (f : Nat) : Arena × Nat :=
  let ref := a.cur * 2 ^ 16 + a.curOff / arenaAlign
  ({ a with
      capacity := Function.update a.capacity ref (f - arenaAlign)
      curOff := a.curOff + f
      liveFp := a.liveFp.modify a.cur (· + f) }, ref)

/-- A fresh slot, in a new chunk where the current one is too short; ref 0 is a refusal. -/
def bump (a : Arena) (b : ArenaBudget) (f : Nat) : Option (Arena × ArenaBudget × Nat) :=
  if a.curOff + f ≤ arenaChunkSize then some ((a.carve f).1, b, (a.carve f).2)
  else
    match a.newChunk b arenaChunkSize with
    | none => none
    | some (a, b, none) => some (a, b, 0)
    | some (a, b, some ci) =>
      let r := { a with cur := ci, curOff := 0 }.carve f
      some (r.1, b, r.2)

def allocOversize (a : Arena) (b : ArenaBudget) (n : Nat) : Option (Arena × ArenaBudget × Nat) :=
  match a.newChunk b (n + arenaAlign) with
  | none => none
  | some (a, b, none) => some (a, b, 0)
  | some (a, b, some ci) =>
    some ({ a with capacity := Function.update a.capacity (ci * 2 ^ 16) n, liveFp := a.liveFp.set ci (n + arenaAlign) }, b, ci * 2 ^ 16)

/-- A standard chunk without live slots, other than the current one. -/
def retires (a : Arena) (ci : Nat) : Bool :=
  decide (a.chunks.getD ci none = some arenaChunkSize) && decide (ci ≠ a.cur) && decide (a.liveFp.getD ci 0 = 0)

/-- The chunks whose slots are all free go back to the budget, and their refs leave the free lists. -/
def reclaim (a : Arena) (b : ArenaBudget) : Arena × ArenaBudget × Bool :=
  let gone := (List.range a.chunks.length).filter a.retires
  let chunks := gone.foldl (fun cs ci => cs.set ci none) a.chunks
  if gone = [] then (a, b, false)
  else
    ({ a with
        chunks := chunks
        freeChunks := a.freeChunks ++ gone
        free := fun ci => (a.free ci).filter fun ref => (chunks.getD (chunkOf ref) none).isSome },
      b.unreserve (gone.length * arenaChunkSize), true)

/-- A refused allocation is tried once more if chunks could be retired. -/
def orReclaim (alloc : Arena → ArenaBudget → Option (Arena × ArenaBudget × Nat)) (a : Arena) (b : ArenaBudget) :
    Option (Arena × ArenaBudget × Nat) :=
  match alloc a b with
  | none => none
  | some (a, b, ref) =>
    if ref ≠ 0 then some (a, b, ref)
    else
      match a.reclaim b with
      | (a, b, true) => alloc a b
      | (a, b, false) => some (a, b, 0)

/-- The first chunk, with its first slot reserved so that no slot has ref 0. -/
def openFirst (a : Arena) (b : ArenaBudget) : Option (Arena × ArenaBudget) :=
  if a.chunks = [] then
    (b.reserve arenaChunkSize).map fun b =>
      ({ a with chunks := [some arenaChunkSize], liveFp := [arenaAlign], cur := 0, curOff := arenaAlign }, b)
  else some (a, b)

/-- A slot for `n` bytes; ref 0 is a refusal. -/
def alloc (a : Arena) (b : ArenaBudget) (n : Nat) : Option (Arena × ArenaBudget × Nat) :=
  match a.openFirst b with
  | none => some (a, b, 0)
  | some (a, b) =>
    match classFor n with
    | none => orReclaim (fun a b => a.allocOversize b n) a b
    | some (f, ci) =>
      match (a.free ci).getLast? with
      | some ref =>
        some ({ a with
          free := Function.update a.free ci (a.free ci).dropLast
          liveFp := a.liveFp.modify (chunkOf ref) (· + f) }, b, ref)
      | none => orReclaim (fun a b => a.bump b f) a b

def releaseChunk (a : Arena) (b : ArenaBudget) (ref : Nat) : Arena × ArenaBudget :=
  ({ a with
      chunks := a.chunks.set (chunkOf ref) none
      liveFp := a.liveFp.set (chunkOf ref) 0
      freeChunks := a.freeChunks ++ [chunkOf ref] }, b.unreserve (a.capacity ref + arenaAlign))

/-- A slot goes to its class's free list; a chunk of its own goes back to the budget. -/
def release (a : Arena) (b : ArenaBudget) (ref : Nat) : Arena × ArenaBudget :=
  match classFor (a.capacity ref) with
  | some (f, ci) =>
    if f = a.capacity ref + arenaAlign then
      ({ a with free := Function.update a.free ci (a.free ci ++ [ref]), liveFp := a.liveFp.modify (chunkOf ref) (· - f) }, b)
    else a.releaseChunk b ref
  | none => a.releaseChunk b ref

end Arena

end Aki.Sqlo1
