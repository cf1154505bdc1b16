import Aki.StreamId
import Aki.TreeModel

namespace Aki

/-- A pending entry: 64-bit signed clock, 16-bit delivery count, 32-bit owner. -/
structure PelEntry where
  id : StreamId
  deliveryTime : Int
  deliveryCount : Nat
  consumerOrd : Nat
deriving DecidableEq

def StreamId.zero : StreamId := ⟨0, 0, by decide, by decide⟩

instance : Inhabited StreamId := ⟨StreamId.zero⟩

instance : Inhabited PelEntry := ⟨⟨default, 0, 0, 0⟩⟩

/-- The slab arena, the freed ordinals (top first) and the tree over the slabs. -/
structure GroupPEL where
  slabs : List PelEntry
  free : List Nat
  tree : Tree

def newPEL : GroupPEL := ⟨[], [], Tree.newTree⟩

namespace GroupPEL

def slab (p : GroupPEL) (ord : Nat) : PelEntry := p.slabs.getD ord default

def member (p : GroupPEL) (ref : Nat) : List Nat := (p.slab ref).id.seqKey

def setSlab (p : GroupPEL) (ord : Nat) (x : PelEntry) : GroupPEL := { p with slabs := p.slabs.set ord x }

def alloc (p : GroupPEL) : GroupPEL × Nat :=
  match p.free with
  | ord :: free => ({ p with free := free }, ord)
  | [] => ({ p with slabs := p.slabs ++ [default] }, p.slabs.length)

/-- The common part of `insert` and `insertClaimed`: a slab is taken and filled before the tree is told. -/
def fill (p : GroupPEL) (x : PelEntry) : GroupPEL := p.alloc.1.setSlab p.alloc.2 x

def addEntry (p : GroupPEL) (x : PelEntry) : GroupPEL :=
  let q := p.fill x
  { q with tree := (q.tree.insert q.member x.id.ms x.id.seqKey p.alloc.2).1 }

def insert (p : GroupPEL) (id : StreamId) (now : Int) (consumerOrd : Nat) : GroupPEL :=
  p.addEntry ⟨id, now, 1, consumerOrd⟩

def find (p : GroupPEL) (id : StreamId) : Option Nat := p.tree.find p.member id.ms id.seqKey

def walkFrom {σ : Type*} (p : GroupPEL) (start : StreamId) (fn : PelEntry → σ → σ × Bool) (s : σ) : Option σ :=
  p.tree.walkFrom p.member (fun e s => fn (p.slab e.ref) s) start.ms start.seqKey s

end GroupPEL

end Aki
