import Mathlib.Data.Int.Log
import Mathlib.Data.Prod.Lex
import Mathlib.Data.Rat.Floor
import Mathlib.Logic.Function.Basic
import Mathlib.Tactic.FieldSimp
import Mathlib.Tactic.Linarith
import Mathlib.Tactic.NormNum
import Mathlib.Tactic.Positivity
import Aki.Bisect

namespace Aki

/-- One (score, ref) pair, as the leaves hold it and as a separator copies it. -/
structure Entry where
  score : Nat
  ref : Nat
deriving DecidableEq, Repr

instance : Inhabited Entry := ⟨⟨0, 0⟩⟩

/-- A leaf block: its live entries and the ordinal of the next leaf, 0 at the tail. -/
structure Leaf where
  next : Nat
  ents : List Entry
deriving DecidableEq, Repr

/-- A child slot of a branch block: the child's ordinal and its subtree count. -/
structure Kid where
  child : Nat
  count : Nat
deriving DecidableEq, Repr

structure Branch where
  seps : List Entry
  kids : List Kid
deriving DecidableEq, Repr

def countMax : Nat := 2 ^ 32

def leafCap : Nat := 31

def arity : Nat := 16

def sepMax : Nat := arity - 1

/-- The two node arenas with their free stacks (top first), the root and the edge-leaf cache. A
cache field is `none` where the code stores `leafNone`. -/
structure Tree where
  leaves : Nat → Leaf
  branches : Nat → Branch
  leafFree : List Nat
  branchFree : List Nat
  nLeaf : Nat
  nBranch : Nat
  root : Nat
  rootIsLeaf : Bool
  height : Nat
  entries : Nat
  minLeaf : Option Nat
  maxLeaf : Option Nat
  edgeCache : Bool

def Leaf.nent (l : Leaf) : Nat := l.ents.length

def Leaf.ent (l : Leaf) (i : Nat) : Entry := l.ents.getD i default

def Branch.nkeys (b : Branch) : Nat := b.seps.length

def Branch.sep (b : Branch) (i : Nat) : Entry := b.seps.getD i default

def Branch.child (b : Branch) (i : Nat) : Nat := (b.kids.getD i ⟨0, 0⟩).child

def Branch.count (b : Branch) (i : Nat) : Nat := (b.kids.getD i ⟨0, 0⟩).count

/-- Counts are stored in 32 bits. -/
def Branch.setCount (b : Branch) (i v : Nat) : Branch :=
  { b with kids := b.kids.set i ⟨b.child i, v % countMax⟩ }

namespace Tree

def emptyLeaf : Leaf := ⟨0, []⟩

def emptyBranch : Branch := ⟨[], []⟩

def setLeaf (t : Tree) (o : Nat) (l : Leaf) : Tree :=
  { t with leaves := Function.update t.leaves o l }

def setBranch (t : Tree) (o : Nat) (b : Branch) : Tree :=
  { t with branches := Function.update t.branches o b }

def allocLeaf (t : Tree) : Tree × Nat :=
  match t.leafFree with
  | o :: free => (({ t with leafFree := free } : Tree).setLeaf o emptyLeaf, o)
  | [] => (({ t with nLeaf := t.nLeaf + 1 } : Tree).setLeaf t.nLeaf emptyLeaf, t.nLeaf)

def allocBranch (t : Tree) : Tree × Nat :=
  match t.branchFree with
  | o :: free => (({ t with branchFree := free } : Tree).setBranch o emptyBranch, o)
  | [] => (({ t with nBranch := t.nBranch + 1 } : Tree).setBranch t.nBranch emptyBranch, t.nBranch)

def invalidateEdges (t : Tree) : Tree := { t with minLeaf := none, maxLeaf := none }

def blank : Tree :=
  { leaves := fun _ => emptyLeaf, branches := fun _ => emptyBranch, leafFree := [], branchFree := [],
    nLeaf := 0, nBranch := 0, root := 0, rootIsLeaf := true, height := 1, entries := 0,
    minLeaf := none, maxLeaf := none, edgeCache := true }

def newTree : Tree :=
  let (t, o) := blank.allocLeaf
  { t with root := o, rootIsLeaf := true, height := 1 }

def bSetCount (t : Tree) (o i v : Nat) : Tree := t.setBranch o ((t.branches o).setCount i v)

/-- Number of live entries under a node; `lv` is 0 for a leaf. -/
def subtreeCount (t : Tree) (lv o : Nat) : Nat :=
  match lv with
  | 0 => (t.leaves o).nent
  | _ + 1 => ((t.branches o).kids.map Kid.count).sum

end Tree

section Compare

variable {μ : Type*} [LinearOrder μ]

/-- The common rule of `cmpSep`, `cmpEntry` and `cmpKeys`: the score decides, and only a tie
reads the member bytes. -/
def cmpPair (m : Nat → μ) (e : Entry) (score : Nat) (member : μ) : Ordering :=
  if e.score ≠ score then if e.score < score then .lt else .gt
  else compare (m e.ref) member

def cmpSep (m : Nat → μ) (b : Branch) (i score : Nat) (member : μ) : Ordering :=
  cmpPair m (b.sep i) score member

def cmpEntry (m : Nat → μ) (l : Leaf) (i score : Nat) (member : μ) : Ordering :=
  cmpPair m (l.ent i) score member

/-- The number of separators at or before the key. -/
def route (m : Nat → μ) (b : Branch) (score : Nat) (member : μ) : Nat :=
  Bisect.bisect (fun i => cmpSep m b i score member != .gt) b.nkeys 0 b.nkeys

/-- The first entry at or after the key, and whether the key is present. -/
def leafPos (m : Nat → μ) (l : Leaf) (score : Nat) (member : μ) : Nat × Bool :=
  let lo := Bisect.bisect (fun i => cmpEntry m l i score member == .lt) l.nent 0 l.nent
  (lo, decide (lo < l.nent) && cmpEntry m l lo score member == .eq)

end Compare

/-- What a node that split hands its parent: the promoted separator and the new right node. -/
structure Split where
  sep : Entry
  right : Nat
deriving DecidableEq, Repr

def Leaf.shiftIn (l : Leaf) (pos : Nat) (e : Entry) : Leaf :=
  { l with ents := l.ents.insertIdx pos e }

/-- A branch with `child` placed at position `ci` and `sep` in front of it. -/
def Branch.shiftIn (b : Branch) (ci : Nat) (sep : Entry) (child cnt : Nat) : Branch :=
  ⟨b.seps.insertIdx (ci - 1) sep, b.kids.insertIdx ci ⟨child, cnt % countMax⟩⟩

def Tree.splitLeaf (t : Tree) (o : Nat) : Tree × Nat :=
  let half := (t.leaves o).nent / 2
  let (t, right) := t.invalidateEdges.allocLeaf
  let l := t.leaves o
  let t := t.setLeaf right ⟨l.next, l.ents.drop half⟩
  (t.setLeaf o ⟨right, l.ents.take half⟩, right)

def Tree.branchInsertChild (t : Tree) (o ci : Nat) (sep : Entry) (child cnt : Nat) : Tree × Option Split :=
  let b := t.branches o
  let full := b.shiftIn ci sep child cnt
  if b.nkeys < sepMax then (t.setBranch o full, none)
  else
    -- the newcomer is in place among k+2 children; the middle separator moves up
    let mid := full.kids.length / 2
    let (t, right) := t.allocBranch
    let t := t.setBranch o ⟨full.seps.take (mid - 1), full.kids.take mid⟩
    let t := t.setBranch right ⟨full.seps.drop mid, full.kids.drop mid⟩
    (t, some ⟨full.sep (mid - 1), right⟩)

/-- The unwinding of `insertInto` and `appendInto` at a branch once child `c` has been entered. -/
def Tree.insertUp (t : Tree) (lv o c child : Nat) (added : Bool) (split : Option Split) : Tree × Option Split :=
  let t := if added then t.bSetCount o c ((t.branches o).count c + 1) else t
  match split with
  | none => (t, none)
  | some s =>
    let t := t.bSetCount o c (t.subtreeCount lv child)
    t.branchInsertChild o (c + 1) s.sep s.right (t.subtreeCount lv s.right)

/-- The recursion of `insertInto` and `appendInto`: `pick` chooses the child at a branch and `put`
works on the leaf. The level counts down to 0 at the leaves. -/
def Tree.insertDown (pick : Branch → Nat) (put : Tree → Nat → Tree × Bool × Option Split) :
    Nat → Tree → Nat → Tree × Bool × Option Split
  | 0, t, o => put t o
  | lv + 1, t, o =>
    let c := pick (t.branches o)
    let child := (t.branches o).child c
    let (t, added, split) := insertDown pick put lv t child
    let (t, split) := t.insertUp lv o c child added split
    (t, added, split)

def Tree.growRoot (t : Tree) : Option Split → Tree
  | none => t
  | some s =>
    let (t, nr) := t.allocBranch
    let lv := t.height - 1
    let t := t.setBranch nr ⟨[s.sep], [⟨t.root, t.subtreeCount lv t.root % countMax⟩,
      ⟨s.right, t.subtreeCount lv s.right % countMax⟩]⟩
    { t with root := nr, rootIsLeaf := false, height := t.height + 1 }

section

variable {μ : Type*} [LinearOrder μ]

def Tree.leafInsert (m : Nat → μ) (score : Nat) (member : μ) (ref : Nat) (t : Tree) (o : Nat) :
    Tree × Bool × Option Split :=
  let (pos, present) := leafPos m (t.leaves o) score member
  if present then (t, false, none)
  else if (t.leaves o).nent < leafCap then
    (t.setLeaf o ((t.leaves o).shiftIn pos ⟨score, ref⟩), true, none)
  else
    let (t, right) := t.splitLeaf o
    let side := if cmpEntry m (t.leaves right) 0 score member != .gt then right else o
    let l := t.leaves side
    let t := t.setLeaf side (l.shiftIn (leafPos m l score member).1 ⟨score, ref⟩)
    (t, true, some ⟨(t.leaves right).ent 0, right⟩)

def Tree.insertInto (m : Nat → μ) (score : Nat) (member : μ) (ref : Nat) :
    Nat → Tree → Nat → Tree × Bool × Option Split :=
  insertDown (fun b => route m b score member) (leafInsert m score member ref)

def Tree.insert (m : Nat → μ) (t : Tree) (score : Nat) (member : μ) (ref : Nat) : Tree × Bool :=
  let (t, added, split) := insertInto m score member ref (t.height - 1) t t.root
  let t := if added then { t with entries := t.entries + 1 } else t
  (t.growRoot split, added)

end

/-- Hands entries to a callback until it declines; the flag tells whether the run went through. -/
def runEntries {σ : Type*} (fn : Entry → σ → σ × Bool) : List Entry → σ → σ × Bool
  | [], s => (s, true)
  | e :: es, s => if (fn e s).2 then runEntries fn es (fn e s).1 else ((fn e s).1, false)

/-- The descent loop of the reads: `pick` names the child to enter and carries the loop's state. -/
def Tree.descend {σ : Type*} (pick : Branch → σ → Nat × σ) (t : Tree) : Nat → Nat → σ → Nat × σ
  | 0, o, s => (o, s)
  | lv + 1, o, s => descend pick t lv ((t.branches o).child (pick (t.branches o) s).1) (pick (t.branches o) s).2

section Walk

variable {σ : Type*} (fn : Entry → σ → σ × Bool)

/-- The forward loop along the leaf chain; `none` when the first argument, a bound on the leaves
visited, runs out. -/
def Tree.walkChain (t : Tree) : Nat → Nat → Nat → σ → Option σ
  | 0, _, _, _ => none
  | fuel + 1, ord, off, s =>
    let r := runEntries fn ((t.leaves ord).ents.drop off) s
    if r.2 then
      if (t.leaves ord).next = 0 then some r.1 else walkChain t fuel (t.leaves ord).next 0 r.1
    else some r.1

end Walk

section Key

variable {μ : Type*} [LinearOrder μ] (m : Nat → μ)

def Tree.routeLeaf (t : Tree) (score : Nat) (member : μ) : Nat :=
  (t.descend (fun b s => (route m b score member, s)) (t.height - 1) t.root ()).1

def Tree.find (t : Tree) (score : Nat) (member : μ) : Option Nat :=
  let o := t.routeLeaf m score member
  let p := leafPos m (t.leaves o) score member
  if p.2 then some ((t.leaves o).ent p.1).ref else none

def Tree.walkFrom {σ : Type*} (fn : Entry → σ → σ × Bool) (t : Tree) (score : Nat) (member : μ) (s : σ) : Option σ :=
  let o := t.routeLeaf m score member
  t.walkChain fn t.nLeaf o (leafPos m (t.leaves o) score member).1 s

end Key

end Aki
