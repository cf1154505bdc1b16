import Aki.Resp
import Aki.Slab
import Aki.SwissTable

namespace Aki

open Slab

/-- A field's record: offsets, slot and value length in 32 bits, field length in 16. -/
structure FEntry where
  foff : Nat
  voff : Nat
  vslot : Nat
  flen : Nat
  vlen : Nat
deriving DecidableEq, Inhabited

/-- The native band of a hash whose values are all resident. Freed ordinals are listed top first. -/
structure FTable where
  tbl : Table
  ents : List FEntry
  slab : Bytes
  vec : List Nat
  free : List Nat
  dead : Int
  streams : Int
  exp : Option (List Nat)
deriving DecidableEq

namespace FTable

def newFtable (hint : Nat) : Option FTable :=
  (Table.makeTable hint).map fun tbl => ⟨tbl, [], [], [], [], 0, 0, none⟩

def ent (f : FTable) (ord : Nat) : FEntry := f.ents.getD ord default

def fieldByOrd (f : FTable) (ord : Nat) : Bytes := slice f.slab (f.ent ord).foff (f.ent ord).flen

def valueByOrd (f : FTable) (ord : Nat) : Bytes := slice f.slab (f.ent ord).voff (f.ent ord).vlen

def expByOrd (f : FTable) (ord : Nat) : Nat :=
  match f.exp with
  | none => 0
  | some exp => exp.getD ord 0

section

variable (hash : Bytes → Nat)

/-- `Match` and `Rehash` read the field bytes of a record. -/
def members (f : FTable) : MemberSet Bytes where
  isMatch := fun ord key => f.fieldByOrd ord == key
  rehash := fun ord => hash (f.fieldByOrd ord)

def card (f : FTable) : Nat := f.tbl.len

def find (f : FTable) (field : Bytes) : Option (Option Nat) := f.tbl.find (f.members hash) (hash field) field

def get (f : FTable) (field : Bytes) : Option (Option Bytes) := (f.find hash field).map (Option.map f.valueByOrd)

def has (f : FTable) (field : Bytes) : Option Bool := (f.find hash field).map Option.isSome

def strlen (f : FTable) (field : Bytes) : Option Nat :=
  (f.find hash field).map fun
    | none => 0
    | some ord => (f.ent ord).vlen

/-- One turn of the compaction: the record's bytes move to the end of `packed`. -/
def packRecord (slab : Bytes) (acc : Bytes × List FEntry) (ord : Nat) : Bytes × List FEntry :=
  let e := acc.2.getD ord default
  let packed := acc.1 ++ slice slab e.foff e.flen
  (packed ++ slice slab e.voff e.vlen,
    acc.2.set ord { e with foff := acc.1.length % 2 ^ 32, voff := packed.length % 2 ^ 32 })

def compact (f : FTable) : FTable :=
  let packed := f.vec.foldl (packRecord f.slab) ([], f.ents)
  { f with slab := packed.1, ents := packed.2, dead := 0 }

def maybeCompact (f : FTable) : FTable :=
  if 0 < f.streams then f
  else if f.dead ≤ f.slab.length / 2 ∨ f.dead < 4096 then f
  else f.compact

def overwrite (f : FTable) (ord : Nat) (value : Bytes) : FTable :=
  let e := f.ent ord
  if value.length % 2 ^ 32 ≤ e.vlen then
    { f with
      dead := f.dead + (e.vlen - value.length)
      slab := writeAt f.slab e.voff (value.take (f.slab.length - e.voff))
      ents := f.ents.set ord { e with vlen := value.length % 2 ^ 32 } }
  else
    maybeCompact { f with
      dead := f.dead + e.vlen
      slab := f.slab ++ value
      ents := f.ents.set ord { e with voff := f.slab.length % 2 ^ 32, vlen := value.length % 2 ^ 32 } }

/-- A freed ordinal is taken only while no enumeration is open. -/
def newRecord (f : FTable) (field value : Bytes) : FTable × Nat :=
  let e : FEntry := ⟨f.slab.length % 2 ^ 32, (f.slab.length + field.length) % 2 ^ 32, f.vec.length % 2 ^ 32,
    field.length % 2 ^ 16, value.length % 2 ^ 32⟩
  let slab := f.slab ++ field ++ value
  match f.free, decide (f.streams = 0) with
  | ord :: free, true =>
    ({ f with
      slab := slab
      free := free
      ents := f.ents.set ord e
      exp := f.exp.map (·.set ord 0)
      vec := f.vec ++ [ord] }, ord)
  | _, _ =>
    let ord := f.ents.length % 2 ^ 32
    ({ f with
      slab := slab
      ents := f.ents ++ [e]
      exp := f.exp.map (· ++ [0])
      vec := f.vec ++ [ord] }, ord)

/-- The record and the table slot of a field that is absent, as `set` and `setNX` make them. -/
def addField (f : FTable) (field value : Bytes) : Option FTable :=
  let r := f.newRecord field value
  (r.1.tbl.insert (r.1.members hash) (hash field) r.2).map fun tbl => { r.1 with tbl := tbl }

def set (f : FTable) (field value : Bytes) : Option (FTable × Bool) :=
  (f.find hash field).bind fun
    | some ord => some (f.overwrite ord value, false)
    | none => (f.addField hash field value).map (·, true)

def setNX (f : FTable) (field value : Bytes) : Option (FTable × Bool) :=
  (f.find hash field).bind fun
    | some _ => some (f, false)
    | none => (f.addField hash field value).map (·, true)

/-- The last ordinal of the draw vector takes the removed one's place. -/
def removeOrd (f : FTable) (ord : Nat) : FTable :=
  let e := f.ent ord
  let last := f.vec.length - 1
  let moved := f.vec.getD last 0
  maybeCompact { f with
    vec := (f.vec.set e.vslot moved).take last
    ents := f.ents.set moved { f.ent moved with vslot := e.vslot }
    dead := f.dead + (e.flen + e.vlen)
    free := ord :: f.free
    exp := f.exp.map (·.set ord 0) }

def del (f : FTable) (field : Bytes) : Option (FTable × Bool) :=
  (f.tbl.delete (f.members hash) (hash field) field).map fun
    | (_, none) => (f, false)
    | (tbl, some ord) => (({ f with tbl := tbl } : FTable).removeOrd ord, true)

def each (f : FTable) : List (Bytes × Bytes) := f.vec.map fun ord => (f.fieldByOrd ord, f.valueByOrd ord)

def fieldExp (f : FTable) (field : Bytes) : Option Nat :=
  match f.exp with
  | none => some 0
  | some _ => (f.find hash field).map fun
    | none => 0
    | some ord => f.expByOrd ord

def setFieldExp (f : FTable) (field : Bytes) (at' : Nat) : Option (FTable × Bool) :=
  (f.find hash field).map fun
    | none => (f, false)
    | some ord => ({ f with exp := some ((f.exp.getD (List.replicate f.ents.length 0)).set ord at') }, true)

def clearFieldExp (f : FTable) (field : Bytes) : Option FTable :=
  match f.exp with
  | none => some f
  | some exp => (f.find hash field).map fun
    | none => f
    | some ord => { f with exp := some (exp.set ord 0) }

/-- The loop of `reap` at position `i`; each turn brings the end of the draw vector one closer. -/
def reapLoop (now : Nat) : Nat → Nat → Nat → FTable → Option (FTable × Nat)
  | 0, _, next, f => some (f, next)
  | fuel + 1, i, next, f =>
    if i < f.vec.length then
      let ord := f.vec.getD i 0
      let at' := f.expByOrd ord
      if at' ≠ 0 ∧ at' ≤ now then
        (f.tbl.delete (f.members hash) (hash (f.fieldByOrd ord)) (f.fieldByOrd ord)).bind fun r =>
          reapLoop now fuel i next (({ f with tbl := r.1 } : FTable).removeOrd ord)
      else
        reapLoop now fuel (i + 1) (if at' ≠ 0 ∧ (next = 0 ∨ at' < next) then at' else next) f
    else some (f, next)

def reap (f : FTable) (now : Nat) : Option (FTable × Nat) :=
  match f.exp with
  | none => some (f, 0)
  | some _ => reapLoop hash now f.vec.length 0 0 f

end

end FTable

end Aki
