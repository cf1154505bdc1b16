import Mathlib.Algebra.BigOperators.Group.Finset.Basic
import Aki.FieldTableMap

namespace Aki

open Slab

/-- A member's record: slab offset and draw slot in 32 bits, length in 16. -/
structure SRecord where
  loc : Nat
  vslot : Nat
  mlen : Nat
deriving DecidableEq, Inhabited

/-- The native band of a set whose members are all resident. Freed ordinals are listed top first. -/
structure HTable where
  tbl : Table
  recs : List SRecord
  slab : Bytes
  vec : List Nat
  free : List Nat
  dead : Int
  streams : Int
deriving DecidableEq

namespace HTable

def newHashtable (hint : Nat) : Option HTable := (Table.makeTable hint).map fun tbl => ⟨tbl, [], [], [], [], 0, 0⟩

def record (h : HTable) (ord : Nat) : SRecord := h.recs.getD ord default

def bytesOf (h : HTable) (ord : Nat) : Bytes := slice h.slab (h.record ord).loc (h.record ord).mlen

def card (h : HTable) : Nat := h.tbl.len

def at' (h : HTable) (i : Nat) : Bytes := h.bytesOf (h.vec.getD i 0)

def each (h : HTable) : List Bytes := h.vec.map h.bytesOf

/-- One turn of the compaction: the member's bytes move to the end of `packed`. -/
def packRecord (slab : Bytes) (acc : Bytes × List SRecord) (ord : Nat) : Bytes × List SRecord :=
  let r := acc.2.getD ord default
  (acc.1 ++ slice slab r.loc r.mlen, acc.2.set ord { r with loc := acc.1.length % 2 ^ 32 })

def compact (h : HTable) : HTable :=
  let packed := h.vec.foldl (packRecord h.slab) ([], h.recs)
  { h with slab := packed.1, recs := packed.2, dead := 0 }

def maybeCompact (h : HTable) : HTable :=
  if 0 < h.streams then h
  else if h.dead ≤ h.slab.length / 2 ∨ h.dead < 4096 then h
  else h.compact

/-- A freed ordinal is taken only while no enumeration is open. -/
def newRecord (h : HTable) (m : Bytes) : HTable × Nat :=
  let r : SRecord := ⟨h.slab.length % 2 ^ 32, h.vec.length % 2 ^ 32, m.length % 2 ^ 16⟩
  match h.free, decide (h.streams = 0) with
  | ord :: free, true => ({ h with slab := h.slab ++ m, free := free, recs := h.recs.set ord r, vec := h.vec ++ [ord] }, ord)
  | _, _ =>
    let ord := h.recs.length % 2 ^ 32
    ({ h with slab := h.slab ++ m, recs := h.recs ++ [r], vec := h.vec ++ [ord] }, ord)

section

variable (hash : Bytes → Nat)

/-- `Match` and `Rehash` read the member bytes of a record. -/
def members (h : HTable) : MemberSet Bytes where
  isMatch := fun ord key => h.bytesOf ord == key
  rehash := fun ord => hash (h.bytesOf ord)

def has (h : HTable) (m : Bytes) : Option Bool := (h.tbl.find (h.members hash) (hash m) m).map Option.isSome

/-- `add`, and `addRaw`, which leaves out only the upkeep of the sorted arrays. -/
def add (h : HTable) (m : Bytes) : Option (HTable × Bool) :=
  (h.tbl.find (h.members hash) (hash m) m).bind fun
    | some _ => some (h, false)
    | none =>
      let r := h.newRecord m
      (r.1.tbl.insert (r.1.members hash) (hash m) r.2).map fun tbl => ({ r.1 with tbl := tbl }, true)

/-- The last ordinal of the draw vector takes the removed one's place. -/
def removeOrd (h : HTable) (ord : Nat) : HTable :=
  let r := h.record ord
  let last := h.vec.length - 1
  let moved := h.vec.getD last 0
  maybeCompact { h with
    vec := (h.vec.set r.vslot moved).take last
    recs := h.recs.set moved { h.record moved with vslot := r.vslot }
    dead := h.dead + r.mlen
    free := ord :: h.free }

def rem (h : HTable) (m : Bytes) : Option (HTable × Bool) :=
  (h.tbl.delete (h.members hash) (hash m) m).map fun
    | (_, none) => (h, false)
    | (tbl, some ord) => (({ h with tbl := tbl } : HTable).removeOrd ord, true)

/-- `popOne` at the drawn index: the member is copied out, then removed. -/
def popAt (h : HTable) (i : Nat) : Option (HTable × Bytes) := (h.rem hash (h.at' i)).map fun r => (r.1, h.at' i)

end

open Slab

-- A set band is a hash band with empty values: every operation of the one is an operation of the other.

def forgetEntry (e : FEntry) : SRecord := ⟨e.foff, e.vslot, e.flen⟩

/-- The hash band without its value regions. -/
def ofFields (f : FTable) : HTable := ⟨f.tbl, f.ents.map forgetEntry, f.slab, f.vec, f.free, f.dead, f.streams⟩

/-- No value has bytes and no field an expiry. -/
structure Bare (f : FTable) : Prop where
  exp : f.exp = none
  vlen : ∀ e ∈ f.ents, e.vlen = 0

variable {hash : Bytes → Nat} {f g : FTable}

theorem getD_forget (l : List FEntry) (o : Nat) : (l.map forgetEntry).getD o default = forgetEntry (l.getD o default) := by
  rw [List.getD_eq_getElem?_getD, List.getD_eq_getElem?_getD, List.getElem?_map]
  cases l[o]? <;> rfl

theorem Bare.getD_vlen (hb : ∀ e ∈ f.ents, e.vlen = 0) (o : Nat) : (f.ent o).vlen = 0 := by
  rw [FTable.ent, List.getD_eq_getElem?_getD]
  cases he : f.ents[o]? with
  | none => rfl
  | some e => exact hb e (List.mem_of_getElem? he)

theorem record_ofFields (f : FTable) (o : Nat) : (ofFields f).record o = forgetEntry (f.ent o) := getD_forget f.ents o

theorem bytesOf_ofFields (f : FTable) (o : Nat) : (ofFields f).bytesOf o = f.fieldByOrd o := by
  rw [bytesOf, record_ofFields]
  rfl

theorem members_ofFields (f : FTable) : (ofFields f).members hash = f.members hash := by
  simp only [members, FTable.members, bytesOf_ofFields]

theorem each_ofFields (f : FTable) : (ofFields f).each = f.each.map Prod.fst := by
  rw [each, FTable.each, List.map_map]
  exact List.map_congr_left fun o _ => bytesOf_ofFields f o

theorem newRecord_ofFields (f : FTable) (m : Bytes) :
    (ofFields f).newRecord m = (ofFields (f.newRecord m []).1, (f.newRecord m []).2) := by
  unfold newRecord FTable.newRecord
  cases hf : f.free with
  | nil => simp [ofFields, hf, forgetEntry]
  | cons ord free =>
    by_cases hs : f.streams = 0
    · simp [ofFields, hf, hs, forgetEntry, List.map_set]
    · simp [ofFields, hf, hs, forgetEntry]

theorem Bare.newRecord (hb : Bare f) (m : Bytes) : Bare (f.newRecord m []).1 := by
  unfold FTable.newRecord
  cases f.free with
  | nil =>
    refine ⟨by simp [hb.exp], fun e he => ?_⟩
    obtain he | he := List.mem_append.mp he
    · exact hb.vlen e he
    · rw [List.mem_singleton.mp he]
      rfl
  | cons ord free =>
    by_cases hs : f.streams = 0
    · refine ⟨by simp [hb.exp, hs], fun e he => ?_⟩
      simp only [hs, decide_true] at he
      obtain he | rfl := List.mem_or_eq_of_mem_set he
      · exact hb.vlen e he
      · rfl
    · refine ⟨by simp [hb.exp, hs], fun e he => ?_⟩
      simp only [hs, decide_false] at he
      obtain he | he := List.mem_append.mp he
      · exact hb.vlen e he
      · rw [List.mem_singleton.mp he]
        rfl

theorem packRecord_forget (slab : Bytes) (acc : Bytes × List FEntry) (o : Nat) (hb : ∀ e ∈ acc.2, e.vlen = 0) :
    packRecord slab (acc.1, acc.2.map forgetEntry) o =
        ((FTable.packRecord slab acc o).1, (FTable.packRecord slab acc o).2.map forgetEntry) ∧
      ∀ e ∈ (FTable.packRecord slab acc o).2, e.vlen = 0 := by
  have hv : (acc.2.getD o default).vlen = 0 := by
    rw [List.getD_eq_getElem?_getD]
    cases he : acc.2[o]? with
    | none => rfl
    | some e => exact hb e (List.mem_of_getElem? he)
  refine ⟨?_, fun e he => ?_⟩
  · simp only [packRecord, FTable.packRecord, getD_forget, forgetEntry, hv, List.map_set, Slab.slice, List.take_zero,
      List.append_nil]
  · obtain he | rfl := List.mem_or_eq_of_mem_set he
    · exact hb e he
    · exact hv

theorem compact_ofFields (hb : Bare f) : (ofFields f).compact = ofFields f.compact ∧ Bare f.compact := by
  have hall : ∀ (os : List Nat) (acc : Bytes × List FEntry), (∀ e ∈ acc.2, e.vlen = 0) →
      os.foldl (packRecord f.slab) (acc.1, acc.2.map forgetEntry) =
          ((os.foldl (FTable.packRecord f.slab) acc).1, (os.foldl (FTable.packRecord f.slab) acc).2.map forgetEntry) ∧
        ∀ e ∈ (os.foldl (FTable.packRecord f.slab) acc).2, e.vlen = 0 := by
    intro os
    induction os with
    | nil => exact fun acc hacc => ⟨rfl, hacc⟩
    | cons o os ih =>
      intro acc hacc
      obtain ⟨heq, hacc'⟩ := packRecord_forget f.slab acc o hacc
      rw [List.foldl_cons, List.foldl_cons, heq]
      exact ih _ hacc'
  obtain ⟨heq, hv⟩ := hall f.vec ([], f.ents) hb.vlen
  refine ⟨?_, hb.exp, hv⟩
  rw [compact, FTable.compact]
  show HTable.mk _ (f.vec.foldl (packRecord f.slab) ([], f.ents.map forgetEntry)).2
    (f.vec.foldl (packRecord f.slab) ([], f.ents.map forgetEntry)).1 _ _ _ _ = _
  rw [heq]
  rfl

theorem maybeCompact_ofFields (hb : Bare f) : (ofFields f).maybeCompact = ofFields f.maybeCompact ∧ Bare f.maybeCompact := by
  unfold maybeCompact FTable.maybeCompact
  show (if 0 < f.streams then _ else if f.dead ≤ f.slab.length / 2 ∨ f.dead < 4096 then _ else _) = _ ∧ _
  split
  · exact ⟨rfl, hb⟩
  · split
    · exact ⟨rfl, hb⟩
    · exact compact_ofFields hb

theorem removeOrd_ofFields (hb : Bare f) (o : Nat) : (ofFields f).removeOrd o = ofFields (f.removeOrd o) ∧ Bare (f.removeOrd o) := by
  unfold removeOrd FTable.removeOrd
  have hv := Bare.getD_vlen hb.vlen
  obtain ⟨moved, hmoved⟩ : ∃ moved, moved = f.vec.getD (f.vec.length - 1) 0 := ⟨_, rfl⟩
  have hbare : Bare { f with
      vec := (f.vec.set (f.ent o).vslot moved).take (f.vec.length - 1)
      ents := f.ents.set moved { f.ent moved with vslot := (f.ent o).vslot }
      dead := f.dead + ((f.ent o).flen + (f.ent o).vlen)
      free := o :: f.free
      exp := f.exp.map (·.set o 0) } := by
    refine ⟨by rw [hb.exp]; rfl, fun e he => ?_⟩
    obtain he | rfl := List.mem_or_eq_of_mem_set he
    · exact hb.vlen e he
    · exact hv moved
  obtain ⟨heq, hbare⟩ := maybeCompact_ofFields hbare
  dsimp only
  rw [← hmoved]
  refine ⟨?_, hbare⟩
  rw [← heq]
  simp only [record_ofFields]
  simp only [ofFields, ← hmoved, forgetEntry, List.map_set, hv]
  simp

theorem add_ofFields (hash : Bytes → Nat) (hb : Bare f) (m : Bytes) :
    (ofFields f).add hash m = (f.setNX hash m []).map (Prod.map ofFields id) ∧ ∀ r ∈ f.setNX hash m [], Bare r.1 := by
  have hfind : (ofFields f).tbl.find ((ofFields f).members hash) (hash m) m = f.find hash m := by
    rw [members_ofFields]
    rfl
  rw [add, FTable.setNX, hfind]
  cases f.find hash m with
  | none => exact ⟨rfl, fun _ hr => absurd hr (Option.not_mem_none _)⟩
  | some found =>
    cases found with
    | some o => exact ⟨rfl, fun r hr => Option.mem_some.mp hr ▸ hb⟩
    | none =>
      rw [Option.bind_some, Option.bind_some]
      dsimp only
      rw [newRecord_ofFields, members_ofFields, FTable.addField]
      dsimp only
      show Option.map _ ((f.newRecord m []).1.tbl.insert _ _ _) = _ ∧ _
      cases (f.newRecord m []).1.tbl.insert ((f.newRecord m []).1.members hash) (hash m) (f.newRecord m []).2 with
      | none => exact ⟨rfl, fun _ hr => absurd hr (Option.not_mem_none _)⟩
      | some tbl => exact ⟨rfl, fun r hr => Option.mem_some.mp hr ▸ ⟨(hb.newRecord m).exp, (hb.newRecord m).vlen⟩⟩

theorem rem_ofFields (hash : Bytes → Nat) (hb : Bare f) (m : Bytes) :
    (ofFields f).rem hash m = (f.del hash m).map (Prod.map ofFields id) ∧ ∀ r ∈ f.del hash m, Bare r.1 := by
  rw [rem, FTable.del, members_ofFields]
  show Option.map _ (f.tbl.delete _ _ _) = _ ∧ _
  cases f.tbl.delete (f.members hash) (hash m) m with
  | none => exact ⟨rfl, fun _ hr => absurd hr (Option.not_mem_none _)⟩
  | some r =>
    obtain ⟨tbl, found⟩ := r
    cases found with
    | none => exact ⟨rfl, fun r hr => Option.mem_some.mp hr ▸ hb⟩
    | some o =>
      have hb' : Bare ({ f with tbl := tbl } : FTable) := ⟨hb.exp, hb.vlen⟩
      obtain ⟨heq, hbare⟩ := removeOrd_ofFields hb' o
      refine ⟨?_, fun r hr => Option.mem_some.mp hr ▸ hbare⟩
      exact congrArg (fun h => some (h, true)) heq

inductive SetOp where
  | add (m : Bytes)
  | rem (m : Bytes)
  | pop (i : Nat)

/-- A pop draws its index below the cardinality. -/
def SetOp.run (hash : Bytes → Nat) (h : HTable) : SetOp → Option HTable
  | .add m => (h.add hash m).map Prod.fst
  | .rem m => (h.rem hash m).map Prod.fst
  | .pop i => if i < h.vec.length then (h.popAt hash i).map Prod.fst else none

def SetOp.spec (h : HTable) (S : Finset Bytes) : SetOp → Finset Bytes
  | .add m => insert m S
  | .rem m => S.erase m
  | .pop i => S.erase (h.at' i)

/-- The length and the offset of an added member fit their widths, and the table is below its size limit. -/
def SetOp.Fits (h : HTable) : SetOp → Prop
  | .add m => m.length < 2 ^ 16 ∧ h.slab.length + m.length < 2 ^ 32 ∧ h.card < 2 ^ 28
  | .rem _ | .pop _ => True

instance (h : HTable) : (op : SetOp) → Decidable (op.Fits h)
  | .add _ => inferInstanceAs (Decidable (_ ∧ _ ∧ _))
  | .rem _ | .pop _ => isTrue trivial

/-- A table and the set it should be, after a run of operations that all meet `C`. -/
inductive Run (hash : Bytes → Nat) (C : HTable → SetOp → Prop) : HTable → Finset Bytes → Prop
  | new {h : HTable} (hint : Nat) : newHashtable hint = some h → Run hash C h ∅
  | step {h g : HTable} {S : Finset Bytes} (op : SetOp) : Run hash C h S → C h op → op.run hash h = some g →
      Run hash C g (op.spec h S)

/-- The table answers as the set does, its bytes are accounted for, and the next operation ends if it meets `C`. -/
structure Agrees (hash : Bytes → Nat) (C : HTable → SetOp → Prop) (h : HTable) (S : Finset Bytes) : Prop where
  has : ∀ m, h.has hash m = some (decide (m ∈ S))
  card : h.card = S.card
  each : h.each.Nodup ∧ ∀ m, m ∈ h.each ↔ m ∈ S
  bytes : (h.slab.length : Int) - h.dead = (∑ m ∈ S, m.length : Nat)
  add : ∀ m, C h (.add m) → ∃ g, h.add hash m = some (g, decide (m ∉ S))
  rem : ∀ m, ∃ g, h.rem hash m = some (g, decide (m ∈ S))
  pop : ∀ i < h.card, ∃ g, h.popAt hash i = some (g, h.at' i) ∧ h.at' i ∈ S

/-- The hash band behind a set band, and the map behind the set. -/
structure Behind (hash : Bytes → Nat) (h : HTable) (S : Finset Bytes) (f : FTable) (M : FTable.FieldMap) : Prop where
  sound : f.Sound hash M
  bare : Bare f
  eq : h = ofFields f
  mem : ∀ m, m ∈ S ↔ (M m).isSome

variable {h : HTable} {S : Finset Bytes} {M : FTable.FieldMap}

theorem setNX_flag {r : FTable × Bool} {m : Bytes} (hs : f.setNX hash m [] = some r) : f.has hash m = some (!r.2) := by
  rw [FTable.setNX] at hs
  rw [FTable.has]
  obtain ⟨found, hfind, hs⟩ := Option.bind_eq_some_iff.mp hs
  rw [hfind]
  cases found with
  | some o =>
    obtain rfl := Option.some.inj hs
    rfl
  | none =>
    obtain ⟨g, -, rfl⟩ := Option.map_eq_some_iff.mp hs
    rfl

theorem Behind.has_eq (hb : Behind hash h S f M) (m : Bytes) : f.has hash m = some (decide (m ∈ S)) := by
  rw [hb.sound.agrees.has]
  exact congrArg some (Bool.eq_iff_iff.mpr ((hb.mem m).symm.trans (decide_eq_true_iff).symm))

theorem Behind.has (hb : Behind hash h S f M) (m : Bytes) : h.has hash m = some (decide (m ∈ S)) := by
  rw [← hb.has_eq m, hb.eq, HTable.has, members_ofFields]
  rfl

theorem Behind.add (hb : Behind hash h S f M) {m : Bytes} (hfits : SetOp.Fits h (.add m)) :
    ∃ g f' M', h.add hash m = some (g, decide (m ∉ S)) ∧ Behind hash g (insert m S) f' M' := by
  obtain ⟨hlen, hroom, hcard⟩ := hfits
  have heq := hb.eq
  subst heq
  obtain ⟨f', hrun, hsound⟩ := FTable.Op.run_sound (.setNX m []) hb.sound ⟨hlen, hroom, hcard⟩
  obtain ⟨⟨f'', b⟩, hset, rfl⟩ := Option.map_eq_some_iff.mp hrun
  obtain ⟨hadd, hbare⟩ := add_ofFields hash hb.bare m
  have hflag : (!b) = decide (m ∈ S) := Option.some.inj ((setNX_flag hset).symm.trans (hb.has_eq m))
  refine ⟨ofFields f'', f'', _, ?_, hsound, hbare _ hset, rfl, fun x => ?_⟩
  · rw [hadd, hset, decide_not, ← hflag, Bool.not_not]
    rfl
  · rw [Finset.mem_insert, hb.mem, FTable.Op.spec]
    by_cases hm : (M m).isSome
    · rw [if_pos hm]
      exact ⟨fun hx => hx.elim (fun heq => heq ▸ hm) id, .inr⟩
    · rw [if_neg hm]
      by_cases hx : x = m
      · rw [hx, Function.update_self]
        exact iff_of_true (.inl rfl) rfl
      · rw [Function.update_of_ne hx]
        exact or_iff_right hx

theorem del_flag {r : FTable × Bool} {m : Bytes} (hs : f.Sound hash M) (hd : f.del hash m = some r) : r.2 = (M m).isSome := by
  obtain ⟨A, hinv, rfl⟩ := hs.inv
  obtain ⟨tbl, hdel, -⟩ := hinv.delete_spec m
  rw [FTable.del, hdel] at hd
  rw [FTable.mapOf, Option.isSome_map]
  cases hA : A m with
  | none =>
    rw [hA] at hd
    obtain rfl := Option.some.inj hd
    rfl
  | some o =>
    rw [hA] at hd
    obtain rfl := Option.some.inj hd
    rfl

theorem Behind.rem (hb : Behind hash h S f M) (m : Bytes) :
    ∃ g f' M', h.rem hash m = some (g, decide (m ∈ S)) ∧ Behind hash g (S.erase m) f' M' := by
  have heq := hb.eq
  subst heq
  obtain ⟨f', hrun, hsound⟩ := FTable.Op.run_sound (.del m) hb.sound trivial
  obtain ⟨⟨f'', b⟩, hdel, rfl⟩ := Option.map_eq_some_iff.mp hrun
  obtain ⟨hrem, hbare⟩ := rem_ofFields hash hb.bare m
  have hflag : b = decide (m ∈ S) := (del_flag hb.sound hdel).trans (Bool.eq_iff_iff.mpr ((hb.mem m).symm.trans decide_eq_true_iff.symm))
  refine ⟨ofFields f'', f'', _, ?_, hsound, hbare _ hdel, rfl, fun x => ?_⟩
  · rw [hrem, hdel, ← hflag]
    rfl
  · rw [Finset.mem_erase, hb.mem, FTable.Op.spec]
    by_cases hx : x = m
    · rw [hx, Function.update_self]
      exact iff_of_false (fun hne => hne.1 rfl) Bool.false_ne_true
    · rw [Function.update_of_ne hx]
      exact and_iff_right hx

theorem Behind.each (hb : Behind hash h S f M) : h.each.Nodup ∧ ∀ m, m ∈ h.each ↔ m ∈ S := by
  obtain ⟨hnd, hmem⟩ := hb.sound.agrees.each
  rw [hb.eq, each_ofFields]
  refine ⟨hnd, fun m => ?_⟩
  rw [List.mem_map, hb.mem, Option.isSome_iff_exists]
  constructor
  · rintro ⟨⟨k, v⟩, hkv, rfl⟩
    obtain ⟨e, he⟩ := (hmem k v).mp hkv
    exact ⟨_, he⟩
  · rintro ⟨⟨v, e⟩, he⟩
    exact ⟨(m, v), (hmem m v).mpr ⟨e, he⟩, rfl⟩

theorem Behind.toFinset (hb : Behind hash h S f M) : h.each.toFinset = S := Finset.ext fun m => List.mem_toFinset.trans (hb.each.2 m)

theorem Behind.at_mem (hb : Behind hash h S f M) {i : Nat} (hi : i < h.vec.length) : h.at' i ∈ S := by
  refine (hb.each.2 _).mp (List.mem_map.mpr ⟨h.vec.getD i 0, ?_, rfl⟩)
  rw [List.getD_eq_getElem?_getD, List.getElem?_eq_getElem hi]
  exact List.getElem_mem hi

theorem Behind.card (hb : Behind hash h S f M) : h.card = h.vec.length ∧ h.card = S.card := by
  have hlen : h.card = h.each.length := by
    rw [hb.eq, each_ofFields, List.length_map]
    exact hb.sound.agrees.card
  refine ⟨hlen.trans (List.length_map ..), ?_⟩
  rw [hlen, ← hb.toFinset, List.toFinset_card_of_nodup hb.each.1]

theorem Behind.bytes (hb : Behind hash h S f M) : (h.slab.length : Int) - h.dead = (∑ m ∈ S, m.length : Nat) := by
  have hvals : ∀ x ∈ f.each, x.2 = [] := by
    intro x hx
    obtain ⟨o, -, rfl⟩ := List.mem_map.mp hx
    show slice _ _ _ = []
    rw [Bare.getD_vlen hb.bare.vlen]
    exact List.take_zero
  have hsum : (f.each.map fun x => x.1.length + x.2.length).sum = ∑ m ∈ S, m.length := by
    rw [← hb.toFinset, List.sum_toFinset _ hb.each.1, hb.eq, each_ofFields, List.map_map]
    refine congrArg List.sum (List.map_congr_left fun x hx => ?_)
    rw [hvals x hx]
    rfl
  rw [← hsum, ← hb.sound.agrees.bytes, hb.eq]
  rfl

theorem Behind.agrees (hb : Behind hash h S f M) : h.Agrees hash (fun h op => op.Fits h) S := by
  refine ⟨hb.has, hb.card.2, hb.each, hb.bytes, fun m hfits => ?_, fun m => ?_, fun i hi => ?_⟩
  · obtain ⟨g, -, -, hg, -⟩ := hb.add hfits
    exact ⟨g, hg⟩
  · obtain ⟨g, -, -, hg, -⟩ := hb.rem m
    exact ⟨g, hg⟩
  · obtain ⟨g, -, -, hg, -⟩ := hb.rem (h.at' i)
    refine ⟨g, by rw [popAt, hg]; rfl, hb.at_mem (hb.card.1 ▸ hi)⟩

theorem Run.behind (hr : Run hash (fun h op => op.Fits h) h S) : ∃ f M, Behind hash h S f M := by
  induction hr with
  | new hint hnew =>
    obtain ⟨tbl, htbl, rfl⟩ := Option.map_eq_some_iff.mp hnew
    refine ⟨⟨tbl, [], [], [], [], 0, 0, none⟩, fun _ => none, ?_, ⟨rfl, (fun _ he => nomatch he)⟩, rfl, fun m => by simp⟩
    have hnewf : FTable.newFtable hint = some ⟨tbl, [], [], [], [], 0, 0, none⟩ := by rw [FTable.newFtable, htbl]; rfl
    exact FTable.newFtable_sound hash hnewf
  | @step h g S op _ hfits hrun ih =>
    obtain ⟨f, M, hb⟩ := ih
    cases op with
    | add m =>
      obtain ⟨g', f', M', hg, hb'⟩ := hb.add hfits
      rw [SetOp.run, hg] at hrun
      obtain rfl := Option.some.inj hrun
      exact ⟨f', M', hb'⟩
    | rem m =>
      obtain ⟨g', f', M', hg, hb'⟩ := hb.rem m
      rw [SetOp.run, hg] at hrun
      obtain rfl := Option.some.inj hrun
      exact ⟨f', M', hb'⟩
    | pop i =>
      obtain ⟨g', f', M', hg, hb'⟩ := hb.rem (h.at' i)
      rw [SetOp.run] at hrun
      split at hrun
      · rw [popAt, hg] at hrun
        obtain rfl := Option.some.inj hrun
        exact ⟨f', M', hb'⟩
      · cases hrun

/-- In every run whose lengths and offsets fit their widths, the band is a finite set of byte strings. -/
theorem run_is_member_set (hash : Bytes → Nat) (h : HTable) (S : Finset Bytes) (hr : Run hash (fun h op => op.Fits h) h S) :
    h.Agrees hash (fun h op => op.Fits h) S := by
  obtain ⟨f, M, hb⟩ := hr.behind
  exact hb.agrees

theorem Run.ops {C : HTable → SetOp → Prop} [∀ h op, Decidable (C h op)] : ∀ (ops : List SetOp) {x y : HTable × Finset Bytes},
    Run hash C x.1 x.2 → ops.foldlM (fun x op => if C x.1 op then (op.run hash x.1).map (·, op.spec x.1 x.2) else none) x = some y →
      Run hash C y.1 y.2
  | [], _, _, h, hy => Option.some.inj hy ▸ h
  | op :: ops, _, _, h, hy => by
    obtain ⟨x₁, h₁, hy⟩ := Option.bind_eq_some_iff.mp hy
    obtain ⟨hC, h₁⟩ := Option.ite_none_right_eq_some.mp h₁
    obtain ⟨g, hg, rfl⟩ := Option.map_eq_some_iff.mp h₁
    exact Run.ops ops (h.step op hC hg) hy

/-- Under one hash for all, two members collide, a third takes the slot of the first, and the second is popped. -/
theorem reused_slot_is_member_set : ∃ h : HTable, h.each = [[3]] ∧ h.Agrees (fun _ => 0) (fun h op => op.Fits h) {[3]} := by
  obtain ⟨y, hy, hend⟩ := (Option.any_eq_true (fun y : HTable × Finset Bytes => decide (y.1.each = [[3]] ∧ y.2 = {[3]}))
    ([SetOp.add [1], .add [2], .rem [1], .add [3], .pop 0].foldlM
      (fun x op => if op.Fits x.1 then (op.run (fun _ => 0) x.1).map (·, op.spec x.1 x.2) else none)
      (⟨Table.init 8, [], [], [], [], 0, 0⟩, ∅))).mp (by decide +kernel)
  obtain ⟨heach, hset⟩ := of_decide_eq_true hend
  have hagrees := run_is_member_set _ _ _ (Run.ops _ (.new 1 rfl) hy)
  rw [hset] at hagrees
  exact ⟨y.1, heach, hagrees⟩

/-- A member of 65536 bytes is recorded with length 0, and no probe finds it again. -/
theorem member_of_65536_lost (hash : Bytes → Nat) : ∃ h S, Run hash (fun _ _ => True) h S ∧ List.replicate 65536 0 ∈ S ∧
    h.has hash (List.replicate 65536 0) ≠ some true ∧ ∀ C, ¬h.Agrees hash C S := by
  obtain ⟨h₀, hh₀⟩ : ∃ h₀ : HTable, h₀ = ⟨Table.init 8, [], [], [], [], 0, 0⟩ := ⟨_, rfl⟩
  have hnew : newHashtable 0 = some h₀ := by rw [hh₀]; rfl
  have hlen : (List.replicate 65536 (0 : UInt8)).length = 65536 := List.length_replicate
  generalize List.replicate 65536 (0 : UInt8) = long at hlen
  obtain ⟨f₀, M, hb⟩ := Run.behind (.new 0 hnew : Run hash (fun h op => op.Fits h) h₀ ∅)
  have hholds : h₀.tbl.Holds hash fun _ : Bytes => none := by
    have hmake : Table.makeTable 0 = some h₀.tbl := by rw [hh₀]; rfl
    exact Table.makeTable_holds hmake
  have hfind : h₀.tbl.find (h₀.members hash) (hash long) long = some none := by
    obtain ⟨found, hfound, hnone⟩ := Option.map_eq_some_iff.mp (hb.has long)
    cases found with
    | none => exact hfound
    | some o => cases hnone
  obtain ⟨r, hr⟩ : ∃ r, r = h₀.newRecord long := ⟨_, rfl⟩
  have hrecs : r.1.recs = [⟨0, 0, 0⟩] := by
    have hmlen : long.length % 2 ^ 16 = 0 := by omega
    rw [hr, hh₀]
    show [(⟨0, 0, long.length % 2 ^ 16⟩ : SRecord)] = _
    rw [hmlen]
  have htbl : r.1.tbl = h₀.tbl := by rw [hr, hh₀]; rfl
  obtain ⟨tbl, hins, -⟩ := hholds.insert_spec (s := r.1.members hash) (k := long) (fun k o ho => nomatch ho) rfl
    (by rw [hh₀]; decide) r.2
  have hrun : SetOp.run hash h₀ (.add long) = some { r.1 with tbl := tbl } := by
    rw [SetOp.run, add, hfind, Option.bind_some]
    dsimp only
    rw [← hr, htbl, hins]
    rfl
  have hbytes : ∀ o, ({ r.1 with tbl := tbl } : HTable).bytesOf o = [] := by
    intro o
    have hmlen : (({ r.1 with tbl := tbl } : HTable).record o).mlen = 0 := by
      rw [record, hrecs]
      cases o <;> rfl
    rw [bytesOf, hmlen]
    exact List.take_zero
  have hlost : ({ r.1 with tbl := tbl } : HTable).has hash long ≠ some true := by
    intro hhas
    obtain ⟨found, hfound, hsome⟩ := Option.map_eq_some_iff.mp hhas
    obtain ⟨o, rfl⟩ := Option.isSome_iff_exists.mp hsome
    refine Table.find_noMatch (fun o => ?_) o hfound
    show (({ r.1 with tbl := tbl } : HTable).bytesOf o == long) = false
    rw [hbytes, beq_eq_false_iff_ne]
    rintro rfl
    exact absurd hlen (by decide)
  refine ⟨_, _, .step (.add long) (.new 0 hnew) trivial hrun, Finset.mem_insert_self .., hlost, fun C hagree => ?_⟩
  exact hlost ((hagree.has long).trans (congrArg some (decide_eq_true (Finset.mem_insert_self ..))))

theorem long_member_lost : ∃ h S, Run (fun _ => 0) (fun _ _ => True) h S ∧ List.replicate 65536 0 ∈ S ∧
    h.has (fun _ => 0) (List.replicate 65536 0) ≠ some true ∧ ∀ C, ¬h.Agrees (fun _ => 0) C S := member_of_65536_lost _

end HTable

end Aki
