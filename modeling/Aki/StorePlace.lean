import Aki.StoreRecord

namespace Aki.Sqlo1b

inductive ExtentKind
  | vlog
  | index
  | directory
  | allocmap
  | dict
  | stats
deriving DecidableEq

inductive ExtentState
  | free
  | active
  | sealed
  | quarantined
deriving DecidableEq

/-- One active extent per kind and shard. -/
structure StreamKey where
  kind : ExtentKind
  shard : Nat
deriving DecidableEq

structure Grid where
  states : List ExtentState
  qtag : Nat → Option Nat
  active : StreamKey → Option Nat

/-- The header extent is never handed out. -/
def newGrid (extentCount : Nat) : Grid :=
  ⟨(List.replicate extentCount .free).set 0 .sealed, fun _ => none, fun _ => none⟩

namespace Grid

def extentCount (g : Grid) : Nat := g.states.length

/-- An extent past the grid reads as not free. -/
def state (g : Grid) (ext : Nat) : ExtentState := g.states.getD ext .sealed

def grow (g : Grid) (n : Nat) : Grid := { g with states := g.states ++ List.replicate n .free }

def lowestFree (g : Grid) : Option Nat :=
  (List.range g.states.length).find? fun ext => decide (1 ≤ ext) && decide (g.state ext = .free)

/-- The extent becomes the stream's append tail. -/
def give (g : Grid) (key : StreamKey) (ext : Nat) : Grid :=
  { g with
    states := g.states.set ext .active
    active := Function.update g.active key (some ext) }

def allocate (g : Grid) (key : StreamKey) : Option (Grid × Nat) :=
  match g.active key with
  | some _ => none
  | none => g.lowestFree.map fun ext => (g.give key ext, ext)

def sealStream (g : Grid) (key : StreamKey) : Option (Grid × Nat) :=
  (g.active key).map fun ext =>
    ({ g with
        states := g.states.set ext .sealed
        active := Function.update g.active key none }, ext)

variable {g g' : Grid} {key : StreamKey} {ext n : Nat}

theorem lowestFree_spec (h : g.lowestFree = some ext) : 1 ≤ ext ∧ ext < g.extentCount ∧ g.state ext = .free := by
  have hmem := List.mem_range.mp (List.mem_of_find?_eq_some h)
  have hprop := List.find?_some h
  simp only [Bool.and_eq_true, decide_eq_true_eq] at hprop
  exact ⟨hprop.1, hmem, hprop.2⟩

theorem lowestFree_isSome (ext : Nat) (h1 : 1 ≤ ext) (hlt : ext < g.extentCount) (hs : g.state ext = .free) :
    ∃ e, g.lowestFree = some e := by
  rw [← Option.isSome_iff_exists, lowestFree, List.find?_isSome]
  exact ⟨ext, List.mem_range.mpr hlt, by simp [h1, hs]⟩

theorem allocate_of_free (hkey : g.active key = none) (h : g.lowestFree = some ext) :
    g.allocate key = some (g.give key ext, ext) := by
  simp [allocate, hkey, h]

theorem extentCount_give (g : Grid) (key : StreamKey) (ext : Nat) : (g.give key ext).extentCount = g.extentCount := by
  simp [give, extentCount]

theorem extentCount_grow : (g.grow n).extentCount = g.extentCount + n := by
  simp [grow, extentCount]

/-- Growing always makes room. -/
theorem lowestFree_grow (hpos : 1 ≤ g.extentCount) (hn : 1 ≤ n) : ∃ e, (g.grow n).lowestFree = some e := by
  refine lowestFree_isSome g.extentCount hpos (by rw [extentCount_grow]; omega) ?_
  simp only [state, grow, extentCount]
  rw [List.getD_eq_getElem?_getD, List.getElem?_append_right (Nat.le_refl _), Nat.sub_self]
  simp [show 0 < n by omega]

end Grid

def groupSize : Nat := 4096

def extentHeaderSize : Nat := 64

def extentSize : Nat := 2 ^ 20

def groupsPerExtent : Nat := extentSize / groupSize

/-- The largest encoded record a slotted group carries. -/
def blobThreshold : Nat := 3968

/-- The slot number that marks a blob position. -/
def blobSlot : Nat := 4095

def storeInitialExtents : Nat := 8

def storeGrowExtents : Nat := 8

structure Pos where
  ext : Nat
  group : Nat
  slot : Nat
deriving DecidableEq

def newPos (ext group slot : Nat) : Option Pos :=
  if ext < 2 ^ 40 ∧ group < 2 ^ 12 ∧ slot < blobSlot then some ⟨ext, group, slot⟩ else none

def newBlobPos (ext startGroup : Nat) : Option Pos :=
  if ext < 2 ^ 40 ∧ startGroup < 2 ^ 12 then some ⟨ext, startGroup, blobSlot⟩ else none

/-- The active extent of an append stream and its next unwritten group. -/
structure Cursor where
  ext : Nat
  next : Nat
  groups : Nat
  active : Bool

def idleCursor : Cursor := ⟨0, 0, 0, false⟩

/-- How full the open group is: payload bytes and records. -/
structure GroupBuilder where
  cap : Nat
  used : Nat
  slots : Nat

def tableLen (n : Nat) : Nat := 2 * n + 2

namespace GroupBuilder

def fits (g : GroupBuilder) (rlen : Nat) : Bool :=
  decide (0 < rlen) && decide (g.used + rlen + tableLen (g.slots + 1) ≤ g.cap)

def append (g : GroupBuilder) (rlen : Nat) : Option (GroupBuilder × Nat) :=
  if rlen = 0 ∨ blobSlot ≤ g.slots ∨ g.fits rlen = false then none
  else some ({ g with used := g.used + rlen, slots := g.slots + 1 }, g.slots)

end GroupBuilder

/-- Group 0 starts behind the extent header. -/
def blobOffset (startGroup : Nat) : Nat := if startGroup = 0 then extentHeaderSize else startGroup * groupSize

def blobRunGroups (startGroup rlen : Nat) : Nat :=
  (blobOffset startGroup + rlen + groupSize - 1) / groupSize - startGroup

/-- The group after the run, when the run ends inside the extent. -/
def placeBlob (startGroup rlen : Nat) : Option Nat :=
  if groupsPerExtent ≤ startGroup ∨ rlen ≤ blobThreshold ∨ extentSize < blobOffset startGroup + rlen then none
  else some (startGroup + blobRunGroups startGroup rlen)

/-- The store between calls. The index and the value log are one map: what a key's entry resolves to. -/
structure Store where
  wal : Wal
  grid : Grid
  vlog : Cursor
  blob : Cursor
  gb : Option GroupBuilder
  gbExt : Nat
  gbGrp : Nat
  recs : Key → Option Record
  hw : Int
  broken : Bool

def recStream : StreamKey := ⟨.vlog, 0⟩

def blobStream : StreamKey := ⟨.vlog, 1⟩

namespace Store

def allocStream (s : Store) (key : StreamKey) : Option (Store × Cursor) :=
  match s.grid.allocate key with
  | some (g, ext) => some ({ s with grid := g }, ⟨ext, 0, 0, true⟩)
  | none =>
    ((s.grid.grow storeGrowExtents).allocate key).map fun r => ({ s with grid := r.1 }, ⟨r.2, 0, 0, true⟩)

/-- The sealed extent's frame joins the buffer; the next batch flushes it. -/
def rollStream (s : Store) (key : StreamKey) (c : Cursor) : Option (Store × Cursor) :=
  match s.grid.sealStream key with
  | none => none
  | some (g, _) =>
    match s.wal.append (.sealed c.ext) with
    | none => none
    | some w => ({ s with grid := g, wal := w }).allocStream key

def closeBatchGroup (s : Store) : Store :=
  match s.gb with
  | none => s
  | some _ => { s with vlog := { s.vlog with next := s.vlog.next + 1, groups := s.vlog.groups + 1 }, gb := none }

/-- The stream's cursor with room for a group. -/
def vlogCursor (s : Store) : Option (Store × Cursor) :=
  if s.vlog.active = false then s.allocStream recStream
  else if groupsPerExtent ≤ s.vlog.next then s.rollStream recStream s.vlog
  else some (s, s.vlog)

def openBatchGroup (s : Store) : Option Store :=
  s.vlogCursor.map fun r =>
    { r.1 with
      vlog := r.2
      gb := some ⟨if r.2.next = 0 then groupSize - extentHeaderSize else groupSize, 0, 0⟩
      gbExt := r.2.ext
      gbGrp := r.2.next }

def appendGroup (s : Store) (rlen : Nat) : Option (Store × Pos) :=
  match s.gb with
  | none => none
  | some g =>
    match g.append rlen with
    | none => none
    | some (g', slot) => (newPos s.gbExt s.gbGrp slot).map fun pos => ({ s with gb := some g' }, pos)

/-- The blob stream's cursor with room for the run. -/
def blobCursor (s : Store) (rlen : Nat) : Option (Store × Cursor) :=
  match if s.blob.active = false then s.allocStream blobStream else some (s, s.blob) with
  | none => none
  | some (s, c) =>
    if groupsPerExtent < c.next + blobRunGroups c.next rlen then s.rollStream blobStream c else some (s, c)

def appendBlobRec (s : Store) (rlen : Nat) : Option (Store × Pos) :=
  if groupsPerExtent < blobRunGroups 0 rlen then none
  else
    match s.blobCursor rlen with
    | none => none
    | some (s, c) =>
      match placeBlob c.next rlen with
      | none => none
      | some next =>
        (newBlobPos c.ext c.next).map fun pos =>
          ({ s with blob := { c with next := next, groups := c.groups + (next - c.next) } }, pos)

def appendVlog (s : Store) (rlen : Nat) : Option (Store × Pos) :=
  if blobThreshold < rlen then s.appendBlobRec rlen
  else if s.gb.any (·.fits rlen) then s.appendGroup rlen
  else
    match s.closeBatchGroup.openBatchGroup with
    | none => none
    | some s => s.appendGroup rlen

end Store

/-- The encoding fits a group, or one blob extent. -/
def Installable (rlen : Nat) : Prop := rlen ≤ blobThreshold ∨ blobRunGroups 0 rlen ≤ groupsPerExtent

instance (rlen : Nat) : Decidable (Installable rlen) := inferInstanceAs (Decidable (_ ∨ _))

/-- The bookkeeping of the two record streams agrees with the grid and the open group. -/
structure Placed (s : Store) : Prop where
  extents : 1 ≤ s.grid.extentCount
  segSize : Frame.len (.sealed 0) ≤ s.wal.segSize
  vlog : s.grid.active recStream = if s.vlog.active then some s.vlog.ext else none
  blob : s.grid.active blobStream = if s.blob.active then some s.blob.ext else none
  vlogExt : s.vlog.active → s.vlog.ext < s.grid.extentCount
  blobExt : s.blob.active → s.blob.ext < s.grid.extentCount
  blobNext : s.blob.next ≤ groupsPerExtent
  builder : ∀ g, s.gb = some g → g.slots ≤ g.used ∧ g.used + tableLen g.slots ≤ g.cap ∧ g.cap ≤ groupSize ∧
    s.vlog.active ∧ s.gbExt = s.vlog.ext ∧ s.gbGrp = s.vlog.next ∧ s.vlog.next < groupsPerExtent

structure SameData (s s' : Store) : Prop where
  recs : s'.recs = s.recs
  hw : s'.hw = s.hw
  broken : s'.broken = s.broken
  segSize : s'.wal.segSize = s.wal.segSize
  log : s'.wal.log = s.wal.log
  tail : s'.wal.tail = s.wal.tail
  buf : ∃ exts : List Nat, s'.wal.buf = s.wal.buf ++ exts.map Frame.sealed

namespace SameData

variable {s s' s'' : Store}

theorem refl : SameData s s := ⟨rfl, rfl, rfl, rfl, rfl, rfl, [], by simp⟩

theorem trans (h : SameData s s') (h' : SameData s' s'') : SameData s s'' := by
  obtain ⟨a, ha⟩ := h.buf
  obtain ⟨b, hb⟩ := h'.buf
  exact ⟨h'.recs.trans h.recs, h'.hw.trans h.hw, h'.broken.trans h.broken, h'.segSize.trans h.segSize,
    h'.log.trans h.log, h'.tail.trans h.tail, a ++ b, by simp [hb, ha]⟩

end SameData

/-- `c` is the stream's open extent in `t`, which differs from `s` only in the grid and in buffered seals. -/
structure CursorReady (s : Store) (key : StreamKey) (t : Store) (c : Cursor) : Prop where
  data : SameData s t
  vlog : t.vlog = s.vlog
  blob : t.blob = s.blob
  gb : t.gb = s.gb
  gbExt : t.gbExt = s.gbExt
  gbGrp : t.gbGrp = s.gbGrp
  grid : t.grid.active = Function.update s.grid.active key (some c.ext)
  active : c.active = true
  ext : c.ext < t.grid.extentCount
  grown : s.grid.extentCount ≤ t.grid.extentCount ∧ t.grid.extentCount ≤ s.grid.extentCount + storeGrowExtents

theorem CursorReady.keep {s : Store} {key : StreamKey} {c : Cursor} (hactive : c.active = true)
    (hgrid : s.grid.active key = some c.ext) (hext : c.ext < s.grid.extentCount) : CursorReady s key s c :=
  ⟨.refl, rfl, rfl, rfl, rfl, rfl, by rw [← hgrid, Function.update_eq_self], hactive, hext, by omega⟩

section

variable {s t : Store} {key : StreamKey} {c : Cursor} {rlen : Nat}

theorem Store.allocStream_ok (key : StreamKey) (hpos : 1 ≤ s.grid.extentCount) (hkey : s.grid.active key = none) :
    ∃ t c, s.allocStream key = some (t, c) ∧ c.next = 0 ∧ CursorReady s key t c := by
  have hdata (g : Grid) : SameData s { s with grid := g } := ⟨rfl, rfl, rfl, rfl, rfl, rfl, [], by simp⟩
  cases hfree : s.grid.lowestFree with
  | some ext =>
    have hlt := (Grid.lowestFree_spec hfree).2.1
    have hcount := s.grid.extentCount_give key ext
    exact ⟨{ s with grid := s.grid.give key ext }, ⟨ext, 0, 0, true⟩,
      by rw [allocStream, Grid.allocate_of_free hkey hfree], rfl, hdata _, rfl, rfl, rfl, rfl, rfl, rfl, rfl,
      by rw [hcount]; exact hlt, by rw [hcount]; omega⟩
  | none =>
    have hfull : s.grid.allocate key = none := by simp [Grid.allocate, hkey, hfree]
    obtain ⟨ext, hext⟩ := Grid.lowestFree_grow (n := storeGrowExtents) hpos (by decide)
    have hlt := (Grid.lowestFree_spec hext).2.1
    have hgrown := Grid.extentCount_grow (g := s.grid) (n := storeGrowExtents)
    have hcount := (s.grid.grow storeGrowExtents).extentCount_give key ext
    exact ⟨{ s with grid := (s.grid.grow storeGrowExtents).give key ext }, ⟨ext, 0, 0, true⟩,
      by rw [allocStream, hfull, Grid.allocate_of_free (g := s.grid.grow storeGrowExtents) hkey hext]; rfl, rfl,
      hdata _, rfl, rfl, rfl, rfl, rfl, rfl, rfl, by rw [hcount]; exact hlt, by rw [hcount]; omega⟩

/-- The state in which a roll allocates: the old extent is sealed and its frame buffered. -/
def Store.sealedFor (s : Store) (key : StreamKey) (ext frameExt : Nat) : Store :=
  { s with
    grid := { s.grid with states := s.grid.states.set ext .sealed, active := Function.update s.grid.active key none }
    wal := { s.wal with buf := s.wal.buf ++ [.sealed frameExt] } }

theorem Store.rollStream_ok {ext : Nat} (hpos : 1 ≤ s.grid.extentCount) (hseg : Frame.len (.sealed 0) ≤ s.wal.segSize)
    (hkey : s.grid.active key = some ext) :
    ∃ t c', s.rollStream key c = some (t, c') ∧ c'.next = 0 ∧ CursorReady s key t c' := by
  have happend : s.wal.append (.sealed c.ext) = some { s.wal with buf := s.wal.buf ++ [.sealed c.ext] } :=
    if_neg (Nat.not_lt.mpr hseg)
  obtain ⟨t, c', halloc, hnext, hr⟩ := allocStream_ok (s := s.sealedFor key ext c.ext) key
    (by simpa [sealedFor, Grid.extentCount] using hpos) (Function.update_self ..)
  have hcount : (s.sealedFor key ext c.ext).grid.extentCount = s.grid.extentCount := by
    simp [sealedFor, Grid.extentCount]
  have hdata : SameData s (s.sealedFor key ext c.ext) := ⟨rfl, rfl, rfl, rfl, rfl, rfl, [c.ext], rfl⟩
  refine ⟨t, c', ?_, hnext, hdata.trans hr.data, hr.vlog, hr.blob, hr.gb, hr.gbExt, hr.gbGrp, ?_, hr.active, hr.ext,
    hcount ▸ hr.grown⟩
  · simpa [rollStream, Grid.sealStream, hkey, happend, sealedFor] using halloc
  · rw [hr.grid, sealedFor, Function.update_idem]

theorem Store.vlogCursor_ok (hp : Placed s) :
    ∃ t c, s.vlogCursor = some (t, c) ∧ c.next < groupsPerExtent ∧ CursorReady s recStream t c := by
  unfold vlogCursor
  split
  next hidle =>
    obtain ⟨t, c, halloc, hnext, hr⟩ := allocStream_ok recStream hp.extents (by simp [hp.vlog, hidle])
    exact ⟨t, c, halloc, by rw [hnext]; decide, hr⟩
  next hactive =>
    have hactive : s.vlog.active = true := by simpa using hactive
    have hgrid : s.grid.active recStream = some s.vlog.ext := by simp [hp.vlog, hactive]
    split
    · obtain ⟨t, c, hroll, hnext, hr⟩ := rollStream_ok (c := s.vlog) hp.extents hp.segSize hgrid
      exact ⟨t, c, hroll, by rw [hnext]; decide, hr⟩
    next hroom => exact ⟨s, s.vlog, rfl, by omega, .keep hactive hgrid (hp.vlogExt hactive)⟩

end

theorem streams_apart : recStream ≠ blobStream := by decide

namespace Placed

variable {s t : Store} {c : Cursor}

theorem openGroup {g : GroupBuilder} (hp : Placed s) (hr : CursorReady s recStream t c)
    (hnext : c.next < groupsPerExtent) (hslots : g.slots ≤ g.used) (hused : g.used + tableLen g.slots ≤ g.cap)
    (hcap : g.cap ≤ groupSize) :
    Placed { t with vlog := c, gb := some g, gbExt := c.ext, gbGrp := c.next } where
  extents := Nat.le_trans hp.extents hr.grown.1
  segSize := hr.data.segSize ▸ hp.segSize
  vlog := by simp [hr.grid, hr.active]
  blob := by simp [hr.grid, Function.update_of_ne streams_apart.symm, hr.blob, hp.blob]
  vlogExt := fun _ => hr.ext
  blobExt := fun h => Nat.lt_of_lt_of_le (hr.blob ▸ hp.blobExt (hr.blob ▸ h)) hr.grown.1
  blobNext := hr.blob ▸ hp.blobNext
  builder := by
    intro g' hg'
    obtain rfl := Option.some.inj hg'
    exact ⟨hslots, hused, hcap, hr.active, rfl, rfl, hnext⟩

theorem blobMove {next : Nat} (groups : Nat) (hp : Placed s) (hr : CursorReady s blobStream t c)
    (hnext : next ≤ groupsPerExtent) : Placed { t with blob := { c with next := next, groups := groups } } where
  extents := Nat.le_trans hp.extents hr.grown.1
  segSize := hr.data.segSize ▸ hp.segSize
  vlog := by simp [hr.grid, Function.update_of_ne streams_apart, hr.vlog, hp.vlog]
  blob := by simp [hr.grid, hr.active]
  vlogExt := fun h => Nat.lt_of_lt_of_le (hr.vlog ▸ hp.vlogExt (hr.vlog ▸ h)) hr.grown.1
  blobExt := fun _ => hr.ext
  blobNext := hnext
  builder := by
    intro g hg
    obtain ⟨h1, h2, h3, h4, h5, h6, h7⟩ := hp.builder g (hr.gb ▸ hg)
    exact ⟨h1, h2, h3, hr.vlog ▸ h4, by rw [hr.gbExt, hr.vlog, h5], by rw [hr.gbGrp, hr.vlog, h6], hr.vlog ▸ h7⟩

theorem closeBatchGroup (hp : Placed s) : Placed s.closeBatchGroup ∧ SameData s s.closeBatchGroup ∧
    s.closeBatchGroup.grid = s.grid := by
  unfold Store.closeBatchGroup
  split
  · exact ⟨hp, .refl, rfl⟩
  · exact ⟨⟨hp.extents, hp.segSize, hp.vlog, hp.blob, hp.vlogExt, hp.blobExt, hp.blobNext, fun _ h => nomatch h⟩,
      ⟨rfl, rfl, rfl, rfl, rfl, rfl, [], by simp⟩, rfl⟩

end Placed

section

variable {s t : Store} {rlen : Nat}

theorem Store.openBatchGroup_ok (hp : Placed s) :
    ∃ t g, s.openBatchGroup = some t ∧ Placed t ∧ SameData s t ∧ t.gb = some g ∧ g.used = 0 ∧ g.slots = 0 ∧
      groupSize - extentHeaderSize ≤ g.cap ∧ t.grid.extentCount ≤ s.grid.extentCount + storeGrowExtents := by
  obtain ⟨t, c, hcur, hnext, hr⟩ := vlogCursor_ok hp
  obtain ⟨g, hg⟩ : ∃ g : GroupBuilder, g = ⟨if c.next = 0 then groupSize - extentHeaderSize else groupSize, 0, 0⟩ :=
    ⟨_, rfl⟩
  have hcap : groupSize - extentHeaderSize ≤ g.cap ∧ g.cap ≤ groupSize := by
    rw [hg]
    dsimp only
    split <;> exact ⟨by decide, by decide⟩
  have hcap' : 4032 ≤ g.cap := hcap.1
  refine ⟨{ t with vlog := c, gb := some g, gbExt := c.ext, gbGrp := c.next }, g, ?_,
    hp.openGroup hr hnext (by simp [hg]) (by simp only [hg, tableLen] at hcap' ⊢; omega) hcap.2,
    ⟨hr.data.recs, hr.data.hw, hr.data.broken, hr.data.segSize, hr.data.log, hr.data.tail, hr.data.buf⟩,
    rfl, by rw [hg], by rw [hg], hcap.1, hr.grown.2⟩
  rw [openBatchGroup, hcur, hg]
  rfl

theorem Store.appendGroup_ok {g : GroupBuilder} (hp : Placed s) (hroom : s.grid.extentCount ≤ 2 ^ 40)
    (hgb : s.gb = some g) (hfits : g.fits rlen = true) :
    ∃ t pos, s.appendGroup rlen = some (t, pos) ∧ Placed t ∧ SameData s t ∧ t.grid = s.grid := by
  obtain ⟨hslots, hused, hcap, hactive, hext, hgrp, hnext⟩ := hp.builder g hgb
  have hpos : 0 < rlen ∧ g.used + rlen + tableLen (g.slots + 1) ≤ g.cap := by simpa [GroupBuilder.fits] using hfits
  have hlt := hp.vlogExt hactive
  -- every record has at least one byte, so the group is full long before its slots run out
  have hcount : g.slots < blobSlot := by
    simp only [tableLen, groupSize, blobSlot] at hused hcap ⊢
    omega
  have happend : g.append rlen = some ({ g with used := g.used + rlen, slots := g.slots + 1 }, g.slots) :=
    if_neg (by rintro (h | h | h) <;> [omega; omega; simp [hfits] at h])
  have hpos' : newPos s.gbExt s.gbGrp g.slots = some ⟨s.gbExt, s.gbGrp, g.slots⟩ :=
    if_pos ⟨by omega, by simp only [groupsPerExtent, extentSize, groupSize] at hnext; omega, hcount⟩
  refine ⟨{ s with gb := some { g with used := g.used + rlen, slots := g.slots + 1 } }, ⟨s.gbExt, s.gbGrp, g.slots⟩,
    by simp [appendGroup, hgb, happend, hpos'], ?_, ⟨rfl, rfl, rfl, rfl, rfl, rfl, [], by simp⟩, rfl⟩
  refine ⟨hp.extents, hp.segSize, hp.vlog, hp.blob, hp.vlogExt, hp.blobExt, hp.blobNext, ?_⟩
  intro g' hg'
  obtain rfl := Option.some.inj hg'
  exact ⟨by dsimp only; omega, hpos.2, hcap, hactive, hext, hgrp, hnext⟩

theorem Store.placeBlob_ok {start : Nat} (hbig : blobThreshold < rlen)
    (hfit : start + blobRunGroups start rlen ≤ groupsPerExtent) :
    placeBlob start rlen = some (start + blobRunGroups start rlen) ∧ start < groupsPerExtent := by
  have hgpe : groupsPerExtent = 256 := rfl
  have hoff : start * 4096 ≤ blobOffset start := by
    simp only [blobOffset, groupSize, extentHeaderSize]
    split <;> omega
  have hend : blobOffset start + rlen ≤ 2 ^ 20 ∧ start < groupsPerExtent := by
    simp only [blobRunGroups, groupSize, blobThreshold] at hfit hbig
    omega
  exact ⟨if_neg (by rintro (h | h | h) <;> [omega; omega; exact absurd h (Nat.not_lt.mpr hend.1)]), hend.2⟩

theorem Store.blobCursor_ok (hp : Placed s) (hone : blobRunGroups 0 rlen ≤ groupsPerExtent) :
    ∃ t c, s.blobCursor rlen = some (t, c) ∧ c.next + blobRunGroups c.next rlen ≤ groupsPerExtent ∧
      CursorReady s blobStream t c := by
  unfold blobCursor
  by_cases hactive : s.blob.active = true
  · have hgrid : s.grid.active blobStream = some s.blob.ext := by simp [hp.blob, hactive]
    simp only [hactive, Bool.true_eq_false, if_false]
    split
    · obtain ⟨t, c, hroll, hnext, hr⟩ := rollStream_ok (c := s.blob) hp.extents hp.segSize hgrid
      exact ⟨t, c, hroll, by rwa [hnext, Nat.zero_add], hr⟩
    next hroom => exact ⟨s, s.blob, rfl, by omega, .keep hactive hgrid (hp.blobExt hactive)⟩
  · have hidle : s.blob.active = false := by simpa using hactive
    obtain ⟨t, c, halloc, hnext, hr⟩ := allocStream_ok blobStream hp.extents (by simp [hp.blob, hidle])
    simp only [hidle, if_true, halloc]
    rw [if_neg (by rw [hnext]; omega)]
    exact ⟨t, c, rfl, by rwa [hnext, Nat.zero_add], hr⟩

theorem Store.appendBlobRec_ok (hp : Placed s) (hroom : s.grid.extentCount + storeGrowExtents ≤ 2 ^ 40)
    (hbig : blobThreshold < rlen) (hone : blobRunGroups 0 rlen ≤ groupsPerExtent) :
    ∃ t pos, s.appendBlobRec rlen = some (t, pos) ∧ Placed t ∧ SameData s t ∧
      t.grid.extentCount ≤ s.grid.extentCount + storeGrowExtents := by
  obtain ⟨t, c, hcur, hfit, hr⟩ := blobCursor_ok hp hone
  obtain ⟨hplace, hstart⟩ := placeBlob_ok hbig hfit
  have hpos : newBlobPos c.ext c.next = some ⟨c.ext, c.next, blobSlot⟩ := by
    have := hr.ext
    have := hr.grown.2
    exact if_pos ⟨by omega, Nat.lt_trans hstart (by decide)⟩
  refine ⟨_, ⟨c.ext, c.next, blobSlot⟩, ?_,
    hp.blobMove (c.groups + (c.next + blobRunGroups c.next rlen - c.next)) hr hfit,
    ⟨hr.data.recs, hr.data.hw, hr.data.broken, hr.data.segSize, hr.data.log, hr.data.tail, hr.data.buf⟩, hr.grown.2⟩
  rw [appendBlobRec, if_neg (Nat.not_lt.mpr hone), hcur]
  simp only [hplace, hpos]
  rfl

/-- A record goes in exactly when its encoding fits a group or one blob extent. -/
theorem Store.appendVlog_ok (hp : Placed s) (hroom : s.grid.extentCount + storeGrowExtents ≤ 2 ^ 40) (hpos : 0 < rlen)
    (hfit : Installable rlen) :
    ∃ t pos, s.appendVlog rlen = some (t, pos) ∧ Placed t ∧ SameData s t ∧
      t.grid.extentCount ≤ s.grid.extentCount + storeGrowExtents := by
  unfold appendVlog
  split
  next hbig => exact appendBlobRec_ok hp hroom hbig (hfit.resolve_left (by omega))
  next hsmall =>
    split
    next hany =>
      cases hgb : s.gb with
      | none => simp [hgb] at hany
      | some g =>
        obtain ⟨t, pos, happend, ht, hdata, hgrid⟩ := appendGroup_ok hp (by omega) hgb (by simpa [hgb] using hany)
        exact ⟨t, pos, happend, ht, hdata, by rw [hgrid]; omega⟩
    · obtain ⟨hclosed, hdata₀, hgrid₀⟩ := hp.closeBatchGroup
      obtain ⟨u, g, hopen, hu, hdata₁, hgb, hused, hslots, hcap, hcount⟩ := openBatchGroup_ok hclosed
      rw [hgrid₀] at hcount
      -- an empty group takes any record the blob path does not
      have hfits : g.fits rlen = true := by
        simp only [blobThreshold, groupSize, extentHeaderSize] at hsmall hcap
        simp only [GroupBuilder.fits, tableLen, hused, hslots, Bool.and_eq_true, decide_eq_true_eq]
        omega
      obtain ⟨t, pos, happend, ht, hdata₂, hgrid⟩ := appendGroup_ok hu (by omega) hgb hfits
      rw [hopen]
      exact ⟨t, pos, happend, ht, hdata₀.trans (hdata₁.trans hdata₂), by rw [hgrid]; omega⟩

theorem Store.appendVlog_none (hfit : ¬ Installable rlen) : s.appendVlog rlen = none := by
  simp only [Installable, not_or, Nat.not_le] at hfit
  rw [appendVlog, if_pos hfit.1, appendBlobRec, if_pos hfit.2]

end

end Aki.Sqlo1b
