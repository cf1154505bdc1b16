import Mathlib.Data.List.Induction
import Aki.StreamGroupRead
import Aki.Uvarint

namespace Aki

open Uvarint

def blockBudget : Nat := 4096

def blockCap : Nat := 128

/-- A 64-bit difference, read as signed and folded to unsigned. -/
def zigzag (d : Nat) : Nat := if d < 2 ^ 63 then 2 * d else 2 ^ 64 - 1 - 2 * d % 2 ^ 64

def sub64 (a b : Nat) : Nat := (a + 2 ^ 64 - b % 2 ^ 64) % 2 ^ 64

def idDeltaLen (base id : StreamId) : Nat := uvarintLen (sub64 id.ms base.ms) + uvarintLen (zigzag (sub64 id.seq base.seq))

def bytesLen (b : Bytes) : Nat := uvarintLen b.length + b.length

def valuesLen (fields : List (Bytes × Bytes)) : Nat := (fields.map fun f => bytesLen f.2).sum

/-- A body that carries its own field names. -/
def generalLen (fields : List (Bytes × Bytes)) : Nat :=
  uvarintLen fields.length + (fields.map fun f => bytesLen f.1 + bytesLen f.2).sum

/-- One entry of a block and its tombstone flag. -/
structure Frame where
  entry : StreamEntry
  deleted : Bool
deriving DecidableEq

namespace Frame

def id (f : Frame) : StreamId := f.entry.id

end Frame

/-- A packed chunk of the log: its frames decoded, the bytes they take, and the header. A block shed to the cold region keeps its
header and its bytes stay readable. -/
structure Block where
  frames : List Frame
  size : Nat
  first : StreamId
  last : StreamId
  cold : Bool
deriving DecidableEq

def newBlock : Block := ⟨[], 0, StreamId.zero, StreamId.zero, false⟩

namespace Block

def count (b : Block) : Nat := b.frames.length

def deleted (b : Block) : Nat := b.frames.countP Frame.deleted

def live (b : Block) : Nat := b.count - b.deleted

/-- The master schema: the field names of the first entry. -/
def names (b : Block) : List Bytes :=
  match b.frames with
  | [] => []
  | f :: _ => f.entry.fields.map Prod.fst

def sameSchema (b : Block) (fields : List (Bytes × Bytes)) : Bool := decide (fields.map Prod.fst = b.names)

def frameLen (b : Block) (e : StreamEntry) (same : Bool) : Nat :=
  1 + idDeltaLen b.first e.id + if same then valuesLen e.fields else generalLen e.fields

def masterLen (e : StreamEntry) : Nat := 1 + idDeltaLen e.id e.id + generalLen e.fields

def projectedFrame (b : Block) (e : StreamEntry) : Nat :=
  if b.count = 0 then masterLen e else b.frameLen e (b.sameSchema e.fields)

def appendMaster (b : Block) (e : StreamEntry) : Block :=
  { b with frames := [⟨e, false⟩], size := b.size + masterLen e, first := e.id, last := e.id }

/-- Refused, as `none`, when the block is full. -/
def appendEntry (b : Block) (e : StreamEntry) : Option Block :=
  if b.count = 0 then some (b.appendMaster e)
  else
    let same := b.sameSchema e.fields
    if blockCap ≤ b.count ∨ blockBudget < b.size + b.frameLen e same then none
    else some { b with frames := b.frames ++ [⟨e, false⟩], size := b.size + b.frameLen e same, last := e.id }

def entries (b : Block) : List StreamEntry := (b.frames.filter fun f => !f.deleted).map Frame.entry

def covers (b : Block) (id : StreamId) : Bool := decide (0 < b.count) && decide (b.first ≤ id) && decide (id ≤ b.last)

def tombstoneFrames (id : StreamId) : List Frame → Option (List Frame)
  | [] => none
  | f :: fs =>
    match f.id.cmp id with
    | .eq => if f.deleted then none else some (⟨f.entry, true⟩ :: fs)
    | .gt => none
    | .lt => (tombstoneFrames id fs).map (f :: ·)

/-- `none` when there is no live entry with the ID. -/
def tombstone (b : Block) (id : StreamId) : Option Block :=
  (tombstoneFrames id b.frames).map fun fs => { b with frames := fs }

def tombstoneWhileFrames (pred : StreamId → Bool) : Nat → List Frame → List Frame × Nat
  | _, [] => ([], 0)
  | 0, fs => (fs, 0)
  | limit + 1, f :: fs =>
    if f.deleted then
      let r := tombstoneWhileFrames pred (limit + 1) fs
      (f :: r.1, r.2)
    else if !pred f.id then (f :: fs, 0)
    else
      let r := tombstoneWhileFrames pred limit fs
      (⟨f.entry, true⟩ :: r.1, r.2 + 1)

/-- Tombstones up to `limit` live entries from the front while `pred` holds, and counts them. -/
def tombstoneWhile (b : Block) (limit : Nat) (pred : StreamId → Bool) : Block × Nat :=
  let r := tombstoneWhileFrames pred limit b.frames
  ({ b with frames := r.1 }, r.2)

/-- Entries packed one after another into a fresh block; a refused one is passed over. -/
def pack (es : List StreamEntry) : Block := es.foldl (fun nb e => (nb.appendEntry e).getD nb) newBlock

def rewriteBlock (b : Block) : Block := pack b.entries

def resident (b : Block) : Block := { b with cold := false }

def shed (b : Block) : Block := { b with cold := true }

/-- The bytes entries take in a block of their own: the first one whole, the others against it. -/
def packedLen : List StreamEntry → Nat
  | [] => 0
  | e :: es =>
    let master := newBlock.appendMaster e
    masterLen e + (es.map fun x => master.frameLen x (master.sameSchema x.fields)).sum

def ids (b : Block) : List StreamId := b.frames.map Frame.id

/-- The header names the first and the last entry, and the entry cap is kept. -/
structure Spans (b : Block) : Prop where
  first : ∀ id ∈ b.ids.head?, id = b.first
  last : ∀ id ∈ b.ids.getLast?, id = b.last
  cap : b.ids.length ≤ blockCap

variable {b b' : Block} {e : StreamEntry} {id : StreamId}

theorem newBlock_spans : newBlock.Spans := ⟨(fun _ h => nomatch h), (fun _ h => nomatch h), Nat.zero_le _⟩

theorem ids_eq_nil : b.ids = [] ↔ b.frames = [] := List.map_eq_nil_iff

/-- What an accepted append leaves: one more entry at the end, and the old first ID unless it is the master. -/
structure Appended (b : Block) (e : StreamEntry) (b' : Block) : Prop where
  frames : b'.frames = b.frames ++ [⟨e, false⟩]
  first : b'.first = if b.frames = [] then e.id else b.first
  last : b'.last = e.id
  cold : b'.cold = b.cold
  room : b.frames.length < blockCap

theorem appendEntry_appended (h : b.appendEntry e = some b') : b.Appended e b' := by
  unfold appendEntry count at h
  split at h
  next hnil =>
    obtain rfl := Option.some.inj h
    have hnil' := List.length_eq_zero_iff.mp hnil
    exact ⟨by simp [appendMaster, hnil'], by simp [appendMaster, hnil'], rfl, rfl, by rw [hnil]; decide⟩
  next hne =>
    have hne' : b.frames ≠ [] := fun hnil => hne (by rw [hnil]; rfl)
    dsimp only at h
    split at h
    · cases h
    next hfit =>
      obtain rfl := Option.some.inj h
      exact ⟨rfl, by simp [hne'], rfl, rfl, Nat.lt_of_not_le fun hle => hfit (.inl hle)⟩

theorem appendEntry_empty (h : b.frames = []) : b.appendEntry e = some (b.appendMaster e) := if_pos (by simp [count, h])

theorem Appended.ids (h : b.Appended e b') : b'.ids = b.ids ++ [e.id] := by
  simp [Block.ids, h.frames, Frame.id]

theorem Appended.entries (h : b.Appended e b') : b'.entries = b.entries ++ [e] := by
  simp [Block.entries, h.frames]

theorem Appended.spans (h : b.Appended e b') (hs : b.Spans) : b'.Spans := by
  constructor
  · intro id hid
    rw [h.ids, List.head?_append] at hid
    rw [h.first]
    by_cases hnil : b.frames = []
    · simpa [ids_eq_nil.mpr hnil, hnil, eq_comm] using hid
    · have hne : b.ids ≠ [] := fun hn => hnil (ids_eq_nil.mp hn)
      obtain ⟨x, xs, hx⟩ := List.exists_cons_of_ne_nil hne
      rw [if_neg hnil]
      refine hs.first id ?_
      simpa [hx] using hid
  · intro id hid
    rw [h.ids, List.getLast?_append] at hid
    simpa [h.last, eq_comm] using hid
  · rw [h.ids, List.length_append, Block.ids, List.length_map]
    exact h.room

theorem Spans.first_mem (h : b.Spans) (hne : b.frames ≠ []) : b.first ∈ b.ids := by
  obtain ⟨x, xs, hx⟩ := List.exists_cons_of_ne_nil (fun hn => hne (ids_eq_nil.mp hn) : b.ids ≠ [])
  have := h.first x (by simp [hx])
  rw [hx, ← this]
  exact List.mem_cons_self ..

theorem Spans.last_mem (h : b.Spans) (hne : b.frames ≠ []) : b.last ∈ b.ids := by
  have hids : b.ids ≠ [] := fun hn => hne (ids_eq_nil.mp hn)
  have := h.last _ (List.getLast?_eq_some_getLast hids)
  rw [← this]
  exact List.getLast_mem hids

theorem Spans.first_le (h : b.Spans) (hs : b.ids.Pairwise (· < ·)) (hid : id ∈ b.ids) : b.first ≤ id := by
  cases hb : b.ids with
  | nil => rw [hb] at hid; cases hid
  | cons x xs =>
    have hx := h.first x (by simp [hb])
    rw [hb] at hs hid
    rw [← hx]
    rcases List.mem_cons.mp hid with rfl | hid
    · exact le_refl _
    · exact le_of_lt ((List.pairwise_cons.mp hs).1 id hid)

theorem Spans.le_last (h : b.Spans) (hs : b.ids.Pairwise (· < ·)) (hid : id ∈ b.ids) : id ≤ b.last := by
  rcases List.eq_nil_or_concat b.ids with hnil | ⟨xs, x, hb⟩
  · rw [hnil] at hid; cases hid
  · rw [List.concat_eq_append] at hb
    have hx := h.last x (by simp [hb])
    rw [hb] at hs hid
    rw [← hx]
    rcases List.mem_append.mp hid with hid | hid
    · exact le_of_lt ((List.pairwise_append.mp hs).2.2 id hid x (by simp))
    · rw [List.mem_singleton.mp hid]

theorem mem_entries {x : StreamEntry} : x ∈ b.entries ↔ (⟨x, false⟩ : Frame) ∈ b.frames := by
  simp only [entries, List.mem_map, List.mem_filter, Bool.not_eq_true']
  constructor
  · rintro ⟨f, ⟨hf, hd⟩, rfl⟩
    rw [← hd]
    exact hf
  · exact fun hf => ⟨_, ⟨hf, rfl⟩, rfl⟩

theorem entries_ids_sublist (b : Block) : (b.entries.map StreamEntry.id).Sublist b.ids := by
  rw [entries, List.map_map]
  exact List.filter_sublist.map _

theorem tombstoneFrames_entries : ∀ {fs fs' : List Frame}, tombstoneFrames id fs = some fs' →
    fs'.map Frame.entry = fs.map Frame.entry ∧ fs'.countP Frame.deleted = fs.countP Frame.deleted + 1 := by
  intro fs
  induction fs with
  | nil => exact fun h => nomatch h
  | cons f fs ih =>
    intro fs' h
    rw [tombstoneFrames] at h
    split at h
    · split at h
      · cases h
      next hd =>
        obtain rfl := Option.some.inj h
        exact ⟨rfl, by simp [hd]⟩
    · cases h
    · obtain ⟨gs, hgs, rfl⟩ := Option.map_eq_some_iff.mp h
      obtain ⟨he, hc⟩ := ih hgs
      refine ⟨by simp [he], ?_⟩
      rw [List.countP_cons, List.countP_cons, hc, Nat.add_right_comm]

theorem ids_of_entries {fs fs' : List Frame} (h : fs'.map Frame.entry = fs.map Frame.entry) :
    fs'.map Frame.id = fs.map Frame.id := by
  have h' := congrArg (List.map StreamEntry.id) h
  rwa [List.map_map, List.map_map] at h'

theorem tombstoneWhileFrames_entries (pred : StreamId → Bool) : ∀ (fs : List Frame) (limit : Nat),
    (tombstoneWhileFrames pred limit fs).1.map Frame.entry = fs.map Frame.entry ∧
      (tombstoneWhileFrames pred limit fs).1.countP Frame.deleted =
        fs.countP Frame.deleted + (tombstoneWhileFrames pred limit fs).2 := by
  intro fs
  induction fs with
  | nil => exact fun limit => by cases limit <;> exact ⟨rfl, rfl⟩
  | cons f fs ih =>
    intro limit
    cases limit with
    | zero => exact ⟨rfl, rfl⟩
    | succ limit =>
      rw [tombstoneWhileFrames]
      split
      · obtain ⟨he, hc⟩ := ih (limit + 1)
        refine ⟨by simp [he], ?_⟩
        rw [List.countP_cons, List.countP_cons, hc, Nat.add_right_comm]
      next hd =>
        split
        · exact ⟨rfl, rfl⟩
        · obtain ⟨he, hc⟩ := ih limit
          refine ⟨by simp [he], ?_⟩
          rw [List.countP_cons, List.countP_cons, hc, if_pos rfl, if_neg hd, Nat.add_zero, Nat.add_assoc]
          rfl

theorem tombstone_ids (h : b.tombstone id = some b') : b'.ids = b.ids ∧ b'.first = b.first ∧ b'.last = b.last ∧ b'.cold = b.cold := by
  obtain ⟨fs, hfs, rfl⟩ := Option.map_eq_some_iff.mp h
  exact ⟨ids_of_entries (tombstoneFrames_entries hfs).1, rfl, rfl, rfl⟩

theorem tombstoneWhile_ids (b : Block) (limit : Nat) (pred : StreamId → Bool) : (b.tombstoneWhile limit pred).1.ids = b.ids :=
  ids_of_entries (tombstoneWhileFrames_entries pred b.frames limit).1

/-- Only the frames of a block changed, and their IDs did not. -/
structure SameIds (b b' : Block) : Prop where
  ids : b'.ids = b.ids
  first : b'.first = b.first
  last : b'.last = b.last

theorem SameIds.refl (b : Block) : SameIds b b := ⟨rfl, rfl, rfl⟩

theorem SameIds.spans (h : SameIds b b') (hs : b.Spans) : b'.Spans :=
  ⟨by rw [h.ids, h.first]; exact hs.first, by rw [h.ids, h.last]; exact hs.last, by rw [h.ids]; exact hs.cap⟩

theorem SameIds.frames_ne_nil (h : SameIds b b') (hne : b.frames ≠ []) : b'.frames ≠ [] := fun hn =>
  hne (ids_eq_nil.mp (h.ids ▸ ids_eq_nil.mpr hn))

theorem resident_same (b : Block) : SameIds b b.resident := ⟨rfl, rfl, rfl⟩

theorem shed_same (b : Block) : SameIds b b.shed := ⟨rfl, rfl, rfl⟩

theorem tombstone_same (h : b.tombstone id = some b') : SameIds b b' :=
  let ⟨hids, hfirst, hlast, _⟩ := tombstone_ids h
  ⟨hids, hfirst, hlast⟩

theorem tombstoneWhile_same (b : Block) (limit : Nat) (pred : StreamId → Bool) : SameIds b (b.tombstoneWhile limit pred).1 :=
  ⟨tombstoneWhile_ids b limit pred, rfl, rfl⟩

/-- In an ordered block the scan finds the one live entry with the ID, or there is none. -/
theorem tombstoneFrames_spec (id : StreamId) : ∀ {fs : List Frame}, (fs.map Frame.id).Pairwise (· < ·) →
    (tombstoneFrames id fs = none ∧ ∀ f ∈ fs, f.id = id → f.deleted = true) ∨
      ∃ pre e post, e.id = id ∧ fs = pre ++ ⟨e, false⟩ :: post ∧ tombstoneFrames id fs = some (pre ++ ⟨e, true⟩ :: post) := by
  intro fs
  induction fs with
  | nil => exact fun _ => .inl ⟨rfl, (fun _ h => nomatch h)⟩
  | cons f fs ih =>
    intro hs
    rw [List.map_cons, List.pairwise_cons] at hs
    rw [tombstoneFrames]
    cases hc : f.id.cmp id with
    | eq =>
      have heq := StreamId.cmp_eq_eq.mp hc
      by_cases hd : f.deleted = true
      · refine .inl ⟨by simp [hd], fun g hg hgid => ?_⟩
        rcases List.mem_cons.mp hg with rfl | hg
        · exact hd
        · exact absurd (hs.1 _ (List.mem_map_of_mem hg)) (by rw [hgid, heq]; exact lt_irrefl _)
      · have hd' : f.deleted = false := by simpa using hd
        refine .inr ⟨[], f.entry, fs, heq, ?_, by simp [hd']⟩
        rw [← hd']
        rfl
    | gt =>
      have hlt := StreamId.cmp_eq_gt.mp hc
      refine .inl ⟨rfl, fun g hg hgid => ?_⟩
      rcases List.mem_cons.mp hg with rfl | hg
      · exact absurd hlt (by rw [hgid]; exact lt_irrefl _)
      · exact absurd (lt_trans hlt (hs.1 _ (List.mem_map_of_mem hg))) (by rw [hgid]; exact lt_irrefl _)
    | lt =>
      have hlt := StreamId.cmp_eq_lt.mp hc
      rcases ih hs.2 with ⟨hnone, hall⟩ | ⟨pre, e, post, hid, rfl, hsome⟩
      · refine .inl ⟨by simp [hnone], fun g hg hgid => ?_⟩
        rcases List.mem_cons.mp hg with rfl | hg
        · exact absurd hlt (by rw [hgid]; exact lt_irrefl _)
        · exact hall g hg hgid
      · exact .inr ⟨f :: pre, e, post, hid, rfl, by simp [hsome]⟩

def mark (id : StreamId) (fs : List Frame) : List Frame := fs.map fun f => if f.id = id then ⟨f.entry, true⟩ else f

theorem mark_eq_self {fs : List Frame} (h : ∀ f ∈ fs, f.id = id → f.deleted = true) : mark id fs = fs := by
  refine (List.map_congr_left fun f hf => ?_).trans (List.map_id fs)
  split
  next hid =>
    obtain ⟨e, d⟩ := f
    rw [show d = true from h _ hf hid]
    rfl
  next => rfl

/-- In an ordered block a tombstone lands exactly on a live entry, and deletes it and no other. -/
theorem tombstoneFrames_eq (id : StreamId) {fs : List Frame} (hs : (fs.map Frame.id).Pairwise (· < ·)) :
    tombstoneFrames id fs = if ∃ f ∈ fs, f.id = id ∧ f.deleted = false then some (mark id fs) else none := by
  rcases tombstoneFrames_spec id hs with ⟨hnone, hall⟩ | ⟨pre, e, post, hid, rfl, hsome⟩
  · rw [hnone, if_neg]
    rintro ⟨f, hf, hfid, hd⟩
    rw [hall f hf hfid] at hd
    cases hd
  · rw [hsome, if_pos ⟨⟨e, false⟩, List.mem_append_right pre List.mem_cons_self, hid, rfl⟩]
    rw [List.map_append, List.map_cons, List.pairwise_append, List.pairwise_cons] at hs
    have hpre : mark id pre = pre := mark_eq_self fun f hf hfid => by
      have hlt := hs.2.2 _ (List.mem_map_of_mem hf) _ List.mem_cons_self
      rw [hfid, ← hid] at hlt
      exact absurd hlt (lt_irrefl _)
    have hpost : mark id post = post := mark_eq_self fun f hf hfid => by
      have hlt := hs.2.1.1 _ (List.mem_map_of_mem hf)
      rw [hfid, ← hid] at hlt
      exact absurd hlt (lt_irrefl _)
    have hmid : (⟨e, false⟩ : Frame).id = id := hid
    simp only [mark, List.map_append, List.map_cons, hmid, if_true] at hpre hpost ⊢
    rw [hpre, hpost]

def liveOf (fs : List Frame) : List StreamEntry := (fs.filter fun f => !f.deleted).map Frame.entry

/-- The frames with the first `k` live entries deleted. -/
def markOldest : Nat → List Frame → List Frame
  | _, [] => []
  | 0, fs => fs
  | k + 1, f :: fs => if f.deleted then f :: markOldest (k + 1) fs else ⟨f.entry, true⟩ :: markOldest k fs

@[simp] theorem markOldest_zero (fs : List Frame) : markOldest 0 fs = fs := by
  cases fs <;> rfl

theorem markOldest_deleted (k : Nat) (e : StreamEntry) (fs : List Frame) :
    markOldest k (⟨e, true⟩ :: fs) = ⟨e, true⟩ :: markOldest k fs := by
  cases k with
  | zero => simp
  | succ k => simp [markOldest]

theorem liveOf_deleted (e : StreamEntry) (fs : List Frame) : liveOf (⟨e, true⟩ :: fs) = liveOf fs := by
  simp [liveOf]

theorem liveOf_live (e : StreamEntry) (fs : List Frame) : liveOf (⟨e, false⟩ :: fs) = e :: liveOf fs := by
  simp [liveOf]

theorem liveOf_markOldest : ∀ (fs : List Frame) (k : Nat), liveOf (markOldest k fs) = (liveOf fs).drop k := by
  intro fs
  induction fs with
  | nil => exact fun k => by cases k <;> rfl
  | cons f fs ih =>
    intro k
    obtain ⟨e, d⟩ := f
    cases d with
    | true => rw [markOldest_deleted, liveOf_deleted, liveOf_deleted, ih]
    | false =>
      cases k with
      | zero => simp
      | succ k =>
        rw [show markOldest (k + 1) (⟨e, false⟩ :: fs) = ⟨e, true⟩ :: markOldest k fs from rfl, liveOf_deleted, liveOf_live,
          List.drop_succ_cons, ih]

/-- A tombstoning pass deletes the longest prefix of the live entries that its test holds on, up to its limit. -/
theorem tombstoneWhileFrames_eq (pred : StreamId → Bool) : ∀ (fs : List Frame) (limit : Nat),
    tombstoneWhileFrames pred limit fs =
      (markOldest (min limit ((liveOf fs).takeWhile fun e => pred e.id).length) fs,
        min limit ((liveOf fs).takeWhile fun e => pred e.id).length) := by
  intro fs
  induction fs with
  | nil => exact fun limit => by cases limit <;> simp [tombstoneWhileFrames, liveOf, markOldest]
  | cons f fs ih =>
    intro limit
    cases limit with
    | zero => simp [tombstoneWhileFrames]
    | succ limit =>
      obtain ⟨e, d⟩ := f
      cases d with
      | true => simp only [tombstoneWhileFrames, if_true, ih, liveOf_deleted, markOldest_deleted]
      | false =>
        rw [liveOf_live, List.takeWhile_cons]
        cases hp : pred e.id with
        | false => simp [tombstoneWhileFrames, Frame.id, hp]
        | true =>
          simp only [tombstoneWhileFrames, Frame.id, hp, ih, Bool.false_eq_true, Bool.not_true, if_false, if_true, List.length_cons,
            Nat.succ_min_succ, markOldest]

theorem pack_concat (es : List StreamEntry) (e : StreamEntry) : pack (es ++ [e]) = ((pack es).appendEntry e).getD (pack es) := by
  simp [pack, List.foldl_append]

/-- A packed block holds a part of its entries in their order, the first of them as its master. -/
theorem pack_spec : ∀ es : List StreamEntry, (pack es).Spans ∧ ((pack es).frames.map Frame.entry).Sublist es ∧
    (∀ f ∈ (pack es).frames, f.deleted = false) ∧ (pack es).cold = false ∧
    ∀ e ∈ es.head?, (pack es).first = e.id ∧ (pack es).frames ≠ [] := by
  intro es
  induction es using List.reverseRecOn with
  | nil => exact ⟨newBlock_spans, List.Sublist.refl _, (fun _ h => nomatch h), rfl, (fun _ h => nomatch h)⟩
  | append_singleton es e ih =>
    obtain ⟨hs, hsub, hlive, hcold, hhead⟩ := ih
    rw [pack_concat]
    cases ha : (pack es).appendEntry e with
    | none =>
      have hne : es ≠ [] := by
        rintro rfl
        rw [appendEntry_empty rfl] at ha
        cases ha
      refine ⟨hs, hsub.trans (List.sublist_append_left es [e]), hlive, hcold, fun x hx => hhead x ?_⟩
      rwa [List.head?_append_of_ne_nil _ hne] at hx
    | some b' =>
      have h := appendEntry_appended ha
      refine ⟨h.spans hs, ?_, ?_, h.cold.trans hcold, ?_⟩
      · rw [Option.getD_some, h.frames, List.map_append]
        exact hsub.append (List.Sublist.refl _)
      · intro f hf
        rw [Option.getD_some, h.frames] at hf
        rcases List.mem_append.mp hf with hf | hf
        · exact hlive f hf
        · rw [List.mem_singleton.mp hf]
      · intro x hx
        rw [Option.getD_some]
        refine ⟨?_, by rw [h.frames]; simp⟩
        rw [h.first]
        cases es with
        | nil =>
          obtain rfl : e = x := by simpa using hx
          exact if_pos rfl
        | cons y ys =>
          obtain rfl : y = x := by simpa using hx
          obtain ⟨hy, hne⟩ := hhead y rfl
          rw [if_neg hne, hy]

theorem pack_ids_sublist (es : List StreamEntry) : (pack es).ids.Sublist (es.map StreamEntry.id) := by
  have h := (pack_spec es).2.1.map StreamEntry.id
  rwa [List.map_map] at h

theorem pack_entries (es : List StreamEntry) : (pack es).entries = (pack es).frames.map Frame.entry := by
  rw [entries, List.filter_eq_self.mpr]
  intro f hf
  simp [(pack_spec es).2.2.1 f hf]

theorem pack_head (e : StreamEntry) (es : List StreamEntry) : ∃ fs, (pack (e :: es)).frames = ⟨e, false⟩ :: fs := by
  induction es using List.reverseRecOn with
  | nil => exact ⟨[], rfl⟩
  | append_singleton es x ih =>
    obtain ⟨fs, hfs⟩ := ih
    rw [← List.cons_append, pack_concat]
    cases ha : (pack (e :: es)).appendEntry x with
    | none => exact ⟨fs, hfs⟩
    | some b' =>
      rw [Option.getD_some, (appendEntry_appended ha).frames, hfs]
      exact ⟨_, rfl⟩

theorem pack_frameLen (e : StreamEntry) (es : List StreamEntry) (x : StreamEntry) :
    (pack (e :: es)).frameLen x ((pack (e :: es)).sameSchema x.fields) =
      (newBlock.appendMaster e).frameLen x ((newBlock.appendMaster e).sameSchema x.fields) := by
  obtain ⟨fs, hfs⟩ := pack_head e es
  have hfirst := ((pack_spec (e :: es)).2.2.2.2 e rfl).1
  simp only [frameLen, sameSchema, names, hfs, hfirst]
  rfl

theorem packedLen_concat (e : StreamEntry) (es : List StreamEntry) (x : StreamEntry) : packedLen (e :: es ++ [x]) =
    packedLen (e :: es) + (newBlock.appendMaster e).frameLen x ((newBlock.appendMaster e).sameSchema x.fields) := by
  simp [packedLen, Nat.add_assoc]

theorem appendEntry_later (hne : b.frames ≠ []) (hcap : b.frames.length < blockCap) :
    b.appendEntry e = if b.size + b.frameLen e (b.sameSchema e.fields) ≤ blockBudget then
      some { b with
        frames := b.frames ++ [⟨e, false⟩]
        size := b.size + b.frameLen e (b.sameSchema e.fields)
        last := e.id }
    else none := by
  have hpos : ¬b.frames.length = 0 := fun h => hne (List.length_eq_zero_iff.mp h)
  rw [appendEntry, count, if_neg hpos]
  dsimp only
  by_cases hfit : b.size + b.frameLen e (b.sameSchema e.fields) ≤ blockBudget
  · rw [if_pos hfit, if_neg (by omega)]
  · rw [if_neg hfit, if_pos (by omega)]

/-- All entries of a short enough run land exactly when their bytes fit; a lone one always does. -/
theorem pack_lands (e : StreamEntry) (es : List StreamEntry) (hcap : (e :: es).length ≤ blockCap) :
    ((pack (e :: es)).entries = e :: es ↔ es = [] ∨ packedLen (e :: es) ≤ blockBudget) ∧
      ((pack (e :: es)).entries = e :: es → (pack (e :: es)).size = packedLen (e :: es)) := by
  induction es using List.reverseRecOn with
  | nil =>
    refine ⟨iff_of_true rfl (.inl rfl), fun _ => ?_⟩
    simp [pack, appendEntry, count, newBlock, appendMaster, packedLen]
  | append_singleton es x ih =>
    have hlen : (e :: es).length < blockCap := by
      simp only [List.length_cons, List.length_append, List.length_nil] at hcap ⊢
      omega
    obtain ⟨hiff, hsize⟩ := ih (Nat.le_of_lt hlen)
    obtain ⟨fs, hfs⟩ := pack_head e es
    have hsub := (pack_spec (e :: es)).2.1
    have hframes : (pack (e :: es)).frames.length < blockCap := by
      have hle := hsub.length_le
      rw [List.length_map] at hle
      omega
    have happ := appendEntry_later (e := x) (by rw [hfs]; exact List.cons_ne_nil _ _) hframes
    have hne : ¬es ++ [x] = [] := by simp
    rw [← List.cons_append, pack_concat, packedLen_concat, happ, pack_frameLen, or_iff_right hne]
    by_cases hall : (pack (e :: es)).entries = e :: es
    · rw [hsize hall]
      by_cases hfit : packedLen (e :: es) + (newBlock.appendMaster e).frameLen x ((newBlock.appendMaster e).sameSchema x.fields) ≤
          blockBudget
      · rw [if_pos hfit, Option.getD_some]
        refine ⟨iff_of_true ?_ hfit, fun _ => rfl⟩
        simp only [entries] at hall ⊢
        simp [hall]
      · rw [if_neg hfit, Option.getD_none, hall]
        have hshort : e :: es ≠ e :: es ++ [x] := fun h => by simpa using congrArg List.length h
        exact ⟨iff_of_false hshort hfit, fun h => absurd h hshort⟩
    · -- an entry is missing already, and what follows cannot make up for it
      have hbig : ¬packedLen (e :: es) ≤ blockBudget := fun hle => hall (hiff.mpr (.inr hle))
      have hfew : (pack (e :: es)).entries.length < (e :: es).length := by
        rw [pack_entries] at hall ⊢
        exact lt_of_le_of_ne hsub.length_le fun heq => hall (hsub.eq_of_length heq)
      have hmiss : ∀ b' : Block, b'.entries.length ≤ (pack (e :: es)).entries.length + 1 → b'.entries ≠ e :: es ++ [x] := by
        intro b' hle heq
        rw [heq, List.length_append, List.length_singleton] at hle
        omega
      split
      next =>
        have hne' := hmiss _ (Nat.le_of_eq (by simp [entries] :
          (Block.mk ((pack (e :: es)).frames ++ [⟨x, false⟩]) ((pack (e :: es)).size +
            (newBlock.appendMaster e).frameLen x ((newBlock.appendMaster e).sameSchema x.fields)) (pack (e :: es)).first x.id
            (pack (e :: es)).cold).entries.length = (pack (e :: es)).entries.length + 1))
        exact ⟨iff_of_false hne' (by omega), fun h => absurd h hne'⟩
      next =>
        have hne' := hmiss (pack (e :: es)) (Nat.le_succ _)
        exact ⟨iff_of_false hne' (by omega), fun h => absurd h hne'⟩

end Block

end Aki
