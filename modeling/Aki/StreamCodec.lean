import Mathlib.Tactic.Ring
import Aki.StreamBlock

namespace Aki

open Uvarint

def entrySameSchema : UInt8 := 1

def entryDeleted : UInt8 := 2

/-- A block as it is stored: the frames as bytes, the header, and where the master's field names lie among the bytes. -/
structure RawBlock where
  blob : Bytes
  first : StreamId
  last : StreamId
  count : Nat
  deleted : Nat
  names : List (Nat × Nat)

namespace RawBlock

def appendBytes (b : Bytes) : Bytes := putUvarint b.length ++ b

def putIDDelta (base id : StreamId) : Bytes :=
  putUvarint (sub64 id.ms base.ms) ++ putUvarint (zigzag (sub64 id.seq base.seq))

def unzigzag (u : Nat) : Nat := if u % 2 = 0 then u / 2 else 2 ^ 64 - 1 - u / 2

def readIDDelta (src : Bytes) (base : StreamId) : StreamId × Nat :=
  let md := uvarint src
  let sd := uvarint (src.drop md.2.toNat)
  (streamId (base.ms + md.1) (base.seq + unzigzag sd.1), md.2.toNat + sd.2.toNat)

def pairsBytes (fields : List (Bytes × Bytes)) : Bytes := fields.flatMap fun f => appendBytes f.1 ++ appendBytes f.2

def valuesBytes (fields : List (Bytes × Bytes)) : Bytes := fields.flatMap fun f => appendBytes f.2

/-- Where each field name of a master goes when its fields are written from offset `off`. -/
def nameRefs (off : Nat) : List (Bytes × Bytes) → List (Nat × Nat)
  | [] => []
  | f :: fields =>
    (off + (putUvarint f.1.length).length, f.1.length) :: nameRefs (off + (appendBytes f.1 ++ appendBytes f.2).length) fields

def newRaw : RawBlock := ⟨[], StreamId.zero, StreamId.zero, 0, 0, []⟩

def live (r : RawBlock) : Nat := r.count - r.deleted

/-- The field names of the master, read where it stores them. -/
def schema (r : RawBlock) : List Bytes := r.names.map fun x => (r.blob.drop x.1).take x.2

def sameSchema (r : RawBlock) (fields : List (Bytes × Bytes)) : Bool := decide (fields.map Prod.fst = r.schema)

def frameLen (r : RawBlock) (e : StreamEntry) (same : Bool) : Nat :=
  1 + idDeltaLen r.first e.id + if same then valuesLen e.fields else generalLen e.fields

def appendMaster (r : RawBlock) (e : StreamEntry) : RawBlock :=
  let head := r.blob ++ 0 :: putIDDelta e.id e.id ++ putUvarint e.fields.length
  { r with
    blob := head ++ pairsBytes e.fields
    first := e.id
    last := e.id
    count := 1
    names := nameRefs head.length e.fields }

def appendEntry (r : RawBlock) (e : StreamEntry) : RawBlock × Bool :=
  if r.count = 0 then (r.appendMaster e, true)
  else
    let same := r.sameSchema e.fields
    if blockCap ≤ r.count ∨ blockBudget < r.blob.length + r.frameLen e same then (r, false)
    else
      let flags := if same then entrySameSchema else 0
      let body := if same then valuesBytes e.fields else putUvarint e.fields.length ++ pairsBytes e.fields
      ({ r with blob := r.blob ++ flags :: putIDDelta r.first e.id ++ body, last := e.id, count := r.count + 1 }, true)

/-- A length and that many bytes, and what follows. -/
def readBytes (s : Bytes) : Bytes × Bytes :=
  let n := uvarint s
  let rest := s.drop n.2.toNat
  (rest.take n.1, rest.drop n.1)

def readValues : List Bytes → Bytes → List (Bytes × Bytes) × Bytes
  | [], s => ([], s)
  | name :: names, s =>
    let v := readBytes s
    let r := readValues names v.2
    ((name, v.1) :: r.1, r.2)

def readPairs : Nat → Bytes → List (Bytes × Bytes) × Bytes
  | 0, s => ([], s)
  | n + 1, s =>
    let name := readBytes s
    let v := readBytes name.2
    let r := readPairs n v.2
    ((name.1, v.1) :: r.1, r.2)

/-- One turn of the walk: the flags, the entry, and what follows it. -/
def readFrame (names : List Bytes) (first : StreamId) (s : Bytes) : UInt8 × StreamEntry × Bytes :=
  let flags := s.headD 0
  let id := readIDDelta s.tail first
  let body := s.tail.drop id.2
  if flags &&& entrySameSchema ≠ 0 then
    let r := readValues names body
    (flags, ⟨id.1, r.1⟩, r.2)
  else
    let nf := uvarint body
    let r := readPairs nf.1 (body.drop nf.2.toNat)
    (flags, ⟨id.1, r.1⟩, r.2)

def walkLoop (names : List Bytes) (first : StreamId) : Nat → Bytes → List Frame
  | 0, _ => []
  | n + 1, s =>
    let f := readFrame names first s
    ⟨f.2.1, f.1 &&& entryDeleted ≠ 0⟩ :: walkLoop names first n f.2.2

/-- Every entry a walk decodes, with its tombstone flag. -/
def decoded (r : RawBlock) : List Frame := walkLoop r.schema r.first r.count r.blob

def walk (r : RawBlock) : List StreamEntry := (r.decoded.filter fun f => !f.deleted).map Frame.entry

def skipStrings : Nat → Bytes → Nat
  | 0, _ => 0
  | n + 1, s =>
    let l := uvarint s
    l.2.toNat + l.1 + skipStrings n (s.drop (l.2.toNat + l.1))

/-- The bytes of a body, which starts just after the ID. -/
def skipBody (r : RawBlock) (flags : UInt8) (s : Bytes) : Nat :=
  if flags &&& entrySameSchema ≠ 0 then skipStrings r.names.length s
  else
    let nf := uvarint s
    nf.2.toNat + skipStrings (2 * nf.1) (s.drop nf.2.toNat)

/-- The flags and the ID of the frame at an offset, and the offset of the next one. -/
def frameAt (r : RawBlock) (pos : Nat) : UInt8 × StreamId × Nat :=
  let s := r.blob.drop pos
  let flags := s.headD 0
  let id := readIDDelta s.tail r.first
  (flags, id.1, pos + 1 + id.2 + r.skipBody flags (s.tail.drop id.2))

def flagDeleted (r : RawBlock) (pos : Nat) (flags : UInt8) : RawBlock :=
  { r with blob := r.blob.set pos (flags ||| entryDeleted), deleted := r.deleted + 1 }

def tombstoneLoop (r : RawBlock) (id : StreamId) : Nat → Nat → RawBlock × Bool
  | 0, _ => (r, false)
  | n + 1, pos =>
    let f := r.frameAt pos
    match f.2.1.cmp id with
    | .eq => if f.1 &&& entryDeleted ≠ 0 then (r, false) else (r.flagDeleted pos f.1, true)
    | .gt => (r, false)
    | .lt => r.tombstoneLoop id n f.2.2

def tombstone (r : RawBlock) (id : StreamId) : RawBlock × Bool := r.tombstoneLoop id r.count 0

def tombstoneWhileLoop (pred : StreamId → Bool) : Nat → Nat → Nat → RawBlock → RawBlock × Nat
  | 0, _, _, r => (r, 0)
  | _ + 1, 0, _, r => (r, 0)
  | n + 1, limit + 1, pos, r =>
    let f := r.frameAt pos
    if f.1 &&& entryDeleted ≠ 0 then tombstoneWhileLoop pred n (limit + 1) f.2.2 r
    else if !pred f.2.1 then (r, 0)
    else
      let t := tombstoneWhileLoop pred n limit f.2.2 (r.flagDeleted pos f.1)
      (t.1, t.2 + 1)

def tombstoneWhile (r : RawBlock) (limit : Nat) (pred : StreamId → Bool) : RawBlock × Nat :=
  tombstoneWhileLoop pred r.count limit 0 r

theorem sub64_lt (a b : Nat) : sub64 a b < 2 ^ 64 := Nat.mod_lt _ (by decide)

theorem zigzag_lt {d : Nat} (h : d < 2 ^ 64) : zigzag d < 2 ^ 64 := by
  unfold zigzag
  split <;> omega

theorem unzigzag_zigzag {d : Nat} (h : d < 2 ^ 64) : unzigzag (zigzag d) = d := by
  unfold unzigzag zigzag
  split <;> split <;> omega

theorem add_sub64 {a : Nat} (ha : a < 2 ^ 64) (b : Nat) : (b + sub64 a b) % 2 ^ 64 = a := by
  unfold sub64
  omega

theorem streamId_add_delta (base id : StreamId) :
    streamId (base.ms + sub64 id.ms base.ms) (base.seq + unzigzag (zigzag (sub64 id.seq base.seq))) = id := by
  rw [unzigzag_zigzag (sub64_lt _ _)]
  exact StreamId.ext (add_sub64 id.msLt _) (add_sub64 id.seqLt _)

theorem readIDDelta_words {md sd : Nat} (hmd : md < 2 ^ 64) (hsd : sd < 2 ^ 64) (base : StreamId) (rest : Bytes) :
    readIDDelta (putUvarint md ++ putUvarint sd ++ rest) base =
      (streamId (base.ms + md) (base.seq + unzigzag sd), (putUvarint md ++ putUvarint sd).length) := by
  have hms := uvarint_put hmd (putUvarint sd ++ rest)
  have hseq := uvarint_put hsd rest
  simp only [readIDDelta, List.append_assoc, hms, Int.toNat_natCast, List.drop_left, hseq, List.length_append]

theorem readIDDelta_put (base id : StreamId) (rest : Bytes) :
    readIDDelta (putIDDelta base id ++ rest) base = (id, (putIDDelta base id).length) := by
  rw [putIDDelta, readIDDelta_words (sub64_lt _ _) (zigzag_lt (sub64_lt _ _)), streamId_add_delta]

/-- The lengths a slice can have. -/
structure Sized (e : StreamEntry) : Prop where
  fields : e.fields.length < 2 ^ 63
  names : ∀ f ∈ e.fields, f.1.length < 2 ^ 63
  values : ∀ f ∈ e.fields, f.2.length < 2 ^ 63

theorem readBytes_append {b : Bytes} (h : b.length < 2 ^ 63) (rest : Bytes) : readBytes (appendBytes b ++ rest) = (b, rest) := by
  have hu := uvarint_put (x := b.length) (by omega) (b ++ rest)
  simp only [readBytes, appendBytes, List.append_assoc, hu, Int.toNat_natCast, List.drop_left, List.take_left]

theorem readValues_append : ∀ {fields : List (Bytes × Bytes)}, (∀ f ∈ fields, f.2.length < 2 ^ 63) → ∀ rest : Bytes,
    readValues (fields.map Prod.fst) (valuesBytes fields ++ rest) = (fields, rest) := by
  intro fields
  induction fields with
  | nil => exact fun _ _ => rfl
  | cons f fields ih =>
    intro h rest
    have hv := readBytes_append (h f List.mem_cons_self) (valuesBytes fields ++ rest)
    have hr := ih (fun g hg => h g (List.mem_cons_of_mem f hg)) rest
    simp only [valuesBytes, List.flatMap_cons, List.map_cons, readValues, List.append_assoc] at hv hr ⊢
    rw [hv, hr]

theorem readPairs_append : ∀ {fields : List (Bytes × Bytes)}, (∀ f ∈ fields, f.1.length < 2 ^ 63) →
    (∀ f ∈ fields, f.2.length < 2 ^ 63) → ∀ rest : Bytes,
    readPairs fields.length (pairsBytes fields ++ rest) = (fields, rest) := by
  intro fields
  induction fields with
  | nil => exact fun _ _ _ => rfl
  | cons f fields ih =>
    intro hn hv rest
    have h1 := readBytes_append (hn f List.mem_cons_self) (appendBytes f.2 ++ (pairsBytes fields ++ rest))
    have h2 := readBytes_append (hv f List.mem_cons_self) (pairsBytes fields ++ rest)
    have hr := ih (fun g hg => hn g (List.mem_cons_of_mem f hg)) (fun g hg => hv g (List.mem_cons_of_mem f hg)) rest
    simp only [pairsBytes, List.flatMap_cons, List.length_cons, readPairs, List.append_assoc] at h1 h2 hr ⊢
    rw [h1, h2, hr]

theorem skipStrings_append : ∀ {strs : List Bytes}, (∀ b ∈ strs, b.length < 2 ^ 63) → ∀ rest : Bytes,
    skipStrings strs.length (strs.flatMap appendBytes ++ rest) = (strs.flatMap appendBytes).length := by
  intro strs
  induction strs with
  | nil => exact fun _ _ => rfl
  | cons b strs ih =>
    intro h rest
    have hu := uvarint_put (x := b.length) (by have := h b List.mem_cons_self; omega) (b ++ (strs.flatMap appendBytes ++ rest))
    have hr := ih (fun c hc => h c (List.mem_cons_of_mem b hc)) rest
    have hdrop : (putUvarint b.length ++ (b ++ (strs.flatMap appendBytes ++ rest))).drop ((putUvarint b.length).length + b.length) =
        strs.flatMap appendBytes ++ rest := by
      rw [← List.append_assoc, List.drop_left' (List.length_append ..)]
    simp only [List.flatMap_cons, List.length_cons, skipStrings, List.append_assoc, List.length_append, appendBytes, hu,
      Int.toNat_natCast] at hdrop hr ⊢
    rw [hdrop, hr, Nat.add_assoc]

theorem valuesBytes_eq (fields : List (Bytes × Bytes)) : valuesBytes fields = (fields.map Prod.snd).flatMap appendBytes := by
  rw [valuesBytes, List.flatMap_map]

/-- The names and the values, in the order a body of its own has them. -/
def strings (fields : List (Bytes × Bytes)) : List Bytes := fields.flatMap fun f => [f.1, f.2]

theorem pairsBytes_eq (fields : List (Bytes × Bytes)) : pairsBytes fields = (strings fields).flatMap appendBytes := by
  induction fields with
  | nil => rfl
  | cons f fields ih =>
    simp only [pairsBytes, strings, List.flatMap_cons, List.append_assoc, List.flatMap_append, List.flatMap_nil] at ih ⊢
    rw [ih]
    simp

theorem strings_length (fields : List (Bytes × Bytes)) : (strings fields).length = 2 * fields.length := by
  induction fields with
  | nil => rfl
  | cons f fields ih =>
    simp only [strings, List.flatMap_cons, List.length_append, List.length_cons, List.length_nil] at ih ⊢
    omega

def flagsOf (same deleted : Bool) : UInt8 := (if same then entrySameSchema else 0) ||| (if deleted then entryDeleted else 0)

theorem flagsOf_same (same deleted : Bool) : flagsOf same deleted &&& entrySameSchema ≠ 0 ↔ same = true := by
  revert same deleted
  decide

theorem flagsOf_deleted (same deleted : Bool) : flagsOf same deleted &&& entryDeleted ≠ 0 ↔ deleted = true := by
  revert same deleted
  decide

theorem flagsOf_or_deleted (same : Bool) : flagsOf same false ||| entryDeleted = flagsOf same true := by
  revert same
  decide

theorem flagsOf_live (same : Bool) : flagsOf same false = if same then entrySameSchema else 0 := by
  revert same
  decide

def bodyBytes (same : Bool) (fields : List (Bytes × Bytes)) : Bytes :=
  if same then valuesBytes fields else putUvarint fields.length ++ pairsBytes fields

def entryBytes (first : StreamId) (same : Bool) (e : StreamEntry) : Bytes := putIDDelta first e.id ++ bodyBytes same e.fields

/-- One frame, written against the first ID of its block. -/
def frameBytes (first : StreamId) (same : Bool) (f : Frame) : Bytes := flagsOf same f.deleted :: entryBytes first same f.entry

def framesBytes (first : StreamId) : List Bool → List Frame → Bytes
  | [], _ => []
  | _ :: _, [] => []
  | same :: tags, f :: fs => frameBytes first same f ++ framesBytes first tags fs

/-- A frame a block with these field names can hold: only one with the same names leaves them out. -/
structure Holds (names : List Bytes) (same : Bool) (e : StreamEntry) : Prop where
  sized : Sized e
  names : same = true → e.fields.map Prod.fst = names

section

variable {names : List Bytes} {first id : StreamId} {flags : UInt8} {s rest : Bytes} {n nf w : Nat} {fields : List (Bytes × Bytes)}

theorem readFrame_same (hflags : flags &&& entrySameSchema ≠ 0) (hid : readIDDelta s first = (id, n))
    (hbody : readValues names (s.drop n) = (fields, rest)) : readFrame names first (flags :: s) = (flags, ⟨id, fields⟩, rest) := by
  simp only [readFrame, List.headD_cons, List.tail_cons, if_pos hflags, hid, hbody]

theorem readFrame_general (hflags : ¬flags &&& entrySameSchema ≠ 0) (hid : readIDDelta s first = (id, n))
    (hnf : uvarint (s.drop n) = (nf, (w : Int))) (hbody : readPairs nf ((s.drop n).drop w) = (fields, rest)) :
    readFrame names first (flags :: s) = (flags, ⟨id, fields⟩, rest) := by
  simp only [readFrame, List.headD_cons, List.tail_cons, if_neg hflags, hid, hnf, Int.toNat_natCast, hbody]

end

theorem readFrame_append {names : List Bytes} {first : StreamId} {same : Bool} {f : Frame} (h : Holds names same f.entry)
    (rest : Bytes) : readFrame names first (frameBytes first same f ++ rest) = (flagsOf same f.deleted, f.entry, rest) := by
  have hid := readIDDelta_put first f.entry.id (bodyBytes same f.entry.fields ++ rest)
  rw [frameBytes, entryBytes, List.cons_append, List.append_assoc]
  cases same with
  | true =>
    refine readFrame_same ((flagsOf_same true _).mpr rfl) hid ?_
    rw [List.drop_left, bodyBytes, if_pos rfl, ← h.names rfl]
    exact readValues_append h.sized.values rest
  | false =>
    have hnf := uvarint_put (x := f.entry.fields.length) (by have := h.sized.fields; omega) (pairsBytes f.entry.fields ++ rest)
    have hbody : bodyBytes false f.entry.fields ++ rest = putUvarint f.entry.fields.length ++ (pairsBytes f.entry.fields ++ rest) := by
      rw [bodyBytes, if_neg Bool.false_ne_true, List.append_assoc]
    rw [hbody] at hid ⊢
    refine readFrame_general (fun hs => Bool.false_ne_true ((flagsOf_same false _).mp hs)) hid (by rw [List.drop_left]; exact hnf) ?_
    rw [List.drop_left, List.drop_left]
    exact readPairs_append h.sized.names h.sized.values rest

theorem skipBody_append {r : RawBlock} {names : List Bytes} {same deleted : Bool} {e : StreamEntry} (h : Holds names same e)
    (hnames : r.names.length = names.length) (rest : Bytes) :
    r.skipBody (flagsOf same deleted) (bodyBytes same e.fields ++ rest) = (bodyBytes same e.fields).length := by
  cases same with
  | true =>
    have hlen : r.names.length = (e.fields.map Prod.snd).length := by
      rw [hnames, ← h.names rfl, List.length_map, List.length_map]
    have hs : ∀ b ∈ e.fields.map Prod.snd, b.length < 2 ^ 63 := List.forall_mem_map.mpr h.sized.values
    rw [skipBody, if_pos ((flagsOf_same true _).mpr rfl), bodyBytes, if_pos rfl, valuesBytes_eq, hlen, skipStrings_append hs]
  | false =>
    have hnf := uvarint_put (x := e.fields.length) (by have := h.sized.fields; omega) (pairsBytes e.fields ++ rest)
    have hs : ∀ b ∈ strings e.fields, b.length < 2 ^ 63 := by
      intro b hb
      obtain ⟨f, hf, hb⟩ := List.mem_flatMap.mp hb
      rcases List.mem_pair.mp hb with rfl | rfl
      · exact h.sized.names f hf
      · exact h.sized.values f hf
    have hskip := skipStrings_append hs rest
    rw [strings_length, ← pairsBytes_eq] at hskip
    rw [skipBody, if_neg fun hs => Bool.false_ne_true ((flagsOf_same false _).mp hs), bodyBytes, if_neg Bool.false_ne_true,
      List.append_assoc, hnf, List.length_append]
    simp only [Int.toNat_natCast, List.drop_left, hskip]

theorem frameAt_eq {r : RawBlock} {pos n : Nat} {flags : UInt8} {s : Bytes} {id : StreamId} (hs : r.blob.drop pos = flags :: s)
    (hid : readIDDelta s r.first = (id, n)) : r.frameAt pos = (flags, id, pos + 1 + n + r.skipBody flags (s.drop n)) := by
  simp only [frameAt, hs, List.headD_cons, List.tail_cons, hid]

theorem frameAt_append {r : RawBlock} {names : List Bytes} {same : Bool} {f : Frame} {pre rest : Bytes}
    (h : Holds names same f.entry) (hnames : r.names.length = names.length)
    (hblob : r.blob = pre ++ (frameBytes r.first same f ++ rest)) :
    r.frameAt pre.length = (flagsOf same f.deleted, f.id, (pre ++ frameBytes r.first same f).length) := by
  have hs : r.blob.drop pre.length =
      flagsOf same f.deleted :: (putIDDelta r.first f.entry.id ++ (bodyBytes same f.entry.fields ++ rest)) := by
    rw [hblob, List.drop_left, frameBytes, entryBytes, List.cons_append, List.append_assoc]
  rw [frameAt_eq hs (readIDDelta_put ..), List.drop_left, skipBody_append h hnames, frameBytes, entryBytes, List.length_append,
    List.length_cons, List.length_append]
  refine Prod.ext rfl (Prod.ext rfl ?_)
  dsimp only
  omega

theorem walkLoop_append {names : List Bytes} (first : StreamId) : ∀ {tags : List Bool} {fs : List Frame},
    List.Forall₂ (fun same f => Holds names same f.entry) tags fs → ∀ rest : Bytes,
    walkLoop names first fs.length (framesBytes first tags fs ++ rest) = fs := by
  intro tags fs h
  induction h with
  | nil => exact fun _ => rfl
  | @cons same f tags fs hf _ ih =>
    intro rest
    rw [List.length_cons, framesBytes, List.append_assoc, walkLoop]
    simp only [readFrame_append hf, ih]
    rw [show decide (flagsOf same f.deleted &&& entryDeleted ≠ 0) = f.deleted by
      rw [Bool.eq_iff_iff, decide_eq_true_eq, flagsOf_deleted]]

theorem set_append (pre s : Bytes) (x y : UInt8) : (pre ++ x :: s).set pre.length y = pre ++ y :: s := by
  rw [List.set_append_right _ _ (Nat.le_refl _), Nat.sub_self, List.set_cons_zero]

/-- The flags byte of a live frame is the only one a tombstone changes. -/
theorem flagDeleted_append {r : RawBlock} {same : Bool} {e : StreamEntry} {tags : List Bool} {fs : List Frame} {pre : Bytes}
    (hblob : r.blob = pre ++ framesBytes r.first (same :: tags) (⟨e, false⟩ :: fs)) :
    r.flagDeleted pre.length (flagsOf same false) =
      { r with blob := pre ++ framesBytes r.first (same :: tags) (⟨e, true⟩ :: fs), deleted := r.deleted + 1 } := by
  have hset : r.blob.set pre.length (flagsOf same false ||| entryDeleted) =
      pre ++ framesBytes r.first (same :: tags) (⟨e, true⟩ :: fs) := by
    rw [hblob, framesBytes, framesBytes, frameBytes, frameBytes, List.cons_append, List.cons_append, set_append, flagsOf_or_deleted]
  rw [flagDeleted, hset]

theorem tombstoneLoop_eq {names : List Bytes} (id : StreamId) {r : RawBlock} (hnames : r.names.length = names.length) :
    ∀ {tags : List Bool} {fs : List Frame}, List.Forall₂ (fun same f => Holds names same f.entry) tags fs →
    ∀ {pre : Bytes}, r.blob = pre ++ framesBytes r.first tags fs →
    r.tombstoneLoop id fs.length pre.length =
      match Block.tombstoneFrames id fs with
      | none => (r, false)
      | some fs' => ({ r with blob := pre ++ framesBytes r.first tags fs', deleted := r.deleted + 1 }, true) := by
  intro tags fs h
  induction h with
  | nil => exact fun _ => rfl
  | @cons same f tags fs hf _ ih =>
    intro pre hblob
    have hat := frameAt_append hf hnames hblob
    have hnext : r.blob = (pre ++ frameBytes r.first same f) ++ framesBytes r.first tags fs := by
      rw [hblob, framesBytes, List.append_assoc]
    rw [List.length_cons, tombstoneLoop, hat, Block.tombstoneFrames]
    dsimp only
    cases f.id.cmp id with
    | gt => rfl
    | lt =>
      dsimp only
      rw [ih hnext]
      cases Block.tombstoneFrames id fs with
      | none => rfl
      | some fs' => simp only [Option.map_some, framesBytes, List.append_assoc]
    | eq =>
      dsimp only
      by_cases hd : f.deleted = true
      · rw [if_pos ((flagsOf_deleted same _).mpr hd), if_pos hd]
      · obtain ⟨e, d⟩ := f
        obtain rfl : d = false := by simpa using hd
        rw [if_neg fun h' => hd ((flagsOf_deleted same _).mp h'), if_neg hd, flagDeleted_append hblob]

theorem tombstoneWhileLoop_eq {names : List Bytes} {pred : StreamId → Bool} :
    ∀ {tags : List Bool} {fs : List Frame}, List.Forall₂ (fun same f => Holds names same f.entry) tags fs →
    ∀ {r : RawBlock} {pre : Bytes} {limit : Nat}, r.names.length = names.length → r.blob = pre ++ framesBytes r.first tags fs →
    tombstoneWhileLoop pred fs.length limit pre.length r =
      ({ r with
          blob := pre ++ framesBytes r.first tags (Block.tombstoneWhileFrames pred limit fs).1
          deleted := r.deleted + (Block.tombstoneWhileFrames pred limit fs).2 },
        (Block.tombstoneWhileFrames pred limit fs).2) := by
  intro tags fs h
  induction h with
  | nil =>
    intro r pre limit _ hblob
    cases limit <;> simp only [List.length_nil, tombstoneWhileLoop, Block.tombstoneWhileFrames, ← hblob, Nat.add_zero]
  | @cons same f tags fs hf _ ih =>
    intro r pre limit hnames hblob
    have hat := frameAt_append hf hnames hblob
    have hnext : r.blob = (pre ++ frameBytes r.first same f) ++ framesBytes r.first tags fs := by
      rw [hblob, framesBytes, List.append_assoc]
    cases limit with
    | zero => simp only [List.length_cons, tombstoneWhileLoop, Block.tombstoneWhileFrames, ← hblob, Nat.add_zero]
    | succ limit =>
      rw [List.length_cons, tombstoneWhileLoop, hat, Block.tombstoneWhileFrames]
      dsimp only
      by_cases hd : f.deleted = true
      · rw [if_pos ((flagsOf_deleted same _).mpr hd), if_pos hd, ih hnames hnext]
        simp only [framesBytes, List.append_assoc]
      · obtain ⟨e, d⟩ := f
        obtain rfl : d = false := by simpa using hd
        rw [if_neg fun h' => hd ((flagsOf_deleted same _).mp h'), if_neg hd]
        by_cases hp : pred (Frame.id ⟨e, false⟩) = true
        · rw [flagDeleted_append hblob]
          have hnext' : pre ++ framesBytes r.first (same :: tags) (⟨e, true⟩ :: fs) =
              (pre ++ frameBytes r.first same ⟨e, true⟩) ++ framesBytes r.first tags fs := by
            rw [framesBytes, List.append_assoc]
          have hlen : (pre ++ frameBytes r.first same ⟨e, false⟩).length = (pre ++ frameBytes r.first same ⟨e, true⟩).length := by
            rw [List.length_append, List.length_append, frameBytes, frameBytes, List.length_cons, List.length_cons]
          have hloop := @ih { r with
            blob := pre ++ framesBytes r.first (same :: tags) (⟨e, true⟩ :: fs), deleted := r.deleted + 1 } _ limit hnames hnext'
          have hnot : ¬(!pred (Frame.id ⟨e, false⟩)) = true := by simp [hp]
          rw [if_neg hnot, if_neg hnot, hlen, hloop]
          dsimp only
          rw [framesBytes, List.append_assoc, Nat.add_assoc, Nat.add_comm 1]
        · rw [if_pos (by simpa using hp), if_pos (by simpa using hp), ← hblob, Nat.add_zero]

/-- Which entries leave their field names to the master: those after it that have the same ones. -/
def tags : List StreamEntry → List Bool
  | [] => []
  | m :: es => false :: es.map fun e => decide (e.fields.map Prod.fst = m.fields.map Prod.fst)

/-- Where the first entry's field names lie in the bytes of a block. -/
def masterRefs : List StreamEntry → List (Nat × Nat)
  | [] => []
  | m :: _ => nameRefs (1 + ((putIDDelta m.id m.id).length + (putUvarint m.fields.length).length)) m.fields

structure Encodes (r : RawBlock) (b : Block) : Prop where
  blob : r.blob = framesBytes b.first (tags (b.frames.map Frame.entry)) b.frames
  size : r.blob.length = b.size
  names : r.names = masterRefs (b.frames.map Frame.entry)
  first : r.first = b.first
  last : r.last = b.last
  count : r.count = b.count
  deleted : r.deleted = b.deleted
  sized : ∀ f ∈ b.frames, Sized f.entry
  spans : b.Spans

theorem appendBytes_length (b : Bytes) : (appendBytes b).length = bytesLen b := by
  rw [appendBytes, List.length_append, putUvarint_length, bytesLen]

theorem bodyBytes_length (same : Bool) (fields : List (Bytes × Bytes)) :
    (bodyBytes same fields).length = if same then valuesLen fields else generalLen fields := by
  cases same with
  | true =>
    rw [bodyBytes, if_pos rfl, if_pos rfl, valuesBytes, List.length_flatMap, valuesLen]
    simp only [appendBytes_length]
  | false =>
    rw [bodyBytes, if_neg Bool.false_ne_true, if_neg Bool.false_ne_true, pairsBytes, List.length_append, List.length_flatMap,
      putUvarint_length, generalLen]
    simp only [List.length_append, appendBytes_length]

theorem frameBytes_length (first : StreamId) (same : Bool) (f : Frame) : (frameBytes first same f).length =
    1 + idDeltaLen first f.entry.id + if same then valuesLen f.entry.fields else generalLen f.entry.fields := by
  rw [frameBytes, entryBytes, List.length_cons, List.length_append, bodyBytes_length, putIDDelta, List.length_append,
    putUvarint_length, putUvarint_length, idDeltaLen]
  omega

theorem tags_length (es : List StreamEntry) : (tags es).length = es.length := by
  cases es <;> simp [tags]

theorem tags_concat {es : List StreamEntry} (m : StreamEntry) (e : StreamEntry) :
    tags (m :: es ++ [e]) = tags (m :: es) ++ [decide (e.fields.map Prod.fst = m.fields.map Prod.fst)] := by
  simp [tags]

theorem framesBytes_concat (first : StreamId) (same : Bool) (f : Frame) : ∀ {tags : List Bool} {fs : List Frame},
    tags.length = fs.length → framesBytes first (tags ++ [same]) (fs ++ [f]) = framesBytes first tags fs ++ frameBytes first same f := by
  intro tags
  induction tags with
  | nil =>
    intro fs h
    rw [List.length_eq_zero_iff.mp h.symm]
    simp [framesBytes]
  | cons t tags ih =>
    intro fs h
    cases fs with
    | nil => cases h
    | cons g fs => rw [List.cons_append, List.cons_append, framesBytes, framesBytes, ih (Nat.succ.inj h), List.append_assoc]

theorem framesBytes_length_congr (first : StreamId) : ∀ (tags : List Bool) {fs fs' : List Frame},
    fs'.map Frame.entry = fs.map Frame.entry → (framesBytes first tags fs').length = (framesBytes first tags fs).length := by
  intro tags
  induction tags with
  | nil => exact fun _ => rfl
  | cons same tags ih =>
    intro fs fs' h
    cases fs with
    | nil =>
      rw [List.map_nil, List.map_eq_nil_iff] at h
      rw [h]
    | cons f fs =>
      cases fs' with
      | nil => cases h
      | cons f' fs' =>
        obtain ⟨hf, hfs⟩ := List.cons.inj h
        rw [framesBytes, framesBytes, List.length_append, List.length_append, frameBytes_length, frameBytes_length, hf, ih hfs]

theorem holds_of_sized {b : Block} (h : ∀ f ∈ b.frames, Sized f.entry) :
    List.Forall₂ (fun same f => Holds b.names same f.entry) (tags (b.frames.map Frame.entry)) b.frames := by
  rw [Block.names]
  cases hb : b.frames with
  | nil => exact List.Forall₂.nil
  | cons m fs =>
    rw [hb] at h
    rw [List.map_cons, tags, List.map_map]
    refine List.Forall₂.cons ⟨h m List.mem_cons_self, fun hf => absurd hf Bool.false_ne_true⟩ ?_
    rw [List.forall₂_map_left_iff, List.forall₂_same]
    exact fun f hf => ⟨h f (List.mem_cons_of_mem m hf), fun hs => of_decide_eq_true hs⟩

theorem nameRefs_read : ∀ (fields : List (Bytes × Bytes)) (pre rest : Bytes),
    ((nameRefs pre.length fields).map fun x => ((pre ++ (pairsBytes fields ++ rest)).drop x.1).take x.2) = fields.map Prod.fst := by
  intro fields
  induction fields with
  | nil => exact fun _ _ => rfl
  | cons f fields ih =>
    intro pre rest
    have hhead : ((pre ++ (pairsBytes (f :: fields) ++ rest)).drop (pre.length + (putUvarint f.1.length).length)).take f.1.length =
        f.1 := by
      rw [pairsBytes, List.flatMap_cons, appendBytes, ← List.length_append]
      simp only [List.append_assoc]
      rw [← List.append_assoc pre, List.drop_left, List.take_left]
    have htail := ih (pre ++ (appendBytes f.1 ++ appendBytes f.2)) rest
    rw [List.length_append] at htail
    have hpre : pre ++ (pairsBytes (f :: fields) ++ rest) =
        pre ++ (appendBytes f.1 ++ appendBytes f.2) ++ (pairsBytes fields ++ rest) := by
      simp only [pairsBytes, List.flatMap_cons, List.append_assoc]
    rw [nameRefs, List.map_cons, List.map_cons, hhead, hpre, htail]

namespace Encodes

variable {r : RawBlock} {b : Block}

theorem schema (h : r.Encodes b) : r.schema = b.names := by
  rw [RawBlock.schema, h.names, Block.names]
  have hblob := h.blob
  have hfirst := h.spans.first
  cases hb : b.frames with
  | nil => rfl
  | cons m fs =>
    rw [hb] at hblob
    have hid : m.id = b.first := hfirst _ (by simp [Block.ids, hb])
    have hpre : r.blob = (flagsOf false m.deleted :: (putIDDelta m.entry.id m.entry.id ++ putUvarint m.entry.fields.length)) ++
        (pairsBytes m.entry.fields ++ framesBytes b.first (tags (m.entry :: fs.map Frame.entry)).tail fs) := by
      rw [hblob, List.map_cons, tags, framesBytes, frameBytes, entryBytes, bodyBytes, if_neg Bool.false_ne_true, ← hid, Frame.id]
      rw [List.cons_append, List.cons_append, List.tail_cons, List.append_assoc, List.append_assoc,
        List.append_assoc (putIDDelta m.entry.id m.entry.id)]
    rw [hpre, List.map_cons, masterRefs, Nat.add_comm 1, ← List.length_append, ← List.length_cons (a := flagsOf false m.deleted),
      nameRefs_read]

theorem names_length (h : r.Encodes b) : r.names.length = b.names.length := by
  rw [← h.schema, RawBlock.schema, List.length_map]

theorem sameSchema (h : r.Encodes b) (fields : List (Bytes × Bytes)) : r.sameSchema fields = b.sameSchema fields := by
  rw [RawBlock.sameSchema, h.schema, Block.sameSchema]

theorem frameLen (h : r.Encodes b) (e : StreamEntry) (same : Bool) : r.frameLen e same = b.frameLen e same := by
  rw [RawBlock.frameLen, h.first, Block.frameLen]

theorem decoded (h : r.Encodes b) : r.decoded = b.frames := by
  have hw := walkLoop_append b.first (holds_of_sized h.sized) []
  rw [List.append_nil] at hw
  rw [RawBlock.decoded, h.schema, h.first, h.count, h.blob, Block.count, hw]

theorem walk (h : r.Encodes b) : r.walk = b.entries := by
  rw [RawBlock.walk, h.decoded, Block.entries]

theorem newRaw_newBlock : newRaw.Encodes newBlock :=
  ⟨rfl, rfl, rfl, rfl, rfl, rfl, rfl, (fun _ h => nomatch h), Block.newBlock_spans⟩

theorem sized_concat (h : r.Encodes b) {e : StreamEntry} (he : Sized e) : ∀ f ∈ b.frames ++ [⟨e, false⟩], Sized f.entry := by
  intro f hf
  rcases List.mem_append.mp hf with hf | hf
  · exact h.sized f hf
  · rw [List.mem_singleton.mp hf]
    exact he

theorem appendMaster (h : r.Encodes b) {e : StreamEntry} (he : Sized e) (hnil : b.frames = []) :
    (r.appendMaster e).Encodes (b.appendMaster e) := by
  have hblob : r.blob = [] := by
    rw [h.blob, hnil]
    rfl
  have hsize : b.size = 0 := by
    rw [← h.size, hblob]
    rfl
  have happ := Block.appendEntry_appended (Block.appendEntry_empty (e := e) hnil)
  have hbytes : (r.appendMaster e).blob = frameBytes e.id false ⟨e, false⟩ := by
    rw [RawBlock.appendMaster, frameBytes, entryBytes, bodyBytes, if_neg Bool.false_ne_true, hblob]
    dsimp only
    rw [List.nil_append, List.cons_append, List.cons_append, List.append_assoc]
    rfl
  constructor
  · rw [hbytes, happ.frames, hnil]
    exact (List.append_nil _).symm
  · rw [hbytes, frameBytes_length, Block.appendMaster, hsize, Nat.zero_add]
    rfl
  · rw [happ.frames, hnil, RawBlock.appendMaster, hblob]
    dsimp only
    rw [List.nil_append, List.cons_append, List.length_cons, List.length_append, Nat.add_comm]
    rfl
  · rfl
  · rfl
  · rfl
  · exact h.deleted.trans (by rw [Block.deleted, Block.deleted, hnil]; rfl)
  · rw [happ.frames]
    exact h.sized_concat he
  · exact happ.spans h.spans

theorem appendLater (h : r.Encodes b) {e : StreamEntry} (he : Sized e) (hne : b.frames ≠ []) {b' : Block}
    (hb : b.appendEntry e = some b') : ∃ r', r.appendEntry e = (r', true) ∧ r'.Encodes b' := by
  have happ := Block.appendEntry_appended hb
  have hcount : b.count ≠ 0 := fun hc => hne (List.length_eq_zero_iff.mp hc)
  rw [Block.appendEntry, if_neg hcount] at hb
  dsimp only at hb
  split at hb
  · cases hb
  next hfit =>
  obtain rfl := Option.some.inj hb
  rw [RawBlock.appendEntry, if_neg (h.count ▸ hcount), h.sameSchema]
  dsimp only
  rw [h.count, h.size, h.frameLen, if_neg hfit]
  refine ⟨_, rfl, ?_⟩
  have hbytes : r.blob ++ (if b.sameSchema e.fields then entrySameSchema else 0) :: putIDDelta r.first e.id ++
      (if b.sameSchema e.fields then valuesBytes e.fields else putUvarint e.fields.length ++ pairsBytes e.fields) =
        r.blob ++ frameBytes b.first (b.sameSchema e.fields) ⟨e, false⟩ := by
    rw [frameBytes, entryBytes, bodyBytes, h.first, List.append_assoc, List.cons_append, flagsOf_live]
  constructor
  · dsimp only
    rw [hbytes, List.map_append, h.blob]
    obtain ⟨m, fs, hm⟩ := List.exists_cons_of_ne_nil hne
    have hsame : b.sameSchema e.fields = decide (e.fields.map Prod.fst = m.entry.fields.map Prod.fst) := by
      rw [Block.sameSchema, Block.names, hm]
    rw [hsame, hm, List.map_cons, List.map_cons, List.map_nil, tags_concat, framesBytes_concat]
    rw [tags_length, List.length_cons, List.length_cons, List.length_map]
  · dsimp only
    rw [hbytes, List.length_append, frameBytes_length, h.size]
    rfl
  · obtain ⟨m, fs, hm⟩ := List.exists_cons_of_ne_nil hne
    dsimp only
    rw [h.names, hm]
    rfl
  · exact h.first
  · rfl
  · dsimp only
    rw [Block.count, Block.count, List.length_append]
    rfl
  · dsimp only
    rw [h.deleted, Block.deleted, Block.deleted, List.countP_append]
    rfl
  · exact h.sized_concat he
  · exact happ.spans h.spans

theorem appendEntry (h : r.Encodes b) {e : StreamEntry} (he : Sized e) :
    (b.appendEntry e = none ∧ r.appendEntry e = (r, false)) ∨
      ∃ b' r', b.appendEntry e = some b' ∧ r.appendEntry e = (r', true) ∧ r'.Encodes b' := by
  by_cases hnil : b.frames = []
  · have hzero : r.count = 0 := by rw [h.count, Block.count, hnil]; rfl
    exact .inr ⟨_, _, Block.appendEntry_empty hnil, by rw [RawBlock.appendEntry, if_pos hzero], h.appendMaster he hnil⟩
  · cases hb : b.appendEntry e with
    | some b' =>
      obtain ⟨r', hr, hr'⟩ := h.appendLater he hnil hb
      exact .inr ⟨b', r', rfl, hr, hr'⟩
    | none =>
      have hcount : b.count ≠ 0 := fun hc => hnil (List.length_eq_zero_iff.mp hc)
      rw [Block.appendEntry, if_neg hcount] at hb
      dsimp only at hb
      split at hb
      next hfull =>
        refine .inl ⟨rfl, ?_⟩
        rw [RawBlock.appendEntry, if_neg (h.count ▸ hcount), h.sameSchema]
        dsimp only
        rw [h.count, h.size, h.frameLen, if_pos hfull]
      next => cases hb

/-- Flags do not change the bytes a frame takes, so only the flags of the stored block move with those of the block. -/
theorem reflag (h : r.Encodes b) {fs : List Frame} {n : Nat} (hentries : fs.map Frame.entry = b.frames.map Frame.entry)
    (hdeleted : fs.countP Frame.deleted = b.frames.countP Frame.deleted + n) :
    RawBlock.Encodes { r with
      blob := [] ++ framesBytes r.first (tags (b.frames.map Frame.entry)) fs
      deleted := r.deleted + n } { b with frames := fs } := by
  have hlen : fs.length = b.frames.length := by simpa using congrArg List.length hentries
  constructor
  · dsimp only
    rw [List.nil_append, h.first, hentries]
  · dsimp only
    rw [List.nil_append, h.first, ← h.size, h.blob]
    exact framesBytes_length_congr b.first _ hentries
  · dsimp only
    rw [h.names, hentries]
  · exact h.first
  · exact h.last
  · exact h.count.trans hlen.symm
  · dsimp only
    rw [h.deleted, Block.deleted, Block.deleted, hdeleted]
  · intro f hf
    have hmem : f.entry ∈ b.frames.map Frame.entry := hentries ▸ List.mem_map_of_mem hf
    obtain ⟨g, hg, hge⟩ := List.mem_map.mp hmem
    exact hge ▸ h.sized g hg
  · exact Block.SameIds.spans ⟨Block.ids_of_entries hentries, rfl, rfl⟩ h.spans

theorem tombstone (h : r.Encodes b) (id : StreamId) :
    (b.tombstone id = none ∧ r.tombstone id = (r, false)) ∨
      ∃ b' r', b.tombstone id = some b' ∧ r.tombstone id = (r', true) ∧ r'.Encodes b' := by
  have hblob : r.blob = [] ++ framesBytes r.first (tags (b.frames.map Frame.entry)) b.frames := by
    rw [List.nil_append, h.blob, h.first]
  have hloop := tombstoneLoop_eq id h.names_length (holds_of_sized h.sized) hblob
  rw [List.length_nil, ← Block.count, ← h.count] at hloop
  rw [Block.tombstone, RawBlock.tombstone, hloop]
  cases hfs : Block.tombstoneFrames id b.frames with
  | none => exact .inl ⟨rfl, rfl⟩
  | some fs =>
    obtain ⟨hentries, hdeleted⟩ := Block.tombstoneFrames_entries hfs
    exact .inr ⟨_, _, rfl, rfl, h.reflag hentries hdeleted⟩

theorem tombstoneWhile (h : r.Encodes b) (limit : Nat) (pred : StreamId → Bool) :
    (r.tombstoneWhile limit pred).1.Encodes (b.tombstoneWhile limit pred).1 ∧
      (r.tombstoneWhile limit pred).2 = (b.tombstoneWhile limit pred).2 := by
  have hblob : r.blob = [] ++ framesBytes r.first (tags (b.frames.map Frame.entry)) b.frames := by
    rw [List.nil_append, h.blob, h.first]
  have hloop := @tombstoneWhileLoop_eq _ pred _ _ (holds_of_sized h.sized) r [] limit h.names_length hblob
  rw [List.length_nil, ← Block.count, ← h.count] at hloop
  rw [Block.tombstoneWhile, RawBlock.tombstoneWhile, hloop]
  obtain ⟨hentries, hdeleted⟩ := Block.tombstoneWhileFrames_entries pred b.frames limit
  exact ⟨h.reflag hentries hdeleted, rfl⟩

end Encodes

open Block (mark markOldest liveOf)

/-- A stored block and the entries written to it, each with whether it was deleted since: entries arrive with rising IDs, and are
tombstoned by ID or from the front. -/
inductive Built : RawBlock → List Frame → Prop
  | new : Built newRaw []
  | append {r r' : RawBlock} {fs : List Frame} {e : StreamEntry} (h : Built r fs) (hid : ∀ f ∈ fs, f.id < e.id) (hsized : Sized e)
      (happ : r.appendEntry e = (r', true)) : Built r' (fs ++ [⟨e, false⟩])
  | refuse {r r' : RawBlock} {fs : List Frame} {e : StreamEntry} (h : Built r fs) (hsized : Sized e)
      (happ : r.appendEntry e = (r', false)) : Built r' fs
  | tombstone {r : RawBlock} {fs : List Frame} (id : StreamId) (h : Built r fs) : Built (r.tombstone id).1 (mark id fs)
  | tombstoneWhile {r : RawBlock} {fs : List Frame} (limit : Nat) (pred : StreamId → Bool) (h : Built r fs) :
      Built (r.tombstoneWhile limit pred).1
        (markOldest (min limit ((liveOf fs).takeWhile fun e => pred e.id).length) fs)

theorem Built.encodes {r : RawBlock} {fs : List Frame} (h : Built r fs) :
    ∃ b : Block, r.Encodes b ∧ b.frames = fs ∧ (fs.map Frame.id).Pairwise (· < ·) := by
  induction h with
  | new => exact ⟨newBlock, Encodes.newRaw_newBlock, rfl, List.Pairwise.nil⟩
  | @append r r' fs e _ hid hsized happ ih =>
    obtain ⟨b, hb, rfl, hs⟩ := ih
    rcases hb.appendEntry hsized with ⟨_, hr⟩ | ⟨b', r'', hb', hr, henc⟩
    · rw [hr] at happ
      cases happ
    · obtain rfl : r'' = r' := congrArg Prod.fst (hr.symm.trans happ)
      refine ⟨b', henc, (Block.appendEntry_appended hb').frames, ?_⟩
      rw [List.map_append, List.pairwise_append]
      refine ⟨hs, List.pairwise_singleton _ _, fun x hx y hy => ?_⟩
      obtain ⟨f, hf, rfl⟩ := List.mem_map.mp hx
      rw [List.mem_singleton.mp hy]
      exact hid f hf
  | @refuse r r' fs e _ hsized happ ih =>
    obtain ⟨b, hb, rfl, hs⟩ := ih
    rcases hb.appendEntry hsized with ⟨_, hr⟩ | ⟨b', r'', _, hr, _⟩
    · obtain rfl : r = r' := congrArg Prod.fst (hr.symm.trans happ)
      exact ⟨b, hb, rfl, hs⟩
    · rw [hr] at happ
      cases happ
  | @tombstone r fs id _ ih =>
    obtain ⟨b, hb, rfl, hs⟩ := ih
    have hframes := Block.tombstoneFrames_eq id hs
    have hids : (mark id b.frames).map Frame.id = b.frames.map Frame.id := by
      rw [mark, List.map_map]
      refine List.map_congr_left fun f _ => ?_
      rw [Function.comp_apply]
      split <;> rfl
    rcases hb.tombstone id with ⟨hnone, hr⟩ | ⟨b', r', hb', hr, henc⟩
    · refine ⟨b, by rw [hr]; exact hb, (Block.mark_eq_self fun f hf hfid => ?_).symm, hids ▸ hs⟩
      rw [Block.tombstone, Option.map_eq_none_iff, hframes] at hnone
      by_contra hd
      rw [if_pos ⟨f, hf, hfid, by simpa using hd⟩] at hnone
      cases hnone
    · obtain ⟨fs', hfs', rfl⟩ := Option.map_eq_some_iff.mp hb'
      rw [hframes] at hfs'
      split at hfs'
      · obtain rfl := Option.some.inj hfs'
        exact ⟨_, by rw [hr]; exact henc, rfl, hids ▸ hs⟩
      · cases hfs'
  | @tombstoneWhile r fs limit pred _ ih =>
    obtain ⟨b, hb, rfl, hs⟩ := ih
    have heq := congrArg Prod.fst (Block.tombstoneWhileFrames_eq pred b.frames limit)
    refine ⟨_, (hb.tombstoneWhile limit pred).1, heq, ?_⟩
    have hids := Block.ids_of_entries (Block.tombstoneWhileFrames_entries pred b.frames limit).1
    rw [heq] at hids
    exact hids ▸ hs

theorem framesBytes_eq_flatten (first : StreamId) : ∀ (tags : List Bool) (fs : List Frame),
    framesBytes first tags fs = (List.zipWith (frameBytes first) tags fs).flatten := by
  intro tags
  induction tags with
  | nil => exact fun _ => rfl
  | cons same tags ih =>
    intro fs
    cases fs with
    | nil => rfl
    | cons f fs => rw [framesBytes, ih, List.zipWith_cons_cons, List.flatten_cons]

theorem tags_getElem? (b : Block) (i : Nat) : (tags (b.frames.map Frame.entry))[i]? =
    b.frames[i]?.map fun f => decide (0 < i) && b.sameSchema f.entry.fields := by
  cases hb : b.frames with
  | nil => rfl
  | cons m fs =>
    have hsame : ∀ fields, b.sameSchema fields = decide (fields.map Prod.fst = m.entry.fields.map Prod.fst) := fun fields => by
      rw [Block.sameSchema, Block.names, hb]
    cases i with
    | zero => rfl
    | succ i =>
      rw [List.map_cons, tags, List.getElem?_cons_succ, List.getElem?_cons_succ, List.getElem?_map, List.getElem?_map,
        Option.map_map]
      simp [Function.comp_def, hsame]

/-- The bytes are the frames one after another; each is as long as it was priced, and a read of it stops at its end. -/
theorem Encodes.pieces {r : RawBlock} {b : Block} (h : r.Encodes b) : ∃ ps : List Bytes, r.blob = ps.flatten ∧
    ps.length = b.frames.length ∧ ∀ (i : Nat) (p : Bytes) (f : Frame), ps[i]? = some p → b.frames[i]? = some f →
      p.length = r.frameLen f.entry (decide (0 < i) && r.sameSchema f.entry.fields) ∧
        ∀ rest, (readFrame r.schema r.first (p ++ rest)).2 = (f.entry, rest) := by
  refine ⟨List.zipWith (frameBytes b.first) (tags (b.frames.map Frame.entry)) b.frames, ?_, ?_, ?_⟩
  · rw [h.blob, framesBytes_eq_flatten]
  · rw [List.length_zipWith, tags_length, List.length_map, Nat.min_self]
  · intro i p f hp hf
    have hsame := tags_getElem? b i
    rw [hf, Option.map_some] at hsame
    obtain rfl : frameBytes b.first (decide (0 < i) && b.sameSchema f.entry.fields) f = p := by
      rw [List.getElem?_zipWith, hsame, hf] at hp
      exact Option.some.inj hp
    have hholds : Holds b.names (decide (0 < i) && b.sameSchema f.entry.fields) f.entry :=
      ⟨h.sized f (List.mem_of_getElem? hf), fun hs => of_decide_eq_true (Bool.and_eq_true_iff.mp hs).2⟩
    refine ⟨?_, fun rest => ?_⟩
    · rw [frameBytes_length, h.frameLen, h.sameSchema, Block.frameLen]
    · rw [h.schema, h.first, readFrame_append hholds]

/-- What is written to a block is what a walk of it reads, at the price it was written, until it is tombstoned, once. -/
theorem Built.codec {r : RawBlock} {fs : List Frame} (h : Built r fs) :
    r.decoded = fs ∧ r.walk = liveOf fs ∧
    (∃ ps : List Bytes, r.blob = ps.flatten ∧ ps.length = fs.length ∧
      ∀ (i : Nat) (p : Bytes) (f : Frame), ps[i]? = some p → fs[i]? = some f →
        p.length = r.frameLen f.entry (decide (0 < i) && r.sameSchema f.entry.fields) ∧
          ∀ rest, (readFrame r.schema r.first (p ++ rest)).2 = (f.entry, rest)) ∧
    (∀ id, ((r.tombstone id).2 = true ↔ ∃ f ∈ fs, f.id = id ∧ f.deleted = false) ∧ ((r.tombstone id).1.tombstone id).2 = false) ∧
    r.live = r.walk.length ∧ (∀ f ∈ r.decoded.head?, r.first = f.id) ∧ (∀ f ∈ r.decoded.getLast?, r.last = f.id) := by
  have hsucceeds : ∀ {r : RawBlock} {fs : List Frame}, Built r fs → ∀ id : StreamId,
      (r.tombstone id).2 = true ↔ ∃ f ∈ fs, f.id = id ∧ f.deleted = false := by
    intro r fs h id
    obtain ⟨b, hb, rfl, hs⟩ := h.encodes
    have hframes := Block.tombstoneFrames_eq id hs
    rcases hb.tombstone id with ⟨hnone, hr⟩ | ⟨b', r', hb', hr, _⟩
    · rw [Block.tombstone, Option.map_eq_none_iff, hframes] at hnone
      split at hnone
      · cases hnone
      next hno => simpa [hr] using hno
    · rw [Block.tombstone, hframes] at hb'
      split at hb'
      next hyes => simpa [hr] using hyes
      · cases hb'
  obtain ⟨b, hb, rfl, hs⟩ := h.encodes
  refine ⟨hb.decoded, hb.walk, hb.pieces, fun id => ⟨hsucceeds h id, ?_⟩, ?_, ?_, ?_⟩
  · rw [Bool.eq_false_iff, Ne, hsucceeds (h.tombstone id) id]
    rintro ⟨f, hf, hid, hd⟩
    obtain ⟨g, _, rfl⟩ := List.mem_map.mp hf
    by_cases hg : g.id = id
    · rw [if_pos hg] at hd
      cases hd
    · rw [if_neg hg] at hid
      exact hg hid
  · rw [hb.walk, live, hb.count, hb.deleted, Block.entries, List.length_map, Block.count, Block.deleted]
    have hsum := List.length_eq_countP_add_countP Frame.deleted (l := b.frames)
    have hfilter : (b.frames.filter fun f => !f.deleted).length = b.frames.countP fun f => ¬f.deleted := by
      rw [List.countP_eq_length_filter]
      simp
    omega
  · intro f hf
    rw [hb.decoded] at hf
    rw [hb.first]
    refine (hb.spans.first f.id ?_).symm
    rw [Block.ids, List.head?_map]
    exact Option.mem_map_of_mem _ hf
  · intro f hf
    rw [hb.decoded] at hf
    rw [hb.last]
    refine (hb.spans.last f.id ?_).symm
    rw [Block.ids, List.getLast?_map]
    exact Option.mem_map_of_mem _ hf

/-- Two entries with the same field name, and the first of them deleted. -/
theorem Built.two_entries_codec :
    (((newRaw.appendEntry ⟨streamId 1 0, [([102], [1])]⟩).1.appendEntry ⟨streamId 1 1, [([102], [2])]⟩).1.tombstone
      (streamId 1 0)).1.walk = [⟨streamId 1 1, [([102], [2])]⟩] := by
  have hsized : ∀ {e : StreamEntry}, e.fields.length ≤ 1 → (∀ f ∈ e.fields, f.1.length ≤ 1 ∧ f.2.length ≤ 1) → Sized e :=
    fun hn hf => ⟨Nat.lt_of_le_of_lt hn (by decide), fun f h => Nat.lt_of_le_of_lt (hf f h).1 (by decide),
      fun f h => Nat.lt_of_le_of_lt (hf f h).2 (by decide)⟩
  have ha := Built.append (e := ⟨streamId 1 0, [([102], [1])]⟩) .new (fun _ h => nomatch h) (hsized (by decide) (by decide))
    (Prod.ext rfl (by decide +kernel))
  have hb := Built.append (e := ⟨streamId 1 1, [([102], [2])]⟩) ha (by decide +kernel) (hsized (by decide) (by decide))
    (Prod.ext rfl (by decide +kernel))
  exact (hb.tombstone (streamId 1 0)).codec.2.1

end RawBlock

end Aki
