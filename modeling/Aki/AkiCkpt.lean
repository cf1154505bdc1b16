import Mathlib.Data.List.Induction
import Aki.AkiReplaySafe
import Aki.BackPointers

namespace Aki.Akifile

open ByteDevice LittleEndian BackPointers Relation

/-- What is wrong with a checkpoint. `segment` stands for every error of the segment read. -/
inductive CkptErr where
  | segment
  | short
  | magic
  | length
  | checkpoint
  | segStats
  | chunkDir
  deriving DecidableEq, Repr

inductive Failure where
  | err (e : CkptErr)
  | panic
  deriving DecidableEq, Repr

/-- The longest byte slice `make` gives on a 64-bit platform. -/
def maxAlloc : Nat := 2 ^ 48

/-- `make` panics when a checked header asks for more than it gives; a shorter buffer is allocated before it is read. -/
def readSegmentAt (d : Dev) (off : Nat) : Except Failure (SegHeader × List UInt8) :=
  match readAt64 d off segHeaderLen with
  | none => .error (.err .segment)
  | some hb =>
    match parseSegHeader hb with
    | none => .error (.err .segment)
    | some h =>
      if maxAlloc < h.payloadLen then .error .panic
      else
        match readAt64 d (off + segHeaderLen) h.payloadLen with
        | none => .error (.err .segment)
        | some payload => if h.verifyPayload payload then .ok (h, payload) else .error (.err .segment)

def kindIndexCkpt : UInt16 := 3

def kindChunkDir : UInt16 := 4

def kindSegStats : UInt16 := 5

/-- The header fields recovery reads; `seqHigh` is zero where the kind has none. -/
structure CkptHeader where
  full : Bool
  ckptLogPos : Nat
  entryCount : Nat
  baseCkptOff : Nat
  seqHigh : Nat
  deriving DecidableEq, Repr

/-- The header of one kind: its magic, its length, where its base stands, and its highest sequence. -/
def parseHeader (magic : List UInt8) (len baseAt : Nat) (seqHigh : List UInt8 → Nat) (refused : CkptErr) (b : List UInt8) :
    Except CkptErr CkptHeader :=
  if b.length < len then .error .short
  else if b.take 4 ≠ magic then .error .magic
  else
    match word b 4 1 with
    | 1 => if word b baseAt 8 ≠ 0 then .error refused else .ok ⟨true, word b 8 8, word b 16 8, 0, seqHigh b⟩
    | 2 => .ok ⟨false, word b 8 8, word b 16 8, word b baseAt 8, seqHigh b⟩
    | _ => .error refused

/-- A run of entries of one size behind the header, its count bounded by the payload. -/
def parseEntries {E : Type} (headerLen size : Nat) (entry : List UInt8 → E) (payload : List UInt8) (h : CkptHeader) :
    Except CkptErr (List E) :=
  if payload.length < headerLen then .error .short
  else if (payload.length - headerLen) / size < h.entryCount then .error .length
  else .ok ((List.range h.entryCount).map fun i => entry ((payload.drop (headerLen + i * size)).take size))

structure CkptEntry where
  keyHash : Nat
  recordAddr : Nat
  slot : Nat
  flags : Nat
  deriving DecidableEq, Repr

/-- CKP3. -/
def parseCkptHeader : List UInt8 → Except CkptErr CkptHeader := parseHeader [67, 75, 80, 51] 48 32 (fun b => word b 40 8) .checkpoint

def ckptEntries : List UInt8 → CkptHeader → Except CkptErr (List CkptEntry) :=
  parseEntries 48 20 fun b => ⟨word b 0 8, word b 8 8, word b 16 2, word b 18 2⟩

structure SegStatsEntry where
  segOff : Nat
  liveBytes : Nat
  deadBytes : Nat
  flags : Nat
  deriving DecidableEq, Repr

/-- SST3. -/
def parseSegStatsHeader : List UInt8 → Except CkptErr CkptHeader := parseHeader [83, 83, 84, 51] 32 24 (fun _ => 0) .segStats

def segStatsEntries : List UInt8 → CkptHeader → Except CkptErr (List SegStatsEntry) :=
  parseEntries 32 32 fun b => ⟨word b 0 8, word b 8 8, word b 16 8, word b 24 4⟩

structure ChunkDirRow where
  firstDisc : List UInt8
  elementCount : Nat
  chunkOff : Nat
  chunkLiveBytes : Nat
  deriving DecidableEq, Repr

structure ChunkDirCollection where
  keyHash : Nat
  flags : Nat
  chunks : List ChunkDirRow
  deriving DecidableEq, Repr

/-- CHD3. -/
def parseChunkDirHeader : List UInt8 → Except CkptErr CkptHeader := parseHeader [67, 72, 68, 51] 32 24 (fun _ => 0) .chunkDir

def parseChunkDirRow (b : List UInt8) : Except CkptErr ChunkDirRow :=
  if b.length < 56 then .error .short
  else if 32 < word b 32 1 then .error .chunkDir
  else .ok ⟨b.take (word b 32 1), word b 36 4, word b 40 8, word b 48 8⟩

/-- The loop over the collections, on the bytes still ahead. -/
def chunkDirLoop : Nat → List UInt8 → Except CkptErr (List ChunkDirCollection)
  | 0, _ => .ok []
  | n + 1, b =>
    if b.length < 16 then .error .length
    else if b.length - 16 < word b 8 4 * 56 then .error .length
    else do
      let rows ← (List.range (word b 8 4)).mapM fun j => parseChunkDirRow ((b.drop (16 + j * 56)).take 56)
      let rest ← chunkDirLoop n (b.drop (16 + word b 8 4 * 56))
      return ⟨word b 0 8, word b 12 4, rows⟩ :: rest

def chunkDirCollections (payload : List UInt8) (h : CkptHeader) : Except CkptErr (List ChunkDirCollection) :=
  if payload.length < 32 then .error .short
  else if (payload.length - 32) / 16 < h.entryCount then .error .length
  else chunkDirLoop h.entryCount (payload.drop 32)

/-- What the rebuild of one kind goes by: its segments, the error of a corrupt root, its codec, the key of an entry and whether a
delta drops the key. -/
structure CkptFormat (E : Type) where
  segKind : UInt16
  refused : CkptErr
  parse : List UInt8 → Except CkptErr CkptHeader
  entries : List UInt8 → CkptHeader → Except CkptErr (List E)
  key : E → Nat
  dropped : E → Bool

def indexFormat : CkptFormat CkptEntry :=
  ⟨kindIndexCkpt, .checkpoint, parseCkptHeader, ckptEntries, CkptEntry.keyHash, fun e => decide (e.flags % 2 = 1)⟩

def segStatsFormat : CkptFormat SegStatsEntry :=
  ⟨kindSegStats, .segStats, parseSegStatsHeader, segStatsEntries, SegStatsEntry.segOff, fun e => decide (e.flags % 2 = 1)⟩

def chunkDirFormat : CkptFormat ChunkDirCollection :=
  ⟨kindChunkDir, .chunkDir, parseChunkDirHeader, chunkDirCollections, ChunkDirCollection.keyHash, fun e => decide (e.flags % 2 = 1)⟩

structure Rebuilder (E : Type) where
  entries : Nat → Option E
  logPos : Nat
  seqHigh : Nat

structure Ckpt (E : Type) where
  header : CkptHeader
  entries : List E

section Rebuild

variable {E : Type}

def Rebuilder.empty : Rebuilder E := ⟨fun _ => none, 0, 0⟩

def CkptFormat.put (F : CkptFormat E) (full : Bool) (m : Nat → Option E) (e : E) : Nat → Option E :=
  fun k => if k = F.key e then (if !full && F.dropped e then none else some e) else m k

/-- A full dump replaces the map, a delta goes over it. -/
def CkptFormat.layer (F : CkptFormat E) (r : Rebuilder E) (c : Ckpt E) : Rebuilder E :=
  ⟨c.entries.foldl (F.put c.header.full) (if c.header.full then fun _ => none else r.entries), c.header.ckptLogPos, c.header.seqHigh⟩

def CkptFormat.apply (F : CkptFormat E) (r : Rebuilder E) (payload : List UInt8) : Except Failure (Rebuilder E) :=
  match F.parse payload with
  | .error e => .error (.err e)
  | .ok h =>
    match F.entries payload h with
    | .error e => .error (.err e)
    | .ok es => .ok (F.layer r ⟨h, es⟩)

/-- One turn of the walk back: the payload at an offset, and the base it extends. -/
def CkptFormat.look (F : CkptFormat E) (d : Dev) (off : Nat) : Except Failure (List UInt8 × Option Nat) :=
  match readSegmentAt d off with
  | .error s => .error s
  | .ok (h, payload) =>
    if h.kind ≠ F.segKind then .error (.err F.refused)
    else
      match F.parse payload with
      | .error e => .error (.err e)
      | .ok ch => .ok (payload, if ch.full = true ∨ ch.baseCkptOff = 0 then none else some ch.baseCkptOff)

/-- Walk back to the base, then apply oldest first; no result when the turns run out. -/
def CkptFormat.rebuild (F : CkptFormat E) (d : Dev) (fuel off : Nat) : Option (Except Failure (Rebuilder E)) :=
  if off = 0 then some (.ok .empty)
  else (walk (F.look d) (.err F.refused) fuel off [] []).map fun r => r.bind fun chain => chain.foldlM F.apply .empty

end Rebuild

def rebuildShardIndex : Dev → Nat → Nat → Option (Except Failure (Rebuilder CkptEntry)) := indexFormat.rebuild

def rebuildShardSegStats : Dev → Nat → Nat → Option (Except Failure (Rebuilder SegStatsEntry)) := segStatsFormat.rebuild

def rebuildShardChunkDir : Dev → Nat → Nat → Option (Except Failure (Rebuilder ChunkDirCollection)) := chunkDirFormat.rebuild

/-- A checked header that asks for more bytes than `make` gives. -/
def TooLong (d : Dev) (off : Nat) : Prop :=
  off + segHeaderLen ≤ d.size ∧ ∃ h, parseSegHeader (d.read off segHeaderLen) = some h ∧ maxAlloc < h.payloadLen

variable {d : Dev} {off : Nat}

theorem readSegmentAt_cases (hsize : d.size < 2 ^ 63) (off : Nat) :
    (readSegmentAt d off = .error .panic ∧ TooLong d off) ∨
      (¬ TooLong d off ∧ readSegmentAt d off = .error (.err .segment) ∧ segAt d d.size off = none) ∨
      ∃ x, ¬ TooLong d off ∧ readSegmentAt d off = .ok (x.header, x.payload) ∧ segAt d d.size off = some x := by
  by_cases hin : off + segHeaderLen ≤ d.size
  · have hread : readAt64 d off segHeaderLen = some (d.read off segHeaderLen) := by
      rw [readAt64, if_pos (by omega), Dev.readAt, if_pos hin]
    cases hp : parseSegHeader (d.read off segHeaderLen) with
    | none =>
      refine Or.inr (Or.inl ⟨?_, ?_, ?_⟩)
      · rintro ⟨-, h, hh, -⟩
        rw [hp] at hh
        cases hh
      · rw [readSegmentAt, hread]
        dsimp only
        rw [hp]
      · rw [segAt, if_pos hin, Dev.readAt, if_pos hin, Option.bind_some, hp, Option.bind_none]
    | some h =>
      have hlong : TooLong d off ↔ maxAlloc < h.payloadLen := by
        refine ⟨fun hlong => ?_, fun hle => ⟨hin, h, hp, hle⟩⟩
        obtain ⟨-, h', hh, hle⟩ := hlong
        rw [hp] at hh
        cases hh
        exact hle
      have hseg : segAt d d.size off = if d.size < off + segHeaderLen + h.payloadLen then none
          else (d.readAt (off + segHeaderLen) h.payloadLen).bind fun payload =>
            if h.verifyPayload payload then some ⟨off, h, payload⟩ else none := by
        rw [segAt, if_pos hin, Dev.readAt, if_pos hin, Option.bind_some, hp, Option.bind_some]
      have hturn : readSegmentAt d off = if maxAlloc < h.payloadLen then .error .panic
          else
            match readAt64 d (off + segHeaderLen) h.payloadLen with
            | none => .error (.err .segment)
            | some payload => if h.verifyPayload payload then .ok (h, payload) else .error (.err .segment) := by
        rw [readSegmentAt, hread]
        dsimp only
        rw [hp]
      by_cases hle : maxAlloc < h.payloadLen
      · exact Or.inl ⟨by rw [hturn, if_pos hle], hlong.mpr hle⟩
      · have hno : ¬ TooLong d off := fun hc => hle (hlong.mp hc)
        rw [if_neg hle, readAt64, if_pos (by omega), Dev.readAt] at hturn
        by_cases hend : d.size < off + segHeaderLen + h.payloadLen
        · rw [if_neg (by omega)] at hturn
          exact Or.inr (Or.inl ⟨hno, hturn, by rw [hseg, if_pos hend]⟩)
        · rw [if_pos (by omega)] at hturn
          rw [if_neg hend, Dev.readAt, if_pos (by omega), Option.bind_some] at hseg
          by_cases hv : h.verifyPayload (d.read (off + segHeaderLen) h.payloadLen) = true
          · rw [if_pos hv] at hseg
            exact Or.inr (Or.inr ⟨_, hno, by rw [hturn]; exact if_pos hv, hseg⟩)
          · rw [if_neg hv] at hseg
            exact Or.inr (Or.inl ⟨hno, by rw [hturn]; exact if_neg hv, hseg⟩)
  · refine Or.inr (Or.inl ⟨fun h => hin h.1, ?_, by rw [segAt, if_neg hin]⟩)
    rw [readSegmentAt, readAt64, Dev.readAt, if_neg hin, ite_self]

section Chains

variable {E : Type} {F : CkptFormat E}

theorem look_ok (hsize : d.size < 2 ^ 63) {r : List UInt8 × Option Nat} (h : F.look d off = .ok r) :
    ∃ x, segAt d d.size off = some x ∧ x.header.kind = F.segKind := by
  unfold CkptFormat.look at h
  rcases readSegmentAt_cases hsize off with ⟨hr, -⟩ | ⟨-, hr, -⟩ | ⟨x, -, hr, hx⟩
  · rw [hr] at h; cases h
  · rw [hr] at h; cases h
  · rw [hr] at h
    dsimp only at h
    split at h
    · cases h
    next hk => exact ⟨x, hx, Decidable.not_not.mp hk⟩

theorem look_panic (hsize : d.size < 2 ^ 63) : F.look d off = .error .panic ↔ TooLong d off := by
  unfold CkptFormat.look
  rcases readSegmentAt_cases hsize off with ⟨hr, hl⟩ | ⟨hl, hr, -⟩ | ⟨x, hl, hr, -⟩
  · rw [hr]
    exact iff_of_true rfl hl
  · rw [hr]
    exact iff_of_false (by simp) hl
  · rw [hr]
    refine iff_of_false ?_ hl
    dsimp only
    split
    · simp
    · split <;> simp

theorem look_bound (hsize : d.size < 2 ^ 63) (o : Nat) (r : List UInt8 × Option Nat) (h : F.look d o = .ok r) : o < d.size := by
  obtain ⟨x, hx, -⟩ := look_ok hsize h
  have := (segAt_eq_some.mp hx).2.1
  simp only [segHeaderLen] at this
  omega

def Decodes (F : CkptFormat E) (payload : List UInt8) (c : Ckpt E) : Prop :=
  F.parse payload = .ok c.header ∧ F.entries payload c.header = .ok c.entries

/-- Checkpoints of one kind on the device, the newest first: a full dump or a delta with base zero, and deltas that each name the
one before. -/
inductive CkptChain (F : CkptFormat E) (d : Dev) : Nat → List (Ckpt E) → Prop
  | base {off x c} (hx : segAt d d.size off = some x) (hk : x.header.kind = F.segKind) (hd : Decodes F x.payload c)
      (hb : c.header.full = true ∨ c.header.baseCkptOff = 0) : CkptChain F d off [c]
  | delta {off x c cs} (hx : segAt d d.size off = some x) (hk : x.header.kind = F.segKind) (hd : Decodes F x.payload c)
      (hb : ¬ (c.header.full = true ∨ c.header.baseCkptOff = 0)) (h : CkptChain F d c.header.baseCkptOff cs) : CkptChain F d off (c :: cs)

/-- The checkpoints folded over the empty map, oldest first. -/
def foldCkpts (F : CkptFormat E) (cs : List (Ckpt E)) : Rebuilder E := cs.foldl F.layer .empty

/-- What a checkpoint says of a key: its last entry for it. -/
def Ckpt.tells (F : CkptFormat E) (c : Ckpt E) (k : Nat) : Option (Option E) :=
  (c.entries.reverse.find? fun e => decide (k = F.key e)).map fun e => if !c.header.full && F.dropped e then none else some e

/-- What a chain, the newest first, says of a key: the newest checkpoint that speaks of it, down to the first full dump. -/
def newest (F : CkptFormat E) : List (Ckpt E) → Nat → Option E
  | [], _ => none
  | c :: cs, k => (c.tells F k).getD (if c.header.full then none else newest F cs k)

theorem foldl_put (full : Bool) (es : List E) (m : Nat → Option E) (k : Nat) :
    es.foldl (F.put full) m k =
      ((es.reverse.find? fun e => decide (k = F.key e)).map fun e => if !full && F.dropped e then none else some e).getD (m k) := by
  induction es using List.reverseRecOn with
  | nil => rfl
  | append_singleton es e ih =>
    rw [List.foldl_append, List.foldl_cons, List.foldl_nil, List.reverse_append, List.reverse_singleton, List.singleton_append,
      List.find?_cons, CkptFormat.put]
    by_cases hk : k = F.key e
    · rw [if_pos hk, decide_eq_true hk, Option.map_some, Option.getD_some]
    · rw [if_neg hk, decide_eq_false hk, ih]

theorem foldCkpts_concat (cs : List (Ckpt E)) (c : Ckpt E) : foldCkpts F (cs ++ [c]) = F.layer (foldCkpts F cs) c := by
  rw [foldCkpts, List.foldl_append]
  rfl

theorem foldCkpts_entries (cs : List (Ckpt E)) (k : Nat) : (foldCkpts F cs.reverse).entries k = newest F cs k := by
  induction cs with
  | nil => rfl
  | cons c cs ih =>
    rw [List.reverse_cons, foldCkpts_concat, CkptFormat.layer]
    dsimp only
    rw [foldl_put, newest, Ckpt.tells]
    cases c.header.full with
    | true => rfl
    | false => rw [← ih]; rfl

theorem Decodes.apply {payload : List UInt8} {c : Ckpt E} (h : Decodes F payload c) (r : Rebuilder E) :
    F.apply r payload = .ok (F.layer r c) := by
  rw [CkptFormat.apply, h.1]
  dsimp only
  rw [h.2]

theorem foldlM_apply {ps : List (List UInt8)} {cs : List (Ckpt E)} (h : List.Forall₂ (Decodes F) ps cs) (r : Rebuilder E) :
    ps.foldlM F.apply r = .ok (cs.foldl F.layer r) := by
  induction h generalizing r with
  | nil => rfl
  | cons hd _ ih =>
    rw [List.foldlM_cons, hd.apply, List.foldl_cons]
    exact ih _

theorem foldlM_apply_not_panic (ps : List (List UInt8)) (r : Rebuilder E) : ps.foldlM F.apply r ≠ .error .panic := by
  induction ps generalizing r with
  | nil => intro h; cases h
  | cons p ps ih =>
    rw [List.foldlM_cons]
    have hp : (∃ e, F.apply r p = .error (.err e)) ∨ ∃ r', F.apply r p = .ok r' := by
      unfold CkptFormat.apply
      split
      · exact Or.inl ⟨_, rfl⟩
      · split
        · exact Or.inl ⟨_, rfl⟩
        · exact Or.inr ⟨_, rfl⟩
    rcases hp with ⟨e, he⟩ | ⟨r', hr⟩
    · rw [he]; intro h; cases h
    · rw [hr]; exact ih r'

/-- The back-pointers reach a checked header that asks for more bytes than `make` gives. -/
def ReachesTooLong (F : CkptFormat E) (d : Dev) (off : Nat) : Prop := ∃ o, Path (F.look d) off o ∧ TooLong d o

theorem CkptChain.linked (hsize : d.size < 2 ^ 63) {cs : List (Ckpt E)} (h : CkptChain F d off cs) (hlong : ¬ ReachesTooLong F d off) :
    ∃ ps, Linked (F.look d) off ps ∧ List.Forall₂ (Decodes F) ps cs := by
  have hlook : ∀ {off x c}, ¬ ReachesTooLong F d off → segAt d d.size off = some x → x.header.kind = F.segKind → Decodes F x.payload c →
      F.look d off = .ok (x.payload, if c.header.full = true ∨ c.header.baseCkptOff = 0 then none else some c.header.baseCkptOff) := by
    intro off x c hlong hx hk hd
    rcases readSegmentAt_cases hsize off with ⟨-, hl⟩ | ⟨-, -, hn⟩ | ⟨y, -, hr, hy⟩
    · exact absurd ⟨off, .refl, hl⟩ hlong
    · rw [hn] at hx; cases hx
    · rw [hx] at hy
      cases hy
      rw [CkptFormat.look, hr]
      dsimp only
      rw [if_neg (not_not_intro hk), hd.1]
  induction h with
  | base hx hk hd hb => exact ⟨_, .base (by rw [hlook hlong hx hk hd, if_pos hb]), .cons hd .nil⟩
  | delta hx hk hd hb _ ih =>
    have hnext := hlook hlong hx hk hd
    rw [if_neg hb] at hnext
    obtain ⟨ps, hl, hp⟩ := ih (by
      rintro ⟨o, hpath, ho⟩
      exact hlong ⟨o, hpath.head ⟨_, hnext⟩, ho⟩)
    exact ⟨_, .next hnext hl, .cons hd hp⟩

/-- The back-pointers from an offset come back to a segment. -/
def Revisits (F : CkptFormat E) (d : Dev) (off : Nat) : Prop := ∃ o, Path (F.look d) off o ∧ TransGen (Names (F.look d)) o o

def ReachesOther (F : CkptFormat E) (d : Dev) (off : Nat) : Prop :=
  ∃ o x, Path (F.look d) off o ∧ segAt d d.size o = some x ∧ x.header.kind ≠ F.segKind

/-- The back-pointers reach an offset where no segment verifies. -/
def ReachesTorn (F : CkptFormat E) (d : Dev) (off : Nat) : Prop := ∃ o, Path (F.look d) off o ∧ segAt d d.size o = none

structure Rebuilds (F : CkptFormat E) (d : Dev) (off : Nat) (out : Except Failure (Rebuilder E)) : Prop where
  folds : ∀ c cs, off ≠ 0 → ¬ ReachesTooLong F d off → CkptChain F d off (c :: cs) → ∃ r, out = .ok r ∧ r = foldCkpts F (c :: cs).reverse ∧
    (∀ k, r.entries k = newest F (c :: cs) k) ∧ r.logPos = c.header.ckptLogPos ∧ r.seqHigh = c.header.seqHigh
  refuses : off ≠ 0 → ¬ ReachesTooLong F d off → Revisits F d off ∨ ReachesOther F d off ∨ ReachesTorn F d off →
    ∃ e, out = .error (.err e)
  panics : out = .error .panic ↔ off ≠ 0 ∧ ReachesTooLong F d off

theorem rebuild_spec (F : CkptFormat E) (hsize : d.size < 2 ^ 63) (off : Nat) :
    ∃ out, (∀ fuel, d.size ≤ fuel → F.rebuild d (fuel + 1) off = some out) ∧ Rebuilds F d off out := by
  by_cases h0 : off = 0
  · exact ⟨_, fun fuel _ => by rw [CkptFormat.rebuild, if_pos h0], fun _ _ h => absurd h0 h, fun h => absurd h0 h,
      iff_of_false (by simp) fun h => h.1 h0⟩
  · obtain ⟨out, hout, hw⟩ := walk_ends (look_bound (F := F) hsize) (.err F.refused) d.size off [] [] List.nodup_nil (by simp) (by simp)
    refine ⟨out.bind fun chain => chain.foldlM F.apply .empty, fun fuel hf => ?_, fun c cs _ hlong hc => ?_, fun _ hlong hbad => ?_, ?_⟩
    · rw [CkptFormat.rebuild, if_neg h0, hout fuel hf, Option.map_some]
    · obtain ⟨ps, hl, hd⟩ := hc.linked hsize hlong
      have hfold : (out.bind fun chain => chain.foldlM F.apply .empty) = .ok (foldCkpts F (c :: cs).reverse) := by
        rw [hw.linked hl]
        exact foldlM_apply (List.forall₂_reverse_iff.mpr hd) .empty
      refine ⟨_, hfold, rfl, foldCkpts_entries _, ?_, ?_⟩
      · rw [List.reverse_cons, foldCkpts_concat]; rfl
      · rw [List.reverse_cons, foldCkpts_concat]; rfl
    · rcases hr : out with s | ps
      · rcases s with e | -
        · exact ⟨e, rfl⟩
        · rcases hw.error hr (by simp) with ⟨o, hp, ho⟩ | ⟨hc, -⟩
          · exact absurd ⟨o, hp, (look_panic hsize).mp ho⟩ hlong
          · cases hc
      · exfalso
        rcases hbad with ⟨o, hp, hc⟩ | ⟨o, x, hp, hx, hk⟩ | ⟨o, hp, hn⟩
        · exact (hw.ok hr hp).2.2 hc
        · obtain ⟨-, ⟨r, hl⟩, -⟩ := hw.ok hr hp
          obtain ⟨y, hy, hky⟩ := look_ok hsize hl
          rw [hx] at hy
          cases hy
          exact hk hky
        · obtain ⟨-, ⟨r, hl⟩, -⟩ := hw.ok hr hp
          obtain ⟨y, hy, -⟩ := look_ok hsize hl
          rw [hn] at hy
          cases hy
    · constructor
      · intro he
        rcases hr : out with s | ps
        · rw [hr] at he
          cases he
          rcases hw.error hr (by simp) with ⟨o, hp, ho⟩ | ⟨hc, -⟩
          · exact ⟨h0, o, hp, (look_panic hsize).mp ho⟩
          · cases hc
        · rw [hr] at he
          exact absurd he (foldlM_apply_not_panic ps .empty)
      · rintro ⟨-, o, hp, ho⟩
        rw [hw.error_of_path hp ((look_panic hsize).mpr ho)]
        rfl

end Chains

/-- On every device and from every offset the three rebuilds end. Over a chain they return its fold with the positions of the newest
checkpoint; they refuse back-pointers that come back to a segment, reach one of another kind or one that does not verify; and they
panic exactly when the back-pointers reach a checked header that asks for more bytes than `make` gives. -/
theorem checkpoints_rebuild (d : Dev) (hsize : d.size < 2 ^ 63) (off : Nat) :
    (∃ out, (∀ fuel, d.size ≤ fuel → rebuildShardIndex d (fuel + 1) off = some out) ∧ Rebuilds indexFormat d off out) ∧
      (∃ out, (∀ fuel, d.size ≤ fuel → rebuildShardSegStats d (fuel + 1) off = some out) ∧ Rebuilds segStatsFormat d off out) ∧
      (∃ out, (∀ fuel, d.size ≤ fuel → rebuildShardChunkDir d (fuel + 1) off = some out) ∧ Rebuilds chunkDirFormat d off out) :=
  ⟨rebuild_spec _ hsize off, rebuild_spec _ hsize off, rebuild_spec _ hsize off⟩

/-- A full dump of the entries 7 and 8, and a delta that drops 7 and moves 8. -/
def twoCkpts : Dev :=
  let full := [67, 75, 80, 51, 1, 0, 0, 0] ++ layout [(8, 5), (8, 2), (8, 0), (8, 0), (8, 9), (8, 7), (8, 100), (4, 0), (8, 8), (8, 200), (4, 0)]
  let delta := [67, 75, 80, 51, 2, 0, 0, 0] ++
    layout [(8, 6), (8, 2), (8, 0), (8, 16384), (8, 10), (8, 7), (8, 0), (2, 0), (2, 1), (8, 8), (8, 300), (4, 0)]
  Dev.writes ⟨fun _ => 0, pageSize⟩
    [⟨16384, SegHeader.marshal ⟨0, kindIndexCkpt, 1, 1, 0, 0, 0, 0, 0⟩ full⟩, ⟨16448, full⟩,
      ⟨20480, SegHeader.marshal ⟨0, kindIndexCkpt, 2, 2, 0, 0, 0, 0, 0⟩ delta⟩, ⟨20544, delta⟩]

theorem checkpoints_rebuild_two :
    (CkptChain indexFormat twoCkpts 20480
      [⟨⟨false, 6, 2, 16384, 10⟩, [⟨7, 0, 0, 1⟩, ⟨8, 300, 0, 0⟩]⟩, ⟨⟨true, 5, 2, 0, 9⟩, [⟨7, 100, 0, 0⟩, ⟨8, 200, 0, 0⟩]⟩]) ∧
      ∃ out, (∀ fuel, twoCkpts.size ≤ fuel → rebuildShardIndex twoCkpts (fuel + 1) 20480 = some out) ∧
        Rebuilds indexFormat twoCkpts 20480 out := by
  have hsize : twoCkpts.size < 2 ^ 63 := by decide +kernel
  refine ⟨?_, (checkpoints_rebuild twoCkpts hsize 20480).1⟩
  have hseg (o : Nat) (h : (segAt twoCkpts twoCkpts.size o).isSome = true) :
      segAt twoCkpts twoCkpts.size o = some ((segAt twoCkpts twoCkpts.size o).get h) := (Option.some_get h).symm
  refine .delta (hseg 20480 (by decide +kernel)) (by decide +kernel) ⟨?_, ?_⟩ (by decide)
    (.base (hseg 16384 (by decide +kernel)) (by decide +kernel) ⟨?_, ?_⟩ (by decide))
  all_goals decide +kernel

theorem too_long_checkpoint_panics :
    (rebuildShardIndex (headerDev (2 ^ 48 + 1)) 2 pageSize).map (fun r => match r with | .error s => some s | .ok _ => none) =
      some (some .panic) := by
  decide +kernel

end Aki.Akifile
