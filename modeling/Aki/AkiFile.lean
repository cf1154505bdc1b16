import Mathlib.Algebra.Order.Group.Nat
import Mathlib.Order.Basic
import Aki.AkiSegment

namespace Aki.Akifile

open ByteDevice LittleEndian

section Walk

variable {σ ε : Type}

/-- `ReplayTail` with the number of turns it may take: the visitor's state, the cursor, and the error that stopped it. -/
def replayLoop (visit : σ → Seg → σ × Option ε) (d : Dev) (size : Nat) : Nat → Nat → σ → σ × Nat × Option ε
  | 0, cursor, st => (st, cursor, none)
  | fuel + 1, cursor, st =>
    match segAt d size cursor with
    | none => (st, cursor, none)
    | some x =>
      match visit st x with
      | (st', some e) => (st', cursor, some e)
      | (st', none) => replayLoop visit d size fuel (cursor + segmentSpan x.header.payloadLen) st'

/-- Every turn moves the cursor on, so `size` turns are enough. -/
def replayTail (visit : σ → Seg → σ × Option ε) (d : Dev) (start size : Nat) (st : σ) : σ × Nat × Option ε :=
  replayLoop visit d size size start st

/-- The visitor over a list of segments, up to the one it stops at. -/
def visitAll (visit : σ → Seg → σ × Option ε) : List Seg → σ → σ × Option ε
  | [], st => (st, none)
  | x :: xs, st =>
    match visit st x with
    | (st', some e) => (st', some e)
    | (st', none) => visitAll visit xs st'

/-- Intact segments one after another, from one offset to another. -/
def Chain (d : Dev) (size : Nat) : Nat → List Seg → Nat → Prop
  | off, [], e => off = e
  | off, x :: xs, e => segAt d size off = some x ∧ Chain d size x.stop xs e

variable {d d' : Dev} {size size' off mid e : Nat} {xs ys : List Seg} {x : Seg}

theorem segAt_stop (h : segAt d size off = some x) : x.stop = off + segmentSpan x.header.payloadLen := by
  rw [Seg.stop, segAt_off h, Seg.span, segAt_payload_length h]

theorem segAt_lt_stop (h : segAt d size off = some x) : off + segHeaderLen + x.payload.length ≤ x.stop ∧ off + 4096 ≤ x.stop := by
  have hs := segmentSpan_ge x.payload.length
  rw [Seg.stop, segAt_off h, Seg.span]
  omega

theorem replayLoop_chain (visit : σ → Seg → σ × Option ε) (hc : Chain d size off xs e) (he : segAt d size e = none) {fuel : Nat}
    (hfuel : size ≤ off + fuel) (st : σ) :
    (replayLoop visit d size fuel off st).1 = (visitAll visit xs st).1 ∧
      (replayLoop visit d size fuel off st).2.2 = (visitAll visit xs st).2 ∧
      ((visitAll visit xs st).2 = none → (replayLoop visit d size fuel off st).2.1 = e) := by
  induction xs generalizing off fuel st with
  | nil =>
    obtain rfl : off = e := hc
    cases fuel with
    | zero => exact ⟨rfl, rfl, fun _ => rfl⟩
    | succ fuel => simp [replayLoop, he, visitAll]
  | cons x xs ih =>
    obtain ⟨hx, hc⟩ := hc
    have hin := (segAt_eq_some.mp hx).1
    cases fuel with
    | zero => simp only [segHeaderLen] at hin; omega
    | succ fuel =>
      rw [replayLoop, hx]
      dsimp only
      rw [visitAll]
      cases hv : visit st x with
      | mk st' o =>
        cases o with
        | some err => exact ⟨rfl, rfl, fun h => absurd h (Option.some_ne_none err)⟩
        | none =>
          rw [segAt_stop hx] at hc
          exact ih hc (by have := segmentSpan_ge x.header.payloadLen; omega) st'

theorem replayTail_chain (visit : σ → Seg → σ × Option ε) (hc : Chain d size off xs e) (he : segAt d size e = none) (st : σ) :
    (replayTail visit d off size st).1 = (visitAll visit xs st).1 ∧
      (replayTail visit d off size st).2.2 = (visitAll visit xs st).2 ∧
      ((visitAll visit xs st).2 = none → (replayTail visit d off size st).2.1 = e) :=
  replayLoop_chain visit hc he (Nat.le_add_left _ _) st

theorem chain_append : Chain d size off (xs ++ ys) e ↔ ∃ m, Chain d size off xs m ∧ Chain d size m ys e := by
  induction xs generalizing off with
  | nil => simp [Chain]
  | cons x xs ih => simp [Chain, ih, and_assoc]

theorem chain_le (h : Chain d size off xs e) : off ≤ e := by
  induction xs generalizing off with
  | nil => exact Nat.le_of_eq h
  | cons x xs ih =>
    have := segAt_lt_stop h.1
    have := ih h.2
    omega

theorem chain_mem (h : Chain d size off xs e) (hx : x ∈ xs) : off ≤ x.off ∧ x.stop ≤ e ∧ segAt d size x.off = some x := by
  induction xs generalizing off with
  | nil => simp at hx
  | cons y xs ih =>
    have hlt := segAt_lt_stop h.1
    rcases List.mem_cons.mp hx with rfl | hx
    · rw [segAt_off h.1]
      exact ⟨Nat.le_refl _, chain_le h.2, h.1⟩
    · obtain ⟨h₁, h₂, h₃⟩ := ih h.2 hx
      exact ⟨by omega, h₂, h₃⟩

theorem chain_end (h : Chain d size off xs e) (h' : Chain d' size' off xs mid) : e = mid := by
  induction xs generalizing off with
  | nil => exact h.symm.trans h'
  | cons x xs ih => exact ih h.2 h'.2

/-- A chain that meets only segments of another chain from the same offset is a first part of it. -/
theorem chain_take {rs : List Seg} {e' : Nat} (hr : Chain d' size' off rs e') (hc : Chain d size off ys e) (hmem : ∀ y ∈ ys, y ∈ rs) :
    ∃ m, ys = rs.take m := by
  induction rs generalizing off ys with
  | nil => exact ⟨0, List.eq_nil_iff_forall_not_mem.mpr fun y hy => absurd (hmem y hy) List.not_mem_nil⟩
  | cons r rs ih =>
    cases ys with
    | nil => exact ⟨0, rfl⟩
    | cons y ys =>
      have hlt := segAt_lt_stop hr.1
      have hoff := segAt_off hc.1
      obtain rfl : y = r := by
        rcases List.mem_cons.mp (hmem y List.mem_cons_self) with he | hy
        · exact he
        · have := (chain_mem hr.2 hy).1
          omega
      have hrest : ∀ z ∈ ys, z ∈ rs := by
        intro z hz
        have hle := (chain_mem hc.2 hz).1
        rcases List.mem_cons.mp (hmem z (List.mem_cons_of_mem _ hz)) with rfl | hr
        · omega
        · exact hr
      obtain ⟨m, hm⟩ := ih hr.2 hc.2 hrest
      exact ⟨m + 1, by rw [List.take_succ_cons, hm]⟩

/-- A chain stays a chain where its bytes are the same and the sizes still cover it. -/
theorem chain_congr (h : Chain d size off xs e) (hb : ∀ i, i < e → d'.bytes i = d.bytes i) (hs : size ≤ size') (hd : d.size ≤ d'.size) :
    Chain d' size' off xs e := by
  induction xs generalizing off with
  | nil => exact h
  | cons x xs ih =>
    have hstop := segAt_lt_stop h.1
    have hle := chain_le h.2
    have hin := segAt_eq_some.mp h.1
    have hlen := segAt_payload_length h.1
    refine ⟨segAt_congr h.1 (fun i _ h₂ => hb i (by omega)) (by omega) (by omega), ih h.2⟩

theorem exists_chain (d : Dev) (size off : Nat) : ∃ xs e, Chain d size off xs e ∧ segAt d size e = none := by
  induction hn : size - off using Nat.strong_induction_on generalizing off with
  | _ n ih =>
    cases hx : segAt d size off with
    | none => exact ⟨[], off, rfl, hx⟩
    | some x =>
      have hlt := segAt_lt_stop hx
      have hin := (segAt_eq_some.mp hx).1
      obtain ⟨xs, e, hc, he⟩ := ih (size - x.stop) (by simp only [segHeaderLen] at hin; omega) x.stop rfl
      exact ⟨x :: xs, e, ⟨hx, hc⟩, he⟩

end Walk

structure Pending where
  shard : UInt16
  kind : UInt16
  shardSeq : UInt64
  prevShardSeg : UInt64
  ttlClass : UInt32
  flags : UInt32
  payload : List UInt8
  deriving DecidableEq, Repr

structure File where
  cursor : Nat
  globalSeq : Nat
  deriving DecidableEq, Repr

def Pending.header (p : Pending) (seq : Nat) : SegHeader :=
  ⟨p.shard, p.kind, seq, p.shardSeq, 0, p.prevShardSeg, p.ttlClass, p.flags, 0⟩

def Pending.seg (p : Pending) (off seq : Nat) : Seg := ⟨off, (p.header seq).stamp p.payload, p.payload⟩

/-- What goes wrong in one group append: the header or the payload write of a segment fails after some of its bytes, or the flush
at the end fails. -/
inductive Fault where
  | none
  | header (i n : Nat)
  | payload (i n : Nat)
  | sync
  deriving DecidableEq, Repr

/-- The fault as the segments behind the first one see it. -/
def Fault.pred : Fault → Fault
  | .header (i + 1) n => .header i n
  | .payload (i + 1) n => .payload i n
  | fault => fault

/-- What the loop of one group append did: the file after it, the writes it issued, and the segments the cursor passed. -/
structure Laying where
  file : File
  writes : List Write
  landed : List Seg
  deriving DecidableEq, Repr

def File.lay : File → List Pending → Fault → Laying
  | f, [], _ => ⟨f, [], []⟩
  | f, p :: _, .header 0 n =>
    ⟨{ f with globalSeq := f.globalSeq + 1 }, [⟨f.cursor, ((p.header (f.globalSeq + 1)).marshal p.payload).take n⟩], []⟩
  | f, p :: _, .payload 0 n =>
    ⟨{ f with globalSeq := f.globalSeq + 1 },
      [⟨f.cursor, (p.header (f.globalSeq + 1)).marshal p.payload⟩, ⟨f.cursor + segHeaderLen, p.payload.take n⟩], []⟩
  | f, p :: ps, fault =>
    let l := File.lay ⟨f.cursor + segmentSpan p.payload.length, f.globalSeq + 1⟩ ps fault.pred
    ⟨l.file, ⟨f.cursor, (p.header (f.globalSeq + 1)).marshal p.payload⟩ :: ⟨f.cursor + segHeaderLen, p.payload⟩ :: l.writes,
      p.seg f.cursor (f.globalSeq + 1) :: l.landed⟩

def scanTail (d : Dev) (size : Nat) : Nat × Nat :=
  let r := replayTail (ε := Empty) (fun seq x => (max seq x.header.globalSeq, none)) d pageSize size 0
  (r.2.1, r.1)

/-- `OpenOnDevice` past its checks of the header page, which no append writes. -/
def openOnDevice (d : Dev) : File := ⟨(scanTail d d.size).1, (scanTail d d.size).2⟩

def tailSegs (d : Dev) : List Seg :=
  (replayTail (ε := Empty) (fun acc x => (acc ++ [x], none)) d pageSize d.size []).1

theorem visitAll_collect (xs acc : List Seg) :
    visitAll (ε := Empty) (fun acc x => (acc ++ [x], none)) xs acc = (acc ++ xs, none) := by
  induction xs generalizing acc with
  | nil => simp [visitAll]
  | cons x xs ih => simp [visitAll, ih]

theorem tailSegs_chain {d : Dev} {xs : List Seg} {e : Nat} (hc : Chain d d.size pageSize xs e) (he : segAt d d.size e = none) :
    tailSegs d = xs := by
  rw [tailSegs, (replayTail_chain _ hc he _).1, visitAll_collect, List.nil_append]

def maxSeq (xs : List Seg) (seq : Nat) : Nat := xs.foldl (fun seq x => max seq x.header.globalSeq) seq

theorem visitAll_maxSeq (xs : List Seg) (seq : Nat) :
    visitAll (ε := Empty) (fun seq x => (max seq x.header.globalSeq, none)) xs seq = (maxSeq xs seq, none) := by
  induction xs generalizing seq with
  | nil => rfl
  | cons x xs ih => simp [visitAll, ih, maxSeq]

theorem le_maxSeq (xs : List Seg) (seq : Nat) : seq ≤ maxSeq xs seq ∧ ∀ x ∈ xs, x.header.globalSeq ≤ maxSeq xs seq := by
  induction xs generalizing seq with
  | nil => exact ⟨Nat.le_refl _, by simp⟩
  | cons y xs ih =>
    have h := ih (max seq y.header.globalSeq)
    refine ⟨Nat.le_trans (Nat.le_max_left _ _) h.1, fun x hx => ?_⟩
    rcases List.mem_cons.mp hx with rfl | hx
    · exact Nat.le_trans (Nat.le_max_right _ _) h.1
    · exact h.2 x hx

theorem openOnDevice_chain {d : Dev} {xs : List Seg} {e : Nat} (hc : Chain d d.size pageSize xs e) (he : segAt d d.size e = none) :
    openOnDevice d = ⟨e, maxSeq xs 0⟩ := by
  have h := replayTail_chain (ε := Empty) (fun seq x => (max seq x.header.globalSeq, none)) hc he 0
  rw [visitAll_maxSeq] at h
  simp only [openOnDevice, scanTail, h.1, h.2.2 rfl]

section Lay

variable {f : File} {group : List Pending} {fault : Fault}

structure Lays (f : File) (group : List Pending) (d : Dev) (l : Laying) : Prop where
  chain : Chain (d.writes l.writes) (d.writes l.writes).size f.cursor l.landed l.file.cursor
  cursor_le : f.cursor ≤ l.file.cursor
  seq_le : f.globalSeq ≤ l.file.globalSeq
  above : ∀ w ∈ l.writes, f.cursor ≤ w.off
  /-- Without a failed write nothing is written past the cursor. -/
  below : l.landed.length = group.length → ∀ w ∈ l.writes, w.off + w.data.length ≤ l.file.cursor
  bound : ∀ x ∈ l.landed, f.globalSeq < x.header.globalSeq ∧ x.header.globalSeq ≤ l.file.globalSeq
  increasing : l.landed.Pairwise (fun a b => a.header.globalSeq < b.header.globalSeq)

theorem marshal_length (h : SegHeader) (payload : List UInt8) : (h.marshal payload).length = segHeaderLen :=
  (h.stamp payload).encode_length

theorem lays_failed (d : Dev) (f : File) (p : Pending) (ps : List Pending) (ws : List Write) (hws : ∀ w ∈ ws, f.cursor ≤ w.off) :
    Lays f (p :: ps) d ⟨{ f with globalSeq := f.globalSeq + 1 }, ws, []⟩ where
  chain := rfl
  cursor_le := Nat.le_refl _
  seq_le := Nat.le_succ _
  above := hws
  below := fun h => by simp at h
  bound := by simp
  increasing := List.Pairwise.nil

theorem Lays.cons {p : Pending} {ps : List Pending} {l : Laying} {d : Dev} (hseq : f.globalSeq + 1 < 2 ^ 64)
    (hlen : p.payload.length < 2 ^ 64)
    (h : Lays ⟨f.cursor + segmentSpan p.payload.length, f.globalSeq + 1⟩ ps
      ((d.write ⟨f.cursor, (p.header (f.globalSeq + 1)).marshal p.payload⟩).write ⟨f.cursor + segHeaderLen, p.payload⟩) l) :
    Lays f (p :: ps) d ⟨l.file, ⟨f.cursor, (p.header (f.globalSeq + 1)).marshal p.payload⟩ :: ⟨f.cursor + segHeaderLen, p.payload⟩ :: l.writes,
      p.seg f.cursor (f.globalSeq + 1) :: l.landed⟩ := by
  have hspan := segmentSpan_ge p.payload.length
  have hmar := marshal_length (p.header (f.globalSeq + 1)) p.payload
  have hcur := h.cursor_le
  have hsle := h.seq_le
  dsimp only at hcur hsle
  have hfirst := segAt_write d (p.header (f.globalSeq + 1)) p.payload f.cursor _ hseq hlen (Nat.le_refl _)
  have hsize := size_le_writes
    ((d.write ⟨f.cursor, (p.header (f.globalSeq + 1)).marshal p.payload⟩).write ⟨f.cursor + segHeaderLen, p.payload⟩) l.writes
  have hin := (segAt_eq_some.mp hfirst).2.1
  have hpl : (⟨f.cursor, (p.header (f.globalSeq + 1)).stamp p.payload, p.payload⟩ : Seg).header.payloadLen = p.payload.length := rfl
  rw [hpl] at hin
  refine ⟨⟨?_, h.chain⟩, by dsimp only; omega, by dsimp only; omega, ?_, ?_, ?_, ?_⟩
  · -- the later writes are all behind the first segment
    refine segAt_congr hfirst (fun i h₁ h₂ => ?_) (hin.trans hsize) (hin.trans hsize)
    change i < f.cursor + segHeaderLen + p.payload.length at h₂
    exact writes_bytes_below h.above (by dsimp only; omega) _
  · intro w hw
    rcases List.mem_cons.mp hw with rfl | hw
    · exact Nat.le_refl _
    · rcases List.mem_cons.mp hw with rfl | hw
      · exact Nat.le_add_right _ _
      · have := h.above w hw
        dsimp only at this
        omega
  · intro hn w hw
    have hn' : l.landed.length = ps.length := by simpa using hn
    rcases List.mem_cons.mp hw with rfl | hw
    · dsimp only
      rw [hmar]
      omega
    · rcases List.mem_cons.mp hw with rfl | hw
      · dsimp only
        omega
      · exact h.below hn' w hw
  · intro x hx
    rcases List.mem_cons.mp hx with rfl | hx
    · simp only [Pending.seg, Pending.header, SegHeader.stamp]
      omega
    · have hb := h.bound x hx
      dsimp only at hb
      dsimp only
      omega
  · refine List.pairwise_cons.mpr ⟨fun x hx => ?_, h.increasing⟩
    have hb := h.bound x hx
    dsimp only at hb
    simp only [Pending.seg, Pending.header, SegHeader.stamp]
    omega

theorem lay_lays (group : List Pending) : ∀ (f : File) (fault : Fault) (d : Dev), f.globalSeq + group.length < 2 ^ 64 →
    (∀ p ∈ group, p.payload.length < 2 ^ 64) → Lays f group d (f.lay group fault) := by
  induction group with
  | nil =>
    intro f fault d _ _
    have hl : f.lay [] fault = ⟨f, [], []⟩ := by cases fault <;> rfl
    rw [hl]
    exact ⟨rfl, Nat.le_refl _, Nat.le_refl _, by simp, by simp, by simp, List.Pairwise.nil⟩
  | cons p ps ih =>
    intro f fault d hseq hlen
    simp only [List.length_cons] at hseq
    have hgo : Lays f (p :: ps) d
        ⟨(File.lay ⟨f.cursor + segmentSpan p.payload.length, f.globalSeq + 1⟩ ps fault.pred).file,
          ⟨f.cursor, (p.header (f.globalSeq + 1)).marshal p.payload⟩ :: ⟨f.cursor + segHeaderLen, p.payload⟩ ::
            (File.lay ⟨f.cursor + segmentSpan p.payload.length, f.globalSeq + 1⟩ ps fault.pred).writes,
          p.seg f.cursor (f.globalSeq + 1) ::
            (File.lay ⟨f.cursor + segmentSpan p.payload.length, f.globalSeq + 1⟩ ps fault.pred).landed⟩ :=
      Lays.cons (by omega) (hlen p (by simp)) (ih _ fault.pred _ (by dsimp only; omega) fun q hq => hlen q (by simp [hq]))
    cases fault with
    | none | sync => exact hgo
    | header i n =>
      cases i with
      | zero => exact lays_failed d f p ps _ (by simp)
      | succ i => exact hgo
    | payload i n =>
      cases i with
      | zero => exact lays_failed d f p ps _ (by simp)
      | succ i => exact hgo

/-- What lands is a first part of the group's segments, laid down one after another from the cursor. -/
def File.segs (f : File) (group : List Pending) : List Seg := (f.lay group .none).landed

theorem segs_cons (f : File) (p : Pending) (ps : List Pending) :
    f.segs (p :: ps) = p.seg f.cursor (f.globalSeq + 1) :: File.segs ⟨f.cursor + segmentSpan p.payload.length, f.globalSeq + 1⟩ ps :=
  rfl

theorem segs_length (f : File) (group : List Pending) : (f.segs group).length = group.length := by
  induction group generalizing f with
  | nil => rfl
  | cons p ps ih => exact congrArg Nat.succ (ih _)

theorem segs_kind (f : File) (group : List Pending) {x : Seg} (hx : x ∈ f.segs group) : ∃ p ∈ group, x.header.kind = p.kind := by
  induction group generalizing f with
  | nil => exact absurd hx List.not_mem_nil
  | cons p ps ih =>
    rw [segs_cons] at hx
    rcases List.mem_cons.mp hx with rfl | hx
    · exact ⟨p, by simp, rfl⟩
    · obtain ⟨q, hq, he⟩ := ih _ hx
      exact ⟨q, by simp [hq], he⟩

theorem lay_landed (group : List Pending) : ∀ (f : File) (fault : Fault), ∃ m, (f.lay group fault).landed = (f.segs group).take m := by
  induction group with
  | nil => exact fun f fault => ⟨0, by cases fault <;> rfl⟩
  | cons p ps ih =>
    intro f fault
    have hgo : ∃ m, p.seg f.cursor (f.globalSeq + 1) ::
        (File.lay ⟨f.cursor + segmentSpan p.payload.length, f.globalSeq + 1⟩ ps fault.pred).landed = (f.segs (p :: ps)).take m := by
      obtain ⟨m, hm⟩ := ih ⟨f.cursor + segmentSpan p.payload.length, f.globalSeq + 1⟩ fault.pred
      exact ⟨m + 1, by rw [hm]; rfl⟩
    cases fault with
    | none | sync => exact hgo
    | header i n =>
      cases i with
      | zero => exact ⟨0, rfl⟩
      | succ i => exact hgo
    | payload i n =>
      cases i with
      | zero => exact ⟨0, rfl⟩
      | succ i => exact hgo

end Lay

end Aki.Akifile
