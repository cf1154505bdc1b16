import Mathlib.Order.Basic
import Aki.AkiSegment

namespace Aki.Akifile

open LittleEndian

def metaSlotSize : Nat := 128

structure MetaSlot where
  commitSeq : UInt64
  globalSeq : UInt64
  srtOff : UInt64
  srtLen : UInt32
  srtShardCount : UInt32
  extentTableOff : UInt64
  extentTableLen : UInt32
  ttlIndexLen : UInt32
  ttlIndexOff : UInt64
  freeMapOff : UInt64
  fileSize : UInt64
  liveBytes : UInt64
  deadBytes : UInt64
  recordCount : UInt64
  lastCkptUnix : UInt64
  cleanShutdown : UInt8
  metaKVOff : UInt64
  deriving DecidableEq, Repr

/-- The bytes before the checksum, the last seven of them unused. -/
def MetaSlot.fields (m : MetaSlot) : List (Nat × Nat) :=
  [(8, m.commitSeq.toNat), (8, m.globalSeq.toNat), (8, m.srtOff.toNat), (4, m.srtLen.toNat), (4, m.srtShardCount.toNat),
    (8, m.extentTableOff.toNat), (4, m.extentTableLen.toNat), (4, m.ttlIndexLen.toNat), (8, m.ttlIndexOff.toNat),
    (8, m.freeMapOff.toNat), (8, m.fileSize.toNat), (8, m.liveBytes.toNat), (8, m.deadBytes.toNat), (8, m.recordCount.toNat),
    (8, m.lastCkptUnix.toNat), (1, m.cleanShutdown.toNat), (8, m.metaKVOff.toNat), (7, 0)]

def MetaSlot.marshal (m : MetaSlot) : List UInt8 := layout m.fields ++ layout [(8, (crc32c (layout m.fields)).toNat)]

def parseMetaSlot (b : List UInt8) : Option MetaSlot :=
  if b.length < metaSlotSize then none
  else if (crc32c (b.take 120)).toNat ≠ word b 120 8 then none
  else some ⟨UInt64.ofNat (word b 0 8), UInt64.ofNat (word b 8 8), UInt64.ofNat (word b 16 8), UInt32.ofNat (word b 24 4),
    UInt32.ofNat (word b 28 4), UInt64.ofNat (word b 32 8), UInt32.ofNat (word b 40 4), UInt32.ofNat (word b 44 4),
    UInt64.ofNat (word b 48 8), UInt64.ofNat (word b 56 8), UInt64.ofNat (word b 64 8), UInt64.ofNat (word b 72 8),
    UInt64.ofNat (word b 80 8), UInt64.ofNat (word b 88 8), UInt64.ofNat (word b 96 8), UInt8.ofNat (word b 104 1),
    UInt64.ofNat (word b 105 8)⟩

theorem MetaSlot.fields_length (m : MetaSlot) : (layout m.fields).length = 120 := by simp [MetaSlot.fields, width]

theorem MetaSlot.marshal_field (m : MetaSlot) (i : Nat) {off n v : Nat} (hf : m.fields[i]? = some (n, v))
    (hw : width (m.fields.take i) = off) : word m.marshal off n = v % 256 ^ n := by
  obtain ⟨hi, he⟩ := List.getElem?_eq_some_iff.mp hf
  have h := word_layout (m.fields.take i) n v (m.fields.drop (i + 1)) (layout [(8, (crc32c (layout m.fields)).toNat)])
  rw [← he, ← List.drop_eq_getElem_cons hi, List.take_append_drop, hw] at h
  exact h

theorem parse_marshal (m : MetaSlot) : parseMetaSlot m.marshal = some m := by
  have h8 (x : UInt8) : UInt8.ofNat (x.toNat % 256 ^ 1) = x := by
    rw [Nat.mod_eq_of_lt (show x.toNat < 256 ^ 1 from x.toNat_lt), UInt8.ofNat_toNat]
  have hfront : m.marshal.take 120 = layout m.fields := List.take_left' m.fields_length
  have hsum : word m.marshal 120 8 = (crc32c (layout m.fields)).toNat := by
    have h := word_skip (layout m.fields) (layout [(8, (crc32c (layout m.fields)).toNat)]) 0 8
    have hw := word_layout [] 8 (crc32c (layout m.fields)).toNat [] []
    simp only [List.nil_append, List.append_nil] at hw
    rw [m.fields_length] at h
    exact h.trans (hw.trans (Nat.mod_eq_of_lt (Nat.lt_of_lt_of_le (crc32c (layout m.fields)).toNat_lt (by decide))))
  have hlen : m.marshal.length = 128 := by
    rw [MetaSlot.marshal, List.length_append, m.fields_length]
    rfl
  have e0 : word m.marshal 0 8 = m.commitSeq.toNat % 256 ^ 8 := m.marshal_field 0 rfl (by simp [MetaSlot.fields, width])
  have e8 : word m.marshal 8 8 = m.globalSeq.toNat % 256 ^ 8 := m.marshal_field 1 rfl (by simp [MetaSlot.fields, width])
  have e16 : word m.marshal 16 8 = m.srtOff.toNat % 256 ^ 8 := m.marshal_field 2 rfl (by simp [MetaSlot.fields, width])
  have e24 : word m.marshal 24 4 = m.srtLen.toNat % 256 ^ 4 := m.marshal_field 3 rfl (by simp [MetaSlot.fields, width])
  have e28 : word m.marshal 28 4 = m.srtShardCount.toNat % 256 ^ 4 := m.marshal_field 4 rfl (by simp [MetaSlot.fields, width])
  have e32 : word m.marshal 32 8 = m.extentTableOff.toNat % 256 ^ 8 := m.marshal_field 5 rfl (by simp [MetaSlot.fields, width])
  have e40 : word m.marshal 40 4 = m.extentTableLen.toNat % 256 ^ 4 := m.marshal_field 6 rfl (by simp [MetaSlot.fields, width])
  have e44 : word m.marshal 44 4 = m.ttlIndexLen.toNat % 256 ^ 4 := m.marshal_field 7 rfl (by simp [MetaSlot.fields, width])
  have e48 : word m.marshal 48 8 = m.ttlIndexOff.toNat % 256 ^ 8 := m.marshal_field 8 rfl (by simp [MetaSlot.fields, width])
  have e56 : word m.marshal 56 8 = m.freeMapOff.toNat % 256 ^ 8 := m.marshal_field 9 rfl (by simp [MetaSlot.fields, width])
  have e64 : word m.marshal 64 8 = m.fileSize.toNat % 256 ^ 8 := m.marshal_field 10 rfl (by simp [MetaSlot.fields, width])
  have e72 : word m.marshal 72 8 = m.liveBytes.toNat % 256 ^ 8 := m.marshal_field 11 rfl (by simp [MetaSlot.fields, width])
  have e80 : word m.marshal 80 8 = m.deadBytes.toNat % 256 ^ 8 := m.marshal_field 12 rfl (by simp [MetaSlot.fields, width])
  have e88 : word m.marshal 88 8 = m.recordCount.toNat % 256 ^ 8 := m.marshal_field 13 rfl (by simp [MetaSlot.fields, width])
  have e96 : word m.marshal 96 8 = m.lastCkptUnix.toNat % 256 ^ 8 := m.marshal_field 14 rfl (by simp [MetaSlot.fields, width])
  have e104 : word m.marshal 104 1 = m.cleanShutdown.toNat % 256 ^ 1 := m.marshal_field 15 rfl (by simp [MetaSlot.fields, width])
  have e105 : word m.marshal 105 8 = m.metaKVOff.toNat % 256 ^ 8 := m.marshal_field 16 rfl (by simp [MetaSlot.fields, width])
  rw [parseMetaSlot, if_neg (by rw [hlen]; exact Nat.lt_irrefl _), hfront, hsum, if_neg (by simp), e0, e8, e16, e24, e28, e32, e40,
    e44, e48, e56, e64, e72, e80, e88, e96, e104, e105]
  simp only [h8, ofNat_word4, ofNat_word8]

/-- `MetaLive`: the valid slot with the higher sequence, and whether it is slot B. -/
def metaLive (a b : List UInt8) : Option (MetaSlot × Bool) :=
  match parseMetaSlot a, parseMetaSlot b with
  | some ma, some mb => if ma.commitSeq < mb.commitSeq then some (mb, true) else some (ma, false)
  | some ma, none => some (ma, false)
  | none, some mb => some (mb, true)
  | none, none => none

/-- The two slots as a read returns them (B is `true`), the bytes of the stale one as of the last flush, and what the open file
holds. Not in the program are the root of the last commit that returned, those of the calls after it that failed or were cut short by
a crash, and the root the last commit installed or the last reopen found live. -/
structure Roots where
  slot : Bool → List UInt8
  flushed : List UInt8
  commitSeq : UInt64
  liveSlot : Bool
  last : MetaSlot
  later : List MetaSlot
  installed : MetaSlot

/-- What a write that did not complete leaves in its slot; a torn one does not verify. -/
inductive Left where
  | flushed
  | old
  | new
  | torn (b : List UInt8) (h : parseMetaSlot b = none)

inductive Outcome where
  | ok
  | writeFails (left : Left)
  | syncFails

def MetaSlot.stamp (m : MetaSlot) (commitSeq globalSeq cursor : UInt64) : MetaSlot :=
  { m with commitSeq := commitSeq, globalSeq := globalSeq, fileSize := cursor }

namespace Roots

def put (s : Roots) (b : List UInt8) : Bool → List UInt8 := fun i => if i = s.liveSlot then s.slot i else b

def leaves (s : Roots) (m : MetaSlot) : Left → List UInt8
  | .flushed => s.flushed
  | .old => s.slot (!s.liveSlot)
  | .new => m.marshal
  | .torn b _ => b

/-- `CommitRoots` at the given global sequence and append cursor, and whether it returned without an error. -/
def commitRoots (m : MetaSlot) (globalSeq cursor : UInt64) (out : Outcome) (s : Roots) : Roots × Bool :=
  let m' := m.stamp (s.commitSeq + 1) globalSeq cursor
  match out with
  | .writeFails left => ({ s with slot := s.put (s.leaves m' left), later := s.later ++ [m'] }, false)
  | .syncFails => ({ s with slot := s.put m'.marshal, later := s.later ++ [m'] }, false)
  | .ok => ({ slot := s.put m'.marshal, flushed := s.slot s.liveSlot, commitSeq := m'.commitSeq, liveSlot := !s.liveSlot,
              last := m', later := [], installed := m' }, true)

/-- `OpenOnDevice`, which fails where neither slot verifies. -/
def reopen (s : Roots) : Option Roots :=
  (metaLive (s.slot false) (s.slot true)).map fun r =>
    { s with commitSeq := r.1.commitSeq, liveSlot := r.2, installed := r.1,
             flushed := if r.2 = s.liveSlot then s.flushed else s.slot (!r.2) }

/-- A crash during a call, or between two calls, may damage the slot being written; the file is opened again. -/
def crash (s : Roots) (call : Option (MetaSlot × UInt64 × UInt64)) (left : Left) : Option Roots :=
  match call with
  | none =>
    let b := s.leaves s.installed (match left with | .new => .old | l => l)
    reopen { s with slot := s.put b, flushed := b }
  | some (m, globalSeq, cursor) =>
    let m' := m.stamp (s.commitSeq + 1) globalSeq cursor
    let b := s.leaves m' left
    reopen { s with slot := s.put b, flushed := b, later := s.later ++ [m'] }

end Roots

inductive RootOp where
  | commit (m : MetaSlot) (globalSeq cursor : UInt64) (out : Outcome)
  | sync
  | reopen
  | crash (call : Option (MetaSlot × UInt64 × UInt64)) (left : Left)

def Roots.op (s : Roots) : RootOp → Option Roots
  | .commit m globalSeq cursor out => some (s.commitRoots m globalSeq cursor out).1
  | .sync => some { s with flushed := s.slot (!s.liveSlot) }
  | .reopen => s.reopen
  | .crash call left => s.crash call left

def Roots.ops (s : Roots) (os : List RootOp) : Option Roots := os.foldlM Roots.op s

/-- `CreateOnDevice`: both slots hold the same root of an empty append space. -/
def createdRoot : MetaSlot := ⟨0, 0, 0, 0, 0, 0, 0, 0, 0, 0, 16384, 0, 0, 0, 0, 1, 0⟩

def createdRoots : Roots :=
  ⟨fun _ => createdRoot.marshal, createdRoot.marshal, 0, false, createdRoot, [], createdRoot⟩

/-- A root of the stale slot: an older one, the one of a later call, or the twin of slot A in a fresh file. -/
def Behind (s : Roots) (r : MetaSlot) : Prop :=
  r.commitSeq.toNat < s.commitSeq.toNat ∨ (r.commitSeq.toNat = s.commitSeq.toNat + 1 ∧ r ∈ s.later) ∨
    (r.commitSeq = s.commitSeq ∧ s.liveSlot = false)

structure RootInv (s : Roots) : Prop where
  live : parseMetaSlot (s.slot s.liveSlot) = some s.installed
  seq : s.installed.commitSeq = s.commitSeq
  named : s.installed ∈ s.last :: s.later
  stale : ∀ r, parseMetaSlot (s.slot (!s.liveSlot)) = some r → Behind s r
  settled : ∀ r, parseMetaSlot s.flushed = some r → Behind s r

variable {s : Roots}

@[simp] theorem put_live (s : Roots) (b : List UInt8) : s.put b s.liveSlot = s.slot s.liveSlot := if_pos rfl

@[simp] theorem put_stale (s : Roots) (b : List UInt8) : s.put b (!s.liveSlot) = b := if_neg (by simp)

theorem created_rootInv : RootInv createdRoots where
  live := parse_marshal _
  seq := rfl
  named := List.mem_cons_self
  stale := fun r hr => Or.inr (Or.inr ⟨by
    rw [← Option.some.inj ((parse_marshal createdRoot).symm.trans hr)]
    rfl, rfl⟩)
  settled := fun r hr => Or.inr (Or.inr ⟨by
    rw [← Option.some.inj ((parse_marshal createdRoot).symm.trans hr)]
    rfl, rfl⟩)

/-- The root `MetaLive` finds: the installed one, or the root of a later call in the other slot. -/
theorem RootInv.metaLive (h : RootInv s) :
    (metaLive (s.slot false) (s.slot true) = some (s.installed, s.liveSlot)) ∨
      ∃ r ∈ s.later, metaLive (s.slot false) (s.slot true) = some (r, !s.liveSlot) ∧
        parseMetaSlot (s.slot (!s.liveSlot)) = some r ∧ r.commitSeq.toNat = s.commitSeq.toNat + 1 := by
  have hlive := h.live
  have hseq := congrArg UInt64.toNat h.seq
  cases hs : parseMetaSlot (s.slot (!s.liveSlot)) with
  | none =>
    left
    cases hb : s.liveSlot <;> rw [hb] at hlive hs <;> simp only [Bool.not_false, Bool.not_true] at hs <;>
      simp [Akifile.metaLive, hlive, hs]
  | some r =>
    have hcase := h.stale r hs
    cases hb : s.liveSlot with
    | false =>
      rw [hb] at hlive hs
      simp only [Bool.not_false] at hs
      rcases hcase with hlt | ⟨hnext, hr⟩ | ⟨he, -⟩
      · left; simp [Akifile.metaLive, hlive, hs, UInt64.lt_iff_toNat_lt]; omega
      · right; exact ⟨r, hr, by simp [Akifile.metaLive, hlive, hs, UInt64.lt_iff_toNat_lt]; omega, rfl, hnext⟩
      · left; simp [Akifile.metaLive, hlive, hs, he, h.seq]
    | true =>
      rw [hb] at hlive hs
      simp only [Bool.not_true] at hs
      rcases hcase with hlt | ⟨hnext, hr⟩ | ⟨-, hf⟩
      · left; simp [Akifile.metaLive, hlive, hs, UInt64.lt_iff_toNat_lt]; omega
      · right; exact ⟨r, hr, by simp [Akifile.metaLive, hlive, hs, UInt64.lt_iff_toNat_lt]; omega, rfl, hnext⟩
      · exact absurd (hb.symm.trans hf) (by simp)

/-- Bytes put in the stale slot keep the invariant as long as their root is behind, also with more later calls. -/
theorem RootInv.put (h : RootInv s) {b fb : List UInt8} {more : List MetaSlot}
    (hb : ∀ r, parseMetaSlot b = some r → Behind { s with later := s.later ++ more } r)
    (hfb : ∀ r, parseMetaSlot fb = some r → Behind { s with later := s.later ++ more } r) :
    RootInv { s with slot := s.put b, flushed := fb, later := s.later ++ more } where
  live := by simpa using h.live
  seq := h.seq
  named := by
    rcases List.mem_cons.mp h.named with he | hm
    · exact List.mem_cons.mpr (Or.inl he)
    · exact List.mem_cons.mpr (Or.inr (List.mem_append_left _ hm))
  stale := fun r hr => hb r (by simpa using hr)
  settled := hfb

theorem Behind.more {r : MetaSlot} (h : Behind s r) (more : List MetaSlot) : Behind { s with later := s.later ++ more } r := by
  rcases h with hlt | ⟨hn, hr⟩ | ht
  · exact Or.inl hlt
  · exact Or.inr (Or.inl ⟨hn, List.mem_append_left _ hr⟩)
  · exact Or.inr (Or.inr ht)

theorem RootInv.leaves (h : RootInv s) {m' : MetaSlot} (hm : m'.commitSeq.toNat = s.commitSeq.toNat + 1) (left : Left) (r : MetaSlot)
    (hr : parseMetaSlot (s.leaves m' left) = some r) : Behind { s with later := s.later ++ [m'] } r := by
  cases left with
  | flushed => exact (h.settled r hr).more _
  | old => exact (h.stale r hr).more _
  | new =>
    rw [← Option.some.inj ((parse_marshal m').symm.trans hr)]
    exact Or.inr (Or.inl ⟨hm, by simp⟩)
  | torn b hb => exact absurd (hb.symm.trans hr) (by simp)

theorem RootInv.reopen (h : RootInv s) : ∃ s', s.reopen = some s' ∧ RootInv s' ∧ s.commitSeq.toNat ≤ s'.commitSeq.toNat ∧
    s'.commitSeq.toNat ≤ s.commitSeq.toNat + 1 := by
  rcases h.metaLive with hm | ⟨r, hr, hm, hp, hn⟩
  · refine ⟨_, by rw [Roots.reopen, hm]; rfl, ?_, ?_, ?_⟩
    · exact { live := h.live, seq := rfl, named := h.named,
              stale := fun r hr => by simpa only [Behind, h.seq] using h.stale r hr,
              settled := fun r hr => by
                dsimp only at hr
                rw [if_pos rfl] at hr
                simpa only [Behind, h.seq] using h.settled r hr }
    · exact Nat.le_of_eq (congrArg UInt64.toNat h.seq.symm)
    · exact Nat.le_succ_of_le (Nat.le_of_eq (congrArg UInt64.toNat h.seq))
  · have hback : ∀ r', parseMetaSlot (s.slot s.liveSlot) = some r' → r'.commitSeq.toNat < r.commitSeq.toNat := by
      intro r' hr'
      have he : s.installed = r' := Option.some.inj (h.live.symm.trans hr')
      have hs := congrArg UInt64.toNat h.seq
      rw [he] at hs
      omega
    refine ⟨_, by rw [Roots.reopen, hm]; rfl, ?_, ?_, ?_⟩
    · exact { live := hp, seq := rfl, named := List.mem_cons_of_mem _ hr,
              stale := fun r' hr' => Or.inl (hback r' (by simpa using hr')),
              settled := fun r' hr' => Or.inl (hback r' (by simpa using hr')) }
    · dsimp only; omega
    · dsimp only; omega

theorem RootInv.op (h : RootInv s) (hs : s.commitSeq.toNat + 1 < 2 ^ 64) (o : RootOp) :
    ∃ s', s.op o = some s' ∧ RootInv s' ∧ s.commitSeq.toNat ≤ s'.commitSeq.toNat ∧ s'.commitSeq.toNat ≤ s.commitSeq.toNat + 1 := by
  have hnext : (s.commitSeq + 1).toNat = s.commitSeq.toNat + 1 := by
    rw [UInt64.toNat_add]
    exact Nat.mod_eq_of_lt hs
  cases o with
  | commit m g c out =>
    refine ⟨_, rfl, ?_⟩
    cases out with
    | ok =>
      refine ⟨{ live := ?_, seq := rfl, named := List.mem_cons_self, stale := fun r hr => ?_, settled := fun r hr => ?_ }, ?_, ?_⟩
      · exact (congrArg parseMetaSlot (put_stale s _)).trans (parse_marshal _)
      · have hr' : parseMetaSlot (s.put _ (!!s.liveSlot)) = some r := hr
        rw [Bool.not_not, put_live, h.live] at hr'
        rw [← Option.some.inj hr']
        left
        change s.installed.commitSeq.toNat < (s.commitSeq + 1).toNat
        rw [h.seq, hnext]
        exact Nat.lt_succ_self _
      · have hr' : parseMetaSlot (s.slot s.liveSlot) = some r := hr
        rw [h.live] at hr'
        rw [← Option.some.inj hr']
        left
        change s.installed.commitSeq.toNat < (s.commitSeq + 1).toNat
        rw [h.seq, hnext]
        exact Nat.lt_succ_self _
      · change _ ≤ (s.commitSeq + 1).toNat
        omega
      · change (s.commitSeq + 1).toNat ≤ _
        omega
    | writeFails left =>
      exact ⟨h.put (h.leaves hnext left) (fun r hr => (h.settled r hr).more _), Nat.le_refl _, Nat.le_succ _⟩
    | syncFails =>
      exact ⟨h.put (h.leaves hnext .new) (fun r hr => (h.settled r hr).more _), Nat.le_refl _, Nat.le_succ _⟩
  | sync =>
    exact ⟨_, rfl, { live := h.live, seq := h.seq, named := h.named, stale := h.stale, settled := h.stale },
      Nat.le_refl _, Nat.le_succ _⟩
  | reopen => exact h.reopen
  | crash call left =>
    cases call with
    | none =>
      have hb : ∀ r, parseMetaSlot (s.leaves s.installed (match left with | .new => .old | l => l)) = some r →
          Behind { s with later := s.later ++ [] } r := by
        intro r hr
        cases left with
        | flushed => exact (h.settled r hr).more _
        | old => exact (h.stale r hr).more _
        | new => exact (h.stale r hr).more _
        | torn b hb => exact absurd (hb.symm.trans hr) (by simp)
      have hput := h.put hb hb
      rw [List.append_nil] at hput
      exact hput.reopen
    | some c => exact (h.put (h.leaves hnext left) (h.leaves hnext left)).reopen

theorem RootInv.ops (h : RootInv s) (os : List RootOp) (hs : s.commitSeq.toNat + os.length < 2 ^ 64) :
    ∃ s', s.ops os = some s' ∧ RootInv s' ∧ s.commitSeq.toNat ≤ s'.commitSeq.toNat ∧
      s'.commitSeq.toNat ≤ s.commitSeq.toNat + os.length := by
  induction os generalizing s with
  | nil => exact ⟨s, rfl, h, Nat.le_refl _, Nat.le_refl _⟩
  | cons o os ih =>
    rw [List.length_cons] at hs ⊢
    obtain ⟨s₁, h₁, hinv, hle, hle'⟩ := h.op (by omega) o
    obtain ⟨s₂, h₂, hinv₂, hm, hm'⟩ := ih hinv (by omega)
    refine ⟨s₂, ?_, hinv₂, by omega, by omega⟩
    rw [Roots.ops, List.foldlM_cons, h₁]
    exact h₂

/-- Over any run: every reopen finds a root, the live one is that of the last commit that returned or of a later call, the slot of
the installed root is not the one a commit writes, and the sequence never goes down. -/
theorem commits_stay_atomic (before after : List RootOp) (hlen : (before ++ after).length < 2 ^ 64) :
    ∃ s₁ s, createdRoots.ops before = some s₁ ∧ s₁.ops after = some s ∧
      (∃ r which, metaLive (s.slot false) (s.slot true) = some (r, which) ∧ r ∈ s.last :: s.later) ∧
      parseMetaSlot (s.slot s.liveSlot) = some s.installed ∧
      (∀ m globalSeq cursor out, (s.commitRoots m globalSeq cursor out).1.slot s.liveSlot = s.slot s.liveSlot) ∧
      s₁.commitSeq ≤ s.commitSeq := by
  rw [List.length_append] at hlen
  have hzero : createdRoots.commitSeq.toNat = 0 := rfl
  obtain ⟨s₁, h₁, hinv₁, -, hb₁⟩ := created_rootInv.ops before (by omega)
  obtain ⟨s, h₂, hinv, hle, -⟩ := hinv₁.ops after (by omega)
  refine ⟨s₁, s, h₁, h₂, ?_, hinv.live, fun m g c out => ?_, UInt64.le_iff_toNat_le.mpr hle⟩
  · rcases hinv.metaLive with hm | ⟨r, hr, hm, -⟩
    · exact ⟨_, _, hm, hinv.named⟩
    · exact ⟨r, _, hm, List.mem_cons_of_mem _ hr⟩
  · cases out <;> exact put_live s _

/-- Two commits, a third one that fails to flush, and a crash in the next that tears the slot it writes. -/
theorem commits_stay_atomic_torn :
    ([RootOp.commit createdRoot 1 4096 .ok, .commit createdRoot 2 8192 .ok, .commit createdRoot 3 8192 .syncFails] ++
        [RootOp.crash (some (createdRoot, 4, 8192)) (.torn [] rfl)]).length < 2 ^ 64 ∧
      ∃ s₁ s, createdRoots.ops [.commit createdRoot 1 4096 .ok, .commit createdRoot 2 8192 .ok, .commit createdRoot 3 8192 .syncFails] =
          some s₁ ∧ s₁.ops [.crash (some (createdRoot, 4, 8192)) (.torn [] rfl)] = some s ∧ s₁.commitSeq ≤ s.commitSeq := by
  refine ⟨by decide, ?_⟩
  obtain ⟨s₁, s, h₁, h₂, -, -, -, hle⟩ := commits_stay_atomic
    [.commit createdRoot 1 4096 .ok, .commit createdRoot 2 8192 .ok, .commit createdRoot 3 8192 .syncFails]
    [.crash (some (createdRoot, 4, 8192)) (.torn [] rfl)] (by decide)
  exact ⟨s₁, s, h₁, h₂, hle⟩

/-- After a commit whose flush failed, the root `MetaLive` returns stands in the slot the next commit writes. -/
theorem failed_root_overwritten :
    (createdRoots.ops [.commit createdRoot 1 4096 .syncFails]).map (fun s =>
        ((metaLive (s.slot false) (s.slot true)).map fun r => (r.1.commitSeq, r.2), !s.liveSlot)) =
      some (some (1, true), true) := by
  decide +kernel

end Aki.Akifile
