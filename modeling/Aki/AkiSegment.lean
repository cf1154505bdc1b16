import Mathlib.Logic.Function.Iterate
import Aki.ByteDevice
import Aki.LittleEndian

namespace Aki.Akifile

open ByteDevice LittleEndian

def pageSize : Nat := 16384

def segmentAlign : Nat := 4096

def segHeaderLen : Nat := 64

def kindLog : UInt16 := 0

def kindBarrier : UInt16 := 9

def shardOwnerless : UInt16 := 0xFFFF

/-- The bytes of SEG3. -/
def segMagic : List UInt8 := [83, 69, 71, 51]

/-- One bit of the reflected Castagnoli division. -/
def crcBit (c : Nat) : Nat := if c % 2 = 1 then (c / 2) ^^^ 0x82F63B78 else c / 2

def crcByte (c : Nat) (b : UInt8) : Nat := crcBit^[8] (c ^^^ b.toNat)

def crc32c (bs : List UInt8) : UInt32 := UInt32.ofNat (bs.foldl crcByte 0xFFFFFFFF ^^^ 0xFFFFFFFF)

example : crc32c [49, 50, 51, 52, 53, 54, 55, 56, 57] = 0xE3069283 := by decide +kernel

def alignUp (n a : Nat) : Nat := (n + a - 1) / a * a

def segmentSpan (payloadLen : Nat) : Nat := alignUp (segHeaderLen + payloadLen) segmentAlign

theorem segmentSpan_ge (n : Nat) : segHeaderLen + n ≤ segmentSpan n ∧ 4096 ≤ segmentSpan n := by
  simp only [segmentSpan, alignUp, segmentAlign, segHeaderLen]
  omega

structure SegHeader where
  shard : UInt16
  kind : UInt16
  globalSeq : Nat
  shardSeq : UInt64
  payloadLen : Nat
  prevShardSeg : UInt64
  ttlClass : UInt32
  flags : UInt32
  payloadCRC : Nat
  deriving DecidableEq, Repr

/-- The fields between the magic and the header's own checksum. -/
def SegHeader.fields (h : SegHeader) : List (Nat × Nat) :=
  [(2, h.shard.toNat), (2, h.kind.toNat), (8, h.globalSeq), (8, h.shardSeq.toNat), (8, h.payloadLen), (8, h.prevShardSeg.toNat),
    (4, h.ttlClass.toNat), (4, h.flags.toNat)]

def SegHeader.front (h : SegHeader) : List UInt8 := segMagic ++ layout h.fields

/-- The header stamped with the length and the checksum of its payload. -/
def SegHeader.stamp (h : SegHeader) (payload : List UInt8) : SegHeader :=
  { h with payloadLen := payload.length, payloadCRC := (crc32c payload).toNat }

def SegHeader.encode (h : SegHeader) : List UInt8 :=
  h.front ++ layout [(4, (crc32c h.front).toNat), (4, 0), (8, h.payloadCRC)]

def SegHeader.marshal (h : SegHeader) (payload : List UInt8) : List UInt8 := (h.stamp payload).encode

def parseSegHeader (b : List UInt8) : Option SegHeader :=
  if b.length < segHeaderLen then none
  else if b.take 4 ≠ segMagic then none
  else if (crc32c (b.take 48)).toNat ≠ word b 48 4 then none
  else some ⟨UInt16.ofNat (word b 4 2), UInt16.ofNat (word b 6 2), word b 8 8, UInt64.ofNat (word b 16 8), word b 24 8,
    UInt64.ofNat (word b 32 8), UInt32.ofNat (word b 40 4), UInt32.ofNat (word b 44 4), word b 56 8⟩

def SegHeader.verifyPayload (h : SegHeader) (payload : List UInt8) : Bool :=
  decide (payload.length = h.payloadLen) && decide ((crc32c payload).toNat = h.payloadCRC)

theorem SegHeader.front_length (h : SegHeader) : h.front.length = 48 := by
  simp [SegHeader.front, SegHeader.fields, segMagic, width]

theorem SegHeader.encode_length (h : SegHeader) : h.encode.length = segHeaderLen := by
  simp [SegHeader.encode, SegHeader.front_length, width, segHeaderLen]

theorem SegHeader.encode_field (h : SegHeader) (fs : List (Nat × Nat)) {gs : List (Nat × Nat)} {n v : Nat} (hf : h.fields = fs ++ (n, v) :: gs) :
    word h.encode (4 + width fs) n = v % 256 ^ n := by
  have hs := word_skip segMagic (layout h.fields ++ layout [(4, (crc32c h.front).toNat), (4, 0), (8, h.payloadCRC)]) (width fs) n
  rw [hf, word_layout, ← hf, ← List.append_assoc] at hs
  exact hs

theorem SegHeader.encode_trailer (h : SegHeader) (fs : List (Nat × Nat)) {gs : List (Nat × Nat)} {n v : Nat}
    (hf : [(4, (crc32c h.front).toNat), (4, 0), (8, h.payloadCRC)] = fs ++ (n, v) :: gs) :
    word h.encode (48 + width fs) n = v % 256 ^ n := by
  have hs := word_skip h.front (layout [(4, (crc32c h.front).toNat), (4, 0), (8, h.payloadCRC)]) (width fs) n
  rw [h.front_length] at hs
  rw [SegHeader.encode, hs, hf]
  simpa using word_layout fs n v gs []

theorem parse_encode (h : SegHeader) (hseq : h.globalSeq < 2 ^ 64) (hlen : h.payloadLen < 2 ^ 64) (hcrc : h.payloadCRC < 2 ^ 64) :
    parseSegHeader h.encode = some h := by
  have h16 (x : UInt16) : UInt16.ofNat (x.toNat % 256 ^ 2) = x := by
    rw [Nat.mod_eq_of_lt (show x.toNat < 256 ^ 2 from x.toNat_lt), UInt16.ofNat_toNat]
  have hmagic : h.encode.take 4 = segMagic := by
    rw [SegHeader.encode, SegHeader.front, List.append_assoc]
    exact List.take_left' rfl
  have hfront : h.encode.take 48 = h.front := List.take_left' h.front_length
  have e4 : word h.encode 4 2 = h.shard.toNat % 256 ^ 2 := h.encode_field [] rfl
  have e6 : word h.encode 6 2 = h.kind.toNat % 256 ^ 2 := h.encode_field [(2, _)] rfl
  have e8 : word h.encode 8 8 = h.globalSeq % 256 ^ 8 := h.encode_field [(2, _), (2, _)] rfl
  have e16 : word h.encode 16 8 = h.shardSeq.toNat % 256 ^ 8 := h.encode_field [(2, _), (2, _), (8, _)] rfl
  have e24 : word h.encode 24 8 = h.payloadLen % 256 ^ 8 := h.encode_field [(2, _), (2, _), (8, _), (8, _)] rfl
  have e32 : word h.encode 32 8 = h.prevShardSeg.toNat % 256 ^ 8 :=
    h.encode_field [(2, _), (2, _), (8, _), (8, _), (8, _)] rfl
  have e40 : word h.encode 40 4 = h.ttlClass.toNat % 256 ^ 4 :=
    h.encode_field [(2, _), (2, _), (8, _), (8, _), (8, _), (8, _)] rfl
  have e44 : word h.encode 44 4 = h.flags.toNat % 256 ^ 4 :=
    h.encode_field [(2, _), (2, _), (8, _), (8, _), (8, _), (8, _), (4, _)] rfl
  have e48 : word h.encode 48 4 = (crc32c h.front).toNat % 256 ^ 4 := h.encode_trailer [] rfl
  have e56 : word h.encode 56 8 = h.payloadCRC % 256 ^ 8 := h.encode_trailer [(4, _), (4, _)] rfl
  rw [parseSegHeader, if_neg (by rw [h.encode_length]; exact Nat.lt_irrefl _), hmagic, if_neg (by simp), hfront, e48,
    Nat.mod_eq_of_lt (show (crc32c h.front).toNat < 256 ^ 4 from (crc32c h.front).toNat_lt), if_neg (by simp), e4, e6, e8, e16, e24, e32, e40, e44, e56, h16, h16, ofNat_word8, ofNat_word8,
    ofNat_word4, ofNat_word4, Nat.mod_eq_of_lt (show h.globalSeq < 256 ^ 8 from hseq), Nat.mod_eq_of_lt (show h.payloadLen < 256 ^ 8 from hlen),
    Nat.mod_eq_of_lt (show h.payloadCRC < 256 ^ 8 from hcrc)]

structure Seg where
  off : Nat
  header : SegHeader
  payload : List UInt8
  deriving DecidableEq, Repr

def Seg.span (x : Seg) : Nat := segmentSpan x.payload.length

def Seg.stop (x : Seg) : Nat := x.off + x.span

/-- The intact segment at `off`, looked for below `size`: one turn of the tail walk. -/
def segAt (d : Dev) (size off : Nat) : Option Seg :=
  if off + segHeaderLen ≤ size then
    (d.readAt off segHeaderLen).bind fun hb =>
      (parseSegHeader hb).bind fun h =>
        if size < off + segHeaderLen + h.payloadLen then none
        else (d.readAt (off + segHeaderLen) h.payloadLen).bind fun payload =>
          if h.verifyPayload payload then some ⟨off, h, payload⟩ else none
  else none

theorem segAt_eq_some {d : Dev} {size off : Nat} {x : Seg} :
    segAt d size off = some x ↔ off + segHeaderLen + x.header.payloadLen ≤ size ∧ off + segHeaderLen + x.header.payloadLen ≤ d.size ∧
      x.off = off ∧ parseSegHeader (d.read off segHeaderLen) = some x.header ∧
      x.payload = d.read (off + segHeaderLen) x.header.payloadLen ∧ x.header.verifyPayload x.payload = true := by
  unfold segAt Dev.readAt
  constructor
  · intro h
    split at h
    next hs =>
      obtain ⟨hb, hhb, h⟩ := Option.bind_eq_some_iff.mp h
      obtain ⟨hd, hh, h⟩ := Option.bind_eq_some_iff.mp h
      split at h
      next => simp at h
      next hle =>
        obtain ⟨p, hp, h⟩ := Option.bind_eq_some_iff.mp h
        split at hhb
        next =>
          cases hhb
          split at hp
          next hd' =>
            cases hp
            split at h
            next hv => cases h; exact ⟨Nat.le_of_not_lt hle, hd', rfl, hh, rfl, hv⟩
            next => simp at h
          next => simp at hp
        next => simp at hhb
    next => simp at h
  · rintro ⟨hs, hd, rfl, hh, hp, hv⟩
    rw [if_pos (by omega), if_pos (by omega), Option.bind_some, hh, Option.bind_some, if_neg (by omega), if_pos hd, Option.bind_some,
      ← hp, if_pos hv]

theorem segAt_payload_length {d : Dev} {size off : Nat} {x : Seg} (h : segAt d size off = some x) :
    x.payload.length = x.header.payloadLen := by
  obtain ⟨-, -, -, -, hp, -⟩ := segAt_eq_some.mp h
  rw [hp, read_length]

theorem segAt_off {d : Dev} {size off : Nat} {x : Seg} (h : segAt d size off = some x) : x.off = off := (segAt_eq_some.mp h).2.2.1

/-- An intact segment stays intact where its bytes are the same and the sizes still cover it. -/
theorem segAt_congr {d d' : Dev} {size size' off : Nat} {x : Seg} (h : segAt d size off = some x)
    (hb : ∀ i, off ≤ i → i < off + segHeaderLen + x.payload.length → d'.bytes i = d.bytes i)
    (hs : off + segHeaderLen + x.payload.length ≤ size') (hd : off + segHeaderLen + x.payload.length ≤ d'.size) :
    segAt d' size' off = some x := by
  have hlen := segAt_payload_length h
  obtain ⟨-, -, ho, hh, hp, hv⟩ := segAt_eq_some.mp h
  rw [hlen] at hb hs hd
  have hhead : d'.read off segHeaderLen = d.read off segHeaderLen := read_congr fun i h₁ h₂ => hb i h₁ (by omega)
  have hbody : d'.read (off + segHeaderLen) x.header.payloadLen = d.read (off + segHeaderLen) x.header.payloadLen :=
    read_congr fun i h₁ h₂ => hb i (by omega) h₂
  exact segAt_eq_some.mpr ⟨hs, hd, ho, by rw [hhead, hh], by rw [hbody, hp], hv⟩

/-- Nothing changes at an offset past all that was written, unless the device grew over it. -/
theorem segAt_past {d d' : Dev} {off : Nat} (hb : ∀ i, off ≤ i → d'.bytes i = d.bytes i) (hs : d'.size = d.size ∨ d'.size ≤ off)
    (h : segAt d d.size off = none) : segAt d' d'.size off = none := by
  by_contra hne
  obtain ⟨x, hx⟩ := Option.ne_none_iff_exists'.mp hne
  have hlen := segAt_payload_length hx
  have hin := (segAt_eq_some.mp hx).1
  rcases hs with hs | hs
  · have hsome : segAt d d.size off = some x := segAt_congr hx (fun i h₁ _ => (hb i h₁).symm) (by omega) (by omega)
    rw [h] at hsome
    exact absurd hsome (by simp)
  · simp only [segHeaderLen] at hin
    omega

theorem segAt_write (d : Dev) (h : SegHeader) (payload : List UInt8) (off size : Nat) (hseq : h.globalSeq < 2 ^ 64)
    (hlen : payload.length < 2 ^ 64) (hsize : off + segHeaderLen + payload.length ≤ size) :
    segAt ((d.write ⟨off, h.marshal payload⟩).write ⟨off + segHeaderLen, payload⟩) size off = some ⟨off, h.stamp payload, payload⟩ := by
  have hml : (h.marshal payload).length = segHeaderLen := (h.stamp payload).encode_length
  have hhead : ((d.write ⟨off, h.marshal payload⟩).write ⟨off + segHeaderLen, payload⟩).read off segHeaderLen = h.marshal payload := by
    have hself := read_write_self d ⟨off, h.marshal payload⟩
    rw [hml] at hself
    exact (read_congr fun i h₁ h₂ => write_bytes_outside (Or.inl h₂)).trans hself
  have hbig : off + segHeaderLen + payload.length ≤ ((d.write ⟨off, h.marshal payload⟩).write ⟨off + segHeaderLen, payload⟩).size := by
    have hne : h.marshal payload ≠ [] := by
      intro he
      rw [he] at hml
      simp [segHeaderLen] at hml
    have h₁ := write_size d ⟨off, h.marshal payload⟩
    rw [if_neg hne, hml] at h₁
    rw [write_size]
    split
    next hp =>
      have hzero : payload.length = 0 := List.length_eq_zero_iff.mpr hp
      dsimp only at h₁
      omega
    next => exact Nat.le_max_right _ _
  refine segAt_eq_some.mpr ⟨hsize, hbig, rfl, ?_, ?_, ?_⟩
  · rw [hhead]
    exact parse_encode (h.stamp payload) hseq hlen (by have := (crc32c payload).toNat_lt; simp only [SegHeader.stamp]; omega)
  · exact (read_write_self (d.write ⟨off, h.marshal payload⟩) ⟨off + segHeaderLen, payload⟩).symm
  · simp [SegHeader.verifyPayload, SegHeader.stamp]

end Aki.Akifile
