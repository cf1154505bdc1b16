import Aki.LittleEndian

namespace Aki.Sqlo1b

open LittleEndian

def recString : UInt8 := 1

def recSeg : UInt8 := 3

def recTomb : UInt8 := 4

def recFence : UInt8 := 5

def recMeta : UInt8 := 6

def rflagExpiry : UInt8 := 1

def rflagRootgen : UInt8 := 2

def rflagDict : UInt8 := 4

def rflagsKnown : UInt8 := rflagExpiry ||| rflagRootgen ||| rflagDict

def recHdrSize : Nat := 12

def recTailSize : Nat := 4

namespace Envelope

/-- A value-log record; the flags say which of the optional fields are live. -/
structure Record where
  rType : UInt8
  rFlags : UInt8
  key : List UInt8
  value : List UInt8
  expireMS : UInt64
  rootgen : UInt32
deriving DecidableEq

inductive RecordError
  | rtypeRange (rtype : UInt8)
  | reservedBits (rflags : UInt8)
  | keyLength (klen : Nat)
  | segSubkey (klen : Nat)
  | segRootgen
  | fenceSubkey (klen : Nat)
  | fenceRootgen
  | tombValue (vlen : Nat)
  | tombDict
  | rootgenOn (rtype : UInt8)
  | overflows (total : Nat)
  | noRoom (len : Nat)
  | rlenAgainst (rlen avail : Nat)
  | rcrc (got want : Nat)
  | fieldsAdd (rlen want : Nat)
deriving DecidableEq

def has (rflags bit : UInt8) : Bool := decide (rflags &&& bit ≠ 0)

def optLen (rflags : UInt8) : Nat := (if has rflags rflagExpiry then 8 else 0) + if has rflags rflagRootgen then 4 else 0

/-- The rules for a type of its own; none is for the types without any. -/
def validateType (rtype rflags : UInt8) (klen vlen : Nat) : Option RecordError :=
  if rtype = recSeg then
    if klen ≠ 16 then some (.segSubkey klen) else if has rflags rflagRootgen then none else some .segRootgen
  else if rtype = recFence then
    if klen ≠ 16 then some (.fenceSubkey klen) else if has rflags rflagRootgen then none else some .fenceRootgen
  else if rtype = recTomb then
    if vlen ≠ 0 then some (.tombValue vlen) else if has rflags rflagDict then some .tombDict else none
  else none

def fieldsLen (rflags : UInt8) (klen vlen : Nat) : Nat := recHdrSize + optLen rflags + recTailSize + klen + vlen

def validateEnvelope (rtype rflags : UInt8) (klen vlen : Nat) : Except RecordError Unit :=
  if rtype < recString ∨ recMeta < rtype then .error (.rtypeRange rtype)
  else if rflags &&& ~~~rflagsKnown ≠ 0 then .error (.reservedBits rflags)
  else if klen = 0 ∨ 2 ^ 16 ≤ klen then .error (.keyLength klen)
  else
    match validateType rtype rflags klen vlen with
    | some err => .error err
    | none =>
      if rtype ≠ recSeg ∧ rtype ≠ recFence ∧ has rflags rflagRootgen then .error (.rootgenOn rtype)
      else if 2 ^ 32 ≤ fieldsLen rflags klen vlen then .error (.overflows (fieldsLen rflags klen vlen))
      else .ok ()

namespace Record

def encodedLen (r : Record) : Nat := fieldsLen r.rFlags r.key.length r.value.length

def head (r : Record) : List UInt8 :=
  layout [(4, r.encodedLen), (1, r.rType.toNat), (1, r.rFlags.toNat), (2, r.key.length), (4, r.value.length)]

def optFields (r : Record) : List UInt8 :=
  (if has r.rFlags rflagExpiry then bytes 8 r.expireMS.toNat else []) ++ if has r.rFlags rflagRootgen then bytes 4 r.rootgen.toNat else []

/-- What the checksum is over. -/
def body (r : Record) : List UInt8 := r.head ++ (r.optFields ++ (r.key ++ r.value))

/-- The fields the flags do not declare are not stored. -/
def stored (r : Record) : Record :=
  { r with
    expireMS := if has r.rFlags rflagExpiry then r.expireMS else 0
    rootgen := if has r.rFlags rflagRootgen then r.rootgen else 0 }

end Record

section Crc

variable (crc : List UInt8 → UInt32)

def encode (r : Record) : Except RecordError (List UInt8) :=
  match validateEnvelope r.rType r.rFlags r.key.length r.value.length with
  | .error err => .error err
  | .ok () => .ok (r.body ++ bytes 4 (crc r.body).toNat)

/-- The bytes are those of some record. -/
def Encoded (b : List UInt8) : Prop := ∃ r, encode crc r = .ok b

/-- The fields of a record whose envelope has been checked. -/
def readFields (b : List UInt8) : Record :=
  let rflags := UInt8.ofNat (word b 5 1)
  let off := recHdrSize + optLen rflags
  let klen := word b 6 2
  { rType := UInt8.ofNat (word b 4 1)
    rFlags := rflags
    key := (b.drop off).take klen
    value := (b.drop (off + klen)).take (word b 8 4)
    expireMS := if has rflags rflagExpiry then UInt64.ofNat (word b recHdrSize 8) else 0
    rootgen := if has rflags rflagRootgen then UInt32.ofNat (word b (off - 4) 4) else 0 }

def decodeRecord (b : List UInt8) : Except RecordError Record :=
  if b.length < recHdrSize + recTailSize then .error (.noRoom b.length)
  else
    let rlen := word b 0 4
    if rlen < recHdrSize + recTailSize ∨ b.length < rlen then .error (.rlenAgainst rlen b.length)
    else
      let got := (crc (b.take (rlen - recTailSize))).toNat
      let want := word b (rlen - recTailSize) 4
      if got ≠ want then .error (.rcrc got want)
      else
        let rflags := UInt8.ofNat (word b 5 1)
        match validateEnvelope (UInt8.ofNat (word b 4 1)) rflags (word b 6 2) (word b 8 4) with
        | .error err => .error err
        | .ok () =>
          let want := fieldsLen rflags (word b 6 2) (word b 8 4)
          if want ≠ rlen then .error (.fieldsAdd rlen want) else .ok (readFields b)

end Crc

section Encoded

variable {crc : List UInt8 → UInt32} {r : Record} {b : List UInt8}

theorem head_length (r : Record) : r.head.length = recHdrSize := layout_length _

theorem optFields_length (r : Record) : r.optFields.length = optLen r.rFlags := by
  unfold Record.optFields optLen
  rw [List.length_append]
  congr 1
  · split
    · exact bytes_length _ _
    · rfl
  · split
    · exact bytes_length _ _
    · rfl

theorem body_length (r : Record) : r.body.length + recTailSize = r.encodedLen := by
  unfold Record.body Record.encodedLen fieldsLen
  simp only [List.length_append, head_length, optFields_length]
  omega

theorem encode_ok : encode crc r = .ok b ↔
    validateEnvelope r.rType r.rFlags r.key.length r.value.length = .ok () ∧ b = r.body ++ bytes 4 (crc r.body).toNat := by
  unfold encode
  split
  next err h =>
    rw [h]
    exact iff_of_false nofun fun h => nomatch h.1
  next h =>
    rw [h]
    exact ⟨fun hb => ⟨rfl, (Except.ok.inj hb).symm⟩, fun hb => congrArg Except.ok hb.2.symm⟩

theorem validateEnvelope_ok {rtype rflags : UInt8} {klen vlen : Nat} (h : validateEnvelope rtype rflags klen vlen = .ok ()) :
    0 < klen ∧ klen < 2 ^ 16 ∧ fieldsLen rflags klen vlen < 2 ^ 32 := by
  unfold validateEnvelope at h
  split at h
  · cases h
  split at h
  · cases h
  split at h
  · cases h
  next hk =>
  split at h
  · cases h
  split at h
  · cases h
  split at h
  · cases h
  next hlen => exact ⟨by omega, by omega, by omega⟩

theorem encode_length (h : encode crc r = .ok b) : b.length = r.encodedLen := by
  obtain ⟨-, rfl⟩ := encode_ok.mp h
  rw [List.length_append, bytes_length]
  exact body_length r

theorem head_words (hv : validateEnvelope r.rType r.rFlags r.key.length r.value.length = .ok ()) (rest : List UInt8) :
    word (r.head ++ rest) 0 4 = r.encodedLen ∧ UInt8.ofNat (word (r.head ++ rest) 4 1) = r.rType ∧
      UInt8.ofNat (word (r.head ++ rest) 5 1) = r.rFlags ∧ word (r.head ++ rest) 6 2 = r.key.length ∧
      word (r.head ++ rest) 8 4 = r.value.length := by
  obtain ⟨-, hk, hlen⟩ := validateEnvelope_ok hv
  have hv : r.value.length < 2 ^ 32 := by
    unfold fieldsLen at hlen
    omega
  refine ⟨?_, ?_, ?_, ?_, ?_⟩
  · exact (word_layout [] 4 r.encodedLen _ rest).trans (Nat.mod_eq_of_lt hlen)
  · have h : word (r.head ++ rest) 4 1 = r.rType.toNat :=
      (word_layout [(4, r.encodedLen)] 1 r.rType.toNat _ rest).trans (Nat.mod_eq_of_lt r.rType.toNat_lt)
    rw [h, UInt8.ofNat_toNat]
  · have h : word (r.head ++ rest) 5 1 = r.rFlags.toNat :=
      (word_layout [(4, r.encodedLen), (1, r.rType.toNat)] 1 r.rFlags.toNat _ rest).trans (Nat.mod_eq_of_lt r.rFlags.toNat_lt)
    rw [h, UInt8.ofNat_toNat]
  · exact (word_layout [(4, r.encodedLen), (1, r.rType.toNat), (1, r.rFlags.toNat)] 2 r.key.length _ rest).trans (Nat.mod_eq_of_lt hk)
  · exact (word_layout [(4, r.encodedLen), (1, r.rType.toNat), (1, r.rFlags.toNat), (2, r.key.length)] 4 r.value.length [] rest).trans
      (Nat.mod_eq_of_lt hv)

theorem body_append (r : Record) (rest : List UInt8) : r.body ++ rest = r.head ++ (r.optFields ++ (r.key ++ (r.value ++ rest))) := by
  simp only [Record.body, List.append_assoc]

theorem encode_append (h : encode crc r = .ok b) (rest : List UInt8) :
    b ++ rest = r.head ++ (r.optFields ++ (r.key ++ (r.value ++ (bytes 4 (crc r.body).toNat ++ rest)))) := by
  obtain ⟨-, rfl⟩ := encode_ok.mp h
  rw [List.append_assoc, body_append]

/-- What a reader of the chain needs of a record: its length and its value's length stand in its head. -/
theorem encode_framed (h : encode crc r = .ok b) (rest : List UInt8) :
    word (b ++ rest) 0 4 = b.length ∧ word (b ++ rest) 8 4 + 17 ≤ b.length ∧ b.length < 2 ^ 32 := by
  have hv := (encode_ok.mp h).1
  have hlen : b.length = fieldsLen r.rFlags r.key.length r.value.length := encode_length h
  obtain ⟨hk, -, hmax⟩ := validateEnvelope_ok hv
  rw [encode_append h]
  obtain ⟨h0, -, -, -, h8⟩ := head_words hv (r.optFields ++ (r.key ++ (r.value ++ (bytes 4 (crc r.body).toNat ++ rest))))
  have hfields : fieldsLen r.rFlags r.key.length r.value.length =
      12 + optLen r.rFlags + 4 + r.key.length + r.value.length := rfl
  refine ⟨h0.trans hlen.symm, ?_, hlen ▸ hmax⟩
  rw [h8]
  omega

theorem drop_head (r : Record) (rest : List UInt8) (n : Nat) : (r.head ++ rest).drop (recHdrSize + n) = rest.drop n := by
  rw [← head_length r, List.drop_append, List.drop_eq_nil_of_le (Nat.le_add_right ..), List.nil_append, Nat.add_sub_cancel_left]

theorem drop_fields (r : Record) (rest : List UInt8) (n : Nat) :
    (r.head ++ (r.optFields ++ rest)).drop (recHdrSize + optLen r.rFlags + n) = rest.drop n := by
  rw [Nat.add_assoc, drop_head, ← optFields_length r, List.drop_append, List.drop_eq_nil_of_le (Nat.le_add_right ..),
    List.nil_append, Nat.add_sub_cancel_left]

theorem word_head (r : Record) (rest : List UInt8) (off n : Nat) : word (r.head ++ rest) (recHdrSize + off) n = word rest off n := by
  rw [word, word, drop_head]

theorem expire_word (he : has r.rFlags rflagExpiry = true) (rest : List UInt8) :
    UInt64.ofNat (word (r.head ++ (r.optFields ++ rest)) recHdrSize 8) = r.expireMS := by
  have hword : word (r.head ++ (r.optFields ++ rest)) recHdrSize 8 = r.expireMS.toNat := by
    rw [show recHdrSize = recHdrSize + 0 from rfl, word_head, Record.optFields, if_pos he, List.append_assoc, word_bytes]
    exact Nat.mod_eq_of_lt r.expireMS.toNat_lt
  rw [hword, UInt64.ofNat_toNat]

theorem rootgen_word (hg : has r.rFlags rflagRootgen = true) (rest : List UInt8) :
    UInt32.ofNat (word (r.head ++ (r.optFields ++ rest)) (recHdrSize + optLen r.rFlags - 4) 4) = r.rootgen := by
  have hword : word (r.head ++ (r.optFields ++ rest)) (recHdrSize + optLen r.rFlags - 4) 4 = r.rootgen.toNat := by
    have hopt : recHdrSize + optLen r.rFlags - 4 = recHdrSize + if has r.rFlags rflagExpiry then 8 else 0 := by
      rw [optLen, if_pos hg]
      omega
    rw [hopt, word_head, Record.optFields, if_pos hg, List.append_assoc]
    split
    · have hskip := word_skip (bytes 8 r.expireMS.toNat) (bytes 4 r.rootgen.toNat ++ rest) 0 4
      rw [bytes_length, Nat.add_zero] at hskip
      rw [hskip, word_bytes]
      exact Nat.mod_eq_of_lt r.rootgen.toNat_lt
    · rw [List.nil_append, word_bytes]
      exact Nat.mod_eq_of_lt r.rootgen.toNat_lt
  rw [hword, UInt32.ofNat_toNat]

theorem readFields_eq (hv : validateEnvelope r.rType r.rFlags r.key.length r.value.length = .ok ()) (rest : List UInt8) :
    readFields (r.head ++ (r.optFields ++ (r.key ++ (r.value ++ rest)))) = r.stored := by
  obtain ⟨-, ht, hf, hk, hl⟩ := head_words hv (r.optFields ++ (r.key ++ (r.value ++ rest)))
  have hkey : (((r.head ++ (r.optFields ++ (r.key ++ (r.value ++ rest)))).drop (recHdrSize + optLen r.rFlags))).take r.key.length = r.key := by
    rw [← Nat.add_zero (recHdrSize + optLen r.rFlags), drop_fields, List.drop_zero, List.take_left' rfl]
  have hval : ((r.head ++ (r.optFields ++ (r.key ++ (r.value ++ rest)))).drop
      (recHdrSize + optLen r.rFlags + r.key.length)).take r.value.length = r.value := by
    rw [drop_fields, List.drop_left' rfl, List.take_left' rfl]
  simp only [readFields, ht, hf, hk, hl, hkey, hval, Record.stored]
  congr 1
  · split
    next he => exact expire_word he _
    · rfl
  · split
    next hg => exact rootgen_word hg _
    · rfl

theorem decodeRecord_encode (h : encode crc r = .ok b) (rest : List UInt8) : decodeRecord crc (b ++ rest) = .ok r.stored := by
  have hv := (encode_ok.mp h).1
  have hlen := encode_length h
  obtain ⟨h0, -, hmax⟩ := encode_framed h rest
  obtain ⟨hword, ht, hf, hk, hl⟩ := head_words hv (r.optFields ++ (r.key ++ (r.value ++ (bytes 4 (crc r.body).toNat ++ rest))))
  have hfields := readFields_eq hv (bytes 4 (crc r.body).toNat ++ rest)
  rw [← encode_append h] at ht hf hk hl hfields
  have hbody := body_length r
  have hmin : recHdrSize + recTailSize ≤ b.length := by
    rw [hlen, Record.encodedLen, fieldsLen]
    omega
  have hcut : b.length - recTailSize = r.body.length := by omega
  have hb : b ++ rest = r.body ++ (bytes 4 (crc r.body).toNat ++ rest) := by
    rw [encode_append h, body_append]
  have htake : (b ++ rest).take (b.length - recTailSize) = r.body := by rw [hcut, hb, List.take_left' rfl]
  have hcrc : word (b ++ rest) (b.length - recTailSize) 4 = (crc r.body).toNat := by
    rw [hcut, hb, ← Nat.add_zero r.body.length, word_skip, word_bytes]
    exact Nat.mod_eq_of_lt (crc r.body).toNat_lt
  unfold decodeRecord
  rw [List.length_append, if_neg (by omega)]
  simp only [h0, htake, hcrc, ht, hf, hk, hl, hv, hfields, ne_eq, not_true_eq_false, if_false]
  rw [if_neg (by omega), if_neg (by rw [hlen]; exact fun hne => hne rfl)]

end Encoded

end Envelope

end Aki.Sqlo1b
