import Aki.AkiFileRun
import Aki.Uvarint

namespace Aki.Akifile

open ByteDevice LittleEndian Uvarint

def recRowHdr : Nat := 24

def recFlagInline : UInt32 := 2

def recFlagChunked : UInt32 := 4

def recFlagCollectionOp : UInt32 := 8

def recFlagCollectionSnap : UInt32 := 16

structure RecordRow where
  flags : UInt32
  valueWord : UInt64
  valueLen : UInt32
  expireAt : UInt64
  value : List UInt8
  key : List UInt8
  deriving DecidableEq, Repr, Inhabited

/-- Whether the payload of the row is `valueLen` bytes of the frame. -/
def framePayload (flags : UInt32) : Bool :=
  decide (flags &&& (recFlagInline ||| recFlagCollectionOp ||| recFlagCollectionSnap) ≠ 0)

def chunkedRow (flags : UInt32) : Bool := decide (flags &&& recFlagChunked ≠ 0)

def RecordRow.fields (row : RecordRow) : List (Nat × Nat) :=
  [(4, row.flags.toNat), (8, row.valueWord.toNat), (4, row.valueLen.toNat), (8, row.expireAt.toNat)]

/-- What stands between the fixed header and the key. -/
def RecordRow.slot (row : RecordRow) : List UInt8 :=
  if chunkedRow row.flags then putUvarint row.value.length ++ row.value
  else if framePayload row.flags then row.value
  else []

def RecordRow.body (row : RecordRow) : List UInt8 := layout row.fields ++ (row.slot ++ row.key)

def RecordRow.frame (row : RecordRow) : List UInt8 :=
  putUvarint row.body.length ++ (row.body ++ layout [(4, (crc32c row.body).toNat)])

structure RecordFrame where
  frameOff : Nat
  bodyOff : Nat
  bodyLen : UInt32
  crc : UInt32
  deriving DecidableEq, Repr

def appendRecordFrame (dst : List UInt8) (row : RecordRow) : List UInt8 × RecordFrame :=
  (dst ++ row.frame,
    ⟨dst.length, dst.length + (putUvarint row.body.length).length, UInt32.ofNat row.body.length, crc32c row.body⟩)

inductive RecErr where
  | short
  | length
  | checksum
  | io
  deriving DecidableEq, Repr

def parseRecordBody (body : List UInt8) : Except RecErr RecordRow :=
  if body.length < recRowHdr then .error .short
  else
    let row : RecordRow := ⟨UInt32.ofNat (word body 0 4), UInt64.ofNat (word body 4 8), UInt32.ofNat (word body 12 4),
      UInt64.ofNat (word body 16 8), [], []⟩
    let tail := body.drop recRowHdr
    if framePayload row.flags then
      if tail.length < row.valueLen.toNat then .error .length
      else .ok { row with value := tail.take row.valueLen.toNat, key := tail.drop row.valueLen.toNat }
    else if chunkedRow row.flags then
      let r := uvarint tail
      if r.2 ≤ 0 ∨ tail.length - r.2.toNat < r.1 then .error .length
      else .ok { row with value := (tail.drop r.2.toNat).take r.1, key := (tail.drop r.2.toNat).drop r.1 }
    else .ok { row with key := tail }

/-- The frame at `off`, its row and the offset of the next frame. A body that does not parse gives an empty row. -/
def nextRecordFrame (payload : List UInt8) (off : Nat) : Except RecErr (RecordFrame × RecordRow × Nat) :=
  if payload.length ≤ off then .error .short
  else
    let r := uvarint (payload.drop off)
    if r.2 ≤ 0 then .error .length
    else if r.1 < recRowHdr ∨ payload.length < r.1 then .error .short
    else
      let bodyOff := off + r.2.toNat
      if payload.length < bodyOff + r.1 + 4 then .error .short
      else
        let body := (payload.drop bodyOff).take r.1
        let crc := word payload (bodyOff + r.1) 4
        if (crc32c body).toNat ≠ crc then .error .checksum
        else
          let row := match parseRecordBody body with
            | .ok row => row
            | .error _ => default
          .ok (⟨off, bodyOff, UInt32.ofNat r.1, UInt32.ofNat crc⟩, row, bodyOff + r.1 + 4)

/-- A point read: a window of at most ten bytes for the length, then the body and its checksum. -/
def readRecordAt (d : Dev) (addr : Nat) : Except RecErr RecordRow :=
  let n := min 10 (d.size - addr)
  if n = 0 then .error .short
  else
    let r := uvarint (d.read addr n)
    if r.2 ≤ 0 ∨ r.1 < recRowHdr then .error .length
    else
      match d.readAt (addr + r.2.toNat) (r.1 + 4) with
      | none => .error .io
      | some buf =>
        if (crc32c (buf.take r.1)).toNat ≠ word buf r.1 4 then .error .checksum
        else parseRecordBody (buf.take r.1)

/-- A row as the framer expects it: the flags say where its value goes, `valueLen` is the length of a payload in the frame, and the
body has a 64-bit length. -/
structure RecordRow.Wf (row : RecordRow) : Prop where
  payload : framePayload row.flags = true → chunkedRow row.flags = false ∧ row.valueLen.toNat = row.value.length
  plain : framePayload row.flags = false → chunkedRow row.flags = false → row.value = []
  fits : row.body.length < 2 ^ 64

variable {row : RecordRow}

theorem RecordRow.fields_length (row : RecordRow) : (layout row.fields).length = recRowHdr := by
  simp [RecordRow.fields, width, recRowHdr]

theorem RecordRow.body_length (row : RecordRow) : row.body.length = recRowHdr + (row.slot ++ row.key).length := by
  rw [RecordRow.body, List.length_append, row.fields_length]

theorem RecordRow.body_field (row : RecordRow) (fs : List (Nat × Nat)) {gs : List (Nat × Nat)} {n v : Nat}
    (hf : row.fields = fs ++ (n, v) :: gs) : word row.body (width fs) n = v % 256 ^ n := by
  have h := word_layout fs n v gs (row.slot ++ row.key)
  rw [← hf] at h
  exact h

theorem parse_body (h : row.Wf) : parseRecordBody row.body = .ok row := by
  have e0 : word row.body 0 4 = row.flags.toNat % 256 ^ 4 := row.body_field [] rfl
  have e4 : word row.body 4 8 = row.valueWord.toNat % 256 ^ 8 := row.body_field [(4, _)] rfl
  have e12 : word row.body 12 4 = row.valueLen.toNat % 256 ^ 4 := row.body_field [(4, _), (8, _)] rfl
  have e16 : word row.body 16 8 = row.expireAt.toNat % 256 ^ 8 := row.body_field [(4, _), (8, _), (4, _)] rfl
  have htail : row.body.drop recRowHdr = row.slot ++ row.key := List.drop_left' row.fields_length
  have hlen := row.body_length
  rw [parseRecordBody, if_neg (by omega), e0, e4, e12, e16, htail, ofNat_word4, ofNat_word4, ofNat_word8, ofNat_word8]
  dsimp only
  by_cases hp : framePayload row.flags
  · obtain ⟨hc, hv⟩ := h.payload hp
    have hslot : row.slot = row.value := by simp [RecordRow.slot, hp, hc]
    rw [if_pos hp, hslot, if_neg (by rw [List.length_append]; omega), List.take_left' hv.symm, List.drop_left' hv.symm]
  · rw [if_neg hp]
    by_cases hc : chunkedRow row.flags
    · have hslot : row.slot = putUvarint row.value.length ++ row.value := by simp [RecordRow.slot, hc]
      have hfits := h.fits
      rw [hlen, hslot] at hfits
      simp only [List.length_append] at hfits
      have hpos := putUvarint_length_pos row.value.length
      rw [if_pos hc, hslot, List.append_assoc, uvarint_put (by omega)]
      dsimp only
      rw [if_neg (by simp only [List.length_append, Int.toNat_natCast]; omega), Int.toNat_natCast, List.drop_left' rfl,
        List.take_left' rfl, List.drop_left' rfl]
    · have hf : framePayload row.flags = false := by simpa using hp
      have hn : chunkedRow row.flags = false := by simpa using hc
      have hslot : row.slot = [] := by simp [RecordRow.slot, hf, hn]
      have hv := h.plain hf hn
      rw [if_neg hc, hslot, List.nil_append, ← hv]

theorem RecordRow.frame_length (row : RecordRow) :
    row.frame.length = (putUvarint row.body.length).length + row.body.length + 4 := by
  simp [RecordRow.frame, width]
  omega

theorem frame_crc (row : RecordRow) (rest : List UInt8) :
    word (row.body ++ layout [(4, (crc32c row.body).toNat)] ++ rest) row.body.length 4 = (crc32c row.body).toNat := by
  have h := word_skip row.body (layout [(4, (crc32c row.body).toNat)] ++ rest) 0 4
  have hw := word_layout [] 4 (crc32c row.body).toNat [] rest
  rw [List.append_assoc]
  exact h.trans (hw.trans (Nat.mod_eq_of_lt (Nat.lt_of_lt_of_le (crc32c row.body).toNat_lt (by decide))))

theorem nextRecordFrame_frame (h : row.Wf) (pre rest : List UInt8) :
    nextRecordFrame (pre ++ (row.frame ++ rest)) pre.length =
      .ok ((appendRecordFrame pre row).2, row, pre.length + row.frame.length) := by
  have hpos := putUvarint_length_pos row.body.length
  have hlen := row.frame_length
  have hbody := row.body_length
  have hdrop : (pre ++ (row.frame ++ rest)).drop pre.length = row.frame ++ rest := List.drop_left' rfl
  have hsplit : pre ++ (row.frame ++ rest) =
      (pre ++ putUvarint row.body.length) ++ (row.body ++ layout [(4, (crc32c row.body).toNat)] ++ rest) := by
    simp [RecordRow.frame]
  have hat : (pre ++ (row.frame ++ rest)).drop (pre.length + (putUvarint row.body.length).length) =
      row.body ++ layout [(4, (crc32c row.body).toNat)] ++ rest := by
    rw [hsplit]
    exact List.drop_left' (by simp)
  have hbodyTake : (row.body ++ layout [(4, (crc32c row.body).toNat)] ++ rest).take row.body.length = row.body := by
    rw [List.append_assoc]
    exact List.take_left' rfl
  have hcrc : word (pre ++ (row.frame ++ rest)) (pre.length + (putUvarint row.body.length).length + row.body.length) 4 =
      (crc32c row.body).toNat := by
    rw [hsplit]
    have hw := word_skip (pre ++ putUvarint row.body.length) (row.body ++ layout [(4, (crc32c row.body).toNat)] ++ rest)
      row.body.length 4
    rw [List.length_append] at hw
    exact hw.trans (frame_crc row rest)
  have huv : uvarint (row.frame ++ rest) = (row.body.length, ((putUvarint row.body.length).length : Int)) := by
    rw [RecordRow.frame, List.append_assoc]
    exact uvarint_put h.fits _
  have hnext : pre.length + (putUvarint row.body.length).length + row.body.length + 4 = pre.length + row.frame.length := by omega
  rw [nextRecordFrame, if_neg (by simp only [List.length_append]; omega), hdrop, huv]
  dsimp only
  rw [if_neg (by omega), if_neg (by simp only [List.length_append]; omega), Int.toNat_natCast,
    if_neg (by simp only [List.length_append]; omega), hat, hbodyTake, hcrc, if_neg (by simp), parse_body h, hnext]
  simp only [appendRecordFrame, UInt32.ofNat_toNat]

/-- A point read of a frame that stands on the device, also where the device ends with it. -/
theorem readRecordAt_frame (h : row.Wf) {d : Dev} {addr : Nat} (hr : d.read addr row.frame.length = row.frame)
    (hsize : addr + row.frame.length ≤ d.size) : readRecordAt d addr = .ok row := by
  have hlen := row.frame_length
  have hbody := row.body_length
  have hpos := putUvarint_length_pos row.body.length
  have hten := putUvarint_length_le h.fits
  have hsub : ∀ off n, off + n ≤ row.frame.length → d.read (addr + off) n = (row.frame.drop off).take n := by
    intro off n hle
    rw [← hr]
    refine List.ext_getElem (by simp; omega) fun i h₁ h₂ => ?_
    simp [Dev.read, Nat.add_assoc]
  have hwin : ∃ rest, d.read addr (min 10 (d.size - addr)) = putUvarint row.body.length ++ rest := by
    refine ⟨(d.read addr (min 10 (d.size - addr))).drop (putUvarint row.body.length).length, ?_⟩
    have hfirst := hsub 0 (putUvarint row.body.length).length (by omega)
    rw [Nat.add_zero, List.drop_zero, RecordRow.frame, List.take_left' rfl] at hfirst
    have htake : (d.read addr (min 10 (d.size - addr))).take (putUvarint row.body.length).length = putUvarint row.body.length := by
      rw [← hfirst]
      refine List.ext_getElem (by simp; omega) fun i h₁ h₂ => ?_
      simp [Dev.read]
    calc d.read addr (min 10 (d.size - addr))
        = (d.read addr (min 10 (d.size - addr))).take (putUvarint row.body.length).length ++
            (d.read addr (min 10 (d.size - addr))).drop (putUvarint row.body.length).length := (List.take_append_drop _ _).symm
      _ = _ := by rw [htake]
  obtain ⟨rest, hrest⟩ := hwin
  have hbuf : d.readAt (addr + (putUvarint row.body.length).length) (row.body.length + 4) =
      some (row.body ++ layout [(4, (crc32c row.body).toNat)]) := by
    rw [Dev.readAt, if_pos (by omega), hsub _ _ (by omega), RecordRow.frame, List.drop_left' rfl, List.take_of_length_le (by simp [width])]
  have hcrc := frame_crc row []
  rw [List.append_nil] at hcrc
  rw [readRecordAt]
  dsimp only
  rw [if_neg (by omega), hrest, uvarint_put h.fits]
  dsimp only
  rw [if_neg (by omega), Int.toNat_natCast, hbuf]
  dsimp only
  rw [hcrc, List.take_left' rfl, if_neg (by simp), parse_body h]

open ByteDevice LittleEndian Uvarint

def frames (rows : List RecordRow) : List UInt8 := rows.flatMap RecordRow.frame

/-- The rows of a payload with their addresses, the first one at `addr`. -/
def placeRows : Nat → List RecordRow → List (Nat × RecordRow)
  | _, [] => []
  | addr, r :: rs => (addr, r) :: placeRows (addr + r.frame.length) rs

/-- The frames of rows framed one after another onto `dst`. -/
def frameTable : List UInt8 → List RecordRow → List RecordFrame
  | _, [] => []
  | dst, r :: rs => (appendRecordFrame dst r).2 :: frameTable (dst ++ r.frame) rs

/-- The loop over one segment's payload; every frame moves it on, so as many turns as there are bytes are enough. -/
def walkFrames (base : Nat) (payload : List UInt8) : Nat → Nat → List (Nat × RecordRow) → List (Nat × RecordRow) × Option RecErr
  | 0, _, acc => (acc, none)
  | fuel + 1, cur, acc =>
    if payload.length ≤ cur then (acc, none)
    else
      match nextRecordFrame payload cur with
      | .error e => (acc, some e)
      | .ok (fr, row, next) => walkFrames base payload fuel next (acc ++ [(base + fr.frameOff, row)])

def recordVisit (keep : UInt16 → Bool) (acc : List (Nat × RecordRow)) (x : Seg) : List (Nat × RecordRow) × Option RecErr :=
  if x.header.kind = kindLog ∧ keep x.header.shard then walkFrames (x.off + segHeaderLen) x.payload x.payload.length 0 acc
  else (acc, none)

/-- `WalkRecords` from `start`, below the file's cursor: the rows visited and the error that stopped it. -/
def walkRecords (d : Dev) (cursor start : Nat) : List (Nat × RecordRow) × Option RecErr :=
  let r := replayTail (recordVisit fun _ => true) d start cursor []
  (r.1, r.2.2)

def walkShardRecords (shard : UInt16) (d : Dev) (cursor start : Nat) : List (Nat × RecordRow) × Option RecErr :=
  let r := replayTail (recordVisit fun sh => decide (sh = shard)) d start cursor []
  (r.1, r.2.2)

theorem placeRows_snd (addr : Nat) (rows : List RecordRow) : (placeRows addr rows).map Prod.snd = rows := by
  induction rows generalizing addr with
  | nil => rfl
  | cons r rs ih => rw [placeRows, List.map_cons, ih]

theorem placeRows_length (addr : Nat) (rows : List RecordRow) : (placeRows addr rows).length = rows.length := by
  rw [← List.length_map Prod.snd, placeRows_snd]

theorem frameTable_append (dst : List UInt8) (rows : List RecordRow) (row : RecordRow) :
    frameTable dst (rows ++ [row]) = frameTable dst rows ++ [(appendRecordFrame (dst ++ frames rows) row).2] := by
  induction rows generalizing dst with
  | nil => simp [frameTable, frames]
  | cons r rs ih => simp [frameTable, frames, ih]

theorem frameTable_addrs (base : Nat) (dst : List UInt8) (rows : List RecordRow) :
    (frameTable dst rows).map (fun fr => base + fr.frameOff) = (placeRows (base + dst.length) rows).map Prod.fst := by
  induction rows generalizing dst with
  | nil => rfl
  | cons r rs ih =>
    rw [frameTable, placeRows, List.map_cons, List.map_cons, ih, List.length_append, Nat.add_assoc]
    rfl

theorem placeRows_mem {base a : Nat} {r : RecordRow} {rows : List RecordRow} (h : (a, r) ∈ placeRows base rows) :
    r ∈ rows ∧ ∃ pre rest, frames rows = pre ++ (r.frame ++ rest) ∧ a = base + pre.length := by
  induction rows generalizing base with
  | nil => exact absurd h List.not_mem_nil
  | cons x xs ih =>
    rcases List.mem_cons.mp h with he | h
    · obtain ⟨rfl, rfl⟩ := Prod.mk.inj he
      exact ⟨List.mem_cons_self, [], frames xs, rfl, rfl⟩
    · obtain ⟨hm, pre, rest, hf, ha⟩ := ih h
      refine ⟨List.mem_cons_of_mem _ hm, x.frame ++ pre, rest, ?_, ?_⟩
      · rw [List.append_assoc, ← hf]
        rfl
      · rw [List.length_append]
        omega

theorem walkFrames_frames (base : Nat) {rows : List RecordRow} (hwf : ∀ r ∈ rows, r.Wf) (pre : List UInt8) (fuel : Nat)
    (hfuel : (frames rows).length ≤ fuel) (acc : List (Nat × RecordRow)) :
    walkFrames base (pre ++ frames rows) fuel pre.length acc = (acc ++ placeRows (base + pre.length) rows, none) := by
  induction rows generalizing pre fuel acc with
  | nil =>
    cases fuel with
    | zero => simp [walkFrames, placeRows]
    | succ fuel => simp [walkFrames, placeRows, frames]
  | cons r rs ih =>
    have hlen := r.frame_length
    have hcons : frames (r :: rs) = r.frame ++ frames rs := rfl
    rw [hcons, List.length_append] at hfuel
    cases fuel with
    | zero => omega
    | succ fuel =>
      have hnext := ih (fun x hx => hwf x (List.mem_cons_of_mem _ hx)) (pre ++ r.frame) fuel (by omega)
        (acc ++ [(base + pre.length, r)])
      rw [List.length_append, List.append_assoc, ← Nat.add_assoc] at hnext
      rw [walkFrames, hcons, if_neg (by simp only [List.length_append]; omega),
        nextRecordFrame_frame (hwf r List.mem_cons_self)]
      dsimp only [appendRecordFrame]
      rw [hnext, placeRows]
      simp

/-- The log segments hold the framed rows, and these are the rows with their shards and addresses. -/
inductive Rows : List Seg → List (UInt16 × Nat × RecordRow) → Prop
  | nil : Rows [] []
  | other (x : Seg) (xs : List Seg) (ps : List (UInt16 × Nat × RecordRow)) (hk : x.header.kind ≠ kindLog) (h : Rows xs ps) :
      Rows (x :: xs) ps
  | log (x : Seg) (xs : List Seg) (rows : List RecordRow) (ps : List (UInt16 × Nat × RecordRow)) (hk : x.header.kind = kindLog)
      (hp : x.payload = frames rows) (hwf : ∀ r ∈ rows, r.Wf) (h : Rows xs ps) :
      Rows (x :: xs) ((placeRows (x.off + segHeaderLen) rows).map (Prod.mk x.header.shard) ++ ps)

theorem Rows.append {xs ys : List Seg} {ps qs : List (UInt16 × Nat × RecordRow)} (h : Rows xs ps) (h' : Rows ys qs) :
    Rows (xs ++ ys) (ps ++ qs) := by
  induction h with
  | nil => exact h'
  | other x xs ps hk _ ih => exact .other x _ _ hk ih
  | log x xs rows ps hk hp hwf _ ih =>
    rw [List.append_assoc]
    exact .log x _ rows _ hk hp hwf ih

theorem Rows.others {xs : List Seg} (h : ∀ x ∈ xs, x.header.kind ≠ kindLog) : Rows xs [] := by
  induction xs with
  | nil => exact .nil
  | cons x xs ih => exact .other x xs [] (h x (by simp)) (ih fun y hy => h y (by simp [hy]))

theorem Rows.visit {xs : List Seg} {ps : List (UInt16 × Nat × RecordRow)} (h : Rows xs ps) (keep : UInt16 → Bool)
    (acc : List (Nat × RecordRow)) :
    visitAll (recordVisit keep) xs acc = (acc ++ (ps.filter fun p => keep p.1).map Prod.snd, none) := by
  induction h generalizing acc with
  | nil => simp [visitAll]
  | other x xs ps hk _ ih =>
    rw [visitAll, recordVisit, if_neg fun hc => hk hc.1]
    exact ih acc
  | log x xs rows ps hk hp hwf _ ih =>
    rw [visitAll, recordVisit, List.filter_append, List.filter_map]
    by_cases hkeep : keep x.header.shard = true
    · have hw := walkFrames_frames (x.off + segHeaderLen) hwf [] x.payload.length (by rw [hp]) acc
      rw [List.nil_append, ← hp] at hw
      rw [if_pos ⟨hk, hkeep⟩, show walkFrames (x.off + segHeaderLen) x.payload x.payload.length 0 acc = _ from hw]
      dsimp only
      have hall : (fun p : UInt16 × Nat × RecordRow => keep p.1) ∘ Prod.mk x.header.shard = fun _ => true := by
        funext q
        exact hkeep
      rw [ih, hall, List.filter_true, List.map_append, List.map_map]
      simp [Function.comp_def]
    · have hnone : (fun p : UInt16 × Nat × RecordRow => keep p.1) ∘ Prod.mk x.header.shard = fun _ => false := by
        funext q
        simpa using hkeep
      rw [if_neg fun hc => hkeep hc.2, hnone, List.filter_false, List.map_nil, List.nil_append]
      exact ih acc

theorem Rows.mem {xs : List Seg} {ps : List (UInt16 × Nat × RecordRow)} (h : Rows xs ps) {p : UInt16 × Nat × RecordRow} (hp : p ∈ ps) :
    p.2.2.Wf ∧ ∃ x ∈ xs, ∃ pre rest, x.payload = pre ++ (p.2.2.frame ++ rest) ∧ p.2.1 = x.off + segHeaderLen + pre.length := by
  induction h with
  | nil => exact absurd hp List.not_mem_nil
  | other x xs ps _ _ ih =>
    obtain ⟨hwf, y, hy, hrest⟩ := ih hp
    exact ⟨hwf, y, List.mem_cons_of_mem _ hy, hrest⟩
  | log x xs rows ps _ hpay hwf _ ih =>
    rcases List.mem_append.mp hp with hp | hp
    · obtain ⟨q, hq, rfl⟩ := List.mem_map.mp hp
      obtain ⟨hm, pre, rest, hf, ha⟩ := placeRows_mem hq
      exact ⟨hwf _ hm, x, List.mem_cons_self, pre, rest, hpay.trans hf, ha⟩
    · obtain ⟨hwf', y, hy, hrest⟩ := ih hp
      exact ⟨hwf', y, List.mem_cons_of_mem _ hy, hrest⟩

theorem read_part {d : Dev} {base n : Nat} {pre mid rest : List UInt8} (h : pre ++ (mid ++ rest) = d.read base n) :
    d.read (base + pre.length) mid.length = mid ∧ pre.length + mid.length ≤ n := by
  have hlen := congrArg List.length h
  simp only [List.length_append, read_length] at hlen
  refine ⟨?_, by omega⟩
  have hmid : ((pre ++ (mid ++ rest)).drop pre.length).take mid.length = mid := by
    rw [List.drop_left' rfl, List.take_left' rfl]
  calc d.read (base + pre.length) mid.length = ((d.read base n).drop pre.length).take mid.length := by
        refine List.ext_getElem (by simp; omega) fun i h₁ h₂ => ?_
        simp [Dev.read, Nat.add_assoc]
    _ = mid := by rw [← h, hmid]

theorem Rows.read {d : Dev} {size off e : Nat} {xs : List Seg} {ps : List (UInt16 × Nat × RecordRow)} (h : Rows xs ps)
    (hc : Chain d size off xs e) {p : UInt16 × Nat × RecordRow} (hp : p ∈ ps) : readRecordAt d p.2.1 = .ok p.2.2 := by
  obtain ⟨hwf, x, hx, pre, rest, hpay, ha⟩ := h.mem hp
  have hseg := segAt_eq_some.mp (chain_mem hc hx).2.2
  obtain ⟨-, hd, -, -, hread, -⟩ := hseg
  obtain ⟨hr, hle⟩ := read_part (hpay.symm.trans hread)
  rw [ha]
  exact readRecordAt_frame hwf hr (by omega)

theorem chain_below {d : Dev} {size off e : Nat} {xs : List Seg} (h : Chain d size off xs e) :
    Chain d e off xs e ∧ segAt d e e = none := by
  have hnone : segAt d e e = none := by
    rw [segAt, if_neg]
    simp [segHeaderLen]
  refine ⟨?_, hnone⟩
  induction xs generalizing off with
  | nil => exact h
  | cons x xs ih =>
    have hstop := segAt_lt_stop h.1
    have hle := chain_le h.2
    have hin := (segAt_eq_some.mp h.1).2.1
    have hlen := segAt_payload_length h.1
    exact ⟨segAt_congr h.1 (fun _ _ _ => rfl) (by omega) (by omega), ih h.2⟩

theorem Rows.walk {d : Dev} {size off e : Nat} {xs : List Seg} {ps : List (UInt16 × Nat × RecordRow)} (h : Rows xs ps)
    (hc : Chain d size off xs e) :
    walkRecords d e off = (ps.map Prod.snd, none) ∧
      ∀ shard, walkShardRecords shard d e off = ((ps.filter fun p => decide (p.1 = shard)).map Prod.snd, none) := by
  obtain ⟨hb, hn⟩ := chain_below hc
  constructor
  · have hr := replayTail_chain (recordVisit fun _ => true) hb hn []
    rw [h.visit] at hr
    simp only [walkRecords, hr.1, hr.2.1, List.nil_append, List.filter_true]
  · intro shard
    have hr := replayTail_chain (recordVisit fun sh => decide (sh = shard)) hb hn []
    rw [h.visit] at hr
    simp only [walkShardRecords, hr.1, hr.2.1, List.nil_append]

/-- A batch being staged: its bytes and frames, and, not in the program, its rows. -/
structure Writer where
  pending : List UInt8
  frames : List RecordFrame
  rows : List RecordRow

def Writer.empty : Writer := ⟨[], [], []⟩

def Writer.stage (w : Writer) (row : RecordRow) : Writer :=
  let r := appendRecordFrame w.pending row
  ⟨r.1, w.frames ++ [r.2], w.rows ++ [row]⟩

def Writer.readStaged (w : Writer) (idx : Nat) : Except RecErr RecordRow :=
  match w.frames[idx]? with
  | none => .error .short
  | some fr => parseRecordBody ((w.pending.drop fr.bodyOff).take fr.bodyLen.toNat)

structure Writer.Ok (w : Writer) : Prop where
  pending : w.pending = Akifile.frames w.rows
  table : w.frames = frameTable [] w.rows
  wf : ∀ r ∈ w.rows, r.Wf

theorem Writer.empty_ok : Writer.empty.Ok := ⟨rfl, rfl, by simp [Writer.empty]⟩

theorem Writer.Ok.stage {w : Writer} (h : w.Ok) {row : RecordRow} (hr : row.Wf) : (w.stage row).Ok where
  pending := by
    change w.pending ++ row.frame = _
    rw [h.pending]
    simp [Writer.stage, Akifile.frames]
  table := by
    change w.frames ++ [(appendRecordFrame w.pending row).2] = frameTable [] (w.rows ++ [row])
    rw [frameTable_append, h.table, h.pending, List.nil_append]
  wf := by
    intro r hr'
    rcases List.mem_append.mp hr' with hm | hm
    · exact h.wf r hm
    · rw [List.mem_singleton.mp hm]
      exact hr

theorem Writer.Ok.stageAll {w : Writer} (h : w.Ok) {rows : List RecordRow} (hr : ∀ r ∈ rows, r.Wf) :
    (rows.foldl Writer.stage w).Ok ∧ (rows.foldl Writer.stage w).rows = w.rows ++ rows := by
  induction rows generalizing w with
  | nil => exact ⟨h, (List.append_nil _).symm⟩
  | cons r rs ih =>
    obtain ⟨hok, hrows⟩ := ih (h.stage (hr r (by simp))) fun x hx => hr x (by simp [hx])
    refine ⟨hok, hrows.trans ?_⟩
    change (w.rows ++ [r]) ++ rs = _
    simp

theorem Writer.Ok.readStaged {w : Writer} (h : w.Ok) {i : Nat} {row : RecordRow} (hi : w.rows[i]? = some row)
    (hfit : row.body.length < 2 ^ 32) : w.readStaged i = .ok row := by
  obtain ⟨hlt, he⟩ := List.getElem?_eq_some_iff.mp hi
  have hsplit : w.rows = w.rows.take i ++ row :: w.rows.drop (i + 1) := by
    rw [← he, ← List.drop_eq_getElem_cons hlt, List.take_append_drop]
  have htable : ∀ (dst : List UInt8) (xs ys : List RecordRow),
      (frameTable dst (xs ++ row :: ys))[xs.length]? = some (appendRecordFrame (dst ++ Akifile.frames xs) row).2 := by
    intro dst xs ys
    induction xs generalizing dst with
    | nil => simp [frameTable, Akifile.frames]
    | cons x xs ih => simpa [frameTable, Akifile.frames] using ih (dst ++ x.frame)
  have hfr : w.frames[i]? = some (appendRecordFrame (Akifile.frames (w.rows.take i)) row).2 := by
    have ht := htable [] (w.rows.take i) (w.rows.drop (i + 1))
    rw [← hsplit, List.length_take, Nat.min_eq_left (by omega), List.nil_append] at ht
    rw [h.table]
    exact ht
  have hbytes : w.pending = (Akifile.frames (w.rows.take i) ++ putUvarint row.body.length) ++
      (row.body ++ (layout [(4, (crc32c row.body).toNat)] ++ Akifile.frames (w.rows.drop (i + 1)))) := by
    have hf := congrArg Akifile.frames hsplit
    rw [h.pending, hf]
    simp [Akifile.frames, RecordRow.frame]
  rw [Writer.readStaged, hfr]
  dsimp only [appendRecordFrame]
  have hlen : (UInt32.ofNat row.body.length).toNat = row.body.length := by
    rw [UInt32.toNat_ofNat']
    exact Nat.mod_eq_of_lt hfit
  rw [hlen, hbytes, List.drop_left' (by simp), List.take_left' rfl]
  exact parse_body (h.wf row (List.mem_of_getElem? hi))

end Aki.Akifile
