import Aki.RecordCodec
import Aki.StorePlace

namespace Aki.Sqlo1b

def group0Payload : Nat := groupSize - extentHeaderSize

/-- The skip marker that fills a closed group's tail. -/
def padMarker : Nat := 2 ^ 32 - 1

namespace RawGroup

open LittleEndian

inductive GroupError
  | emptyRecord
  | full (records : Nat)
  | noFit (len used cap : Nat)
  | noTable (len : Nat)
  | tableOverflow (n len : Nat)
  | outOfOrder (slot off tstart : Nat)
  | noSlot (slot n : Nat)
deriving DecidableEq

/-- A group in memory: the used part of its buffer and where each record starts. -/
structure GroupBuilder where
  cap : Nat
  data : List UInt8
  slots : List Nat

def newGroupBuilder (capacity : Nat) : GroupBuilder := ⟨capacity, [], []⟩

namespace GroupBuilder

def used (g : GroupBuilder) : Nat := g.data.length

def fits (g : GroupBuilder) (rlen : Nat) : Bool := decide (0 < rlen ∧ g.used + rlen + tableLen (g.slots.length + 1) ≤ g.cap)

def append (g : GroupBuilder) (rec' : List UInt8) : Except GroupError (Nat × GroupBuilder) :=
  if rec'.length = 0 then .error .emptyRecord
  else if blobSlot ≤ g.slots.length then .error (.full g.slots.length)
  else if g.fits rec'.length = false then .error (.noFit rec'.length g.used g.cap)
  else .ok (g.slots.length % 2 ^ 16, { g with data := g.data ++ rec', slots := g.slots ++ [g.used % 2 ^ 16] })

def tstart (g : GroupBuilder) : Nat := g.cap - tableLen g.slots.length

/-- What is between the last record and the table. A gap of one to three bytes is too small for the marker. -/
def gap (g : GroupBuilder) : List UInt8 :=
  if 4 ≤ g.tstart - g.used then bytes 4 padMarker ++ List.replicate (g.tstart - g.used - 4) 0
  else List.replicate (g.tstart - g.used) 0

def table (g : GroupBuilder) : List UInt8 := layout (g.slots.map (Prod.mk 2))

def image (g : GroupBuilder) : List UInt8 := g.data ++ (g.gap ++ (g.table ++ bytes 2 g.slots.length))

def appendAll (g : GroupBuilder) : List (List UInt8) → Except GroupError GroupBuilder
  | [] => .ok g
  | rec' :: recs =>
    match g.append rec' with
    | .error err => .error err
    | .ok (_, g) => g.appendAll recs

end GroupBuilder

structure GroupView where
  buf : List UInt8
  n : Nat
  tstart : Nat

/-- The check of the slots that are left, the last offset known; none is the start of the loop. -/
def checkSlots (b : List UInt8) (tstart : Nat) : List Nat → Option Nat → Except GroupError Unit
  | [], _ => .ok ()
  | slot :: rest, prev =>
    let off := word b (tstart + 2 * slot) 2
    if prev.any (off ≤ ·) = true ∨ tstart ≤ off then .error (.outOfOrder slot off tstart) else checkSlots b tstart rest (some off)

def parseGroup (b : List UInt8) : Except GroupError GroupView :=
  if b.length < tableLen 0 then .error (.noTable b.length)
  else
    let n := word b (b.length - 2) 2
    if b.length < tableLen n then .error (.tableOverflow n b.length)
    else
      match checkSlots b (b.length - tableLen n) (List.range n) none with
      | .error err => .error err
      | .ok () => .ok ⟨b, n, b.length - tableLen n⟩

namespace GroupView

def slotOff (v : GroupView) (slot : Nat) : Nat := word v.buf (v.tstart + 2 * slot) 2

/-- The bytes from the slot's start to the next record, or to the table. -/
def record (v : GroupView) (slot : Nat) : Except GroupError (List UInt8) :=
  if v.n ≤ slot then .error (.noSlot slot v.n)
  else
    let stop := if slot + 1 < v.n then v.slotOff (slot + 1) else v.tstart
    .ok ((v.buf.take stop).drop (v.slotOff slot))

end GroupView

def offset (recs : List (List UInt8)) (i : Nat) : Nat := (recs.take i).flatten.length

structure Holds (recs : List (List UInt8)) (g : GroupBuilder) : Prop where
  data : g.data = recs.flatten
  slots : g.slots = (List.range recs.length).map (offset recs)
  room : g.used + tableLen recs.length ≤ g.cap
  filled : ∀ r ∈ recs, r ≠ []

section Offsets

variable {recs : List (List UInt8)}

theorem offset_append_left (more : List (List UInt8)) {i : Nat} (h : i ≤ recs.length) : offset (recs ++ more) i = offset recs i := by
  rw [offset, List.take_append_of_le_length h, offset]

theorem offset_length (recs : List (List UInt8)) : offset recs recs.length = recs.flatten.length := by rw [offset, List.take_length]

theorem offset_succ {i : Nat} {r : List UInt8} (h : recs[i]? = some r) : offset recs (i + 1) = offset recs i + r.length := by
  rw [offset, List.take_add_one, h, List.flatten_append, List.length_append, offset]
  simp

theorem offset_le_offset (recs : List (List UInt8)) {i j : Nat} (h : i ≤ j) : offset recs i ≤ offset recs j := by
  have htake : recs.take i = (recs.take j).take i := by rw [List.take_take, Nat.min_eq_left h]
  have happend : recs.take j = recs.take i ++ (recs.take j).drop i := by rw [htake, List.take_append_drop]
  rw [offset, offset, happend, List.flatten_append, List.length_append]
  exact Nat.le_add_right ..

theorem offset_le (recs : List (List UInt8)) (i : Nat) : offset recs i ≤ recs.flatten.length := by
  rcases Nat.le_total i recs.length with h | h
  · rw [← offset_length]
    exact offset_le_offset recs h
  · exact Nat.le_of_eq (by rw [offset, List.take_of_length_le h])

theorem offset_lt_succ (hf : ∀ r ∈ recs, r ≠ []) {i : Nat} (h : i < recs.length) : offset recs i < offset recs (i + 1) := by
  rw [offset_succ (List.getElem?_eq_getElem h)]
  have hpos := List.length_pos_of_ne_nil (hf _ (List.getElem_mem h))
  omega

theorem slice_record {i : Nat} {r : List UInt8} (h : recs[i]? = some r) :
    (recs.flatten.drop (offset recs i)).take r.length = r := by
  obtain ⟨hi, rfl⟩ := List.getElem?_eq_some_iff.mp h
  have hsplit : recs.flatten = (recs.take i).flatten ++ (recs[i] ++ (recs.drop (i + 1)).flatten) := by
    conv_lhs => rw [← List.take_append_drop i recs, List.flatten_append, List.drop_eq_getElem_cons hi, List.flatten_cons]
  rw [hsplit, offset, List.drop_left' rfl, List.take_left' rfl]

end Offsets

section Builder

variable {recs : List (List UInt8)} {g g' : GroupBuilder} {r : List UInt8} {slot : Nat}

theorem append_ok : g.append r = .ok (slot, g') ↔
    r ≠ [] ∧ g.slots.length < blobSlot ∧ g.used + r.length + tableLen (g.slots.length + 1) ≤ g.cap ∧ slot = g.slots.length ∧
      g' = { g with data := g.data ++ r, slots := g.slots ++ [g.used % 2 ^ 16] } := by
  unfold GroupBuilder.append
  split
  next h =>
    rw [List.length_eq_zero_iff] at h
    exact iff_of_false nofun fun h' => h'.1 h
  next hr =>
  have hr' : 0 < r.length := by omega
  split
  next h => exact iff_of_false nofun fun h' => by omega
  next hn =>
  split
  next h => exact iff_of_false nofun fun h' => of_decide_eq_false h ⟨hr', h'.2.2.1⟩
  next h =>
    have hfit := of_decide_eq_true ((Bool.not_eq_false _).mp h)
    have hb : blobSlot = 4095 := rfl
    rw [Except.ok.injEq, Prod.mk.injEq, Nat.mod_eq_of_lt (by omega)]
    constructor
    · rintro ⟨rfl, rfl⟩
      exact ⟨List.ne_nil_of_length_pos hr', by omega, hfit.2, rfl, rfl⟩
    · rintro ⟨-, -, -, rfl, rfl⟩
      exact ⟨rfl, rfl⟩

theorem holds_new {cap : Nat} (h : 2 ≤ cap) : Holds [] (newGroupBuilder cap) where
  data := rfl
  slots := rfl
  room := h
  filled := nofun

theorem Holds.length (h : Holds recs g) : g.slots.length = recs.length := by rw [h.slots, List.length_map, List.length_range]

theorem Holds.append (hh : Holds recs g) (hcap : g.cap ≤ groupSize) (h : g.append r = .ok (slot, g')) :
    slot = recs.length ∧ g'.cap = g.cap ∧ Holds (recs ++ [r]) g' := by
  obtain ⟨hr, -, hfit, rfl, rfl⟩ := append_ok.mp h
  have hused : g.used < 2 ^ 16 := by
    have hsize : groupSize = 4096 := rfl
    omega
  refine ⟨hh.length, rfl, ?_, ?_, ?_, ?_⟩
  · rw [hh.data, List.flatten_append]
    simp
  · have holds : (List.range recs.length).map (offset (recs ++ [r])) = (List.range recs.length).map (offset recs) :=
      List.map_congr_left fun i hi => offset_append_left _ (Nat.le_of_lt (List.mem_range.mp hi))
    have hlast : offset (recs ++ [r]) recs.length = g.used := by
      rw [offset_append_left _ (Nat.le_refl _), offset_length, ← hh.data, GroupBuilder.used]
    rw [hh.slots, Nat.mod_eq_of_lt hused, List.length_append, List.length_singleton, List.range_succ, List.map_append, holds,
      List.map_singleton, hlast]
  · rw [hh.length] at hfit
    simpa [GroupBuilder.used, Nat.add_assoc] using hfit
  · intro x hx
    rcases List.mem_append.mp hx with hx | hx
    · exact hh.filled x hx
    · rw [List.mem_singleton.mp hx]
      exact hr

theorem Holds.appendAll (more : List (List UInt8)) : ∀ {recs : List (List UInt8)} {g : GroupBuilder}, Holds recs g → g.cap ≤ groupSize →
    g.appendAll more = .ok g' → g'.cap = g.cap ∧ Holds (recs ++ more) g' := by
  induction more with
  | nil =>
    intro recs g hh _ h
    cases h
    exact ⟨rfl, (List.append_nil recs).symm ▸ hh⟩
  | cons r more ih =>
    intro recs g hh hcap h
    rw [GroupBuilder.appendAll] at h
    split at h
    · cases h
    next slot g₁ hg =>
      obtain ⟨-, hc, hh₁⟩ := hh.append hcap hg
      obtain ⟨hc', hh'⟩ := ih hh₁ (hc ▸ hcap) h
      rw [List.append_assoc] at hh'
      exact ⟨hc'.trans hc, hh'⟩

end Builder

section Image

variable {recs : List (List UInt8)} {g : GroupBuilder}

theorem layout_pairs_length (offs : List Nat) : (layout (offs.map (Prod.mk 2))).length = 2 * offs.length := by
  rw [layout_length]
  induction offs with
  | nil => rfl
  | cons o offs ih =>
    rw [List.map_cons, width, List.map_cons, List.sum_cons, ← width, ih, List.length_cons]
    omega

theorem word_pairs (offs : List Nat) (rest : List UInt8) {i : Nat} (h : i < offs.length) :
    word (layout (offs.map (Prod.mk 2)) ++ rest) (2 * i) 2 = offs[i] % 256 ^ 2 := by
  have hsplit : offs.map (Prod.mk 2) = (offs.take i).map (Prod.mk 2) ++ (2, offs[i]) :: (offs.drop (i + 1)).map (Prod.mk 2) := by
    conv_lhs => rw [← List.take_append_drop i offs, List.map_append, List.drop_eq_getElem_cons h, List.map_cons]
  have hwidth : width ((offs.take i).map (Prod.mk 2)) = 2 * i := by
    rw [← layout_length, layout_pairs_length, List.length_take, Nat.min_eq_left (Nat.le_of_lt h)]
  rw [hsplit, ← hwidth, word_layout]

theorem gap_length (g : GroupBuilder) : g.gap.length = g.tstart - g.used := by
  unfold GroupBuilder.gap
  split
  · rw [List.length_append, bytes_length, List.length_replicate]
    omega
  · rw [List.length_replicate]

theorem Holds.tstart (h : Holds recs g) : g.used ≤ g.tstart ∧ g.tstart + tableLen recs.length = g.cap := by
  have hroom := h.room
  rw [GroupBuilder.tstart, h.length]
  omega

theorem Holds.before_table (h : Holds recs g) : (g.data ++ g.gap).length = g.tstart := by
  rw [List.length_append, gap_length]
  have := h.tstart.1
  rw [GroupBuilder.used] at this ⊢
  omega

theorem Holds.image_length (h : Holds recs g) : g.image.length = g.cap := by
  have htab : g.table.length = 2 * recs.length := by rw [GroupBuilder.table, layout_pairs_length, h.length]
  rw [GroupBuilder.image, ← List.append_assoc, List.length_append, h.before_table, List.length_append, htab, bytes_length]
  have := h.tstart.2
  rw [tableLen] at this
  omega

theorem Holds.slot_word (h : Holds recs g) (hcap : g.cap ≤ groupSize) {i : Nat} (hi : i < recs.length) :
    word g.image (g.tstart + 2 * i) 2 = offset recs i := by
  have hlen : i < g.slots.length := h.length ▸ hi
  have hused := h.tstart.1
  have hend := h.tstart.2
  have hsize : groupSize = 4096 := rfl
  have hoff : offset recs i < 256 ^ 2 := by
    have hle := offset_le recs i
    rw [← h.data] at hle
    rw [GroupBuilder.used] at hused
    omega
  have hget : g.slots[i] = offset recs i := by simp only [h.slots, List.getElem_map, List.getElem_range]
  rw [GroupBuilder.image, ← List.append_assoc, ← h.before_table, word_skip, GroupBuilder.table, word_pairs _ _ hlen, hget,
    Nat.mod_eq_of_lt hoff]

theorem Holds.count_word (h : Holds recs g) (hcap : g.cap ≤ groupSize) : word g.image (g.cap - 2) 2 = recs.length := by
  have htab : g.table.length = 2 * recs.length := by rw [GroupBuilder.table, layout_pairs_length, h.length]
  have hend := h.tstart.2
  have hsize : groupSize = 4096 := rfl
  have hpos : g.cap - 2 = (g.data ++ g.gap ++ g.table).length + 0 := by
    rw [List.length_append, h.before_table, htab]
    rw [tableLen] at hend
    omega
  have hlast := word_bytes 2 g.slots.length []
  rw [List.append_nil, h.length] at hlast
  rw [GroupBuilder.image, ← List.append_assoc, ← List.append_assoc, hpos, word_skip, h.length, hlast]
  rw [tableLen] at hend
  exact Nat.mod_eq_of_lt (by omega)

theorem Holds.gap_word (h : Holds recs g) {p : Nat} (hp : g.used + 4 ≤ p) (hpt : p + 2 ≤ g.tstart) : word g.image p 2 = 0 := by
  have hgap : g.gap = bytes 4 padMarker ++ List.replicate (g.tstart - g.used - 4) 0 := by
    rw [GroupBuilder.gap, if_pos (by omega)]
  have hpre : (g.data ++ bytes 4 padMarker).length = g.used + 4 := by rw [List.length_append, bytes_length, GroupBuilder.used]
  have himage : g.image = (g.data ++ bytes 4 padMarker) ++
      (List.replicate (g.tstart - g.used - 4) 0 ++ (g.table ++ bytes 2 g.slots.length)) := by
    rw [GroupBuilder.image, hgap]
    simp only [List.append_assoc]
  have hzero : word (List.replicate (g.tstart - g.used - 4) 0 ++ (g.table ++ bytes 2 g.slots.length)) (p - (g.used + 4)) 2 =
      word [0, 0] 0 2 := by
    obtain ⟨k, hk⟩ : ∃ k, g.tstart - g.used - 4 = p - (g.used + 4) + (2 + k) := ⟨g.tstart - 2 - p, by omega⟩
    rw [word, word, hk, List.replicate_add, List.append_assoc, List.drop_left' (List.length_replicate ..), List.replicate_add,
      List.append_assoc, List.take_left' (List.length_replicate ..)]
    rfl
  rw [himage, show p = (g.data ++ bytes 4 padMarker).length + (p - (g.used + 4)) by omega, word_skip, hzero]
  rfl

end Image

section Parse

variable {b : List UInt8} {v : GroupView}

theorem checkSlots_ok {tstart : Nat} (n : Nat) : ∀ {s : Nat} {prev : Option Nat},
    checkSlots b tstart (List.range' s n) prev = .ok () ↔
      (∀ i, s ≤ i → i < s + n → word b (tstart + 2 * i) 2 < tstart) ∧ (∀ p, prev = some p → 0 < n → p < word b (tstart + 2 * s) 2) ∧
        ∀ i, s ≤ i → i + 1 < s + n → word b (tstart + 2 * i) 2 < word b (tstart + 2 * (i + 1)) 2 := by
  induction n with
  | zero =>
    intro s prev
    exact iff_of_true rfl ⟨fun i h h' => by omega, nofun, fun i h h' => by omega⟩
  | succ n ih =>
    intro s prev
    rw [List.range'_succ, checkSlots]
    split
    next hbad =>
      refine iff_of_false nofun fun ⟨hlt, hprev, _⟩ => ?_
      rcases hbad with hp | ht
      · obtain ⟨p, hprev', hle⟩ := (Option.any_eq_true _ _).mp hp
        have := hprev p hprev' (Nat.succ_pos n)
        have := of_decide_eq_true hle
        omega
      · have := hlt s (Nat.le_refl _) (by omega)
        omega
    next hok =>
      rw [not_or] at hok
      rw [ih]
      constructor
      · rintro ⟨hlt, hprev, hinc⟩
        refine ⟨fun i hi hin => ?_, fun p hp _ => ?_, fun i hi hin => ?_⟩
        · rcases Nat.eq_or_lt_of_le hi with rfl | hi
          · omega
          · exact hlt i hi (by omega)
        · refine Nat.lt_of_not_le fun hle => hok.1 ?_
          rw [hp]
          exact decide_eq_true hle
        · rcases Nat.eq_or_lt_of_le hi with rfl | hi
          · exact hprev _ rfl (by omega)
          · exact hinc i hi (by omega)
      · rintro ⟨hlt, -, hinc⟩
        refine ⟨fun i hi hin => hlt i (by omega) (by omega), fun p hp hn => ?_, fun i hi hin => hinc i (by omega) (by omega)⟩
        cases hp
        exact hinc s (Nat.le_refl _) (by omega)

theorem checkSlots_range (n tstart : Nat) : checkSlots b tstart (List.range n) none = .ok () ↔
    (∀ i < n, word b (tstart + 2 * i) 2 < tstart) ∧ ∀ i, i + 1 < n → word b (tstart + 2 * i) 2 < word b (tstart + 2 * (i + 1)) 2 := by
  rw [List.range_eq_range', checkSlots_ok]
  refine ⟨fun h => ⟨fun i hi => h.1 i (Nat.zero_le i) (by omega), fun i hi => h.2.2 i (Nat.zero_le i) (by omega)⟩,
    fun h => ⟨fun i _ hi => h.1 i (by omega), nofun, fun i _ hi => h.2 i (by omega)⟩⟩

theorem parseGroup_ok : parseGroup b = .ok v ↔
    (v.buf = b ∧ 2 ≤ b.length ∧ v.n = word b (b.length - 2) 2 ∧ v.tstart + tableLen v.n = b.length) ∧
      (∀ i < v.n, v.slotOff i < v.tstart) ∧ ∀ i, i + 1 < v.n → v.slotOff i < v.slotOff (i + 1) := by
  obtain ⟨buf, n, tstart⟩ := v
  have hplace (h : 2 ≤ b.length) (ht : tableLen (word b (b.length - 2) 2) ≤ b.length) :
      (buf = b ∧ 2 ≤ b.length ∧ n = word b (b.length - 2) 2 ∧ tstart + tableLen n = b.length) ↔
        b = buf ∧ word b (b.length - 2) 2 = n ∧ b.length - tableLen (word b (b.length - 2) 2) = tstart := by
    constructor
    · rintro ⟨rfl, -, rfl, hts⟩
      exact ⟨rfl, rfl, by omega⟩
    · rintro ⟨rfl, rfl, rfl⟩
      exact ⟨rfl, h, rfl, by omega⟩
  unfold parseGroup
  split
  next h => exact iff_of_false nofun fun h' => absurd h'.1.2.1 (Nat.not_le.mpr h)
  next h =>
  simp only
  split
  next hover =>
    refine iff_of_false nofun fun ⟨⟨_, _, hn, hts⟩, _⟩ => ?_
    rw [← hn] at hover
    omega
  next hroom =>
  rw [hplace (Nat.not_lt.mp h) (Nat.not_lt.mp hroom)]
  split
  next err herr =>
    refine iff_of_false nofun ?_
    rintro ⟨⟨rfl, rfl, rfl⟩, hslots⟩
    rw [(checkSlots_range _ _).mpr hslots] at herr
    cases herr
  next hok =>
    rw [Except.ok.injEq, GroupView.mk.injEq]
    refine ⟨fun hv => ⟨hv, ?_⟩, fun hv => hv.1⟩
    obtain ⟨rfl, rfl, rfl⟩ := hv
    exact (checkSlots_range _ _).mp hok

end Parse

/-- Bytes that end with the table of a group's image are accepted, with the group's records. -/
theorem Holds.parse_of_table {recs : List (List UInt8)} {g : GroupBuilder} (h : Holds recs g) (hcap : g.cap ≤ groupSize)
    {b : List UInt8} (hlen : b.length = g.image.length) (hsame : ∀ j, g.tstart ≤ j → j < g.cap → b[j]? = g.image[j]?) :
    parseGroup b = .ok ⟨b, recs.length, g.tstart⟩ := by
  obtain ⟨hused, hend⟩ := h.tstart
  rw [h.image_length] at hlen
  rw [tableLen] at hend
  have hword (p : Nat) (hp : g.tstart ≤ p) (hpc : p + 2 ≤ g.cap) : word b p 2 = word g.image p 2 :=
    word_congr fun j hj hjp => hsame j (by omega) (by omega)
  have hoff (i : Nat) (hi : i < recs.length) : (GroupView.mk b recs.length g.tstart).slotOff i = offset recs i :=
    (hword (g.tstart + 2 * i) (by omega) (by omega)).trans (h.slot_word hcap hi)
  refine parseGroup_ok.mpr ⟨⟨rfl, ?_, ?_, ?_⟩, fun i hi => ?_, fun i hi => ?_⟩
  · omega
  · rw [hlen, hword _ (by omega) (by omega), h.count_word hcap]
  · rw [hlen, tableLen]
    exact hend
  · have hlt := offset_lt_succ h.filled hi
    have hle := offset_le recs (i + 1)
    rw [hoff i hi]
    rw [← h.data, ← GroupBuilder.used] at hle
    exact Nat.lt_of_lt_of_le hlt (Nat.le_trans hle hused)
  · rw [hoff i (Nat.lt_of_succ_lt hi), hoff (i + 1) hi]
    exact offset_lt_succ h.filled (Nat.lt_of_succ_lt hi)

def sectorSize : Nat := 512

/-- What is on disk when some of the sectors of the newer image have been written over the older one. -/
def torn (pick : Nat → Bool) (base : Nat) (old new : List UInt8) : List UInt8 :=
  (old.zip new).mapIdx fun j pair => if pick ((base + j) / sectorSize) then pair.2 else pair.1

/-- All sectors of the older table were left alone, or all of the newer one's were written. -/
def TableWhole (pick : Nat → Bool) (base : Nat) (g h : GroupBuilder) : Prop :=
  (∀ j, g.tstart ≤ j → j < g.cap → pick ((base + j) / sectorSize) = false) ∨
    ∀ j, h.tstart ≤ j → j < h.cap → pick ((base + j) / sectorSize) = true

/-- An image of this capacity stands at this file offset: group 0 starts behind the extent's header. -/
def Placed (base cap : Nat) : Prop :=
  (∃ k, base = groupSize * k ∧ cap = groupSize) ∨ ∃ k, base = groupSize * k + extentHeaderSize ∧ cap = group0Payload

theorem Placed.aligned {base cap : Nat} (h : Placed base cap) :
    base % 2 = 0 ∧ cap % 2 = 0 ∧ (base + cap) % sectorSize = 0 ∧ 4 ≤ cap ∧ cap ≤ groupSize := by
  rw [sectorSize]
  rcases h with ⟨k, rfl, rfl⟩ | ⟨k, rfl, rfl⟩
  · rw [groupSize]
    omega
  · rw [group0Payload, groupSize, extentHeaderSize]
    omega

section Torn

variable (pick : Nat → Bool) (base : Nat) {old new : List UInt8}

theorem torn_length (hlen : old.length = new.length) : (torn pick base old new).length = old.length := by
  rw [torn, List.length_mapIdx, List.length_zip, hlen, Nat.min_self]

theorem torn_getElem? (hlen : old.length = new.length) (j : Nat) :
    (torn pick base old new)[j]? = if pick ((base + j) / sectorSize) then new[j]? else old[j]? := by
  rw [torn, List.getElem?_mapIdx]
  rcases Nat.lt_or_ge j old.length with hj | hj
  · rw [List.getElem?_eq_getElem (by rw [List.length_zip]; omega), Option.map_some, List.getElem_zip,
      List.getElem?_eq_getElem (hlen ▸ hj), List.getElem?_eq_getElem hj]
    split
    · rfl
    · rfl
  · rw [List.getElem?_eq_none (by rw [List.length_zip]; omega), Option.map_none, List.getElem?_eq_none (hlen ▸ hj),
      List.getElem?_eq_none hj, ite_self]

/-- A word at an even file offset is of one of the images. -/
theorem torn_word (hlen : old.length = new.length) {p : Nat} (hp : (base + p) % 2 = 0) :
    word (torn pick base old new) p 2 = if pick ((base + p) / sectorSize) then word new p 2 else word old p 2 := by
  have hsame (j : Nat) (hj : p ≤ j) (hjp : j < p + 2) : (base + j) / sectorSize = (base + p) / sectorSize := by
    rw [sectorSize]
    omega
  split
  next hpick =>
    refine word_congr fun j hj hjp => ?_
    rw [torn_getElem? pick base hlen, hsame j hj hjp, if_pos hpick]
  next hpick =>
    refine word_congr fun j hj hjp => ?_
    rw [torn_getElem? pick base hlen, hsame j hj hjp, if_neg hpick]

end Torn

/-- An image and a fuller one of the same group, at one place of the file. -/
structure Rewrite (as bs : List (List UInt8)) (base : Nat) (g h : GroupBuilder) : Prop where
  placed : Placed base g.cap
  before : Holds as g
  after : Holds (as ++ bs) h
  cap : h.cap = g.cap
  long : ∀ b ∈ bs, 4 ≤ b.length

namespace Rewrite

variable {as bs : List (List UInt8)} {base : Nat} {g h : GroupBuilder} {pick : Nat → Bool} {v : GroupView}

theorem lengths (hr : Rewrite as bs base g h) : g.image.length = h.image.length := by
  rw [hr.before.image_length, hr.after.image_length, hr.cap]

theorem tstarts (hr : Rewrite as bs base g h) : h.tstart + 2 * bs.length = g.tstart := by
  have h₁ := hr.before.tstart.2
  have h₂ := hr.after.tstart.2
  have hcap := hr.cap
  rw [List.length_append] at h₂
  unfold tableLen at h₁ h₂
  omega

theorem used_add (hr : Rewrite as bs base g h) : h.used = g.used + bs.flatten.length := by
  rw [GroupBuilder.used, hr.after.data, List.flatten_append, List.length_append, ← hr.before.data, GroupBuilder.used]

theorem four_le (hr : Rewrite as bs base g h) (hne : 0 < bs.length) : 4 ≤ bs.flatten.length := by
  obtain ⟨b, hb⟩ := List.exists_mem_of_length_pos hne
  exact Nat.le_trans (hr.long b hb) (List.sublist_flatten_of_mem hb).length_le

/-- The older image where the newer one has slot `i`: the slot that many records earlier, or the zeros before the table. -/
theorem old_word (hr : Rewrite as bs base g h) {i : Nat} (hi : i < as.length + bs.length) :
    word g.image (h.tstart + 2 * i) 2 = offset (as ++ bs) (i - bs.length) := by
  have hts := hr.tstarts
  rcases Nat.lt_or_ge i bs.length with hlt | hge
  · have hfour := hr.four_le (by omega)
    have hused := hr.used_add
    have hle := hr.after.tstart.1
    rw [hr.before.gap_word (by omega) (by omega), Nat.sub_eq_zero_of_le (Nat.le_of_lt hlt)]
    rfl
  · rw [show h.tstart + 2 * i = g.tstart + 2 * (i - bs.length) by omega, hr.before.slot_word hr.placed.aligned.2.2.2.2 (by omega),
      offset_append_left _ (by omega)]

/-- The newer image where the older one has slot `i`: the slot that many records later. -/
theorem new_word (hr : Rewrite as bs base g h) {i : Nat} (hi : i < as.length) :
    word h.image (g.tstart + 2 * i) 2 = offset (as ++ bs) (i + bs.length) := by
  have hts := hr.tstarts
  rw [show g.tstart + 2 * i = h.tstart + 2 * (i + bs.length) by omega,
    hr.after.slot_word (hr.cap ▸ hr.placed.aligned.2.2.2.2) (by rw [List.length_append]; omega)]

theorem table_even (hr : Rewrite as bs base g h) (i : Nat) : (base + (g.tstart + 2 * i)) % 2 = 0 ∧ (base + (h.tstart + 2 * i)) % 2 = 0 := by
  obtain ⟨hbase, hcap, -⟩ := hr.placed.aligned
  have hts := hr.tstarts
  have hend := hr.before.tstart.2
  rw [tableLen] at hend
  omega

/-- A mixture whose last sector is of the older image and whose offsets increase has the older table. -/
theorem old_table (hr : Rewrite as bs base g h) (hlast : pick ((base + (g.cap - 2)) / sectorSize) = false)
    (hinc : ∀ i, i + 1 < as.length → word (torn pick base g.image h.image) (g.tstart + 2 * i) 2 <
      word (torn pick base g.image h.image) (g.tstart + 2 * (i + 1)) 2) {i : Nat} (hi : i < as.length) :
    word (torn pick base g.image h.image) (g.tstart + 2 * i) 2 = offset (as ++ bs) i := by
  have hword (i : Nat) (hi : i < as.length) : word (torn pick base g.image h.image) (g.tstart + 2 * i) 2 =
      if pick ((base + (g.tstart + 2 * i)) / sectorSize) then offset (as ++ bs) (i + bs.length) else offset (as ++ bs) i := by
    rw [torn_word pick base hr.lengths (hr.table_even i).1, hr.new_word hi, hr.before.slot_word hr.placed.aligned.2.2.2.2 hi,
      offset_append_left _ (Nat.le_of_lt hi)]
  obtain ⟨d, hd⟩ : ∃ d, i + d + 1 = as.length := ⟨as.length - i - 1, by omega⟩
  -- from the last slot down: a newer slot would not be below the older one after it
  induction d generalizing i with
  | zero =>
    have hend := hr.before.tstart.2
    obtain ⟨-, -, halign, hfour, -⟩ := hr.placed.aligned
    have hsector : (base + (g.tstart + 2 * i)) / sectorSize = (base + (g.cap - 2)) / sectorSize := by
      rw [tableLen] at hend
      rw [sectorSize] at halign ⊢
      omega
    rw [hword i hi, hsector, hlast, if_neg Bool.false_ne_true]
  | succ d ih =>
    have hnext := ih (i := i + 1) (by omega) (by omega)
    have hlt := hinc i (by omega)
    rw [hnext, hword i hi] at hlt
    rw [hword i hi]
    split at hlt
    next hpick =>
      rw [if_pos hpick]
      rcases Nat.eq_zero_or_pos bs.length with hz | hpos
      · rw [hz, Nat.add_zero]
      · have := offset_le_offset (as ++ bs) (show i + 1 ≤ i + bs.length by omega)
        omega
    next hpick => rw [if_neg hpick]

/-- A mixture whose last sector is of the newer image and whose offsets increase has the newer table. -/
theorem new_table (hr : Rewrite as bs base g h)
    (hinc : ∀ i, i + 1 < as.length + bs.length → word (torn pick base g.image h.image) (h.tstart + 2 * i) 2 <
      word (torn pick base g.image h.image) (h.tstart + 2 * (i + 1)) 2) {i : Nat} (hi : i < as.length + bs.length) :
    word (torn pick base g.image h.image) (h.tstart + 2 * i) 2 = offset (as ++ bs) i := by
  have hword (i : Nat) (hi : i < as.length + bs.length) : word (torn pick base g.image h.image) (h.tstart + 2 * i) 2 =
      if pick ((base + (h.tstart + 2 * i)) / sectorSize) then offset (as ++ bs) i else offset (as ++ bs) (i - bs.length) := by
    rw [torn_word pick base hr.lengths (hr.table_even i).2, hr.old_word hi,
      hr.after.slot_word (hr.cap ▸ hr.placed.aligned.2.2.2.2) (by rw [List.length_append]; exact hi)]
  -- from the first slot up: an older slot would not be above the newer one before it
  induction i with
  | zero =>
    rw [hword 0 hi, Nat.zero_sub, ite_self]
  | succ i ih =>
    have hlt := hinc i hi
    rw [ih (by omega), hword (i + 1) hi] at hlt
    rw [hword (i + 1) hi]
    split at hlt
    next hpick => rw [if_pos hpick]
    next hpick =>
      rw [if_neg hpick]
      rcases Nat.eq_zero_or_pos bs.length with hz | hpos
      · rw [hz, Nat.sub_zero]
      · have := offset_le_offset (as ++ bs) (show i + 1 - bs.length ≤ i by omega)
        omega

/-- The settled records are the same bytes in both images. -/
theorem settled (hr : Rewrite as bs base g h) (pick : Nat → Bool) : (torn pick base g.image h.image).take g.used = as.flatten := by
  refine List.ext_getElem? fun j => ?_
  rcases Nat.lt_or_ge j g.used with hj | hj
  · have hold : g.image[j]? = as.flatten[j]? := by
      rw [GroupBuilder.image, List.getElem?_append_left hj, hr.before.data]
    have hnew : h.image[j]? = as.flatten[j]? := by
      have hlen : j < as.flatten.length := hr.before.data ▸ hj
      rw [GroupBuilder.image, List.getElem?_append_left (by rw [← GroupBuilder.used, hr.used_add]; omega), hr.after.data,
        List.flatten_append, List.getElem?_append_left hlen]
    rw [List.getElem?_take_of_lt hj, torn_getElem? pick base hr.lengths, hold, hnew, ite_self]
  · rw [List.getElem?_take, if_neg (Nat.not_lt.mpr hj), ← hr.before.data, List.getElem?_eq_none hj]

/-- An accepted mixture has the table of one of the two images, and no table runs into the settled records. -/
theorem parsed (hr : Rewrite as bs base g h) (hv : parseGroup (torn pick base g.image h.image) = .ok v) :
    v.buf = torn pick base g.image h.image ∧ (v.n = as.length ∨ v.n = as.length + bs.length) ∧ g.used ≤ v.tstart ∧
      ∀ i < v.n, v.slotOff i = offset (as ++ bs) i := by
  obtain ⟨⟨hbuf, -, hn, hend⟩, -, hinc⟩ := parseGroup_ok.mp hv
  obtain ⟨hbase, hcap, halign, hfour, hmax⟩ := hr.placed.aligned
  rw [torn_length pick base hr.lengths, hr.before.image_length] at hn hend
  have hold := hr.before.tstart
  have hnew := hr.after.tstart
  have hused := hr.used_add
  rw [List.length_append, hr.cap] at hnew
  have hcount := torn_word pick base hr.lengths (p := g.cap - 2) (by omega)
  have hcnew := hr.after.count_word (hr.cap ▸ hmax)
  rw [hr.cap, List.length_append] at hcnew
  rw [hr.before.count_word hmax, hcnew, ← hn] at hcount
  unfold GroupView.slotOff at hinc ⊢
  rw [hbuf] at hinc ⊢
  refine ⟨rfl, ?_⟩
  split at hcount
  next hpick =>
    have hts : v.tstart = h.tstart := by
      rw [hcount] at hend
      omega
    rw [hts, hcount] at hinc
    refine ⟨.inr hcount, by omega, ?_⟩
    rw [hts, hcount]
    exact fun i hi => hr.new_table hinc hi
  next hpick =>
    have hts : v.tstart = g.tstart := by
      rw [hcount] at hend
      omega
    rw [hts, hcount] at hinc
    refine ⟨.inl hcount, by omega, ?_⟩
    rw [hts, hcount]
    exact fun i hi => hr.old_table (Bool.eq_false_iff.mpr hpick) hinc hi

/-- Each settled record comes back under its slot; only the last one of the view may carry the gap after it. -/
theorem record_eq (hr : Rewrite as bs base g h) (hv : parseGroup (torn pick base g.image h.image) = .ok v) {slot : Nat}
    {a : List UInt8} (ha : as[slot]? = some a) : ∃ tail, v.record slot = .ok (a ++ tail) ∧ (slot + 1 < v.n → tail = []) := by
  obtain ⟨hbuf, hn, hts, hoff⟩ := hr.parsed hv
  obtain ⟨hslot, -⟩ := List.getElem?_eq_some_iff.mp ha
  have hall : (as ++ bs)[slot]? = some a := by rw [List.getElem?_append_left hslot, ha]
  have hnext := offset_succ hall
  have hin : offset (as ++ bs) (slot + 1) ≤ g.used := by
    rw [offset_append_left _ hslot, GroupBuilder.used, hr.before.data]
    exact offset_le _ _
  have hbytes : (v.buf.drop (offset (as ++ bs) slot)).take a.length = a := by
    have hslice := slice_record ha
    rw [← hr.settled pick, ← hbuf, ← offset_append_left bs (Nat.le_of_lt hslot), List.drop_take, List.take_take] at hslice
    rwa [Nat.min_eq_left (by omega)] at hslice
  have hcut (stop : Nat) (hstop : offset (as ++ bs) slot + a.length ≤ stop) : (v.buf.take stop).drop (offset (as ++ bs) slot) =
      a ++ (v.buf.take stop).drop (offset (as ++ bs) slot + a.length) := by
    conv_lhs => rw [← List.take_append_drop a.length ((v.buf.take stop).drop _), List.drop_drop, List.drop_take, List.take_take,
      Nat.min_eq_left (by omega), hbytes]
  unfold GroupView.record
  rw [if_neg (by omega)]
  simp only [hoff slot (by omega)]
  split
  next hmore =>
    rw [hoff (slot + 1) hmore, hnext, hcut _ (Nat.le_refl _)]
    refine ⟨_, rfl, fun _ => List.drop_eq_nil_of_le ?_⟩
    rw [List.length_take]
    exact Nat.min_le_left ..
  next hdone =>
    rw [hcut _ (by omega)]
    exact ⟨_, rfl, fun h => absurd h hdone⟩

theorem accepted (hr : Rewrite as bs base g h) (pick : Nat → Bool) (htable : TableWhole pick base g h) :
    ∃ v, parseGroup (torn pick base g.image h.image) = .ok v := by
  rcases htable with hold | hnew
  · refine ⟨_, hr.before.parse_of_table hr.placed.aligned.2.2.2.2 ?_ fun j hj hjc => ?_⟩
    · rw [torn_length pick base hr.lengths]
    · rw [torn_getElem? pick base hr.lengths, hold j hj hjc, if_neg Bool.false_ne_true]
  · refine ⟨_, hr.after.parse_of_table (hr.cap ▸ hr.placed.aligned.2.2.2.2) ?_ fun j hj hjc => ?_⟩
    · rw [torn_length pick base hr.lengths, hr.lengths]
    · rw [torn_getElem? pick base hr.lengths, hnew j hj hjc, if_pos rfl]

theorem of_appends {crc : List UInt8 → UInt32} {cap : Nat} (hp : Placed base cap) (hrec : ∀ r ∈ as ++ bs, Envelope.Encoded crc r)
    (hg : (newGroupBuilder cap).appendAll as = .ok g) (hh : g.appendAll bs = .ok h) : Rewrite as bs base g h := by
  obtain ⟨-, -, -, hfour, hmax⟩ := hp.aligned
  obtain ⟨hcap, hold⟩ := (holds_new (Nat.le_of_lt (Nat.lt_of_succ_lt hfour))).appendAll as hmax hg
  change g.cap = cap at hcap
  obtain ⟨hcap', hnew⟩ := hold.appendAll bs (hcap ▸ hmax) hh
  refine ⟨hcap ▸ hp, hold, hnew, hcap', fun b hb => ?_⟩
  obtain ⟨r, hr⟩ := hrec b (List.mem_append_right as hb)
  have hframed := (Envelope.encode_framed hr []).2.1
  omega

end Rewrite

/-- However the sectors of a rewrite are torn, a reader refuses the group or gives back every settled record under its slot,
where it decodes as it was written; it refuses none whose table is wholly the older or wholly the newer one. -/
theorem torn_rewrite_keeps_records (crc : List UInt8 → UInt32) {base cap : Nat} (hp : Placed base cap) {as bs : List (List UInt8)}
    {g h : GroupBuilder} (hrec : ∀ r ∈ as ++ bs, Envelope.Encoded crc r) (hg : (newGroupBuilder cap).appendAll as = .ok g)
    (hh : g.appendAll bs = .ok h) (pick : Nat → Bool) :
    ((∃ err, parseGroup (torn pick base g.image h.image) = .error err) ∨
      ∃ v, parseGroup (torn pick base g.image h.image) = .ok v ∧ (v.n = as.length ∨ v.n = as.length + bs.length) ∧
        ∀ slot a, as[slot]? = some a → ∃ tail, v.record slot = .ok (a ++ tail) ∧ (slot + 1 < v.n → tail = []) ∧
          ∃ r, Envelope.encode crc r = .ok a ∧ Envelope.decodeRecord crc (a ++ tail) = .ok r.stored) ∧
    (TableWhole pick base g h → ∃ v, parseGroup (torn pick base g.image h.image) = .ok v) := by
  have hr := Rewrite.of_appends hp hrec hg hh
  refine ⟨?_, hr.accepted pick⟩
  cases hv : parseGroup (torn pick base g.image h.image) with
  | error err => exact .inl ⟨err, rfl⟩
  | ok v =>
    refine .inr ⟨v, rfl, (hr.parsed hv).2.1, fun slot a ha => ?_⟩
    obtain ⟨tail, hrecord, htail⟩ := hr.record_eq hv ha
    obtain ⟨r, henc⟩ := hrec a (List.mem_append_left bs (List.mem_of_getElem? ha))
    exact ⟨tail, hrecord, htail, r, henc, Envelope.decodeRecord_encode henc tail⟩

/-- A string record of one byte under a checksum that is always zero. -/
def shortRecord (key value : UInt8) : List UInt8 := [18, 0, 0, 0, 1, 0, 1, 0, 1, 0, 0, 0, key, value, 0, 0, 0, 0]

def shortGroup : GroupBuilder := ⟨group0Payload, shortRecord 97 1, [0]⟩

def fullerGroup : GroupBuilder := ⟨group0Payload, shortRecord 97 1 ++ shortRecord 98 2, [0, 18]⟩

/-- Every sector but the last has been written: the first record is there as it was. -/
theorem torn_first_group_keeps_record :
    ∃ v, parseGroup (torn (fun s => decide (s < 7)) extentHeaderSize shortGroup.image fullerGroup.image) = .ok v ∧
      ∃ tail, v.record 0 = .ok (shortRecord 97 1 ++ tail) ∧
        ∃ r, Envelope.encode (fun _ => 0) r = .ok (shortRecord 97 1) ∧
          Envelope.decodeRecord (fun _ => 0) (shortRecord 97 1 ++ tail) = .ok r.stored := by
  have henc : ∀ r ∈ [shortRecord 97 1] ++ [shortRecord 98 2], Envelope.Encoded (fun _ => 0) r := by
    intro r hr
    rcases List.mem_cons.mp hr with rfl | hr
    · exact ⟨⟨1, 0, [97], [1], 0, 0⟩, by decide +kernel⟩
    · rw [List.mem_singleton.mp hr]
      exact ⟨⟨1, 0, [98], [2], 0, 0⟩, by decide +kernel⟩
  have hplaced : Placed extentHeaderSize group0Payload := .inr ⟨0, rfl, rfl⟩
  have hwhole : TableWhole (fun s => decide (s < 7)) extentHeaderSize shortGroup fullerGroup := .inl fun j hj _ => by
    have hts : shortGroup.tstart = 4028 := rfl
    refine decide_eq_false (Nat.not_lt.mpr ?_)
    rw [extentHeaderSize, sectorSize]
    omega
  obtain ⟨hkept, hok⟩ := torn_rewrite_keeps_records (fun _ => 0) hplaced henc (g := shortGroup) (h := fullerGroup) rfl rfl
    (fun s => decide (s < 7))
  obtain ⟨w, hw⟩ := hok hwhole
  rcases hkept with ⟨err, herr⟩ | ⟨v, hv, -, hrec⟩
  · rw [hw] at herr
    cases herr
  · obtain ⟨tail, hv0, -, hdec⟩ := hrec 0 _ rfl
    exact ⟨v, hv, tail, hv0, hdec⟩

end RawGroup

end Aki.Sqlo1b
