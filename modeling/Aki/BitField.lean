import Aki.MsbBits

namespace Aki.BitField

open MsbBits

/-- The bytes that cover a field, in the nine bytes of the buffer. -/
def covering (v : List UInt8) (b0 n : Nat) : List UInt8 := (List.range 9).map fun j => if j < n then v.getD (b0 + j) 0 else 0

def span (off width : Nat) : Nat := (off + width - 1) / 8 - off / 8 + 1

def fieldGet (v : List UInt8) (off width : Nat) : Nat :=
  (List.range width).foldl (fun acc i => (acc <<< 1 ||| (bit (covering v (off / 8) (span off width)) (off % 8 + i)).toNat) % 2 ^ 64) 0

def maxKey : Nat := 65535

def maxValueLen : Nat := 512 * 2 ^ 20

inductive SetError where
  | emptyKey
  | tooBig
  | full
  deriving DecidableEq, Repr

/-- What a write is made under: the key, and when the arena refuses an allocation, the value that leaves (a chunk patched before it
stays patched). -/
structure Slot where
  key : List UInt8
  refused : Option (List UInt8)

/-- The value's bytes with zeros up to the patch, then the patch. -/
def patchValue (v : List UInt8) (off : Nat) (val : List UInt8) : List UInt8 :=
  let padded := v ++ List.replicate (off + val.length - v.length) 0
  padded.take off ++ val ++ padded.drop (off + val.length)

def setRange (s : Slot) (v : List UInt8) (off : Nat) (val : List UInt8) : List UInt8 × Option SetError :=
  if s.key = [] then (v, some .emptyKey)
  else if maxKey < s.key.length then (v, some .tooBig)
  else if maxValueLen < off + val.length then (v, some .tooBig)
  else
    match s.refused with
    | some left => (left, some .full)
    | none => (patchValue v off val, none)

def fieldSet (s : Slot) (v : List UInt8) (off width val : Nat) : List UInt8 × Option SetError :=
  setRange s v (off / 8)
    ((splice (covering v (off / 8) (span off width)) (off % 8) width fun i => val.testBit (width - 1 - i)).take (span off width))

/-- The write of a field goes through: a key of 1 to 65535 bytes, a field inside the longest value, and room for it. -/
structure Slot.Takes (s : Slot) (off width : Nat) : Prop where
  key_ne : s.key ≠ []
  key_le : s.key.length ≤ maxKey
  off_le : off + width ≤ 2 ^ 32
  room : s.refused = none

section Fields

variable {s : Slot} {v val : List UInt8} {off width : Nat}

theorem covering_length (v : List UInt8) (b0 n : Nat) : (covering v b0 n).length = 9 := by simp [covering]

theorem span_le (h : width ≤ 64) : span off width ≤ 9 := by
  rw [span]
  omega

theorem bit_covering {b0 n i : Nat} (hn : n ≤ 9) (hi : i / 8 < n) : bit (covering v b0 n) i = bit v (8 * b0 + i) := by
  have hget : (covering v b0 n).getD (i / 8) 0 = v.getD (b0 + i / 8) 0 := by
    rw [List.getD_eq_getElem?_getD, covering, List.getElem?_map, List.getElem?_range (by omega), Option.map_some, Option.getD_some,
      if_pos hi]
  rw [bit, bit, hget, show (8 * b0 + i) / 8 = b0 + i / 8 by omega, show (8 * b0 + i) % 8 = i % 8 by omega]

theorem fieldGet_eq (h : width ≤ 64) : fieldGet v off width = number (fun i => bit v (off + i)) width := by
  have hbits : ∀ i < width, bit (covering v (off / 8) (span off width)) (off % 8 + i) = bit v (off + i) := by
    intro i hi
    rw [bit_covering (span_le h) (by rw [span]; omega), ← Nat.add_assoc, Nat.div_add_mod]
  have hfold : ∀ (g : Nat → Bool) (w : Nat), w ≤ 64 →
      (List.range w).foldl (fun acc i => (acc <<< 1 ||| (g i).toNat) % 2 ^ 64) 0 = number g w := by
    intro g w
    induction w with
    | zero => exact fun _ => rfl
    | succ w ih =>
      intro hw
      have hlt := number_lt g (w + 1)
      have hle : 2 ^ (w + 1) ≤ 2 ^ 64 := Nat.pow_le_pow_right (by decide) hw
      rw [List.range_succ, List.foldl_append, List.foldl_cons, List.foldl_nil, ih (by omega),
        ← Nat.shiftLeft_add_eq_or_of_lt (show (g w).toNat < 2 ^ 1 from Bool.toNat_lt _), Nat.shiftLeft_eq, Nat.mul_comm, Nat.pow_one,
        ← number_succ, Nat.mod_eq_of_lt (Nat.lt_of_lt_of_le hlt hle)]
  rw [fieldGet, hfold _ _ h]
  exact number_congr hbits

theorem getD_patchValue (v : List UInt8) (off : Nat) (val : List UInt8) (j : Nat) :
    (patchValue v off val).getD j 0 = if off ≤ j ∧ j < off + val.length then val.getD (j - off) 0 else v.getD j 0 := by
  have hpad (j : Nat) : (v ++ List.replicate (off + val.length - v.length) 0).getD j 0 = v.getD j 0 := by
    rw [List.getD_eq_getElem?_getD, List.getD_eq_getElem?_getD, List.getElem?_append]
    split
    · rfl
    next hj =>
      rw [List.getElem?_replicate, List.getElem?_eq_none (Nat.le_of_not_lt hj)]
      split <;> rfl
  generalize hp : v ++ List.replicate (off + val.length - v.length) 0 = padded at hpad
  have hlen : off + val.length ≤ padded.length := by rw [← hp, List.length_append, List.length_replicate]; omega
  rw [patchValue, hp, ← hpad]
  rw [List.getD_eq_getElem?_getD, List.getD_eq_getElem?_getD, List.getD_eq_getElem?_getD, List.append_assoc, List.getElem?_append,
    List.length_take, Nat.min_eq_left (by omega)]
  by_cases h₁ : j < off
  · rw [if_pos h₁, if_neg (by omega), List.getElem?_take_of_lt h₁]
  · rw [if_neg h₁, List.getElem?_append]
    by_cases h₂ : j - off < val.length
    · rw [if_pos h₂, if_pos (by omega)]
    · rw [if_neg h₂, if_neg (by omega), List.getElem?_drop, show off + val.length + (j - off - val.length) = j by omega]

theorem patch_length (h : width ≤ 64) (f : Nat → Bool) :
    ((splice (covering v (off / 8) (span off width)) (off % 8) width f).take (span off width)).length = span off width := by
  rw [List.length_take, splice_length, covering_length, Nat.min_eq_left (span_le h)]

theorem setRange_ok {b0 : Nat} : (setRange s v b0 val).2 = none ↔
    s.key ≠ [] ∧ s.key.length ≤ maxKey ∧ b0 + val.length ≤ maxValueLen ∧ s.refused = none := by
  unfold setRange
  split
  next hk => simp [hk]
  next hk =>
    split
    next hl => simp; omega
    next hl =>
      split
      next he => simp; omega
      next he => cases hr : s.refused <;> simp [hk] <;> omega

theorem fieldSet_ok (h₁ : 1 ≤ width) (h : width ≤ 64) (val : Nat) : (fieldSet s v off width val).2 = none ↔ s.Takes off width := by
  have hend : off / 8 + span off width ≤ maxValueLen ↔ off + width ≤ 2 ^ 32 := by
    rw [span, maxValueLen]
    omega
  rw [fieldSet, setRange_ok, patch_length h, hend]
  constructor
  · rintro ⟨hk, hl, ho, hr⟩
    exact ⟨hk, hl, ho, hr⟩
  · intro hs
    exact ⟨hs.key_ne, hs.key_le, hs.off_le, hs.room⟩

theorem bit_fieldSet (h₁ : 1 ≤ width) (h : width ≤ 64) (hs : s.Takes off width) (val j : Nat) :
    bit (fieldSet s v off width val).1 j = if off ≤ j ∧ j < off + width then val.testBit (width - 1 - (j - off)) else bit v j := by
  have hspan : span off width ≤ 9 := span_le h
  have hok : (fieldSet s v off width val).1 = patchValue v (off / 8) ((splice (covering v (off / 8) (span off width)) (off % 8) width
      fun i => val.testBit (width - 1 - i)).take (span off width)) := by
    have hnone := (fieldSet_ok (v := v) h₁ h val).mpr hs
    unfold fieldSet setRange at hnone ⊢
    rw [if_neg hs.key_ne, if_neg (Nat.not_lt.mpr hs.key_le)] at hnone ⊢
    split at hnone
    · cases hnone
    next hend => rw [if_neg hend, hs.room]
  rw [bit, hok, getD_patchValue, patch_length h]
  by_cases hj : off / 8 ≤ j / 8 ∧ j / 8 < off / 8 + span off width
  · have hsub : (j - 8 * (off / 8)) / 8 = j / 8 - off / 8 ∧ (j - 8 * (off / 8)) % 8 = j % 8 := by omega
    have hbit : ((splice (covering v (off / 8) (span off width)) (off % 8) width fun i => val.testBit (width - 1 - i)).take
        (span off width)).getD (j / 8 - off / 8) 0 =
        (splice (covering v (off / 8) (span off width)) (off % 8) width fun i => val.testBit (width - 1 - i)).getD (j / 8 - off / 8) 0 := by
      rw [List.getD_eq_getElem?_getD, List.getElem?_take_of_lt (by omega), List.getD_eq_getElem?_getD]
    rw [if_pos hj, hbit, ← hsub.1, ← hsub.2, ← bit, bit_splice (by rw [covering_length]; omega)]
    by_cases hin : off ≤ j ∧ j < off + width
    · rw [if_pos hin, if_pos (by omega), show j - 8 * (off / 8) - off % 8 = j - off by omega]
    · rw [if_neg hin, if_neg (by omega), bit_covering hspan (by omega), show 8 * (off / 8) + (j - 8 * (off / 8)) = j by omega]
  · rw [if_neg hj, if_neg (by rw [span] at hj; omega), bit]

theorem fieldGet_fieldSet (h₁ : 1 ≤ width) (h : width ≤ 64) (hs : s.Takes off width) (val : Nat) :
    fieldGet (fieldSet s v off width val).1 off width = val % 2 ^ width := by
  rw [fieldGet_eq h, ← number_testBit]
  refine number_congr fun i hi => ?_
  rw [bit_fieldSet h₁ h hs, if_pos (by omega), Nat.add_sub_cancel_left]

end Fields

inductive Overflow where
  | wrap
  | sat
  | fail
  deriving DecidableEq, Repr

/-- The switch on the mode behind a failed check. -/
def Overflow.pick {α : Type} [OfNat α 0] (ow : Overflow) (wrapped limit : α) : α :=
  match ow with
  | .wrap => wrapped
  | .sat => limit
  | .fail => 0

/-- i1 to i64 and u1 to u63. -/
structure FieldType where
  signed : Bool
  bits : Nat
  pos : 1 ≤ bits
  cap : bits ≤ if signed then 64 else 63
  deriving DecidableEq, Repr

def FieldType.lo (t : FieldType) : Int := if t.signed then -2 ^ (t.bits - 1) else 0

def FieldType.hi (t : FieldType) : Int := if t.signed then 2 ^ (t.bits - 1) - 1 else 2 ^ t.bits - 1

def FieldType.InRange (t : FieldType) (e : Int) : Prop := t.lo ≤ e ∧ e ≤ t.hi

instance (t : FieldType) (e : Int) : Decidable (t.InRange e) := inferInstanceAs (Decidable (_ ∧ _))

/-- The int64 with the given residue. -/
def int64 (x : Int) : Int := Int.bmod x (2 ^ 64)

def uint64 (x : Int) : Nat := (x % 2 ^ 64).toNat

/-- The low bits of a word, with the sign bit copied into all above. -/
def signExtend (c bits : Nat) : Nat := if c.testBit (bits - 1) then c ||| (2 ^ 64 - 2 ^ bits) else c &&& (2 ^ bits - 1)

def signedWrap (value incr : Int) (bits : Nat) : Int :=
  let c := uint64 (value + incr)
  let c := if bits < 64 then signExtend c bits else c
  int64 c

def checkSignedOverflow (value incr : Int) (bits : Nat) (ow : Overflow) : Int × Int :=
  let max : Int := if bits = 64 then 2 ^ 63 - 1 else 2 ^ (bits - 1) - 1
  let min := -max - 1
  let maxincr := int64 (max - value)
  let minincr := int64 (min - value)
  if value > max ∨ (bits ≠ 64 ∧ incr > maxincr) ∨ (value ≥ 0 ∧ incr > 0 ∧ incr > maxincr) then
    (1, ow.pick (signedWrap value incr bits) max)
  else if value < min ∨ (bits ≠ 64 ∧ incr < minincr) ∨ (value < 0 ∧ incr < 0 ∧ incr < minincr) then
    (-1, ow.pick (signedWrap value incr bits) min)
  else (0, 0)

def unsignedWrap (value : Nat) (incr : Int) (bits : Nat) : Nat :=
  if bits < 64 then uint64 (value + incr) &&& (2 ^ bits - 1) else uint64 (value + incr)

def checkUnsignedOverflow (value : Nat) (incr : Int) (bits : Nat) (ow : Overflow) : Int × Nat :=
  let max : Nat := if bits = 64 then 2 ^ 64 - 1 else 2 ^ bits - 1
  let maxincr := int64 ((max : Int) - value)
  let minincr := int64 (-int64 value)
  if value > max ∨ (incr > 0 ∧ incr > maxincr) then
    (1, ow.pick (unsignedWrap value incr bits) max)
  else if incr < 0 ∧ incr < minincr then
    (-1, ow.pick (unsignedWrap value incr bits) 0)
  else (0, 0)

/-- The value to store, and whether the sum left the range. -/
def applyOverflow (t : FieldType) (ow : Overflow) (cur incr : Int) : Int × Bool :=
  if t.signed then
    let r := checkSignedOverflow cur incr t.bits ow
    if r.1 ≠ 0 then (r.2, true) else (int64 (cur + incr), false)
  else
    let r := checkUnsignedOverflow (uint64 cur) incr t.bits ow
    if r.1 ≠ 0 then (int64 r.2, true) else (int64 (uint64 (uint64 cur + incr)), false)

def readField (v : List UInt8) (t : FieldType) (off : Nat) : Int :=
  let raw := fieldGet v off t.bits
  let word := if t.signed = true ∧ t.bits < 64 ∧ raw.testBit (t.bits - 1) = true then raw ||| (2 ^ 64 - 2 ^ t.bits) else raw
  int64 word

/-- The error of the write is dropped. -/
def writeField (s : Slot) (v : List UInt8) (t : FieldType) (off : Nat) (newVal : Int) : List UInt8 :=
  (fieldSet s v off t.bits (uint64 newVal)).1

inductive BfKind where
  | get
  | set
  | incrby
  deriving DecidableEq, Repr

structure BfOp where
  kind : BfKind
  type : FieldType
  off : Nat
  arg : Int
  owtype : Overflow

/-- One sub-operation: its reply, where none is a null, and the value after it. -/
def BfOp.exec (op : BfOp) (s : Slot) (v : List UInt8) : Option Int × List UInt8 :=
  let cur := readField v op.type op.off
  match op.kind with
  | .get => (some cur, v)
  | .set =>
    let r := applyOverflow op.type op.owtype 0 op.arg
    if op.owtype = .fail ∧ r.2 = true then (none, v) else (some cur, writeField s v op.type op.off r.1)
  | .incrby =>
    let r := applyOverflow op.type op.owtype cur op.arg
    if op.owtype = .fail ∧ r.2 = true then (none, v) else (some r.1, writeField s v op.type op.off r.1)

/-- The digits of `ParseInt`, up to a limit. -/
def digitLoop (lim : Nat) : Nat → List UInt8 → Option Nat
  | u, [] => some u
  | u, c :: cs =>
    if c < 48 ∨ 57 < c then none
    else if u > (lim - (c.toNat - 48)) / 10 then none
    else digitLoop lim (u * 10 + (c.toNat - 48)) cs

def parseInt (b : List UInt8) : Option Int :=
  if b.length = 0 ∨ 20 < b.length then none
  else
    match b with
    | 45 :: rest => if rest = [] ∨ rest.head? = some 48 then none else (digitLoop (2 ^ 63) 0 rest).map fun u => -(u : Int)
    | 48 :: rest => if rest = [] then some 0 else none
    | _ => (digitLoop (2 ^ 63 - 1) 0 b).map fun u => (u : Int)

/-- The position of a parsed offset, scaled by the width of the type or not, with its bound. -/
def boundOffset (scaled : Bool) (bits : Nat) (n : Int) : Option Int :=
  if n < 0 then none
  else
    let off := if scaled then int64 (n * bits) else n
    if off < 0 ∨ int64 (off + bits - 1) > 2 ^ 32 - 1 then none else some off

/-- A leading `#` scales. -/
def parseFieldOffset (tok : List UInt8) (bits : Nat) : Option Int :=
  if tok.head? = some 35 then (parseInt tok.tail).bind (boundOffset true bits) else (parseInt tok).bind (boundOffset false bits)

def parseFieldType (tok : List UInt8) : Option FieldType :=
  match tok with
  | c :: rest =>
    if rest = [] ∨ (c ≠ 105 ∧ c ≠ 117) then none
    else
      match parseInt rest with
      | none => none
      | some n =>
        if h : 1 ≤ n.toNat ∧ n.toNat ≤ if decide (c = 105) then 64 else 63 then some ⟨decide (c = 105), n.toNat, h.1, h.2⟩ else none
  | [] => none

end Aki.BitField
