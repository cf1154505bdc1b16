import Mathlib.Data.List.GetD
import Mathlib.Data.List.Perm.Basic
import Aki.Swar
import Aki.TriangularProbe

namespace Aki

open Swar TriangularProbe

/-- The member store a table probes into. -/
structure MemberSet (κ : Type*) where
  isMatch : Nat → κ → Bool
  rehash : Nat → Nat

def ctrlEmpty : BitVec 8 := 0x80

def ctrlDeleted : BitVec 8 := 0xFE

def minCap : Nat := 8

def loadNum : Nat := 7

def loadDen : Nat := 8

/-- One control byte and one record ordinal per slot. -/
structure Table where
  ctrl : List (BitVec 8)
  ords : List Nat
  cap : Nat
  count : Nat
  dead : Nat
deriving DecidableEq

def tagOf (h : Nat) : BitVec 8 := BitVec.ofNat 8 h &&& 0x7f

/-- The mask `numGroups - 1` is a 32-bit word; `numGroups` is never 0. -/
def groupOf (h numGroups : Nat) : Nat := (h >>> 7) % 2 ^ 32 &&& (numGroups - 1)

def matchByte (group : BitVec 64) (b : BitVec 8) : BitVec 64 :=
  let x := group ^^^ (lowBits * b.setWidth 64)
  (x - lowBits) &&& ~~~x &&& highBits

/-- Doubles a 32-bit capacity until it is large enough; `none` if it never is. -/
def capLoop (enough : Nat → Bool) : Nat → Nat → Option Nat
  | 0, _ => none
  | fuel + 1, c => if enough c then some c else capLoop enough fuel ((c <<< 1) % 2 ^ 32)

/-- 64-bit arithmetic, unlike `maxLoad`. -/
def capFor (n : Nat) : Option Nat := capLoop (fun c => !decide (c * loadNum / loadDen < n)) 32 minCap

namespace Table

def init (cap : Nat) : Table := ⟨List.replicate cap ctrlEmpty, List.replicate cap 0, cap, 0, 0⟩

def makeTable (hint : Nat) : Option Table := (capFor hint).map init

def len (t : Table) : Nat := t.count

/-- The load limit of a capacity, in 32 bits. -/
def loadOf (cap : Nat) : Nat := cap * loadNum % 2 ^ 32 / loadDen

def maxLoad (t : Table) : Nat := loadOf t.cap

def numGroups (t : Table) : Nat := t.cap >>> 3

/-- The control word of the group that starts at `base`. -/
def word (t : Table) (base : Nat) : BitVec 64 := leWord ((t.ctrl.drop base).take 8)

section

variable {κ : Type*}

/-- One turn of `findSlot`: the slot and ordinal if a candidate matches, `some none` if an empty slot ends the
probe, `none` if it goes on. -/
def findGroup (t : Table) (s : MemberSet κ) (tag : BitVec 8) (key : κ) (g : Nat) : Option (Option (Nat × Nat)) :=
  let base := g <<< 3
  let word := t.word base
  let candidate := fun j =>
    let o := t.ords.getD (base + j) 0
    if s.isMatch o key then some (base + j, o) else none
  match firstLane candidate 64 (matchByte word tag) with
  | some r => some (some r)
  | none => if matchByte word ctrlEmpty ≠ 0 then some none else none

/-- `none` if the probe has not ended after as many turns as there are groups. -/
def findSlot (t : Table) (s : MemberSet κ) (h : Nat) (key : κ) : Option (Option (Nat × Nat)) :=
  probe (t.findGroup s (tagOf h) key) t.numGroups t.numGroups (groupOf h t.numGroups) 0

def find (t : Table) (s : MemberSet κ) (h : Nat) (key : κ) : Option (Option Nat) :=
  (t.findSlot s h key).map (Option.map Prod.snd)

/-- One turn of `place`: the first slot of the group that is empty or deleted. -/
def freeSlot (t : Table) (g : Nat) : Option Nat :=
  let base := g <<< 3
  let free := t.word base &&& highBits
  if free ≠ 0 then some (base + free.ctz.toNat >>> 3) else none

def place (t : Table) (h ord : Nat) : Option Table :=
  (probe t.freeSlot t.numGroups t.numGroups (groupOf h t.numGroups) 0).map fun slot =>
    { t with
      dead := if t.ctrl.getD slot 0 = ctrlDeleted then t.dead - 1 else t.dead
      ctrl := t.ctrl.set slot (tagOf h)
      ords := t.ords.set slot ord }

/-- `place` and the count after it, as `Insert` and `resize` both have them. -/
def add (t : Table) (h ord : Nat) : Option Table :=
  (t.place h ord).map fun t => { t with count := t.count + 1 }

def resize (t : Table) (s : MemberSet κ) : Option Table := do
  let newCap ← capLoop (fun c => !decide (t.count + 1 > loadOf c)) 32 (if t.cap < minCap then minCap else t.cap)
  (t.ctrl.zip t.ords).foldlM
    (fun new slot => if slot.1 &&& 0x80 = 0 then new.add (s.rehash slot.2) slot.2 else some new) (init newCap)

def insert (t : Table) (s : MemberSet κ) (h ord : Nat) : Option Table :=
  (if t.count + t.dead + 1 > t.maxLoad then t.resize s else some t).bind fun t => t.add h ord

def delete (t : Table) (s : MemberSet κ) (h : Nat) (key : κ) : Option (Table × Option Nat) :=
  (t.findSlot s h key).map fun
    | none => (t, none)
    | some (slot, ord) =>
      ({ t with ctrl := t.ctrl.set slot ctrlDeleted, dead := t.dead + 1, count := t.count - 1 }, some ord)

end

end Table

open Swar TriangularProbe

/-- What a slot of the table stands for. -/
inductive Slot (κ : Type*) where
  | empty
  | deleted
  | full (key : κ) (ord : Nat)

namespace Slot

variable {κ : Type*}

def entry : Slot κ → Option (κ × Nat)
  | full k o => some (k, o)
  | _ => none

def isDeleted : Slot κ → Bool
  | deleted => true
  | _ => false

def ctrl (hash : κ → Nat) : Slot κ → BitVec 8
  | empty => ctrlEmpty
  | deleted => ctrlDeleted
  | full k _ => tagOf (hash k)

theorem tagOf_toNat (h : Nat) : (tagOf h).toNat < 128 := by
  rw [tagOf, BitVec.toNat_and]
  exact Nat.lt_of_le_of_lt Nat.and_le_right (by decide)

variable {hash : κ → Nat} {s : Slot κ}

theorem ctrl_lt_iff : (s.ctrl hash).toNat < 128 ↔ ∃ k o, s = full k o := by
  cases s with
  | empty => simp [ctrl, ctrlEmpty]
  | deleted => simp [ctrl, ctrlDeleted]
  | full k o => simpa [ctrl] using tagOf_toNat (hash k)

theorem ctrl_eq_empty : s.ctrl hash = ctrlEmpty ↔ s = empty := by
  refine ⟨fun h => ?_, fun h => by rw [h]; rfl⟩
  cases s with
  | empty => rfl
  | deleted => exact absurd h (by simp [ctrl, ctrlEmpty, ctrlDeleted])
  | full k o => exact absurd (congrArg BitVec.toNat h) (Nat.ne_of_lt (tagOf_toNat (hash k)))

theorem ctrl_eq_deleted : s.ctrl hash = ctrlDeleted ↔ s = deleted := by
  refine ⟨fun h => ?_, fun h => by rw [h]; rfl⟩
  cases s with
  | empty => exact absurd h (by simp [ctrl, ctrlEmpty, ctrlDeleted])
  | deleted => rfl
  | full k o =>
    have hlt : (tagOf (hash k)).toNat < 254 := (tagOf_toNat _).trans (by decide)
    exact absurd (congrArg BitVec.toNat h) (Nat.ne_of_lt hlt)

theorem and_high_eq_zero : ∀ c : BitVec 8, c &&& 0x80 = 0 ↔ c.toNat < 128 := by decide

theorem ctrl_and_high : s.ctrl hash &&& 0x80 = 0 ↔ ∃ k o, s = full k o := (and_high_eq_zero _).trans ctrl_lt_iff

end Slot

section Entries

variable {κ : Type*} {slots : List (Slot κ)} {i : Nat} {k : κ} {o : Nat}

def entries (slots : List (Slot κ)) : List (κ × Nat) := slots.filterMap Slot.entry

theorem mem_entries : (k, o) ∈ entries slots ↔ ∃ i : Nat, slots[i]? = some (.full k o) := by
  constructor
  · intro h
    obtain ⟨s, hs, he⟩ := List.mem_filterMap.mp h
    obtain ⟨i, hi⟩ := List.mem_iff_getElem?.mp hs
    cases s with
    | full k' o' =>
      obtain ⟨rfl, rfl⟩ : k' = k ∧ o' = o := by simpa [Slot.entry] using he
      exact ⟨i, hi⟩
    | _ => exact absurd he (by simp [Slot.entry])
  · rintro ⟨i, hi⟩
    exact List.mem_filterMap.mpr ⟨_, List.mem_iff_getElem?.mpr ⟨i, hi⟩, rfl⟩

theorem entries_set_full {s : Slot κ} (hi : slots[i]? = some s) (hfree : s.entry = none) :
    (entries (slots.set i (.full k o))).Perm ((k, o) :: entries slots) := by
  obtain ⟨hlt, hget⟩ := List.getElem?_eq_some_iff.mp hi
  have hslots : slots = slots.take i ++ s :: slots.drop (i + 1) := by
    rw [← hget, List.cons_getElem_drop_succ, List.take_append_drop]
  rw [List.set_eq_take_append_cons_drop, if_pos hlt]
  conv_rhs => rw [hslots]
  simp only [entries, List.filterMap_append, List.filterMap_cons_none hfree]
  exact List.perm_middle

theorem entries_set_deleted (hi : slots[i]? = some (.full k o)) :
    (entries slots).Perm ((k, o) :: entries (slots.set i .deleted)) := by
  obtain ⟨hlt, hget⟩ := List.getElem?_eq_some_iff.mp hi
  have hslots : slots = slots.take i ++ .full k o :: slots.drop (i + 1) := by
    rw [← hget, List.cons_getElem_drop_succ, List.take_append_drop]
  rw [List.set_eq_take_append_cons_drop, if_pos hlt]
  conv_lhs => rw [hslots]
  simp only [entries, List.filterMap_append, List.filterMap_cons, Slot.entry]
  exact List.perm_middle

/-- The keys of the full slots are distinct. -/
def KeysDistinct (slots : List (Slot κ)) : Prop := (entries slots).Pairwise fun a b => a.1 ≠ b.1

theorem exists_empty (h : (entries slots).length + slots.countP Slot.isDeleted < slots.length) :
    ∃ i : Nat, slots[i]? = some .empty := by
  suffices hmem : Slot.empty ∈ slots from List.mem_iff_getElem?.mp hmem
  by_contra hno
  have hsum : ∀ l : List (Slot κ), Slot.empty ∉ l → (entries l).length + l.countP Slot.isDeleted = l.length := by
    intro l
    induction l with
    | nil => exact fun _ => rfl
    | cons s l ih =>
      intro hl
      have ih := ih fun hmem => hl (List.mem_cons_of_mem s hmem)
      unfold entries at ih ⊢
      cases s with
      | empty => exact absurd List.mem_cons_self hl
      | deleted =>
        simp only [List.filterMap_cons, Slot.entry, List.countP_cons, Slot.isDeleted, if_true, List.length_cons]
        omega
      | full k o =>
        simp only [List.filterMap_cons, Slot.entry, List.countP_cons, Slot.isDeleted, List.length_cons, Bool.false_eq_true,
          if_false]
        omega
  exact absurd (hsum slots hno) (by omega)

end Entries

section Group

variable {group : BitVec 64} {b : BitVec 8}

theorem matchByte_eq : matchByte group b = zeroMask (group ^^^ (lowBits * b.setWidth 64)) := rfl

theorem byte_matched {j : Nat} (hj : j < 8) : byte (group ^^^ (lowBits * b.setWidth 64)) j = byte group j ^^^ b.toNat := by
  rw [byte_xor, byte_splat b hj]

theorem matchByte_of_eq {j : Nat} (hj : j < 8) (h : byte group j = b.toNat) :
    (matchByte group b).getLsbD (8 * j + 7) = true := by
  refine zeroMask_of_zero hj ?_
  rw [byte_matched hj, h, Nat.xor_self]

theorem matchByte_ne_zero : matchByte group b ≠ 0 ↔ ∃ j < 8, byte group j = b.toNat := by
  rw [matchByte_eq, zeroMask_ne_zero]
  refine exists_congr fun j => and_congr_right fun hj => ?_
  rw [byte_matched hj]
  refine ⟨fun h => ?_, fun h => by rw [h, Nat.xor_self]⟩
  have hback := congrArg (· ^^^ b.toNat) h
  simpa only [Nat.xor_assoc, Nat.xor_self, Nat.xor_zero, Nat.zero_xor] using hback

/-- A candidate of a tag may carry another tag, but it is a full slot. -/
theorem matchByte_candidate {i : Nat} (hb : b.toNat < 128) (h : (matchByte group b).getLsbD i = true) :
    ∃ j < 8, i / 8 = j ∧ byte group j < 128 := by
  obtain ⟨j, hj, rfl⟩ := zeroMask_lane h
  have hle := byte_le_one_of_zeroMask hj h
  rw [byte_matched hj] at hle
  refine ⟨j, hj, by omega, ?_⟩
  have hback : byte group j = (byte group j ^^^ b.toNat) ^^^ b.toNat := by rw [Nat.xor_assoc, Nat.xor_self, Nat.xor_zero]
  rw [hback]
  exact Nat.xor_lt_two_pow (n := 7) (by omega) hb

end Group

open Swar TriangularProbe

variable {κ : Type*} {hash : κ → Nat} {t : Table} {e : Nat} {slots : List (Slot κ)} {i g : Nat} {k : κ} {o : Nat}

/-- The group is on the key's path, and no group before it on the path has an empty slot. -/
def Seated (hash : κ → Nat) (e : Nat) (slots : List (Slot κ)) (k : κ) (g : Nat) : Prop :=
  ∃ n, path (2 ^ e) (groupOf (hash k) (2 ^ e)) n = g ∧
    ∀ m < n, ∀ i : Nat, i / 8 = path (2 ^ e) (groupOf (hash k) (2 ^ e)) m → slots[i]? ≠ some .empty

theorem Seated.mono {slots' : List (Slot κ)} (h : Seated hash e slots k g)
    (hsub : ∀ i : Nat, slots'[i]? = some .empty → slots[i]? = some .empty) : Seated hash e slots' k g := by
  obtain ⟨n, hn, hfull⟩ := h
  exact ⟨n, hn, fun m hm i hi he => hfull m hm i hi (hsub i he)⟩

theorem groupOf_lt (h e : Nat) : groupOf h (2 ^ e) < 2 ^ e := by
  rw [groupOf, Nat.and_two_pow_sub_one_eq_mod]
  exact Nat.mod_lt _ (Nat.two_pow_pos e)

section

/-- The table is the image of `slots`: `2 ^ e` groups of eight, its counters are their counts, and every key
can be reached by its probe. -/
structure Table.Stores (hash : κ → Nat) (t : Table) (e : Nat) (slots : List (Slot κ)) : Prop where
  ctrl : t.ctrl = slots.map (Slot.ctrl hash)
  ordsLen : t.ords.length = slots.length
  ord : ∀ (i : Nat) k o, slots[i]? = some (.full k o) → t.ords[i]? = some o
  cap : t.cap = slots.length
  size : slots.length = 8 * 2 ^ e
  width : e ≤ 28
  count : t.count = (entries slots).length
  dead : t.dead = slots.countP Slot.isDeleted
  distinct : KeysDistinct slots
  seated : ∀ (i : Nat) k o, slots[i]? = some (.full k o) → Seated hash e slots k (i / 8)

theorem Table.Stores.numGroups (h : t.Stores hash e slots) : t.numGroups = 2 ^ e := by
  rw [Table.numGroups, h.cap, h.size, Nat.shiftRight_eq_div_pow]
  omega

theorem Table.Stores.group_lt (h : t.Stores hash e slots) {s : Slot κ} (hi : slots[i]? = some s) : i / 8 < 2 ^ e := by
  have hlt := (List.getElem?_eq_some_iff.mp hi).1
  have := h.size
  omega

theorem Table.Stores.slot (h : t.Stores hash e slots) {j : Nat} (hg : g < 2 ^ e) (hj : j < 8) : ∃ s, slots[8 * g + j]? = some s := by
  have := h.size
  exact ⟨_, List.getElem?_eq_getElem (by omega)⟩

theorem Table.Stores.byte_word (h : t.Stores hash e slots) {j : Nat} {s : Slot κ} (hj : j < 8) (hs : slots[8 * g + j]? = some s) :
    byte (t.word (g <<< 3)) j = (s.ctrl hash).toNat := by
  rw [word, byte_leWord (by simp), List.getD_eq_getElem?_getD, List.getElem?_take_of_lt hj, List.getElem?_drop, h.ctrl,
    Nat.shiftLeft_eq, Nat.mul_comm g, List.getElem?_map, hs]
  rfl

/-- The store answers for the members of the full slots. -/
def Table.Faithful (hash : κ → Nat) (s : MemberSet κ) (slots : List (Slot κ)) : Prop :=
  ∀ k o, (k, o) ∈ entries slots → (∀ k', s.isMatch o k' = true ↔ k' = k) ∧ s.rehash o = hash k

variable {s : MemberSet κ}

theorem Table.Faithful.at (hs : Faithful hash s slots) (hi : slots[i]? = some (.full k o)) :
    (∀ k', s.isMatch o k' = true ↔ k' = k) ∧ s.rehash o = hash k := hs k o (mem_entries.mpr ⟨i, hi⟩)

theorem Table.Stores.hasEmpty_iff (h : t.Stores hash e slots) (hg : g < 2 ^ e) :
    matchByte (t.word (g <<< 3)) ctrlEmpty ≠ 0 ↔ ∃ i, i / 8 = g ∧ slots[i]? = some .empty := by
  rw [matchByte_ne_zero]
  constructor
  · rintro ⟨j, hj, hb⟩
    obtain ⟨s, hs⟩ := h.slot hg hj
    rw [h.byte_word hj hs, BitVec.toNat_inj, Slot.ctrl_eq_empty] at hb
    exact ⟨8 * g + j, by omega, by rw [hs, hb]⟩
  · rintro ⟨i, rfl, hi⟩
    have hidx : 8 * (i / 8) + i % 8 = i := Nat.div_add_mod i 8
    exact ⟨i % 8, Nat.mod_lt _ (by decide), by rw [h.byte_word (Nat.mod_lt _ (by decide)) (hidx ▸ hi)]; rfl⟩

/-- A turn of the probe ends it at the key's slot, or at an empty slot of a group without the key. -/
theorem Table.Stores.findGroup_cases (h : t.Stores hash e slots) (hs : Faithful hash s slots) (hg : g < 2 ^ e) (k : κ) :
    (∃ i o, i / 8 = g ∧ slots[i]? = some (.full k o) ∧ t.findGroup s (tagOf (hash k)) k g = some (some (i, o))) ∨
    (∀ i o, i / 8 = g → slots[i]? ≠ some (.full k o)) ∧
      ((∃ i, i / 8 = g ∧ slots[i]? = some .empty) ∧ t.findGroup s (tagOf (hash k)) k g = some none ∨
        (∀ i, i / 8 = g → slots[i]? ≠ some .empty) ∧ t.findGroup s (tagOf (hash k)) k g = none) := by
  have hbase : g <<< 3 = 8 * g := by rw [Nat.shiftLeft_eq, Nat.mul_comm]
  unfold findGroup
  dsimp only
  rcases firstLane_cases (fun j => if s.isMatch (t.ords.getD (g <<< 3 + j) 0) k = true then
      some (g <<< 3 + j, t.ords.getD (g <<< 3 + j) 0) else none) (Nat.le_refl 64)
      (m := matchByte (t.word (g <<< 3)) (tagOf (hash k))) (by simp) with ⟨heq, hnone⟩ | ⟨b, r, hbit, hr, heq⟩
  · refine .inr ⟨?_, ?_⟩
    · rintro i o rfl hi
      have hidx : 8 * (i / 8) + i % 8 = i := Nat.div_add_mod i 8
      have hj : i % 8 < 8 := Nat.mod_lt _ (by decide)
      have hlane := hnone _ (matchByte_of_eq hj (h.byte_word hj (hidx ▸ hi)))
      rw [show (8 * (i % 8) + 7) / 8 = i % 8 by omega, hbase, hidx, List.getD_eq_getElem?_getD, h.ord i k o hi,
        Option.getD_some] at hlane
      rw [if_pos (((hs.at hi).1 k).mpr rfl)] at hlane
      exact absurd hlane (by simp)
    · rw [heq]
      by_cases hempty : matchByte (t.word (g <<< 3)) ctrlEmpty ≠ 0
      · exact .inl ⟨(h.hasEmpty_iff hg).mp hempty, if_pos hempty⟩
      · refine .inr ⟨fun i hi he => hempty ((h.hasEmpty_iff hg).mpr ⟨i, hi, he⟩), if_neg hempty⟩
  · obtain ⟨j, hj, hbj, hlt⟩ := matchByte_candidate (Slot.tagOf_toNat _) hbit
    obtain ⟨sl, hsl⟩ := h.slot hg hj
    rw [h.byte_word hj hsl, Slot.ctrl_lt_iff] at hlt
    obtain ⟨k', o', rfl⟩ := hlt
    rw [hbj, hbase, List.getD_eq_getElem?_getD, h.ord _ _ _ hsl] at hr
    dsimp only [Option.getD_some] at hr
    split at hr
    next hmatch =>
      obtain rfl := ((hs.at hsl).1 k).mp hmatch
      obtain rfl := Option.some.inj hr
      exact .inl ⟨8 * g + j, o', by omega, hsl, by rw [heq]⟩
    next => exact absurd hr (by simp)

theorem Table.Stores.findSlot_cases (h : t.Stores hash e slots) (hs : Faithful hash s slots)
    (hempty : ∃ i : Nat, slots[i]? = some .empty) (k : κ) :
    (∃ i o, slots[i]? = some (.full k o) ∧ t.findSlot s (hash k) k = some (some (i, o))) ∨
    (∀ (i : Nat) o, slots[i]? ≠ some (.full k o)) ∧ t.findSlot s (hash k) k = some none := by
  have hpath : ∀ n, path (2 ^ e) (groupOf (hash k) (2 ^ e)) n < 2 ^ e := path_lt (Nat.two_pow_pos e) _
  rw [findSlot, h.numGroups]
  by_cases hin : ∃ (i : Nat) (o : Nat), slots[i]? = some (.full k o)
  · obtain ⟨i, o, hi⟩ := hin
    obtain ⟨n, hn, hfull⟩ := h.seated i k o hi
    have hvisit : t.findGroup s (tagOf (hash k)) k (i / 8) ≠ none := by
      rcases h.findGroup_cases hs (h.group_lt hi) k with ⟨i', o', -, -, heq⟩ | ⟨hno, -⟩
      · rw [heq]
        simp
      · exact absurd hi (hno i o rfl)
    obtain ⟨m, -, a, ha, hfirst, heq⟩ := probe_first (groupOf_lt (hash k) e) (h.group_lt hi) hvisit
    have hmn : m ≤ n := by
      by_contra hlt
      exact hvisit (hn ▸ hfirst n (by omega))
    rcases h.findGroup_cases hs (hpath m) k with ⟨i', o', -, hi', heq'⟩ | ⟨hno, ⟨⟨j, hj, hje⟩, heq'⟩ | ⟨-, heq'⟩⟩
    · refine .inl ⟨i', o', hi', ?_⟩
      rw [heq, ← ha, heq']
    · rcases Nat.lt_or_eq_of_le hmn with hlt | rfl
      · exact absurd hje (hfull m hlt j hj)
      · exact absurd hi (hno i o hn.symm)
    · rw [heq'] at ha
      exact absurd ha (by simp)
  · have habsent : ∀ (i : Nat) o, slots[i]? ≠ some (.full k o) := fun i o hi => hin ⟨i, o, hi⟩
    obtain ⟨i, hi⟩ := hempty
    have hvisit : t.findGroup s (tagOf (hash k)) k (i / 8) ≠ none := by
      rcases h.findGroup_cases hs (h.group_lt hi) k with ⟨i', o', -, -, heq⟩ | ⟨-, ⟨-, heq⟩ | ⟨hno, -⟩⟩
      · rw [heq]
        simp
      · rw [heq]
        simp
      · exact absurd hi (hno i rfl)
    obtain ⟨m, -, a, ha, -, heq⟩ := probe_first (groupOf_lt (hash k) e) (h.group_lt hi) hvisit
    rcases h.findGroup_cases hs (hpath m) k with ⟨i', o', -, hi', -⟩ | ⟨-, ⟨-, heq'⟩ | ⟨-, heq'⟩⟩
    · exact absurd hi' (habsent i' o')
    · refine .inr ⟨habsent, ?_⟩
      rw [heq, ← ha, heq']
    · rw [heq'] at ha
      exact absurd ha (by simp)

end

end Aki
