import Mathlib.Data.List.Perm.Basic
import Mathlib.Data.List.Nodup
import Aki.SlotHeap

namespace Aki

structure Timer where
  deadlineMs : Int
  heapPos : Int
  deriving DecidableEq, Repr

/-- The slots of the heap and the recycle pool hold addresses of timers. Not in the program are the address a new timer gets, and the
timers popped by the owner and not yet released, in the order they were popped. -/
structure TimerHeap where
  a : List Nat
  free : List Nat
  timers : Nat → Timer
  fresh : Nat
  held : List Nat

namespace TimerHeap

open SlotHeap

def empty : TimerHeap := ⟨[], [], fun _ => ⟨0, -1⟩, 0, []⟩

def setPos (h : TimerHeap) (t : Nat) (p : Int) : TimerHeap :=
  { h with timers := fun x => if x = t then { h.timers t with heapPos := p } else h.timers x }

def slot (h : TimerHeap) (i : Nat) : Nat := h.a.getD i 0

/-- Two slots exchanged, with the positions of their timers. -/
def swap (h : TimerHeap) (i j : Nat) : TimerHeap :=
  ({ h with a := (h.a.set i (h.slot j)).set j (h.slot i) }.setPos (h.slot j) i).setPos (h.slot i) j

def key (h : TimerHeap) (i : Nat) : Int := (h.timers (h.slot i)).deadlineMs

@[simp] theorem setPos_deadline (h : TimerHeap) (t x : Nat) (p : Int) : ((h.setPos t p).timers x).deadlineMs = (h.timers x).deadlineMs := by
  simp only [setPos]
  split
  next he => rw [he]
  next => rfl

theorem setPos_pos (h : TimerHeap) (t x : Nat) (p : Int) :
    ((h.setPos t p).timers x).heapPos = if x = t then p else (h.timers x).heapPos := by
  simp only [setPos]
  split <;> rfl

theorem setPos_other (h : TimerHeap) {t x : Nat} (p : Int) (hx : x ≠ t) : (h.setPos t p).timers x = h.timers x := if_neg hx

theorem swap_a (h : TimerHeap) (i j : Nat) : (h.swap i j).a = (h.a.set i (h.slot j)).set j (h.slot i) := rfl

theorem swap_deadline (h : TimerHeap) (i j x : Nat) : ((h.swap i j).timers x).deadlineMs = (h.timers x).deadlineMs := by
  rw [swap, setPos_deadline, setPos_deadline]

theorem slot_swap (h : TimerHeap) (i j c : Nat) (hi : i < h.a.length) (hj : j < h.a.length) :
    (h.swap i j).slot c = if c = i then h.slot j else if c = j then h.slot i else h.slot c := by
  rw [slot, swap_a, List.getD_eq_getElem?_getD, List.getElem?_set, List.getElem?_set, List.length_set]
  by_cases hcj : j = c
  · rw [if_pos hcj, if_pos hj, Option.getD_some]
    by_cases hci : c = i
    · rw [if_pos hci, hcj, hci]
    · rw [if_neg hci, if_pos hcj.symm]
  · rw [if_neg hcj]
    by_cases hci : i = c
    · rw [if_pos hci, if_pos hi, Option.getD_some, if_pos hci.symm]
    · rw [if_neg hci, if_neg (Ne.symm hci), if_neg (Ne.symm hcj), ← List.getD_eq_getElem?_getD, slot]

def slots : Slots TimerHeap where
  size := fun h => h.a.length
  key := key
  swap := swap
  size_swap := fun h i j => by rw [swap_a, List.length_set, List.length_set]
  key_swap := fun h i j c hi hj => by
    simp only [key, swap_deadline, slot_swap h i j c hi hj]
    split
    · rfl
    · split <;> rfl

def siftUp (h : TimerHeap) (i : Nat) : TimerHeap := SlotHeap.siftUp slots h i

def siftDown (h : TimerHeap) (i : Nat) : TimerHeap × Bool := SlotHeap.siftDown slots h i

def alloc (h : TimerHeap) : Nat × TimerHeap :=
  match h.free.getLast? with
  | some t => (t, { h with free := h.free.dropLast })
  | none => (h.fresh, { h with fresh := h.fresh + 1 })

def release (h : TimerHeap) (t : Nat) : TimerHeap := { h with free := h.free ++ [t] }

def push (h : TimerHeap) (deadlineMs : Int) : Nat × TimerHeap :=
  let t := h.alloc.1
  let h := h.alloc.2
  let h : TimerHeap := { h with timers := fun x => if x = t then ⟨deadlineMs, h.a.length⟩ else h.timers x, a := h.a ++ [t] }
  (t, h.siftUp (h.a.length - 1))

/-- The last timer moves into slot `i`, and the timer there leaves the heap. -/
def detach (h : TimerHeap) (i : Nat) : TimerHeap :=
  let last := h.slot (h.a.length - 1)
  ({ h with a := (h.a.set i last).dropLast }.setPos last i).setPos (h.slot i) (-1)

def popMin (h : TimerHeap) : Nat × TimerHeap :=
  let h' := h.detach 0
  (h.slot 0, if 0 < h'.a.length then (h'.siftDown 0).1 else h')

/-- The loop of `popDue`, with `k` timers in the heap. -/
def popDueLoop (nowMs limit : Int) : Nat → TimerHeap → List Nat → List Nat × TimerHeap
  | 0, h, out => (out, h)
  | k + 1, h, out =>
    if 0 < h.a.length ∧ h.key 0 ≤ nowMs ∧ (out.length : Int) < limit then
      popDueLoop nowMs limit k h.popMin.2 (out ++ [h.popMin.1])
    else (out, h)

def popDue (h : TimerHeap) (nowMs limit : Int) (out : List Nat) : List Nat × TimerHeap := popDueLoop nowMs limit h.a.length h out

def remove (h : TimerHeap) (t : Nat) : TimerHeap :=
  let i := (h.timers t).heapPos
  if i < 0 ∨ (h.a.length : Int) ≤ i ∨ h.slot i.toNat ≠ t then h
  else
    let h' := h.detach i.toNat
    let h' :=
      if i.toNat < h'.a.length then
        let r := h'.siftDown i.toNat
        if r.2 then r.1 else r.1.siftUp i.toNat
      else h'
    h'.release t

inductive Op where
  | push (deadlineMs : Int)
  | remove (t : Nat)
  | popDue (nowMs limit : Int)
  | release (t : Nat)

/-- The owner pops into an empty buffer, and releases only what it has popped. -/
def op (h : TimerHeap) : Op → TimerHeap
  | .push d => (h.push d).2
  | .remove t => h.remove t
  | .popDue now limit =>
    let r := h.popDue now limit []
    { r.2 with held := r.2.held ++ r.1 }
  | .release t => if t ∈ h.held then { h.release t with held := h.held.erase t } else h

def ops (h : TimerHeap) (os : List Op) : TimerHeap := os.foldl op h

variable {h h₀ h₁ : TimerHeap} {t i : Nat}

def Placed (h : TimerHeap) : Prop := ∀ (i : Nat) (x : Nat), h.a[i]? = some x → (h.timers x).heapPos = i

/-- Everything but the order of the heap. -/
structure Base (h : TimerHeap) : Prop where
  placed : Placed h
  others : ∀ x, x ∉ h.a → (h.timers x).heapPos = -1
  nodup : (h.free ++ h.held).Nodup
  apart : ∀ x ∈ h.free ++ h.held, x ∉ h.a
  below : (∀ x ∈ h.a, x < h.fresh) ∧ ∀ x ∈ h.free ++ h.held, x < h.fresh

structure Inv (h : TimerHeap) : Prop where
  base : Base h
  heap : Heap slots h

theorem Placed.nodup (h : Placed h₀) : h₀.a.Nodup := by
  rw [List.nodup_iff_getElem?_ne_getElem?]
  intro i j hij hj he
  have hi := h i _ (List.getElem?_eq_getElem (Nat.lt_trans hij hj))
  have hj' := h j _ (he ▸ List.getElem?_eq_getElem (Nat.lt_trans hij hj))
  omega

theorem slot_of_getElem {x : Nat} (hx : h.a[i]? = some x) : h.slot i = x := by rw [slot, List.getD_eq_getElem?_getD, hx, Option.getD_some]

theorem getElem_slot (hi : i < h.a.length) : h.a[i]? = some (h.slot i) := by
  rw [slot, List.getD_eq_getElem?_getD, List.getElem?_eq_getElem hi, Option.getD_some]

theorem slot_inj (hp : Placed h) {j : Nat} (hi : i < h.a.length) (hj : j < h.a.length) (he : h.slot i = h.slot j) : i = j := by
  have h₁ := hp i _ (getElem_slot hi)
  have h₂ := hp j _ (getElem_slot hj)
  rw [he] at h₁
  omega

/-- What sifting does: the same timers in the same number of slots, each at its place. -/
structure Moved (h₀ h : TimerHeap) : Prop where
  placed : Placed h
  mem : ∀ x, x ∈ h.a ↔ x ∈ h₀.a
  length : h.a.length = h₀.a.length
  deadline : ∀ x, (h.timers x).deadlineMs = (h₀.timers x).deadlineMs
  outside : ∀ x, x ∉ h₀.a → h.timers x = h₀.timers x
  free : h.free = h₀.free
  held : h.held = h₀.held
  fresh : h.fresh = h₀.fresh

theorem Moved.refl (hp : Placed h) : Moved h h := ⟨hp, fun _ => Iff.rfl, rfl, fun _ => rfl, fun _ _ => rfl, rfl, rfl, rfl⟩

theorem mem_iff_slot (h : TimerHeap) (x : Nat) : x ∈ h.a ↔ ∃ i, i < h.a.length ∧ h.slot i = x := by
  rw [List.mem_iff_getElem?]
  constructor
  · rintro ⟨i, hi⟩
    exact ⟨i, (List.getElem?_eq_some_iff.mp hi).1, slot_of_getElem hi⟩
  · rintro ⟨i, hi, rfl⟩
    exact ⟨i, getElem_slot hi⟩

theorem Moved.swap (hm : Moved h₀ h) {i j : Nat} (hi : i < h.a.length) (hj : j < h.a.length) (hij : i ≠ j) : Moved h₀ (h.swap i j) := by
  have hlen : (h.swap i j).a.length = h.a.length := slots.size_swap h i j
  have hslot := fun c => slot_swap h i j c hi hj
  have hne : h.slot i ≠ h.slot j := fun he => hij (slot_inj hm.placed hi hj he)
  have hmem : ∀ x, x ∈ (h.swap i j).a ↔ x ∈ h.a := by
    intro x
    rw [mem_iff_slot, mem_iff_slot, hlen]
    constructor
    · rintro ⟨c, hc, rfl⟩
      rw [hslot]
      split
      · exact ⟨j, hj, rfl⟩
      · split
        · exact ⟨i, hi, rfl⟩
        · exact ⟨c, hc, rfl⟩
    · rintro ⟨c, hc, rfl⟩
      by_cases hci : c = i
      · exact ⟨j, hj, by rw [hslot, if_neg (Ne.symm hij), if_pos rfl, hci]⟩
      · by_cases hcj : c = j
        · exact ⟨i, hi, by rw [hslot, if_pos rfl, hcj]⟩
        · exact ⟨c, hc, by rw [hslot, if_neg hci, if_neg hcj]⟩
  have hpos : ∀ x, ((h.swap i j).timers x).heapPos = if x = h.slot i then (j : Int) else if x = h.slot j then (i : Int)
      else (h.timers x).heapPos := by
    intro x
    rw [TimerHeap.swap, setPos_pos, setPos_pos]
  refine ⟨fun c x hx => ?_, fun x => (hmem x).trans (hm.mem x), hlen.trans hm.length, fun x => (swap_deadline h i j x).trans (hm.deadline x),
    fun x hx => ?_, hm.free, hm.held, hm.fresh⟩
  · have hc : c < h.a.length := hlen ▸ (List.getElem?_eq_some_iff.mp hx).1
    rw [← slot_of_getElem hx, hpos, hslot]
    by_cases hci : c = i
    · rw [if_pos hci, if_neg (Ne.symm hne), if_pos rfl, hci]
    · rw [if_neg hci]
      by_cases hcj : c = j
      · rw [if_pos hcj, if_pos rfl, hcj]
      · rw [if_neg hcj, if_neg fun he => hci (slot_inj hm.placed hc hi he), if_neg fun he => hcj (slot_inj hm.placed hc hj he)]
        exact hm.placed c _ (getElem_slot hc)
  · have hx' : x ∉ h.a := fun hc => hx ((hm.mem x).mp hc)
    have hxi : x ≠ h.slot i := fun he => hx' ((mem_iff_slot h x).mpr ⟨i, hi, he.symm⟩)
    have hxj : x ≠ h.slot j := fun he => hx' ((mem_iff_slot h x).mpr ⟨j, hj, he.symm⟩)
    rw [TimerHeap.swap, setPos_other _ _ hxi, setPos_other _ _ hxj]
    exact hm.outside x hx

theorem Moved.siftUp (hm : Moved h₀ h) (hi : i < h.a.length) : Moved h₀ (h.siftUp i) :=
  siftUp_keeps (S := slots) (fun _ _ _ h₁ h₂ hne hm => Moved.swap hm h₁ h₂ hne) hi hm

theorem Moved.siftDown (hm : Moved h₀ h) (i : Nat) : Moved h₀ (h.siftDown i).1 :=
  siftDown_keeps (S := slots) (fun _ _ _ h₁ h₂ hne hm => Moved.swap hm h₁ h₂ hne) hm

theorem Base.moved (hb : Base h₀) (hm : Moved h₀ h) : Base h where
  placed := hm.placed
  others := fun x hx => by
    have hx₀ : x ∉ h₀.a := fun hc => hx ((hm.mem x).mpr hc)
    rw [hm.outside x hx₀]
    exact hb.others x hx₀
  nodup := by rw [hm.free, hm.held]; exact hb.nodup
  apart := fun x hx hc => by
    rw [hm.free, hm.held] at hx
    exact hb.apart x hx ((hm.mem x).mp hc)
  below := by
    rw [hm.free, hm.held, hm.fresh]
    exact ⟨fun x hx => hb.below.1 x ((hm.mem x).mp hx), hb.below.2⟩

/-- The heap without the timer of slot `i`, before the order is restored. -/
structure Detached (h h₁ : TimerHeap) (i : Nat) : Prop where
  base : Base h₁
  mem : ∀ x, x ∈ h₁.a ↔ x ∈ h.a ∧ x ≠ h.slot i
  length : h₁.a.length = h.a.length - 1
  deadline : ∀ x, (h₁.timers x).deadlineMs = (h.timers x).deadlineMs
  free : h₁.free = h.free
  held : h₁.held = h.held
  fresh : h₁.fresh = h.fresh
  near : Near slots h₁ i

theorem Inv.detach (hv : Inv h) (hi : i < h.a.length) : Detached h (h.detach i) i := by
  have hlast : h.a.length - 1 < h.a.length := by omega
  have hdl : ∀ x, ((h.detach i).timers x).deadlineMs = (h.timers x).deadlineMs := fun x => by
    rw [TimerHeap.detach, setPos_deadline, setPos_deadline]
  have hlen : (h.detach i).a.length = h.a.length - 1 := by
    change ((h.a.set i _).dropLast).length = _
    rw [List.length_dropLast, List.length_set]
  have hslot : ∀ c, c < h.a.length - 1 → (h.detach i).slot c = if c = i then h.slot (h.a.length - 1) else h.slot c := by
    intro c hc
    change ((h.a.set i _).dropLast).getD c 0 = _
    rw [List.getD_eq_getElem?_getD, List.getElem?_dropLast, List.length_set, if_pos hc, List.getElem?_set]
    by_cases hci : c = i
    · rw [if_pos hci.symm, if_pos hi, Option.getD_some, if_pos hci]
    · rw [if_neg (Ne.symm hci), if_neg hci, ← List.getD_eq_getElem?_getD]
      rfl
  have hpos : ∀ x, ((h.detach i).timers x).heapPos = if x = h.slot i then -1 else if x = h.slot (h.a.length - 1) then (i : Int)
      else (h.timers x).heapPos := fun x => by
    rw [TimerHeap.detach, setPos_pos, setPos_pos]
  have hinj := fun {c j : Nat} (hc : c < h.a.length) (hj : j < h.a.length) => slot_inj hv.base.placed hc hj
  have hmem : ∀ x, x ∈ (h.detach i).a ↔ x ∈ h.a ∧ x ≠ h.slot i := by
    intro x
    rw [mem_iff_slot, mem_iff_slot, hlen]
    constructor
    · rintro ⟨c, hc, rfl⟩
      rw [hslot c hc]
      by_cases hci : c = i
      · rw [if_pos hci]
        exact ⟨⟨_, hlast, rfl⟩, fun he => by have := hinj hlast hi he; omega⟩
      · rw [if_neg hci]
        exact ⟨⟨c, by omega, rfl⟩, fun he => hci (hinj (by omega) hi he)⟩
    · rintro ⟨⟨c, hc, rfl⟩, hne⟩
      have hci : c ≠ i := fun he => hne (by rw [he])
      by_cases hcl : c = h.a.length - 1
      · exact ⟨i, by omega, by rw [hslot i (by omega), if_pos rfl, hcl]⟩
      · exact ⟨c, by omega, by rw [hslot c (by omega), if_neg hci]⟩
  have hkey : ∀ c, c < h.a.length - 1 → c ≠ i → (h.detach i).key c = h.key c := fun c hc hci => by
    rw [TimerHeap.key, hdl, hslot c hc, if_neg hci, TimerHeap.key]
  refine ⟨⟨fun c x hx => ?_, fun x hx => ?_, hv.base.nodup, fun x hx hc => hv.base.apart x hx ((hmem x).mp hc).1,
    fun x hx => hv.base.below.1 x ((hmem x).mp hx).1, hv.base.below.2⟩, hmem, hlen, hdl, rfl, rfl, rfl, ?_⟩
  · have hc : c < h.a.length - 1 := hlen ▸ (List.getElem?_eq_some_iff.mp hx).1
    rw [← slot_of_getElem hx, hslot c hc, hpos]
    by_cases hci : c = i
    · rw [if_pos hci, if_neg fun he => by have := hinj hlast hi he; omega, if_pos rfl, hci]
    · rw [if_neg hci, if_neg fun he => hci (hinj (by omega) hi he), if_neg fun he => by have := hinj (by omega) hlast he; omega]
      exact hv.base.placed c _ (getElem_slot (by omega))
  · rw [hpos]
    by_cases hxi : x = h.slot i
    · rw [if_pos hxi]
    · have hx' : x ∉ h.a := fun hc => hx ((hmem x).mpr ⟨hc, hxi⟩)
      rw [if_neg hxi, if_neg fun he => hx' ((mem_iff_slot h x).mpr ⟨_, hlast, he.symm⟩)]
      exact hv.base.others x hx'
  · have hn := hv.heap.near i hi
    refine ⟨fun c hc₀ hc hci hpc => ?_, fun h₀ c hc₀ hc hpc => ?_⟩
    · have hc' : c < h.a.length - 1 := hlen ▸ hc
      have hpar : parent c < c := by rw [parent]; omega
      change (h.detach i).key (parent c) ≤ (h.detach i).key c
      rw [hkey _ (by omega) hpc, hkey _ hc' hci]
      exact hn.away c hc₀ (show c < h.a.length by omega) hci hpc
    · have hc' : c < h.a.length - 1 := hlen ▸ hc
      have hpar : parent c < c := by rw [parent]; omega
      have hpi : parent i < i := by rw [parent]; omega
      change (h.detach i).key (parent i) ≤ (h.detach i).key c
      rw [hkey _ (by omega) (by omega), hkey _ hc' (by omega)]
      exact hn.across h₀ c hc₀ (show c < h.a.length by omega) hpc

/-- What a heap that has lost the timer of slot `i` looks like once it is in order. -/
structure Without (h h₁ : TimerHeap) (t : Nat) : Prop where
  inv : Inv h₁
  mem : ∀ x, x ∈ h₁.a ↔ x ∈ h.a ∧ x ≠ t
  length : h₁.a.length = h.a.length - 1
  deadline : ∀ x, (h₁.timers x).deadlineMs = (h.timers x).deadlineMs
  free : h₁.free = h.free
  held : h₁.held = h.held
  fresh : h₁.fresh = h.fresh

theorem Detached.without (hd : Detached h h₀ i) (hm : Moved h₀ h₁) (hh : Heap slots h₁) : Without h h₁ (h.slot i) where
  inv := ⟨hd.base.moved hm, hh⟩
  mem := fun x => (hm.mem x).trans (hd.mem x)
  length := hm.length.trans hd.length
  deadline := fun x => (hm.deadline x).trans (hd.deadline x)
  free := hm.free.trans hd.free
  held := hm.held.trans hd.held
  fresh := hm.fresh.trans hd.fresh

theorem heap_of_length (hl : h.a.length ≤ 1) : Heap slots h := fun c hc₀ hc => by
  have : c < h.a.length := hc
  omega

theorem Inv.popMin (hv : Inv h) (hne : 0 < h.a.length) : Without h h.popMin.2 h.popMin.1 := by
  have hd := hv.detach hne
  rw [TimerHeap.popMin]
  dsimp only
  split
  · exact hd.without ((Moved.refl hd.base.placed).siftDown 0) (siftDown_heap hd.near fun h₀ => absurd h₀ (Nat.lt_irrefl 0))
  · exact hd.without (Moved.refl hd.base.placed) (heap_of_length (by omega))

/-- Either the handle is not armed and nothing happens, or its timer leaves the heap for the pool. -/
theorem Inv.remove_cases (hv : Inv h) (t : Nat) :
    (t ∉ h.a ∧ h.remove t = h) ∨ (t ∈ h.a ∧ ∃ h₁, Without h h₁ t ∧ h.remove t = h₁.release t) := by
  rw [TimerHeap.remove]
  dsimp only
  by_cases hin : t ∈ h.a
  · obtain ⟨i, hi, ht⟩ := (mem_iff_slot h t).mp hin
    have hpos : (h.timers t).heapPos = i := by rw [← ht]; exact hv.base.placed i _ (getElem_slot hi)
    have hd := hv.detach hi
    rw [hpos, Int.toNat_natCast, if_neg (by rw [ht]; omega)]
    refine Or.inr ⟨hin, _, ?_, rfl⟩
    rw [← ht]
    split
    next hlt =>
      have hmd := (Moved.refl hd.base.placed).siftDown i
      have hcases := siftDown_near hd.near
      split
      next hmoved => exact hd.without hmd (hcases.1 hmoved)
      next hmoved =>
        obtain ⟨hsame, habove⟩ := hcases.2 (Bool.eq_false_iff.mpr hmoved)
        change ((h.detach i).siftDown i).1 = _ at hsame
        rw [hsame]
        exact hd.without ((Moved.refl hd.base.placed).siftUp hlt) (siftUp_heap hd.near habove hlt)
    next hlt =>
      refine hd.without (Moved.refl hd.base.placed) ?_
      -- the last slot went, and no other one has moved
      have hlast : i = h.a.length - 1 := by have := hd.length; omega
      intro c hc₀ hc
      have hc' : c < (h.detach i).a.length := hc
      have hcl := hd.length
      have hp : parent c < c := by rw [parent]; omega
      exact hd.near.away c hc₀ hc (by omega) (by omega)
  · have := hv.base.others t hin
    exact Or.inl ⟨hin, by rw [if_pos (by omega)]⟩

theorem Without.release (hw : Without h h₁ t) (hv : Inv h) (ht : t ∈ h.a) : Inv (h₁.release t) := by
  have hb := hw.inv.base
  have htf : t ∉ h₁.free ++ h₁.held := by
    rw [hw.free, hw.held]
    exact fun hc => hv.base.apart t hc ht
  have htl : t < h₁.fresh := by rw [hw.fresh]; exact hv.base.below.1 t ht
  have hperm : ((h₁.free ++ [t]) ++ h₁.held).Perm (t :: (h₁.free ++ h₁.held)) := by
    rw [List.append_assoc, List.singleton_append]
    exact List.perm_middle
  have hmem : ∀ x ∈ (h₁.free ++ [t]) ++ h₁.held, x = t ∨ x ∈ h₁.free ++ h₁.held := fun x hx => List.mem_cons.mp (hperm.mem_iff.mp hx)
  refine ⟨⟨hb.placed, hb.others, ?_, ?_, hb.below.1, ?_⟩, hw.inv.heap⟩
  · exact hperm.nodup_iff.mpr (List.nodup_cons.mpr ⟨htf, hb.nodup⟩)
  · intro x hx
    rcases hmem x hx with rfl | hx
    · exact fun hc => ((hw.mem x).mp hc).2 rfl
    · exact hb.apart x hx
  · intro x hx
    rcases hmem x hx with rfl | hx
    · exact htl
    · exact hb.below.2 x hx

/-- What removing a timer by its handle leaves: the others, with their deadlines. -/
structure Removed (h : TimerHeap) (t : Nat) (h₁ : TimerHeap) : Prop where
  inv : Inv h₁
  mem : ∀ x, x ∈ h₁.a ↔ x ∈ h.a ∧ x ≠ t
  deadline : ∀ x, (h₁.timers x).deadlineMs = (h.timers x).deadlineMs

theorem Inv.remove (hv : Inv h) (t : Nat) : Removed h t (h.remove t) := by
  rcases hv.remove_cases t with ⟨ht, he⟩ | ⟨ht, h₁, hw, he⟩
  · rw [he]
    exact ⟨hv, fun x => ⟨fun hx => ⟨hx, fun hxt => ht (hxt ▸ hx)⟩, And.left⟩, fun _ => rfl⟩
  · rw [he]
    exact ⟨hw.release hv ht, hw.mem, hw.deadline⟩

theorem Inv.alloc (hv : Inv h) : h.alloc.2.a = h.a ∧ h.alloc.2.timers = h.timers ∧ h.alloc.1 ∉ h.a ∧
    h.alloc.1 < h.alloc.2.fresh ∧ h.fresh ≤ h.alloc.2.fresh ∧ (h.alloc.1 :: (h.alloc.2.free ++ h.alloc.2.held)).Nodup ∧
    ∀ x ∈ h.alloc.2.free ++ h.alloc.2.held, x ∈ h.free ++ h.held := by
  obtain ⟨hb, -⟩ := hv
  rw [TimerHeap.alloc]
  split
  next t hl =>
    obtain ⟨free, hf⟩ := List.getLast?_eq_some_iff.mp hl
    have hdrop : h.free.dropLast = free := by rw [hf, List.dropLast_concat]
    have htm : t ∈ h.free ++ h.held := List.mem_append_left _ (List.mem_of_getLast? hl)
    have hperm : (h.free ++ h.held).Perm (t :: (free ++ h.held)) := by
      rw [hf, List.append_assoc, List.singleton_append]
      exact List.perm_middle
    dsimp only
    rw [hdrop]
    exact ⟨rfl, rfl, hb.apart t htm, hb.below.2 t htm, Nat.le_refl _, hperm.nodup_iff.mp hb.nodup,
      fun x hx => hperm.mem_iff.mpr (List.mem_cons_of_mem _ hx)⟩
  next hl =>
    refine ⟨rfl, rfl, fun hc => Nat.lt_irrefl _ (hb.below.1 _ hc), Nat.lt_succ_self _, Nat.le_succ _,
      List.nodup_cons.mpr ⟨fun hc => Nat.lt_irrefl _ (hb.below.2 _ hc), hb.nodup⟩, fun x hx => hx⟩

/-- What a push leaves: one more timer, a new one with its deadline. -/
structure Pushed (h : TimerHeap) (d : Int) (r : Nat × TimerHeap) : Prop where
  inv : Inv r.2
  new : r.1 ∉ h.a
  mem : ∀ x, x ∈ r.2.a ↔ x ∈ h.a ∨ x = r.1
  own : (r.2.timers r.1).deadlineMs = d
  deadline : ∀ x, x ≠ r.1 → (r.2.timers x).deadlineMs = (h.timers x).deadlineMs

theorem Inv.push (hv : Inv h) (d : Int) : Pushed h d (h.push d) := by
  obtain ⟨ha, ht, hna, hlt, hfr, hnd, hsub⟩ := hv.alloc
  rw [TimerHeap.push]
  dsimp only
  generalize h.alloc.1 = t at *
  generalize h.alloc.2 = g at *
  rw [ha, ht, List.length_append, List.length_singleton, Nat.add_sub_cancel]
  generalize hg : ({ g with timers := fun x => if x = t then ⟨d, h.a.length⟩ else h.timers x, a := h.a ++ [t] } : TimerHeap) = g₁
  have hga : g₁.a = h.a ++ [t] := by rw [← hg]
  have hgt : ∀ x, g₁.timers x = if x = t then ⟨d, h.a.length⟩ else h.timers x := fun x => by rw [← hg]
  have hgf : g₁.free = g.free ∧ g₁.held = g.held ∧ g₁.fresh = g.fresh := by rw [← hg]; exact ⟨rfl, rfl, rfl⟩
  have hlen : g₁.a.length = h.a.length + 1 := by rw [hga, List.length_append, List.length_singleton]
  have hb : Base g₁ := by
    refine ⟨fun i x hx => ?_, fun x hx => ?_, ?_, fun x hx => ?_, fun x hx => ?_, fun x hx => ?_⟩
    · rw [hga] at hx
      rcases Nat.lt_or_ge i h.a.length with hi | hi
      · rw [List.getElem?_append_left hi] at hx
        have hxt : x ≠ t := fun he => hna (he ▸ List.mem_of_getElem? hx)
        rw [hgt, if_neg hxt]
        exact hv.base.placed i x hx
      · rw [List.getElem?_append_right hi] at hx
        have h0 : i - h.a.length = 0 := by
          have := (List.getElem?_eq_some_iff.mp hx).1
          rw [List.length_singleton] at this
          omega
        rw [h0] at hx
        cases hx
        rw [hgt, if_pos rfl]
        dsimp only
        omega
    · rw [hga, List.mem_append, List.mem_singleton] at hx
      rw [hgt, if_neg fun he => hx (Or.inr he)]
      exact hv.base.others x fun hc => hx (Or.inl hc)
    · rw [hgf.1, hgf.2.1]
      exact (List.nodup_cons.mp hnd).2
    · rw [hgf.1, hgf.2.1] at hx
      rw [hga, List.mem_append, List.mem_singleton]
      rintro (hc | rfl)
      · exact hv.base.apart x (hsub x hx) hc
      · exact (List.nodup_cons.mp hnd).1 hx
    · rw [hga, List.mem_append, List.mem_singleton] at hx
      rw [hgf.2.2]
      rcases hx with hx | rfl
      · exact Nat.lt_of_lt_of_le (hv.base.below.1 x hx) hfr
      · exact hlt
    · rw [hgf.1, hgf.2.1] at hx
      rw [hgf.2.2]
      exact Nat.lt_of_lt_of_le (hv.base.below.2 x (hsub x hx)) hfr
  have hi : h.a.length < g₁.a.length := by omega
  have hkey : ∀ c, c < h.a.length → g₁.key c = h.key c := by
    intro c hc
    have hs : g₁.slot c = h.slot c := by
      rw [slot, slot, hga, List.getD_eq_getElem?_getD, List.getElem?_append_left hc, ← List.getD_eq_getElem?_getD]
    have hne : h.slot c ≠ t := fun he => hna ((mem_iff_slot h t).mpr ⟨c, hc, he⟩)
    rw [TimerHeap.key, TimerHeap.key, hs, hgt, if_neg hne]
  have hnear : Near slots g₁ h.a.length := by
    refine ⟨fun c hc₀ hc hci _ => ?_, fun _ c _ hc hpc => ?_⟩
    · have hc' : c < g₁.a.length := hc
      have hp : parent c < c := by rw [parent]; omega
      change g₁.key (parent c) ≤ g₁.key c
      rw [hkey _ (by omega), hkey _ (by omega)]
      exact hv.heap c hc₀ (show c < h.a.length by omega)
    · have hc' : c < g₁.a.length := hc
      rw [parent] at hpc
      omega
  have habove : Above slots g₁ h.a.length := fun c _ hc hpc => by
    have hc' : c < g₁.a.length := hc
    rw [parent] at hpc
    omega
  have hm := (Moved.refl hb.placed).siftUp hi
  refine ⟨⟨hb.moved hm, siftUp_heap hnear habove hi⟩, hna, fun x => ?_, ?_, fun x hx => ?_⟩
  · rw [hm.mem, hga, List.mem_append, List.mem_singleton]
  · rw [hm.deadline, hgt, if_pos rfl]
  · rw [hm.deadline, hgt, if_neg hx]

/-- The loop of `popDue` from a heap: what it pops, in order, and the heap it leaves. -/
structure Pops (h : TimerHeap) (now : Int) (room : Nat) (popped : List Nat) (h₁ : TimerHeap) : Prop where
  inv : Inv h₁
  perm : h.a.Perm (popped ++ h₁.a)
  deadline : ∀ x, (h₁.timers x).deadlineMs = (h.timers x).deadlineMs
  sorted : popped.Pairwise fun x y => (h.timers x).deadlineMs ≤ (h.timers y).deadlineMs
  due : ∀ x ∈ popped, (h.timers x).deadlineMs ≤ now
  earliest : ∀ x ∈ popped, ∀ y ∈ h₁.a, (h.timers x).deadlineMs ≤ (h.timers y).deadlineMs
  count : popped.length = min room (h.a.countP fun x => decide ((h.timers x).deadlineMs ≤ now))
  free : h₁.free = h.free
  held : h₁.held = h.held
  fresh : h₁.fresh = h.fresh

theorem Inv.key_root_le (hv : Inv h) {x : Nat} (hx : x ∈ h.a) : h.key 0 ≤ (h.timers x).deadlineMs := by
  obtain ⟨c, hc, rfl⟩ := (mem_iff_slot h x).mp hx
  exact hv.heap.root_le hc

theorem Without.perm (hw : Without h h₁ t) (hv : Inv h) (ht : t ∈ h.a) : h.a.Perm (t :: h₁.a) := by
  have hnt : t ∉ h₁.a := fun hc => ((hw.mem t).mp hc).2 rfl
  refine (List.perm_ext_iff_of_nodup hv.base.placed.nodup (List.nodup_cons.mpr ⟨hnt, hw.inv.base.placed.nodup⟩)).mpr fun x => ?_
  rw [List.mem_cons, hw.mem]
  by_cases hx : x = t
  · rw [hx]
    exact iff_of_true ht (Or.inl rfl)
  · simp [hx]

theorem popDueLoop_pops (now limit : Int) : ∀ (k : Nat) (h : TimerHeap) (out : List Nat), Inv h → h.a.length ≤ k →
    ∃ popped h₁, popDueLoop now limit k h out = (out ++ popped, h₁) ∧ Pops h now (limit - out.length).toNat popped h₁ := by
  intro k
  induction k with
  | zero =>
    intro h out hv hk
    have hnil : h.a = [] := List.length_eq_zero_iff.mp (by omega)
    refine ⟨[], h, by rw [popDueLoop, List.append_nil], hv, by rw [List.nil_append], fun _ => rfl, .nil, by simp, by simp, ?_, rfl, rfl, rfl⟩
    rw [hnil]
    simp
  | succ k ih =>
    intro h out hv hk
    rw [popDueLoop]
    by_cases hgo : 0 < h.a.length ∧ h.key 0 ≤ now ∧ (out.length : Int) < limit
    · obtain ⟨hne, hdue, hroom⟩ := hgo
      have ht : h.popMin.1 ∈ h.a := (mem_iff_slot h _).mpr ⟨0, hne, rfl⟩
      have hw := hv.popMin hne
      have hp := hw.perm hv ht
      have hkt : (h.timers h.popMin.1).deadlineMs = h.key 0 := rfl
      obtain ⟨popped, h₁, he, hq⟩ := ih h.popMin.2 (out ++ [h.popMin.1]) hw.inv (by rw [hw.length]; omega)
      have hdl := hw.deadline
      rw [if_pos ⟨hne, hdue, hroom⟩, he]
      generalize h.popMin.1 = t at *
      generalize h.popMin.2 = g at *
      have hmin : ∀ x ∈ h.a, (h.timers t).deadlineMs ≤ (h.timers x).deadlineMs := fun x hx => hkt ▸ hv.key_root_le hx
      refine ⟨t :: popped, h₁, by rw [List.append_assoc, List.singleton_append], hq.inv, ?_, fun x => (hq.deadline x).trans (hdl x), ?_, ?_,
        ?_, ?_, hq.free.trans hw.free, hq.held.trans hw.held, hq.fresh.trans hw.fresh⟩
      · exact hp.trans (List.Perm.cons t hq.perm)
      · refine List.pairwise_cons.mpr ⟨fun x hx => ?_, hq.sorted.imp fun hxy => by rw [hdl, hdl] at hxy; exact hxy⟩
        exact hmin x (hp.mem_iff.mpr (List.mem_cons_of_mem _ (hq.perm.mem_iff.mpr (List.mem_append_left _ hx))))
      · intro x hx
        rcases List.mem_cons.mp hx with rfl | hx
        · rw [hkt]
          exact hdue
        · rw [← hdl]
          exact hq.due x hx
      · intro x hx y hy
        rcases List.mem_cons.mp hx with rfl | hx
        · exact hmin y (hp.mem_iff.mpr (List.mem_cons_of_mem _ (hq.perm.mem_iff.mpr (List.mem_append_right _ hy))))
        · rw [← hdl, ← hdl]
          exact hq.earliest x hx y hy
      · have hc := hp.countP_eq fun x => decide ((h.timers x).deadlineMs ≤ now)
        have htd : (h.timers t).deadlineMs ≤ now := hkt ▸ hdue
        rw [List.countP_cons, if_pos (decide_eq_true htd)] at hc
        have hsame : (fun x => decide ((g.timers x).deadlineMs ≤ now)) = fun x => decide ((h.timers x).deadlineMs ≤ now) :=
          funext fun x => by rw [hdl]
        have hq' := hq.count
        rw [hsame, List.length_append, List.length_singleton] at hq'
        rw [List.length_cons, hc, hq']
        push_cast
        omega
    · rw [if_neg hgo]
      refine ⟨[], h, by rw [List.append_nil], hv, by rw [List.nil_append], fun _ => rfl, .nil, by simp, by simp, ?_, rfl, rfl, rfl⟩
      -- the root is not due, so nothing is, or there is no room
      by_cases hroom : (out.length : Int) < limit
      · have hnone : h.a.countP (fun x => decide ((h.timers x).deadlineMs ≤ now)) = 0 := by
          rw [List.countP_eq_zero]
          intro x hx hd
          have hroot := hv.key_root_le hx
          have hd' := of_decide_eq_true hd
          exact hgo ⟨List.length_pos_of_mem hx, by omega, hroom⟩
        rw [hnone]
        simp
      · rw [show (limit - out.length).toNat = 0 by omega]
        simp

theorem Inv.popDue (hv : Inv h) (now limit : Int) : Pops h now limit.toNat (h.popDue now limit []).1 (h.popDue now limit []).2 := by
  obtain ⟨popped, h₁, he, hp⟩ := popDueLoop_pops now limit h.a.length h [] hv (Nat.le_refl _)
  rw [TimerHeap.popDue, he, List.nil_append]
  rw [List.length_nil] at hp
  simpa using hp

theorem Inv.op (hv : Inv h) (o : Op) : Inv (h.op o) := by
  cases o with
  | push d => exact (hv.push d).inv
  | remove t => exact (hv.remove t).inv
  | popDue now limit =>
    have hp := hv.popDue now limit
    rw [TimerHeap.op]
    generalize (h.popDue now limit []).1 = popped at *
    generalize (h.popDue now limit []).2 = h₁ at *
    have hb := hp.inv.base
    have hin : ∀ x ∈ popped, x ∈ h.a := fun x hx => hp.perm.mem_iff.mpr (List.mem_append_left _ hx)
    have hnd := hp.perm.nodup_iff.mp hv.base.placed.nodup
    have hmem : ∀ x ∈ h₁.free ++ (h₁.held ++ popped), x ∈ h₁.free ++ h₁.held ∨ x ∈ popped := fun x hx => by
      rw [← List.append_assoc] at hx
      exact List.mem_append.mp hx
    refine ⟨⟨hb.placed, hb.others, ?_, fun x hx => ?_, hb.below.1, fun x hx => ?_⟩, hp.inv.heap⟩
    · change (h₁.free ++ (h₁.held ++ popped)).Nodup
      rw [← List.append_assoc]
      refine List.nodup_append.mpr ⟨hb.nodup, (List.nodup_append.mp hnd).1, fun x hx y hy he => ?_⟩
      rw [hp.free, hp.held, he] at hx
      exact hv.base.apart y hx (hin y hy)
    · rcases hmem x hx with hx | hx
      · exact hb.apart x hx
      · exact fun hc => (List.nodup_append.mp hnd).2.2 x hx x hc rfl
    · rcases hmem x hx with hx | hx
      · exact hb.below.2 x hx
      · change x < h₁.fresh
        rw [hp.fresh]
        exact hv.base.below.1 x (hin x hx)
  | release t =>
    rw [TimerHeap.op]
    dsimp only
    split
    next ht =>
      have hb := hv.base
      have hperm : ((h.free ++ [t]) ++ h.held.erase t).Perm (h.free ++ h.held) := by
        rw [List.append_assoc, List.singleton_append]
        exact (List.Perm.append_left _ (List.perm_cons_erase ht)).symm
      exact ⟨⟨hb.placed, hb.others, hperm.nodup_iff.mpr hb.nodup, fun x hx => hb.apart x (hperm.mem_iff.mp hx), hb.below.1,
        fun x hx => hb.below.2 x (hperm.mem_iff.mp hx)⟩, hv.heap⟩
    next => exact hv

theorem empty_inv : Inv TimerHeap.empty where
  base := ⟨by simp [Placed, TimerHeap.empty], fun _ _ => rfl, List.nodup_nil, by simp [TimerHeap.empty], by simp [TimerHeap.empty]⟩
  heap := heap_of_length (by simp [TimerHeap.empty])

theorem Inv.ops (hv : Inv h) (os : List Op) : Inv (h.ops os) := by
  induction os generalizing h with
  | nil => exact hv
  | cons o os ih => exact ih (hv.op o)

/-- After every run the heap is in order, every armed timer stands at its own position and every other one at -1, no timer is armed
and free or twice free. From there a push arms one new timer with its deadline, removing takes out the timer it names alone, and
popping takes the earliest due timers, in order and up to the limit, and leaves the rest. -/
theorem timerHeap_run (os : List Op) :
    (∀ c, 0 < c → c < (TimerHeap.empty.ops os).a.length → (TimerHeap.empty.ops os).key ((c - 1) / 2) ≤ (TimerHeap.empty.ops os).key c) ∧
      (∀ (i : Nat) (x : Nat), (TimerHeap.empty.ops os).a[i]? = some x → ((TimerHeap.empty.ops os).timers x).heapPos = i) ∧
      (∀ x, x ∉ (TimerHeap.empty.ops os).a → ((TimerHeap.empty.ops os).timers x).heapPos = -1) ∧
      (TimerHeap.empty.ops os).free.Nodup ∧ (∀ x ∈ (TimerHeap.empty.ops os).free, x ∉ (TimerHeap.empty.ops os).a) ∧
      (∀ d, Pushed (TimerHeap.empty.ops os) d ((TimerHeap.empty.ops os).push d)) ∧
      (∀ t, Removed (TimerHeap.empty.ops os) t ((TimerHeap.empty.ops os).remove t)) ∧
      ∀ now limit, Pops (TimerHeap.empty.ops os) now limit.toNat ((TimerHeap.empty.ops os).popDue now limit []).1
        ((TimerHeap.empty.ops os).popDue now limit []).2 := by
  have hv := empty_inv.ops os
  exact ⟨hv.heap, hv.base.placed, hv.base.others, (List.nodup_append.mp hv.base.nodup).1,
    fun x hx => hv.base.apart x (List.mem_append_left _ hx), hv.push, hv.remove, hv.popDue⟩

end TimerHeap

end Aki
