import Aki.Bisect
import Aki.BoundedScan

namespace Aki.SetAlgebra

open Bisect BoundedScan

/-- A member's 64-bit hash and its ordinal, whose top bit is the tombstone. -/
structure HEntry where
  h : Nat
  ord : Nat
deriving DecidableEq

def isTomb (ord : Nat) : Bool := ord.testBit 31

/-- What is left of an operand: of its sorted run, tombstones included, and of its sorted tail. -/
structure Operand where
  run : List HEntry
  tail : List HEntry
deriving DecidableEq

def Operand.skipTomb (s : Operand) : Operand := { s with run := s.run.dropWhile fun e => isTomb e.ord }

/-- The entry with the smallest hash, the run's first on a tie; `none` when the operand is drained. -/
def Operand.next (s : Operand) : Option (HEntry × Operand) :=
  match s.skipTomb.run, s.skipTomb.tail with
  | [], [] => none
  | [], t :: ts => some (t, ⟨[], ts⟩)
  | r :: rs, [] => some (r, ⟨rs, []⟩)
  | r :: rs, t :: ts => if r.h ≤ t.h then some (r, ⟨rs, t :: ts⟩) else some (t, ⟨r :: rs, ts⟩)

def Operand.peek (s : Operand) : Option Nat := s.next.map fun r => r.1.h

def Operand.headIf (hv : Nat) (es : List HEntry) : Option HEntry := es.head?.filter fun e => e.h == hv

def Operand.dropIf (hv : Nat) (es : List HEntry) : List HEntry := if (headIf hv es).isSome then es.tail else es

/-- All entries of one hash, from the run and the tail in turn. -/
def Operand.takeRun (hv : Nat) : Nat → Operand → List HEntry → List HEntry × Operand
  | 0, s, dst => (dst, s)
  | fuel + 1, s, dst =>
    let s := s.skipTomb
    let took := (headIf hv s.run).toList ++ (headIf hv s.tail).toList
    if took = [] then (dst, s) else takeRun hv fuel ⟨dropIf hv s.run, dropIf hv s.tail⟩ (dst ++ took)

def Operand.size (s : Operand) : Nat := s.run.length + s.tail.length

/-- Whether the run has an entry below the target at this index. -/
def Operand.below (run : List HEntry) (target i : Nat) : Bool := run[i]?.any fun e => decide (e.h < target)

/-- Doubling steps, then a binary search between the last two of them. -/
def Operand.gallopIndex (run : List HEntry) (target : Nat) : Nat :=
  let r := gallop (below run target) run.length 0 1
  let hi := min (r.1 + r.2) run.length
  bisect (below run target) (hi - r.1) r.1 hi

def Operand.gallopTo (s : Operand) (target : Nat) : Operand :=
  ⟨if below s.run target 0 then s.run.drop (gallopIndex s.run target) else s.run, s.tail.dropWhile fun e => decide (e.h < target)⟩

/-- The entries still to come. -/
def Operand.live (s : Operand) : List HEntry := s.run.filter (fun e => !isTomb e.ord) ++ s.tail

def Operand.Sorted (s : Operand) : Prop := s.run.Pairwise (fun a b => a.h ≤ b.h) ∧ s.tail.Pairwise fun a b => a.h ≤ b.h

open Operand

section Kernels

variable (confirm : Nat → Nat → Bool)

/-- The first entry of the other group that is the same member. -/
def partner (rb : List HEntry) (ea : HEntry) : Option HEntry := rb.find? fun eb => confirm ea.ord eb.ord

def mergeIntersect : Nat → Operand → Operand → List (Nat × Nat)
  | 0, _, _ => []
  | fuel + 1, a, b =>
    match a.peek, b.peek with
    | some ha, some hb =>
      if ha < hb then mergeIntersect fuel (a.skipTomb.gallopTo hb) b
      else if hb < ha then mergeIntersect fuel a (b.skipTomb.gallopTo ha)
      else
        let ra := a.takeRun ha (a.size + 1) []
        let rb := b.takeRun hb (b.size + 1) []
        (ra.1.filterMap fun ea => (partner confirm rb.1 ea).map fun eb => (ea.ord, eb.ord)) ++ mergeIntersect fuel ra.2 rb.2
    | _, _ => []

/-- How many of them there are, counted from `count` up to a positive limit. -/
def mergeIntersectCount (limit : Int) : Nat → Operand → Operand → Nat → Nat
  | 0, _, _, count => count
  | fuel + 1, a, b, count =>
    match a.peek, b.peek with
    | some ha, some hb =>
      if ha < hb then mergeIntersectCount limit fuel (a.skipTomb.gallopTo hb) b count
      else if hb < ha then mergeIntersectCount limit fuel a (b.skipTomb.gallopTo ha) count
      else
        let ra := a.takeRun ha (a.size + 1) []
        let rb := b.takeRun hb (b.size + 1) []
        match scan (fun ea => (partner confirm rb.1 ea).isNone) (fun _ => false) (filled limit) (fun n _ => n + 1) ra.1 count with
        | (count, true) => count
        | (count, false) => mergeIntersectCount limit fuel ra.2 rb.2 count
    | _, _ => count

def mergeDiff : Nat → Operand → Operand → List Nat
  | 0, _, _ => []
  | fuel + 1, a, b =>
    match a.next, b.peek with
    | none, _ => []
    | some (ea, a'), none => ea.ord :: mergeDiff fuel a' b
    | some (ea, a'), some hb =>
      if ea.h < hb then ea.ord :: mergeDiff fuel a' b
      else if hb < ea.h then mergeDiff fuel a (b.skipTomb.gallopTo ea.h)
      else
        let ra := a.takeRun ea.h (a.size + 1) []
        let rb := b.takeRun hb (b.size + 1) []
        ((ra.1.filter fun ea => (partner confirm rb.1 ea).isNone).map HEntry.ord) ++ mergeDiff fuel ra.2 rb.2

/-- The ordinals of both sides: all of the one, and those of the other that are not there. -/
def mergeUnion : Nat → Operand → Operand → List Nat × List Nat
  | 0, _, _ => ([], [])
  | fuel + 1, a, b =>
    match a.next, b.next with
    | none, none => ([], [])
    | some (ea, a'), none =>
      let r := mergeUnion fuel a' b
      (ea.ord :: r.1, r.2)
    | none, some (eb, b') =>
      let r := mergeUnion fuel a b'
      (r.1, eb.ord :: r.2)
    | some (ea, a'), some (eb, b') =>
      if ea.h < eb.h then
        let r := mergeUnion fuel a' b
        (ea.ord :: r.1, r.2)
      else if eb.h < ea.h then
        let r := mergeUnion fuel a b'
        (r.1, eb.ord :: r.2)
      else
        let ra := a.takeRun ea.h (a.size + 1) []
        let rb := b.takeRun eb.h (b.size + 1) []
        let r := mergeUnion fuel ra.2 rb.2
        (ra.1.map HEntry.ord ++ r.1,
          (rb.1.filter fun eb => (partner (fun ob oa => confirm oa ob) ra.1 eb).isNone).map HEntry.ord ++ r.2)

end Kernels

namespace Operand

variable {s s' : Operand} {e : HEntry} {hv target : Nat}

theorem live_skipTomb (s : Operand) : s.skipTomb.live = s.live := by
  unfold live skipTomb
  refine congrArg (· ++ s.tail) ?_
  generalize s.run = es
  dsimp only
  induction es with
  | nil => rfl
  | cons e es ih =>
    rw [List.dropWhile_cons, List.filter_cons]
    cases ht : isTomb e.ord with
    | true => simpa using ih
    | false => simp [ht]

theorem Sorted.skipTomb (h : s.Sorted) : s.skipTomb.Sorted := ⟨h.1.sublist (List.dropWhile_sublist _), h.2⟩

theorem skipTomb_head {r : HEntry} {rs : List HEntry} (h : s.skipTomb.run = r :: rs) : isTomb r.ord = false := by
  have := List.head?_dropWhile_not (fun e => isTomb e.ord) s.run
  rw [show s.run.dropWhile (fun e => isTomb e.ord) = r :: rs from h] at this
  simpa using this

theorem next_none (h : s.next = none) : s.live = [] := by
  rw [← live_skipTomb]
  unfold next at h
  split at h
  next hr ht => rw [live, hr, ht]; rfl
  all_goals first | cases h | (split at h <;> cases h)

theorem next_some (hs : s.Sorted) (h : s.next = some (e, s')) :
    s.live.Perm (e :: s'.live) ∧ (∀ x ∈ s.live, e.h ≤ x.h) ∧ s'.Sorted ∧ s.live.length = s'.live.length + 1 := by
  suffices hmain : s.live.Perm (e :: s'.live) ∧ (∀ x ∈ s.live, e.h ≤ x.h) ∧ s'.Sorted from
    ⟨hmain.1, hmain.2.1, hmain.2.2, hmain.1.length_eq⟩
  have hs' := hs.skipTomb
  rw [← live_skipTomb]
  unfold next at h
  unfold Sorted at hs'
  split at h
  · cases h
  next t ts hr ht =>
    cases h
    rw [hr, ht, List.pairwise_cons] at hs'
    rw [live, hr, ht]
    exact ⟨List.Perm.refl _, by simpa using hs'.2.1, List.Pairwise.nil, hs'.2.2⟩
  next r rs hr ht =>
    cases h
    rw [hr, ht, List.pairwise_cons] at hs'
    rw [live, hr, ht, List.filter_cons_of_pos (by simp [skipTomb_head hr])]
    refine ⟨List.Perm.refl _, ?_, hs'.1.2, List.Pairwise.nil⟩
    simpa using fun x hx _ => hs'.1.1 x hx
  next r rs t ts hr ht =>
    rw [hr, ht, List.pairwise_cons, List.pairwise_cons] at hs'
    rw [live, hr, ht, List.filter_cons_of_pos (by simp [skipTomb_head hr])]
    have hrun : ∀ x ∈ rs.filter (fun e => !isTomb e.ord), r.h ≤ x.h := fun x hx => hs'.1.1 x (List.mem_of_mem_filter hx)
    split at h
    next hle =>
      cases h
      refine ⟨List.Perm.refl _, List.forall_mem_append.mpr ⟨?_, ?_⟩, hs'.1.2, List.pairwise_cons.mpr hs'.2⟩
      · exact List.forall_mem_cons.mpr ⟨Nat.le_refl _, hrun⟩
      · exact List.forall_mem_cons.mpr ⟨hle, fun x hx => Nat.le_trans hle (hs'.2.1 x hx)⟩
    next hgt =>
      cases h
      have hlt := Nat.le_of_not_le hgt
      refine ⟨?_, List.forall_mem_append.mpr ⟨?_, ?_⟩, List.pairwise_cons.mpr hs'.1, hs'.2.2⟩
      · rw [live, List.filter_cons_of_pos (by simp [skipTomb_head hr])]
        exact List.perm_middle
      · exact List.forall_mem_cons.mpr ⟨hlt, fun x hx => Nat.le_trans hlt (hrun x hx)⟩
      · exact List.forall_mem_cons.mpr ⟨Nat.le_refl _, hs'.2.1⟩

theorem peek_some (hs : s.Sorted) (h : s.peek = some hv) : (∃ e ∈ s.live, e.h = hv) ∧ ∀ x ∈ s.live, hv ≤ x.h := by
  obtain ⟨⟨e, s'⟩, hn, rfl⟩ := Option.map_eq_some_iff.mp h
  obtain ⟨hperm, hmin, -, -⟩ := next_some hs hn
  exact ⟨⟨e, hperm.symm.subset List.mem_cons_self, rfl⟩, hmin⟩

theorem peek_none (h : s.peek = none) : s.live = [] := next_none (Option.map_eq_none_iff.mp h)

theorem below_cut {es : List HEntry} (h : es.Pairwise fun a b => a.h ≤ b.h) (target : Nat) :
    es.Pairwise fun a b => decide (b.h < target) = true → decide (a.h < target) = true :=
  h.imp fun {a b} hle hb => by
    rw [decide_eq_true_eq] at hb ⊢
    omega

theorem dropWhile_below {es : List HEntry} (h : es.Pairwise fun a b => a.h ≤ b.h) (target : Nat) :
    (es.dropWhile fun e => decide (e.h < target)) = es.filter fun e => decide (target ≤ e.h) := by
  rw [dropWhile_eq_filter (below_cut h target)]
  exact List.filter_congr fun e _ => by rw [Bool.eq_iff_iff]; simp

theorem below_eq {run : List HEntry} (h : run.Pairwise fun a b => a.h ≤ b.h) (target i : Nat) :
    below run target i = decide (i < (run.takeWhile fun e => decide (e.h < target)).length) := any_getElem?_eq (below_cut h target) i

theorem gallopIndex_eq {run : List HEntry} (h : run.Pairwise fun a b => a.h ≤ b.h) (hzero : below run target 0 = true) :
    gallopIndex run target = (run.takeWhile fun e => decide (e.h < target)).length := by
  have hp := below_eq h target
  have hle := (List.takeWhile_sublist (l := run) fun e => decide (e.h < target)).length_le
  rw [hp, decide_eq_true_eq] at hzero
  obtain ⟨hlo, hhi⟩ := gallop_spec hp Nat.one_pos hzero (by omega : _ ≤ 0 + run.length)
  unfold gallopIndex
  dsimp only
  exact bisect_eq hp (Nat.le_of_lt hlo) (by omega) (by omega)

theorem gallopTo_spec (hs : s.Sorted) (target : Nat) :
    (s.gallopTo target).live = s.live.filter (fun e => decide (target ≤ e.h)) ∧ (s.gallopTo target).Sorted := by
  have hrun : (s.gallopTo target).run = s.run.filter fun e => decide (target ≤ e.h) := by
    rw [← dropWhile_below hs.1]
    show (if below s.run target 0 = true then _ else _) = _
    split
    next hz => rw [gallopIndex_eq hs.1 hz, drop_takeWhile]
    next hz =>
      rw [below_eq hs.1, decide_eq_true_eq, Nat.not_lt, Nat.le_zero, List.length_eq_zero_iff] at hz
      conv_lhs => rw [← List.takeWhile_append_dropWhile (p := fun e => decide (e.h < target)) (l := s.run), hz]
      rfl
  have htail : (s.gallopTo target).tail = s.tail.filter fun e => decide (target ≤ e.h) := dropWhile_below hs.2 target
  unfold live Sorted
  rw [hrun, htail, List.filter_append, List.filter_filter, List.filter_filter]
  refine ⟨?_, hs.1.sublist List.filter_sublist, hs.2.sublist List.filter_sublist⟩
  exact congrArg (· ++ _) (List.filter_congr fun e _ => Bool.and_comm ..)

/-- In order of their hashes, and none below the given one, the entries of that hash come first. -/
theorem head_split {es : List HEntry} (hs : es.Pairwise fun a b => a.h ≤ b.h) (hmin : ∀ x ∈ es, hv ≤ x.h) :
    es = (headIf hv es).toList ++ dropIf hv es ∧ (∀ e ∈ (headIf hv es).toList, e.h = hv) ∧
      ((headIf hv es).toList = [] → ∀ x ∈ es, x.h ≠ hv) := by
  cases es with
  | nil => exact ⟨rfl, (fun _ h => nomatch h), fun _ _ h => nomatch h⟩
  | cons e rest =>
    by_cases he : e.h = hv
    · have hhead : headIf hv (e :: rest) = some e := by simp [headIf, he]
      rw [dropIf, hhead]
      exact ⟨rfl, by simpa using he, by simp⟩
    · have hhead : headIf hv (e :: rest) = none := by simp [headIf, he]
      rw [dropIf, hhead]
      refine ⟨rfl, by simp, fun _ x hx => ?_⟩
      rw [List.pairwise_cons] at hs
      have hlt := hmin e List.mem_cons_self
      rcases List.mem_cons.mp hx with rfl | hx
      · exact he
      · have := hs.1 x hx
        omega

theorem takeRun_spec : ∀ {fuel : Nat} {s : Operand} {dst : List HEntry}, s.Sorted → (∀ x ∈ s.live, hv ≤ x.h) → s.size < fuel →
    ∃ g, (takeRun hv fuel s dst).1 = dst ++ g ∧ g.Perm (s.live.filter fun e => e.h == hv) ∧
      (takeRun hv fuel s dst).2.live = (s.live.filter fun e => !(e.h == hv)) ∧ (takeRun hv fuel s dst).2.Sorted := by
  intro fuel
  induction fuel with
  | zero => exact fun _ _ h => absurd h (Nat.not_lt_zero _)
  | succ fuel ih =>
    intro s dst hs hmin hfuel
    have hs' := hs.skipTomb
    rw [← live_skipTomb] at hmin ⊢
    have hsize : s.skipTomb.size ≤ s.size := Nat.add_le_add_right (List.dropWhile_sublist _).length_le _
    have hlive : ∀ e ∈ (headIf hv s.skipTomb.run).toList, isTomb e.ord = false := by
      intro e he
      cases hr : s.skipTomb.run with
      | nil => rw [hr] at he; cases he
      | cons r rs =>
        rw [hr, headIf, List.head?_cons] at he
        obtain ⟨rfl, -⟩ : r = e ∧ e.h = hv := by simpa [Option.filter_eq_some_iff] using Option.mem_toList.mp he
        exact skipTomb_head hr
    have hrmin : ∀ x ∈ s.skipTomb.run, hv ≤ x.h := by
      cases hr : s.skipTomb.run with
      | nil => simp
      | cons r rs =>
        have hhead : hv ≤ r.h := hmin r (by rw [live, hr, List.filter_cons_of_pos (by simp [skipTomb_head hr])]; simp)
        have hsr := hs'.1
        rw [hr, List.pairwise_cons] at hsr
        exact List.forall_mem_cons.mpr ⟨hhead, fun x hx => Nat.le_trans hhead (hsr.1 x hx)⟩
    rw [takeRun]
    generalize s.skipTomb = t at hs' hmin hsize hlive hrmin ⊢
    obtain ⟨run, tail⟩ := t
    obtain ⟨hrun, hrh, hrn⟩ := head_split hs'.1 hrmin
    obtain ⟨htail, hth, htn⟩ := head_split hs'.2 fun x hx => hmin x (List.mem_append_right _ hx)
    dsimp only at hrun hrh hrn htail hth htn hlive ⊢
    generalize (headIf hv run).toList = R at hrun hrh hrn hlive ⊢
    generalize (headIf hv tail).toList = T at htail hth htn ⊢
    generalize dropIf hv run = run' at hrun ⊢
    generalize dropIf hv tail = tail' at htail ⊢
    split
    next htook =>
      obtain ⟨rfl, rfl⟩ := List.append_eq_nil_iff.mp htook
      have hne : ∀ x ∈ (⟨run, tail⟩ : Operand).live, x.h ≠ hv := by
        intro x hx
        rcases List.mem_append.mp hx with hx | hx
        · exact hrn rfl x (List.mem_of_mem_filter hx)
        · exact htn rfl x hx
      refine ⟨[], (List.append_nil dst).symm, ?_, ?_, hs'⟩
      · rw [List.filter_eq_nil_iff.mpr fun x hx => by simpa using hne x hx]
      · rw [List.filter_eq_self.mpr fun x hx => by simpa using hne x hx]
    next htook =>
      have hRT : ∀ e ∈ R ++ T, e.h = hv := fun e he => (List.mem_append.mp he).elim (hrh e) (hth e)
      have hsplit : (⟨run, tail⟩ : Operand).live = R ++ run'.filter (fun e => !isTomb e.ord) ++ (T ++ tail') := by
        rw [live, hrun, htail, List.filter_append, List.filter_eq_self.mpr fun e he => by simpa using hlive e he]
      have hperm : (⟨run, tail⟩ : Operand).live.Perm (R ++ T ++ (⟨run', tail'⟩ : Operand).live) := by
        rw [hsplit, live, List.append_assoc, List.append_assoc]
        exact List.Perm.append_left R (List.perm_append_comm_assoc ..)
      have hrest : ((⟨run, tail⟩ : Operand).live.filter fun e => !(e.h == hv)) =
          (⟨run', tail'⟩ : Operand).live.filter fun e => !(e.h == hv) := by
        have hgone : ∀ es : List HEntry, (∀ e ∈ es, e.h = hv) → (es.filter fun e => !(e.h == hv)) = [] := fun es h =>
          List.filter_eq_nil_iff.mpr fun e he => by simp [h e he]
        rw [hsplit]
        simp only [live, List.filter_append, hgone R hrh, hgone T hth, List.nil_append]
      have hpos := List.length_pos_iff.mpr htook
      have hlen : run.length + tail.length = (R ++ T).length + (run'.length + tail'.length) := by
        rw [hrun, htail]
        simp only [List.length_append]
        omega
      have hsorted : (⟨run', tail'⟩ : Operand).Sorted := by
        constructor
        · exact hs'.1.sublist (hrun ▸ List.sublist_append_right R run')
        · exact hs'.2.sublist (htail ▸ List.sublist_append_right T tail')
      obtain ⟨g, hg, hgp, hl, hsd⟩ := @ih _ (dst ++ (R ++ T)) hsorted (fun x hx => hmin x (hperm.symm.subset (List.mem_append_right _ hx)))
        (Nat.lt_of_lt_of_le (by show run'.length + tail'.length < run.length + tail.length; omega) (Nat.le_trans hsize (Nat.le_of_lt_succ hfuel)))
      refine ⟨R ++ T ++ g, by rw [hg, List.append_assoc], ?_, hl.trans hrest.symm, hsd⟩
      refine List.Perm.trans ?_ (hperm.filter _).symm
      rw [List.filter_append, List.filter_eq_self.mpr fun e he => by simpa using hRT e he]
      exact List.Perm.append_left _ hgp

end Operand

section Emits

variable {confirm : Nat → Nat → Bool} {A B ra rb : List HEntry} {x : HEntry} {hv target : Nat}

/-- Whether an entry of this hash on the other side is the same member. -/
def matched (confirm : Nat → Nat → Bool) (B : List HEntry) (x : HEntry) : Bool := B.any fun y => y.h == x.h && confirm x.ord y.ord

theorem matched_filter (p : HEntry → Bool) (hp : ∀ y ∈ B, y.h = x.h → p y = true) : matched confirm (B.filter p) x = matched confirm B x := by
  rw [matched, matched, Bool.eq_iff_iff]
  simp only [List.any_eq_true, List.mem_filter, Bool.and_eq_true, beq_iff_eq]
  constructor
  · rintro ⟨y, ⟨hy, -⟩, h⟩
    exact ⟨y, hy, h⟩
  · rintro ⟨y, hy, h⟩
    exact ⟨y, ⟨hy, hp y hy h.1⟩, h⟩

theorem matched_group (hrb : rb.Perm (B.filter fun e => e.h == hv)) (hx : x.h = hv) :
    matched confirm B x = (partner confirm rb x).isSome := by
  rw [matched, partner, Bool.eq_iff_iff, List.find?_isSome]
  simp only [List.any_eq_true, Bool.and_eq_true, beq_iff_eq, hrb.mem_iff, List.mem_filter]
  constructor
  · rintro ⟨y, hy, heq, hc⟩
    exact ⟨y, ⟨hy, heq.trans hx⟩, hc⟩
  · rintro ⟨y, ⟨hy, heq⟩, hc⟩
    exact ⟨y, hy, heq.trans hx.symm, hc⟩

theorem filter_matched_skip (hB : ∀ y ∈ B, target ≤ y.h) :
    A.filter (matched confirm B) = (A.filter fun e => decide (target ≤ e.h)).filter (matched confirm B) := by
  rw [List.filter_filter]
  refine List.filter_congr fun x _ => ?_
  cases hm : matched confirm B x with
  | false => rfl
  | true =>
    obtain ⟨y, hy, h⟩ := List.any_eq_true.mp hm
    rw [Bool.and_eq_true, beq_iff_eq] at h
    simpa using h.1 ▸ hB y hy

theorem matched_skip (hA : ∀ x ∈ A, target ≤ x.h) :
    ∀ x ∈ A, matched confirm (B.filter fun e => decide (target ≤ e.h)) x = matched confirm B x := fun x hx =>
  matched_filter _ fun y _ hy => by simpa [hy] using hA x hx

theorem filter_group (q : Bool → Bool) (hra : ra.Perm (A.filter fun e => e.h == hv)) (hrb : rb.Perm (B.filter fun e => e.h == hv)) :
    (A.filter fun x => q (matched confirm B x)).Perm ((ra.filter fun x => q (partner confirm rb x).isSome) ++
      (A.filter fun e => !(e.h == hv)).filter fun x => q (matched confirm (B.filter fun e => !(e.h == hv)) x)) := by
  have hsplit := (List.filter_append_perm (fun e => e.h == hv) A).symm.filter fun x => q (matched confirm B x)
  rw [List.filter_append] at hsplit
  refine hsplit.trans (List.Perm.append ?_ (List.Perm.of_eq ?_))
  · refine List.Perm.trans (List.Perm.of_eq ?_) (hra.filter _).symm
    refine List.filter_congr fun x hx => ?_
    rw [matched_group hrb (by simpa using (List.mem_filter.mp hx).2)]
  · refine List.filter_congr fun x hx => ?_
    have hne := (List.mem_filter.mp hx).2
    rw [matched_filter _ fun y _ hy => by rw [hy]; exact hne]

theorem filter_unmatched (hra : ra.Perm (A.filter fun e => e.h == hv)) (hrb : rb.Perm (B.filter fun e => e.h == hv)) :
    (A.filter fun x => !matched confirm B x).Perm ((ra.filter fun x => (partner confirm rb x).isNone) ++
      (A.filter fun e => !(e.h == hv)).filter fun x => !matched confirm (B.filter fun e => !(e.h == hv)) x) := by
  simpa only [Option.not_isSome] using filter_group not hra hrb

theorem takeRun_least {s : Operand} (hs : s.Sorted) (hin : ∃ e ∈ s.live, e.h = hv) (hmin : ∀ x ∈ s.live, hv ≤ x.h) :
    ∃ g s', s.takeRun hv (s.size + 1) [] = (g, s') ∧ g.Perm (s.live.filter fun e => e.h == hv) ∧
      s'.live = (s.live.filter fun e => !(e.h == hv)) ∧ s'.Sorted ∧ s'.live.length < s.live.length := by
  obtain ⟨g, hg, hperm, hl, hsd⟩ := @takeRun_spec _ _ _ [] hs hmin (Nat.lt_succ_self _)
  refine ⟨g, _, Prod.ext hg rfl, hperm, hl, hsd, ?_⟩
  obtain ⟨e, he, heq⟩ := hin
  rw [hl]
  exact List.length_filter_lt_length_iff_exists.mpr ⟨e, he, by simp [heq]⟩

theorem gallop_least {s : Operand} (hs : s.Sorted) (hin : ∃ e ∈ s.live, e.h = hv) (hlt : hv < target) :
    (s.skipTomb.gallopTo target).live = (s.live.filter fun e => decide (target ≤ e.h)) ∧ (s.skipTomb.gallopTo target).Sorted ∧
      (s.skipTomb.gallopTo target).live.length < s.live.length := by
  obtain ⟨hl, hsd⟩ := gallopTo_spec hs.skipTomb target
  rw [live_skipTomb] at hl
  refine ⟨hl, hsd, ?_⟩
  obtain ⟨e, he, heq⟩ := hin
  rw [hl]
  exact List.length_filter_lt_length_iff_exists.mpr ⟨e, he, by simpa [heq] using hlt⟩

theorem filterMap_partner (ra rb : List HEntry) :
    ((ra.filterMap fun ea => (partner confirm rb ea).map fun eb => (ea.ord, eb.ord)).map Prod.fst) =
      (ra.filter fun ea => (partner confirm rb ea).isSome).map HEntry.ord := by
  induction ra with
  | nil => rfl
  | cons e ra ih =>
    rw [List.filterMap_cons, List.filter_cons]
    cases partner confirm rb e with
    | none => simpa using ih
    | some eb => simpa using ih

/-- The intersection kernel confirms every live entry that has a match on the other side, once. -/
theorem mergeIntersect_spec : ∀ {fuel : Nat} {a b : Operand}, a.Sorted → b.Sorted → a.live.length + b.live.length < fuel →
    ((mergeIntersect confirm fuel a b).map Prod.fst).Perm ((a.live.filter (matched confirm b.live)).map HEntry.ord) := by
  intro fuel
  induction fuel with
  | zero => exact fun _ _ h => absurd h (Nat.not_lt_zero _)
  | succ fuel ih =>
    intro a b ha hb hfuel
    rw [mergeIntersect]
    cases hpa : a.peek with
    | none => simp [peek_none hpa]
    | some hva =>
      cases hpb : b.peek with
      | none => simp [peek_none hpb, matched]
      | some hvb =>
        obtain ⟨hina, hmina⟩ := peek_some ha hpa
        obtain ⟨hinb, hminb⟩ := peek_some hb hpb
        dsimp only
        split
        next hlt =>
          obtain ⟨hl, hsd, hlen⟩ := gallop_least ha hina hlt
          rw [filter_matched_skip hminb, ← hl]
          exact ih hsd hb (by omega)
        next hge =>
          split
          next hlt =>
            obtain ⟨hl, hsd, hlen⟩ := gallop_least hb hinb hlt
            refine (ih ha hsd (by omega)).trans (List.Perm.of_eq (congrArg _ (List.filter_congr fun x hx => ?_)))
            rw [hl, matched_skip hmina x hx]
          next hle =>
            obtain rfl : hva = hvb := by omega
            obtain ⟨ga, a', hga, hpa', hla, hsa, hlena⟩ := takeRun_least ha hina hmina
            obtain ⟨gb, b', hgb, hpb', hlb, hsb, hlenb⟩ := takeRun_least hb hinb hminb
            rw [hga, hgb]
            dsimp only
            rw [List.map_append, filterMap_partner]
            refine List.Perm.trans (List.Perm.append_left _ (ih hsa hsb (by omega))) ?_
            rw [← List.map_append, hla, hlb]
            exact ((filter_group id hpa' hpb').symm).map _

def capped (limit : Int) (n : Nat) : Nat := if 0 < limit then min limit.toNat n else n

/-- A count still open is no less than what was counted, and one that is full stays as it is. -/
theorem capped_cases (limit : Int) (n : Nat) : (filled limit (capped limit n) = false ∧ capped limit n = n) ∨
    (filled limit (capped limit n) = true ∧ ∀ m, capped limit (n + m) = capped limit n) := by
  unfold filled capped
  by_cases hpos : 0 < limit
  · rw [if_pos hpos]
    by_cases hle : limit.toNat ≤ n
    · refine .inr ⟨?_, fun m => ?_⟩
      · simp only [hpos, decide_true, Bool.true_and, decide_eq_true_eq]
        omega
      · rw [if_pos hpos]
        omega
    · refine .inl ⟨?_, by omega⟩
      simp only [hpos, decide_true, Bool.true_and, decide_eq_false_iff_not]
      omega
  · exact .inl ⟨by simp [hpos], if_neg hpos⟩

theorem capped_of_room {limit : Int} {n : Nat} (h : filled limit n = false) : capped limit n = n ∧ capped limit (n + 1) = n + 1 := by
  simp only [filled, Bool.and_eq_false_imp, decide_eq_true_eq, decide_eq_false_iff_not] at h
  unfold capped
  split
  next hpos =>
    have := h hpos
    omega
  next => exact ⟨rfl, rfl⟩

theorem scan_count {limit : Int} {skip : HEntry → Bool} (es : List HEntry) {count : Nat} (hroom : filled limit count = false) :
    scan skip (fun _ => false) (filled limit) (fun n _ => n + 1) es count =
      (capped limit (count + (es.filter fun e => !skip e).length), filled limit (capped limit (count + (es.filter fun e => !skip e).length))) := by
  induction es generalizing count with
  | nil =>
    show (count, false) = (capped limit count, filled limit (capped limit count))
    rw [(capped_of_room hroom).1, hroom]
  | cons e es ih =>
    rw [scan]
    split
    next hskip => rw [List.filter_cons_of_neg (by simp [hskip]), ih hroom]
    next hskip =>
      rw [List.filter_cons_of_pos (by simp [hskip]), List.length_cons, ← Nat.add_assoc, Nat.add_right_comm, if_neg Bool.false_ne_true]
      split
      next hfull =>
        -- the limit is reached with this one, and what the group still has does not count
        have hone := (capped_of_room hroom).2
        rcases capped_cases limit (count + 1) with ⟨hopen, -⟩ | ⟨-, hstay⟩
        · rw [hone, hfull] at hopen
          cases hopen
        · rw [hstay, hone, hfull]
      next hopen => rw [ih (Bool.eq_false_iff.mpr hopen)]

theorem mergeIntersectCount_eq {limit : Int} : ∀ {fuel : Nat} {a b : Operand} {count : Nat}, filled limit count = false →
    mergeIntersectCount confirm limit fuel a b count = capped limit (count + (mergeIntersect confirm fuel a b).length) := by
  intro fuel
  induction fuel with
  | zero => exact fun hroom => (capped_of_room hroom).1.symm
  | succ fuel ih =>
    intro a b count hroom
    rw [mergeIntersectCount, mergeIntersect]
    split
    next hva hvb _ _ =>
      dsimp only
      split
      · exact ih hroom
      · split
        · exact ih hroom
        · have hgroup := congrArg List.length
            (@filterMap_partner confirm (a.takeRun hva (a.size + 1) []).1 (b.takeRun hvb (b.size + 1) []).1)
          simp only [List.length_map] at hgroup
          rw [scan_count _ hroom, List.length_append, hgroup, ← Nat.add_assoc]
          simp only [Option.not_isNone]
          rcases capped_cases limit (count + ((a.takeRun hva (a.size + 1) []).1.filter fun ea =>
            (partner confirm (b.takeRun hvb (b.size + 1) []).1 ea).isSome).length) with ⟨hopen, hall⟩ | ⟨hfull, hstay⟩
          · rw [hopen]
            dsimp only
            rw [ih hopen, hall]
          · rw [hfull, hstay]
    next => exact (capped_of_room hroom).1.symm

theorem matched_below (h : ∀ y ∈ B, x.h < y.h) : matched confirm B x = false := by
  rw [matched, List.any_eq_false]
  intro y hy hm
  rw [Bool.and_eq_true, beq_iff_eq] at hm
  have := h y hy
  omega

theorem matched_next {B' : List HEntry} {y : HEntry} (hB : B.Perm (y :: B')) (hne : y.h ≠ x.h) : matched confirm B x = matched confirm B' x := by
  rw [matched, matched, Bool.eq_iff_iff]
  simp only [List.any_eq_true, hB.mem_iff]
  constructor
  · rintro ⟨z, hz, hm⟩
    rcases List.mem_cons.mp hz with rfl | hz
    · rw [Bool.and_eq_true, beq_iff_eq] at hm
      exact absurd hm.1 hne
    · exact ⟨z, hz, hm⟩
  · rintro ⟨z, hz, hm⟩
    exact ⟨z, List.mem_cons_of_mem y hz, hm⟩

theorem emit_next {A' : List HEntry} (hA : A.Perm (x :: A')) (hx : matched confirm B x = false) {out : List Nat}
    (hout : out.Perm ((A'.filter fun x => !matched confirm B x).map HEntry.ord)) :
    (x.ord :: out).Perm ((A.filter fun x => !matched confirm B x).map HEntry.ord) := by
  refine List.Perm.trans (hout.cons x.ord) ?_
  have hfil := (hA.filter fun x => !matched confirm B x).symm.map HEntry.ord
  rwa [List.filter_cons_of_pos (by simp [hx]), List.map_cons] at hfil

/-- The difference kernel emits every live entry that has no match on the other side, once. -/
theorem mergeDiff_spec : ∀ {fuel : Nat} {a b : Operand}, a.Sorted → b.Sorted → a.live.length + b.live.length < fuel →
    (mergeDiff confirm fuel a b).Perm ((a.live.filter fun x => !matched confirm b.live x).map HEntry.ord) := by
  intro fuel
  induction fuel with
  | zero => exact fun _ _ h => absurd h (Nat.not_lt_zero _)
  | succ fuel ih =>
    intro a b ha hb hfuel
    rw [mergeDiff]
    cases hna : a.next with
    | none => simp [next_none hna]
    | some r =>
      obtain ⟨ea, a'⟩ := r
      obtain ⟨hperm, hmin, hsa, hlen⟩ := next_some ha hna
      have hin : ∃ e ∈ a.live, e.h = ea.h := ⟨ea, hperm.symm.subset List.mem_cons_self, rfl⟩
      cases hpb : b.peek with
      | none => exact emit_next hperm (by simp [peek_none hpb, matched]) (ih hsa hb (by omega))
      | some hvb =>
        obtain ⟨hinb, hminb⟩ := peek_some hb hpb
        dsimp only
        split
        next hlt => exact emit_next hperm (matched_below fun y hy => Nat.lt_of_lt_of_le hlt (hminb y hy)) (ih hsa hb (by omega))
        next hge =>
          split
          next hlt =>
            obtain ⟨hl, hsd, hlenb⟩ := gallop_least hb hinb hlt
            refine (ih ha hsd (by omega)).trans (List.Perm.of_eq (congrArg _ (List.filter_congr fun x hx => ?_)))
            rw [hl, matched_skip hmin x hx]
          next hle =>
            obtain rfl : ea.h = hvb := by omega
            obtain ⟨ga, a₁, hga, hpa', hla, hsa', hlena⟩ := takeRun_least ha hin hmin
            obtain ⟨gb, b₁, hgb, hpb', hlb, hsb, hlenb⟩ := takeRun_least hb hinb hminb
            rw [hga, hgb]
            refine List.Perm.trans (List.Perm.append_left _ (ih hsa' hsb (by dsimp only; omega))) ?_
            rw [← List.map_append, hla, hlb]
            exact (filter_unmatched hpa' hpb').symm.map _

/-- The union kernel emits every live entry of the one side, and of the other those without a match, once each. -/
theorem mergeUnion_spec : ∀ {fuel : Nat} {a b : Operand}, a.Sorted → b.Sorted → a.live.length + b.live.length < fuel →
    (mergeUnion confirm fuel a b).1.Perm (a.live.map HEntry.ord) ∧
      (mergeUnion confirm fuel a b).2.Perm ((b.live.filter fun y => !matched (fun ob oa => confirm oa ob) a.live y).map HEntry.ord) := by
  intro fuel
  induction fuel with
  | zero => exact fun _ _ h => absurd h (Nat.not_lt_zero _)
  | succ fuel ih =>
    intro a b ha hb hfuel
    rw [mergeUnion]
    cases hna : a.next with
    | none =>
      cases hnb : b.next with
      | none => simp [next_none hna, next_none hnb]
      | some r =>
        obtain ⟨eb, b'⟩ := r
        obtain ⟨hpermb, -, hsb, hlenb⟩ := next_some hb hnb
        obtain ⟨h₁, h₂⟩ := ih ha hsb (by omega)
        exact ⟨h₁, emit_next hpermb (by simp [next_none hna, matched]) h₂⟩
    | some r =>
      obtain ⟨ea, a'⟩ := r
      obtain ⟨hperma, hmina, hsa, hlena⟩ := next_some ha hna
      cases hnb : b.next with
      | none =>
        obtain ⟨h₁, h₂⟩ := ih hsa hb (by omega)
        refine ⟨(h₁.cons ea.ord).trans (hperma.symm.map HEntry.ord), ?_⟩
        simpa [next_none hnb] using h₂
      | some r =>
        obtain ⟨eb, b'⟩ := r
        obtain ⟨hpermb, hminb, hsb, hlenb⟩ := next_some hb hnb
        dsimp only
        split
        next hlt =>
          obtain ⟨h₁, h₂⟩ := ih hsa hb (by omega)
          refine ⟨(h₁.cons ea.ord).trans (hperma.symm.map HEntry.ord), h₂.trans (List.Perm.of_eq (congrArg _ ?_))⟩
          refine List.filter_congr fun y hy => ?_
          rw [matched_next hperma (Nat.ne_of_lt (Nat.lt_of_lt_of_le hlt (hminb y hy)))]
        next hge =>
          split
          next hlt =>
            obtain ⟨h₁, h₂⟩ := ih ha hsb (by omega)
            exact ⟨h₁, emit_next hpermb (matched_below fun x hx => Nat.lt_of_lt_of_le hlt (hmina x hx)) h₂⟩
          next hle =>
            have heq : eb.h = ea.h := by omega
            rw [heq] at hminb ⊢
            obtain ⟨ga, a₁, hga, hpa', hla, hsa', hlena'⟩ := takeRun_least ha ⟨ea, hperma.symm.subset List.mem_cons_self, rfl⟩ hmina
            obtain ⟨gb, b₁, hgb, hpb', hlb, hsb', hlenb'⟩ := takeRun_least hb ⟨eb, hpermb.symm.subset List.mem_cons_self, heq⟩ hminb
            rw [hga, hgb]
            obtain ⟨h₁, h₂⟩ := ih hsa' hsb' (by omega)
            constructor
            · refine List.Perm.trans (List.Perm.append_left _ h₁) ?_
              rw [← List.map_append, hla]
              exact List.Perm.map _ ((hpa'.append_right _).trans (List.filter_append_perm (fun e => e.h == ea.h) a.live))
            · refine List.Perm.trans (List.Perm.append_left _ h₂) ?_
              rw [← List.map_append, hla, hlb]
              exact (filter_unmatched hpb' hpa').symm.map _

end Emits

end Aki.SetAlgebra
