import Aki.TreeModel
import Aki.DoubleRounding

namespace Aki

open DoubleRounding

def leafMin : Nat := leafCap / 4

def branchMin : Nat := sepMax / 4

/-- The group count before clamping, in double arithmetic: 0.9 times the capacity is the target size, and the quotient is rounded half
up by adding 0.5 and truncating. -/
def fillGroups (n capacity : Nat) : Nat :=
  let target := fl (fl (9 / 10) * capacity)
  ⌊fl (fl (fl n / target) + 1 / 2)⌋₊

def spanGroups (n capacity : Nat) : Nat :=
  let groups := fillGroups n capacity
  let lo := (n + capacity - 1) / capacity
  let groups := if groups < lo then lo else groups
  let groups := if groups < 1 then 1 else groups
  if n < groups then n else groups

/-- The loop of `fillSpans`: `todo` groups left, the next one is group `g` and starts at `start`. -/
def spanLoop (base extra : Nat) : Nat → Nat → Nat → List (Nat × Nat)
  | 0, _, _ => []
  | todo + 1, g, start =>
    let sz := if g < extra then base + 1 else base
    (start, start + sz) :: spanLoop base extra todo (g + 1) (start + sz)

def fillSpans (n capacity : Nat) : List (Nat × Nat) :=
  let groups := spanGroups n capacity
  spanLoop (n / groups) (n % groups) groups 0 0

def span {α : Type*} (l : List α) (sp : Nat × Nat) : List α := (l.drop sp.1).take (sp.2 - sp.1)

/-- A node of the level under construction: its ordinal, its first entry and its entry count. -/
structure BulkNode where
  ord : Nat
  first : Entry
  count : Nat

instance : Inhabited BulkNode := ⟨⟨0, default, 0⟩⟩

namespace Tree

def loadLeaves (t : Tree) : List (List Entry) → Tree × List BulkNode
  | [] => (t, [])
  | es :: groups =>
    let (t, o) := t.allocLeaf
    let t := t.setLeaf o { t.leaves o with ents := es }
    let (t, level) := t.loadLeaves groups
    (t, ⟨o, es.headD default, es.length⟩ :: level)

def linkLeaves (t : Tree) : List BulkNode → Tree
  | a :: b :: level => (t.setLeaf a.ord { t.leaves a.ord with next := b.ord }).linkLeaves (b :: level)
  | _ => t

/-- The branch over some nodes of the level below; its counts are stored in 32 bits. -/
def branchOver (ns : List BulkNode) : Branch := ⟨ns.tail.map BulkNode.first, ns.map fun nd => ⟨nd.ord, nd.count % countMax⟩⟩

def loadBranches (t : Tree) : List (List BulkNode) → Tree × List BulkNode
  | [] => (t, [])
  | ns :: groups =>
    let (t, o) := t.allocBranch
    let t := t.setBranch o (branchOver ns)
    let (t, up) := t.loadBranches groups
    (t, ⟨o, (ns.headD default).first, (ns.map BulkNode.count).sum⟩ :: up)

def raiseLevel (t : Tree) (level : List BulkNode) : Tree × List BulkNode :=
  t.loadBranches ((fillSpans level.length arity).map (span level))

/-- Builds branch levels until one node is left; the first argument bounds the number of rounds. -/
def raiseLevels : Nat → Tree → List BulkNode → Nat → Tree × List BulkNode × Nat
  | 0, t, level, height => (t, level, height)
  | fuel + 1, t, level, height =>
    if 1 < level.length then raiseLevels fuel (t.raiseLevel level).1 (t.raiseLevel level).2 (height + 1)
    else (t, level, height)

def reset (t : Tree) : Tree :=
  { t with leaves := fun _ => emptyLeaf, branches := fun _ => emptyBranch, leafFree := [], branchFree := [],
           nLeaf := 0, nBranch := 0, minLeaf := none, maxLeaf := none }

def bulkLeaves (t : Tree) (groups : List (List Entry)) : Tree × List BulkNode :=
  let loaded := t.loadLeaves groups
  (loaded.1.linkLeaves loaded.2, loaded.2)

/-- The level loop over some entries, before the root is set. -/
def bulkLevels (t : Tree) (entries : List Entry) : Tree × List BulkNode × Nat :=
  let bottom := t.bulkLeaves ((fillSpans entries.length leafCap).map (span entries))
  raiseLevels bottom.2.length bottom.1 bottom.2 1

def bulkLoadInto (t : Tree) (entries : List Entry) : Tree :=
  let t := t.reset
  if entries.length = 0 then
    let (t, o) := t.allocLeaf
    { t with root := o, rootIsLeaf := true, height := 1, entries := 0 }
  else
    let top := t.bulkLevels entries
    { top.1 with
      root := (top.2.1.headD default).ord, height := top.2.2, rootIsLeaf := top.2.2 == 1, entries := entries.length }

def bulkLoad (entries : List Entry) : Tree := newTree.bulkLoadInto entries

def leftEdge (t : Tree) : Nat := (t.descend (fun _ s => (0, s)) (t.height - 1) t.root ()).1

def leftmostLeaf (t : Tree) : Tree × Nat :=
  match t.edgeCache, t.minLeaf with
  | true, some o => (t, o)
  | true, none => ({ t with minLeaf := some t.leftEdge }, t.leftEdge)
  | false, _ => (t, t.leftEdge)

end Tree

section Check

variable {μ : Type*} [LinearOrder μ] (m : Nat → μ)

def cmpKeys (a b : Entry) : Ordering := cmpPair m a b.score (m b.ref)

/-- What `checkNode` hands to the parent: the live entries and the first and last keys. -/
structure NodeSum where
  count : Nat
  first : Entry
  last : Entry

/-- The order loop over a leaf, from entry `i` on. -/
def checkOrder (o : Nat) (l : Leaf) : Nat → Nat → Except String Unit
  | 0, _ => .ok ()
  | todo + 1, i =>
    if cmpKeys m (l.ent i) (l.ent (i - 1)) ≠ .gt then .error s!"leaf {o} entries {i - 1},{i} out of order"
    else checkOrder o l todo (i + 1)

/-- The loop over the children of a branch, from child `i` on. -/
def checkKids (sub : Nat → Except String NodeSum) (o : Nat) (b : Branch) : Nat → Nat → NodeSum → Except String NodeSum
  | 0, _, acc => .ok acc
  | todo + 1, i, acc =>
    match sub (b.child i) with
    | .error e => .error e
    | .ok c =>
      if b.count i ≠ c.count then .error s!"branch {o} child {i} count {b.count i} != subtree {c.count}"
      else if i = 0 then checkKids sub o b todo (i + 1) ⟨acc.count + c.count, c.first, c.last⟩
      -- routing sends keys below the separator left
      else if cmpKeys m acc.last (b.sep (i - 1)) ≠ .lt then .error s!"branch {o} separator {i - 1} not above left child max"
      else if cmpKeys m (b.sep (i - 1)) c.first = .gt then .error s!"branch {o} separator {i - 1} above child {i} min"
      else if 2 ≤ i ∧ cmpKeys m (b.sep (i - 1)) (b.sep (i - 2)) ≠ .gt then
        .error s!"branch {o} separators {i - 2},{i - 1} out of order"
      else checkKids sub o b todo (i + 1) ⟨acc.count + c.count, acc.first, c.last⟩

def Tree.checkLeaf (t : Tree) (isRoot : Bool) (o : Nat) : Except String NodeSum :=
  let l := t.leaves o
  if leafCap < l.nent then .error s!"leaf {o} over capacity: {l.nent} > {leafCap}"
  else if isRoot = false ∧ l.nent < leafMin then .error s!"leaf {o} underfull: {l.nent} < {leafMin}"
  else
    match checkOrder m o l (l.nent - 1) 1 with
    | .error e => .error e
    | .ok _ => if l.nent = 0 then .ok ⟨0, default, default⟩ else .ok ⟨l.nent, l.ent 0, l.ent (l.nent - 1)⟩

/-- The level counts down to 0 at the leaves. -/
def Tree.checkNode (t : Tree) : Nat → Bool → Nat → Except String NodeSum
  | 0, isRoot, o => t.checkLeaf m isRoot o
  | lv + 1, isRoot, o =>
    let b := t.branches o
    if sepMax < b.nkeys then .error s!"branch {o} over capacity: {b.nkeys} > {sepMax}"
    else if isRoot = false ∧ b.nkeys < branchMin then .error s!"branch {o} underfull: {b.nkeys} < {branchMin}"
    else if isRoot = true ∧ b.nkeys < 1 then .error s!"root branch {o} has {b.nkeys} separators"
    else checkKids m (t.checkNode lv false) o b (b.nkeys + 1) 0 ⟨0, default, default⟩

/-- The entries of one leaf of the chain, from slot `i` on, behind the last key seen. -/
def Tree.chainEntries (o : Nat) : List Entry → Nat → Option Entry → Except String (Option Entry)
  | [], _, last => .ok last
  | e :: es, i, last =>
    if ∃ l ∈ last, e.score < l.score ∨ (e.score = l.score ∧ compare (m e.ref) (m l.ref) ≠ .gt) then
      .error s!"leaf chain not ascending across leaf {o} entry {i}"
    else chainEntries o es (i + 1) (some e)

/-- The leaf chain loop; `none` when the bound on the leaves visited runs out. -/
def Tree.checkLeafChain (t : Tree) (want : Nat) : Nat → Nat → Nat → Option Entry → Option (Except String Unit)
  | 0, _, _, _ => none
  | fuel + 1, ord, seen, last =>
    match chainEntries m ord (t.leaves ord).ents 0 last with
    | .error e => some (.error e)
    | .ok last =>
      let seen := seen + (t.leaves ord).nent
      if (t.leaves ord).next = 0 then
        if seen ≠ want then some (.error s!"leaf chain has {seen} entries, tree holds {want}") else some (.ok ())
      else checkLeafChain t want fuel (t.leaves ord).next seen last

def Tree.check (t : Tree) : Option (Except String Unit) :=
  if t.height < 1 then some (.error s!"height {t.height} below 1")
  else if t.rootIsLeaf ≠ (t.height == 1) then some (.error s!"rootIsLeaf {t.rootIsLeaf} disagrees with height {t.height}")
  else
    match t.checkNode m (t.height - 1) true t.root with
    | .error e => some (.error e)
    | .ok total =>
      if total.count ≠ t.entries then some (.error s!"subtree total {total.count} != cardinality {t.entries}")
      else t.leftmostLeaf.1.checkLeafChain m total.count t.nLeaf t.leftmostLeaf.2 0 none

end Check

open DoubleRounding

section Spans

variable {n c : Nat}

theorem fillGroups_le (hn : 0 < n) (hc : 0 < c) : 10 * c * fillGroups n c ≤ 13 * n + 6 * c := by
  have hn' : (0 : ℚ) < n := by exact_mod_cast hn
  have hc' : (0 : ℚ) < c := by exact_mod_cast hc
  unfold fillGroups
  dsimp only
  generalize hfrac : fl (9 / 10) = frac
  have h₁ : 89 / 100 ≤ frac := by
    have h := le_fl (x := 9 / 10) (by norm_num)
    rw [hfrac] at h
    norm_num at h ⊢
    linarith
  have hpos₁ : 0 < frac * c := mul_pos (by linarith) hc'
  generalize htarget : fl (frac * c) = target
  have h₂ : 4 / 5 * c ≤ target := by
    have h := le_fl hpos₁
    rw [htarget] at h
    nlinarith
  have hpos₂ : 0 < target := by linarith
  generalize hx : fl (n : ℚ) = x
  have h₀ : 0 < x ∧ x ≤ 1001 / 1000 * n := by
    have h := fl_le hn'
    have h' := le_fl hn'
    rw [hx] at h h'
    constructor <;> linarith
  have hpos₃ : 0 < x / target := div_pos h₀.1 hpos₂
  have hquot : x / target ≤ 1252 / 1000 * (n / c) := by
    rw [div_le_iff₀ hpos₂]
    calc x ≤ 1001 / 1000 * n := h₀.2
      _ = 1001 / 1000 * (5 / 4) * (n / c) * (4 / 5 * c) := by field_simp
      _ ≤ 1001 / 1000 * (5 / 4) * (n / c) * target := mul_le_mul_of_nonneg_left h₂ (by positivity)
      _ ≤ 1252 / 1000 * (n / c) * target :=
        mul_le_mul_of_nonneg_right (mul_le_mul_of_nonneg_right (by norm_num) (by positivity)) hpos₂.le
  generalize hq : fl (x / target) = q
  have h₃ : q ≤ 126 / 100 * (n / c) ∧ 0 ≤ q := by
    have h := fl_le hpos₃
    have h' := le_fl hpos₃
    rw [hq] at h h'
    constructor <;> linarith
  have hpos₄ : 0 < q + 1 / 2 := by linarith [h₃.2]
  have h₄ : fl (q + 1 / 2) ≤ 13 / 10 * (n / c) + 6 / 10 := by
    have h := fl_le hpos₄
    have hx : (0 : ℚ) ≤ n / c := by positivity
    linarith [h₃.1]
  have hfloor : (⌊fl (q + 1 / 2)⌋₊ : ℚ) ≤ 13 / 10 * (n / c) + 6 / 10 := by
    refine (Nat.floor_le ?_).trans h₄
    have h := le_fl hpos₄
    linarith
  have hcast : (10 * c * ⌊fl (q + 1 / 2)⌋₊ : ℚ) ≤ 13 * n + 6 * c := by
    calc (10 * c * ⌊fl (q + 1 / 2)⌋₊ : ℚ) ≤ 10 * c * (13 / 10 * (n / c) + 6 / 10) :=
          mul_le_mul_of_nonneg_left hfloor (by positivity)
      _ = 13 * n + 6 * c := by field_simp
  exact_mod_cast hcast

theorem spanGroups_bounds (hn : 0 < n) (hc : 0 < c) :
    0 < spanGroups n c ∧ spanGroups n c ≤ n ∧ n ≤ c * spanGroups n c ∧
      (10 * c * spanGroups n c ≤ 13 * n + 6 * c ∨ c * spanGroups n c < n + c) := by
  have hfl := fillGroups_le hn hc
  have hlo : n ≤ c * ((n + c - 1) / c) ∧ c * ((n + c - 1) / c) < n + c := by
    have h₁ := Nat.div_add_mod (n + c - 1) c
    have h₂ := Nat.mod_lt (n + c - 1) hc
    omega
  have hlon : (n + c - 1) / c ≤ n := by
    rw [Nat.div_le_iff_le_mul_add_pred hc]
    have := Nat.mul_le_mul_right n (Nat.succ_le_of_lt hc)
    omega
  have hone : n ≤ c * n := Nat.le_mul_of_pos_left n hc
  have hmono : ∀ g, (n + c - 1) / c ≤ g → n ≤ c * g := fun g hg => hlo.1.trans (Nat.mul_le_mul_left c hg)
  have hlopos : 0 < (n + c - 1) / c := Nat.div_pos (by omega) hc
  unfold spanGroups
  generalize fillGroups n c = g at hfl
  generalize hl : (n + c - 1) / c = l at hlo hlon hmono hlopos
  dsimp only
  by_cases h₁ : g < l
  · rw [if_pos h₁, if_neg (show ¬l < 1 by omega), if_neg (show ¬n < l by omega)]
    exact ⟨hlopos, hlon, hlo.1, .inr hlo.2⟩
  · rw [if_neg h₁, if_neg (show ¬g < 1 by omega)]
    by_cases h₂ : n < g
    · rw [if_pos h₂]
      refine ⟨hn, le_refl n, hone, .inl (le_trans ?_ hfl)⟩
      exact Nat.mul_le_mul_left _ h₂.le
    · rw [if_neg h₂]
      exact ⟨by omega, by omega, hmono g (by omega), .inl hfl⟩

/-- Consecutive nonempty spans from one index to another. -/
def Covers : Nat → Nat → List (Nat × Nat) → Prop
  | a, b, [] => a = b
  | a, b, sp :: sps => sp.1 = a ∧ a < sp.2 ∧ Covers sp.2 b sps

/-- What the loader asks of the spans of a level: they partition it, none is over the capacity, and none is below the least fill
where there are several. -/
structure Filled (n capacity least : Nat) (sps : List (Nat × Nat)) : Prop where
  covers : Covers 0 n sps
  most : ∀ sp ∈ sps, sp.2 - sp.1 ≤ capacity
  least : 1 < sps.length → ∀ sp ∈ sps, least ≤ sp.2 - sp.1

theorem spanLoop_covers {base : Nat} (extra : Nat) (hbase : 0 < base) (todo g start : Nat) :
    Covers start (start + (todo * base + min (extra - g) todo)) (spanLoop base extra todo g start) ∧
      (spanLoop base extra todo g start).length = todo ∧
      ∀ sp ∈ spanLoop base extra todo g start, base ≤ sp.2 - sp.1 ∧ (sp.2 - sp.1 ≤ base ∨ sp.2 - sp.1 = base + 1 ∧ 0 < extra) := by
  induction todo generalizing g start with
  | zero => exact ⟨by simp [spanLoop, Covers], rfl, fun sp h => nomatch h⟩
  | succ todo ih =>
    generalize hsz : (if g < extra then base + 1 else base) = sz
    have hbig : sz = base ∨ sz = base + 1 ∧ g < extra := by
      rw [← hsz]
      split
      next h => exact .inr ⟨rfl, h⟩
      next => exact .inl rfl
    have hend : start + ((todo + 1) * base + min (extra - g) (todo + 1)) =
        start + sz + (todo * base + min (extra - (g + 1)) todo) := by
      rw [← hsz, Nat.succ_mul]
      split <;> omega
    obtain ⟨hcov, hlen, hsize⟩ := ih (g + 1) (start + sz)
    rw [hend]
    simp only [spanLoop, hsz]
    refine ⟨⟨rfl, by omega, hcov⟩, by rw [List.length_cons, hlen], fun sp hsp => ?_⟩
    rcases List.mem_cons.mp hsp with rfl | hsp
    · dsimp only
      omega
    · exact hsize sp hsp

theorem fillSpans_spec (hn : 0 < n) (hc : 0 < c) :
    Covers 0 n (fillSpans n c) ∧ (fillSpans n c).length = spanGroups n c ∧
      ∀ sp ∈ fillSpans n c, n / spanGroups n c ≤ sp.2 - sp.1 ∧ sp.2 - sp.1 ≤ c := by
  obtain ⟨hpos, hgn, hcap, -⟩ := spanGroups_bounds hn hc
  unfold fillSpans
  generalize spanGroups n c = g at hpos hgn hcap
  have hdiv := Nat.div_add_mod n g
  have hmod := Nat.mod_lt n hpos
  obtain ⟨hcov, hlen, hsize⟩ := spanLoop_covers (n % g) (Nat.div_pos hgn hpos) g 0 0
  rw [Nat.sub_zero, Nat.min_eq_left hmod.le, hdiv, Nat.zero_add] at hcov
  have hbase : n / g ≤ c := (Nat.div_le_iff_le_mul_add_pred hpos).mpr (by rw [Nat.mul_comm] at hcap; omega)
  refine ⟨hcov, hlen, fun sp hsp => ⟨(hsize sp hsp).1, ?_⟩⟩
  rcases (hsize sp hsp).2 with h | ⟨h, hextra⟩
  · omega
  · by_contra hgt
    have hge : c ≤ n / g := by omega
    have := Nat.mul_le_mul_left g hge
    rw [Nat.mul_comm g c] at this
    omega

theorem filled_of_groups {least : Nat} (hn : 0 < n) (hc : 0 < c) (h : spanGroups n c = 1 ∨ least * spanGroups n c ≤ n) :
    Filled n c least (fillSpans n c) := by
  obtain ⟨hcov, hlen, hsize⟩ := fillSpans_spec hn hc
  obtain ⟨hg, -⟩ := spanGroups_bounds hn hc
  refine ⟨hcov, fun sp hsp => (hsize sp hsp).2, fun hmany sp hsp => ?_⟩
  have hle := h.resolve_left (by omega)
  exact ((Nat.le_div_iff_mul_le hg).mpr hle).trans (hsize sp hsp).1

theorem fillSpans_leaf (hn : 0 < n) : Filled n leafCap leafMin (fillSpans n leafCap) := by
  obtain ⟨-, -, -, hmax⟩ := spanGroups_bounds hn (by decide : 0 < leafCap)
  refine filled_of_groups hn (by decide) ?_
  simp only [leafMin, leafCap] at *
  omega

theorem fillSpans_branch (hn : 0 < n) : Filled n arity (branchMin + 1) (fillSpans n arity) := by
  obtain ⟨-, -, -, hmax⟩ := spanGroups_bounds hn (by decide : 0 < arity)
  refine filled_of_groups hn (by decide) ?_
  simp only [branchMin, sepMax, arity] at *
  omega

theorem Covers.flatten {α : Type*} {l : List α} {sps : List (Nat × Nat)} {a b : Nat} (h : Covers a b sps) (hb : b ≤ l.length) :
    a ≤ b ∧ (sps.map (span l)).flatten = (l.drop a).take (b - a) ∧
      ∀ sp ∈ sps, sp.2 ≤ b ∧ (span l sp).length = sp.2 - sp.1 ∧ 0 < sp.2 - sp.1 := by
  induction sps generalizing a with
  | nil =>
    obtain rfl : a = b := h
    exact ⟨Nat.le_refl a, by simp, fun sp h => nomatch h⟩
  | cons sp sps ih =>
    obtain ⟨rfl, hlt, hcov⟩ := h
    obtain ⟨hle, hflat, hall⟩ := ih hcov
    refine ⟨by omega, ?_, fun sp' hsp => ?_⟩
    · rw [List.map_cons, List.flatten_cons, hflat, span, show b - sp.1 = (sp.2 - sp.1) + (b - sp.2) by omega, List.take_add,
        List.drop_drop, show sp.1 + (sp.2 - sp.1) = sp.2 by omega]
    · rcases List.mem_cons.mp hsp with rfl | hsp
      · refine ⟨hle, ?_, by omega⟩
        rw [span, List.length_take, List.length_drop]
        omega
      · exact hall sp' hsp

theorem Covers.length_le {sps : List (Nat × Nat)} {a b k : Nat} (h : Covers a b sps) (hk : ∀ sp ∈ sps, k ≤ sp.2 - sp.1) :
    a + sps.length * k ≤ b := by
  induction sps generalizing a with
  | nil =>
    obtain rfl : a = b := h
    simp
  | cons sp sps ih =>
    obtain ⟨rfl, hlt, hcov⟩ := h
    have hrest := ih hcov fun sp' hsp => hk sp' (List.mem_cons_of_mem _ hsp)
    have hfirst := hk sp List.mem_cons_self
    rw [List.length_cons, Nat.succ_mul]
    omega

theorem Filled.groups {α : Type*} {l : List α} {least : Nat} {sps : List (Nat × Nat)} (h : Filled l.length c least sps) :
    (sps.map (span l)).flatten = l ∧ (∀ x ∈ sps.map (span l), 0 < x.length ∧ x.length ≤ c) ∧
      (1 < (sps.map (span l)).length → ∀ x ∈ sps.map (span l), least ≤ x.length) := by
  obtain ⟨-, hflat, hall⟩ := h.covers.flatten (Nat.le_refl l.length)
  refine ⟨by simpa using hflat, fun x hx => ?_, fun hmany x hx => ?_⟩
  · obtain ⟨sp, hsp, rfl⟩ := List.mem_map.mp hx
    obtain ⟨-, hlen, hpos⟩ := hall sp hsp
    have := h.most sp hsp
    omega
  · obtain ⟨sp, hsp, rfl⟩ := List.mem_map.mp hx
    rw [(hall sp hsp).2.1]
    exact h.least (by simpa using hmany) sp hsp

theorem fillSpans_shrinks (hn : 1 < n) :
    0 < (fillSpans n arity).length ∧ (fillSpans n arity).length < n ∧ ∀ sp ∈ fillSpans n arity, 1 < sp.2 - sp.1 := by
  have hf := fillSpans_branch (n := n) (by omega)
  cases hs : fillSpans n arity with
  | nil =>
    have hz := hf.covers
    rw [hs] at hz
    have : 0 = n := hz
    omega
  | cons sp sps =>
    cases sps with
    | nil =>
      have hz := hf.covers
      rw [hs] at hz
      obtain ⟨h₁, -, h₂⟩ := hz
      have h₂ : sp.2 = n := h₂
      refine ⟨by simp, by simpa using hn, fun x hx => ?_⟩
      rw [List.mem_singleton.mp hx]
      omega
    | cons sp' sps =>
      have hleast := hf.least (by rw [hs]; simp)
      have hsum := hf.covers.length_le hleast
      rw [hs] at hleast hsum
      have hmin : branchMin + 1 = 4 := rfl
      rw [hmin] at hleast hsum
      refine ⟨by simp, ?_, fun x hx => by have := hleast x hx; omega⟩
      simp only [List.length_cons] at hsum ⊢
      omega

end Spans

end Aki
