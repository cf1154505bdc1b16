import Aki.BoundedScan
import Aki.StreamLogOrder

namespace Aki

open BoundedScan

variable {δ : Type} [Directory δ]

namespace Stream

structure Bound where
  id : StreamId
  excl : Bool

def aboveLo (id : StreamId) (lo : Bound) : Bool := if lo.excl then decide (lo.id < id) else decide (lo.id ≤ id)

def belowHi (id : StreamId) (hi : Bound) : Bool := if hi.excl then decide (id < hi.id) else decide (id ≤ hi.id)

/-- The slot a read opens in: the directory's, or the given one in the inline band. -/
def startSlot (s : Stream δ) (id : StreamId) (slot : Nat) : Nat :=
  match s.dir with
  | some d => floorBlock d id
  | none => slot

/-- The walk of the blocks from a slot on, oldest first. -/
def walkForward {σ : Type} (s : Stream δ) (lo hi : Bound) (full : σ → Bool) (visit : σ → StreamEntry → σ) (st : σ) : σ :=
  let start := s.startSlot lo.id 0
  scanAll (fun e => !aboveLo e.id lo) (fun e => !belowHi e.id hi) full visit ((s.blocks.drop start).map Block.entries) st

def collectForward (s : Stream δ) (lo hi : Bound) (limit : Int) : List StreamEntry :=
  s.walkForward lo hi (fun out => filled limit out.length) (fun out e => out ++ [e]) []

def eachForward {σ : Type} (s : Stream δ) (lo hi : Bound) (limit : Int) (visit : σ → StreamEntry → σ) (st : σ) : σ :=
  if s.blocks = [] ∨ limit = 0 then st
  else (s.walkForward lo hi (fun r => filled limit r.1) (fun (r : Nat × σ) e => (r.1 + 1, visit r.2 e)) (0, st)).2

/-- Newest first; `none` when the block the read opens in is out of range. -/
def collectReverse (s : Stream δ) (lo hi : Bound) (limit : Int) : Option (List StreamEntry) :=
  if s.dir = none ∧ s.blocks = [] then some []
  else
    let start := s.startSlot hi.id (s.blocks.length - 1)
    if start < s.blocks.length then
      some (scanAll (fun e => !belowHi e.id hi) (fun e => !aboveLo e.id lo) (fun out => filled limit out.length)
        (fun out e => out ++ [e]) ((s.blocks.take (start + 1)).reverse.map fun b => b.entries.reverse) [])
    else none

def collectRange (s : Stream δ) (lo hi : Bound) (rev : Bool) (limit : Int) : Option (List StreamEntry) :=
  if s.blocks = [] ∨ limit = 0 then some []
  else if rev then s.collectReverse lo hi limit
  else some (s.collectForward lo hi limit)

def window (lo hi : Bound) (es : List StreamEntry) : List StreamEntry := es.filter fun e => aboveLo e.id lo && belowHi e.id hi

variable {s : Stream δ} {id x y : StreamId} {lo hi : Bound} {b : Block} {i : Nat}

theorem belowHi_of_lt (hxy : x < y) (hy : belowHi y hi = true) : belowHi x hi = true := by
  cases he : hi.excl <;> simp only [belowHi, he, Bool.false_eq_true, if_true, if_false, decide_eq_true_eq] at hy ⊢
  · exact le_trans (le_of_lt hxy) hy
  · exact lt_trans hxy hy

theorem aboveLo_of_lt (hxy : x < y) (hx : aboveLo x lo = true) : aboveLo y lo = true := by
  cases he : lo.excl <;> simp only [aboveLo, he, Bool.false_eq_true, if_true, if_false, decide_eq_true_eq] at hx ⊢
  · exact le_trans hx (le_of_lt hxy)
  · exact lt_trans hx hxy

theorem aboveLo_false (h : x < lo.id) : aboveLo x lo = false := by
  unfold aboveLo
  split
  · simpa using le_of_lt h
  · simpa using h

theorem belowHi_false (h : hi.id < x) : belowHi x hi = false := by
  unfold belowHi
  split
  · simpa using le_of_lt h
  · simpa using h

theorem window_append (lo hi : Bound) (es es' : List StreamEntry) : window lo hi (es ++ es') = window lo hi es ++ window lo hi es' :=
  List.filter_append ..

theorem entry_id_mem {e : StreamEntry} (he : e ∈ b.entries) : e.id ∈ b.ids :=
  (Block.entries_ids_sublist b).subset (List.mem_map_of_mem he)

theorem Ordered.entries_sorted (h : s.Ordered) : (s.entries.map StreamEntry.id).Pairwise (· < ·) := by
  refine h.rising.sorted.sublist ?_
  unfold entries
  generalize s.blocks = bs
  induction bs with
  | nil => exact List.Sublist.refl _
  | cons b bs ih =>
    rw [List.flatMap_cons, List.flatMap_cons, List.map_append]
    exact (Block.entries_ids_sublist b).append ih

/-- A seek opens in a block, nothing before it reaches the ID and nothing after it starts as early. -/
structure Seeks (s : Stream δ) (id : StreamId) (i : Nat) (b : Block) : Prop where
  index : s.blockIndexFor id = some i
  block : s.blocks[i]? = some b
  before : ∀ c ∈ s.blocks.take i, ∀ x ∈ c.ids, x < id
  after : ∀ c ∈ s.blocks.drop (i + 1), ∀ x ∈ c.ids, id < x

theorem split_at {bs : List Block} (h : bs[i]? = some b) : bs = bs.take i ++ b :: bs.drop (i + 1) := by
  conv_lhs => rw [← List.take_append_drop i bs, List.drop_eq_getElem?_toList_append, h]
  rfl

theorem Ordered.seek (h : s.Ordered) (hne : s.blocks ≠ []) (id : StreamId) : ∃ i b, s.Seeks id i b := by
  cases hk : s.kind with
  | inline =>
    obtain ⟨hdir, hlen⟩ := h.inline hk
    obtain ⟨b, bs, hbs⟩ := List.exists_cons_of_ne_nil hne
    refine ⟨0, b, ⟨by rw [blockIndexFor, if_neg hne, hdir], by rw [hbs]; rfl, by simp, fun c hc => ?_⟩⟩
    rw [List.drop_eq_nil_of_le hlen] at hc
    cases hc
  | native =>
    obtain ⟨hf, hdir⟩ := h.native hk
    obtain ⟨d, hdir, hkeys⟩ := Option.map_eq_some_iff.mp hdir
    obtain ⟨k, hk, hfloor, hafter⟩ := floorBlock_spec hkeys (h.rising.firsts hf) (by simpa using hne) id
    rw [List.getElem?_map] at hk
    obtain ⟨b, hb, rfl⟩ := Option.map_eq_some_iff.mp hk
    have hmem : b ∈ s.blocks := List.mem_of_getElem? hb
    refine ⟨_, b, ⟨by rw [blockIndexFor, if_neg hne, hdir], hb, fun c hc x hx => ?_, fun c hc x hx => ?_⟩⟩
    · -- the blocks before this one end below its first ID
      rcases hfloor with hle | hzero
      · have hpair := (List.pairwise_flatMap.mp h.rising.sorted).2
        rw [split_at hb, List.pairwise_append] at hpair
        exact lt_of_lt_of_le (hpair.2.2 c hc b List.mem_cons_self x hx b.first ((h.rising.spans b hmem).first_mem (hf b hmem))) hle
      · rw [hzero] at hc
        cases hc
    · have hc' := List.mem_of_mem_drop hc
      rw [← List.map_drop] at hafter
      exact lt_of_lt_of_le (hafter c.first (List.mem_map_of_mem hc)) ((h.rising.spans c hc').first_le (h.rising.block hc') hx)

theorem Seeks.entries_eq (h : s.Seeks id i b) : s.entries =
    (s.blocks.take i).flatMap Block.entries ++ (b.entries ++ (s.blocks.drop (i + 1)).flatMap Block.entries) := by
  conv_lhs => rw [entries, split_at h.block]
  simp

theorem Seeks.before_lt (h : s.Seeks id i b) : ∀ e ∈ (s.blocks.take i).flatMap Block.entries, e.id < id := by
  intro e he
  obtain ⟨c, hc, he⟩ := List.mem_flatMap.mp he
  exact h.before c hc _ (entry_id_mem he)

theorem Seeks.after_lt (h : s.Seeks id i b) : ∀ e ∈ (s.blocks.drop (i + 1)).flatMap Block.entries, id < e.id := by
  intro e he
  obtain ⟨c, hc, he⟩ := List.mem_flatMap.mp he
  exact h.after c hc _ (entry_id_mem he)

theorem Seeks.startSlot (h : s.Seeks id i b) (ho : s.Ordered) {slot : Nat} (hslot : slot = 0 ∨ slot = s.blocks.length - 1) :
    s.startSlot id slot = i := by
  have hi := h.index
  have hlt := (List.getElem?_eq_some_iff.mp h.block).1
  rw [blockIndexFor, if_neg (List.ne_nil_of_length_pos (by omega))] at hi
  unfold Stream.startSlot
  cases hdir : s.dir with
  | some d =>
    rw [hdir] at hi
    exact Option.some.inj hi
  | none =>
    rw [hdir] at hi
    obtain rfl := Option.some.inj hi
    cases hk : s.kind with
    | inline =>
      have := (ho.inline hk).2
      show slot = 0
      omega
    | native =>
      have hnat := (ho.native hk).2
      rw [hdir] at hnat
      cases hnat

/-- A forward walk visits the live entries within the bounds in order, up to the limit. -/
theorem Ordered.walkForward {σ : Type} (h : s.Ordered) (hne : s.blocks ≠ []) (lo hi : Bound) {limit : Int} {full : σ → Bool}
    {visit : σ → StreamEntry → σ} (count : σ → Nat) (hcount : ∀ st e, count (visit st e) = count st + 1)
    (hfull : ∀ st, full st = filled limit (count st)) (st : σ) (hzero : count st = 0) :
    s.walkForward lo hi full visit st = (upTo limit (window lo hi s.entries)).foldl visit st := by
  obtain ⟨i, b, hseek⟩ := h.seek hne lo.id
  have hdrop : s.blocks.drop i = b :: s.blocks.drop (i + 1) := by
    rw [List.drop_eq_getElem?_toList_append, hseek.block]
    rfl
  have hflat : ((s.blocks.drop i).map Block.entries).flatten = b.entries ++ (s.blocks.drop (i + 1)).flatMap Block.entries := by
    rw [hdrop, List.map_cons, List.flatten_cons, List.flatMap_def]
  -- no entry before the opened block is in the window
  have hbefore : window lo hi ((s.blocks.take i).flatMap Block.entries) = [] := by
    rw [window, List.filter_eq_nil_iff]
    intro e he
    simp [aboveLo_false (hseek.before_lt e he)]
  have hstop : (b.entries ++ (s.blocks.drop (i + 1)).flatMap Block.entries).Pairwise fun x y =>
      (!belowHi x.id hi) = true → (!belowHi y.id hi) = true := by
    have hsort := h.entries_sorted
    rw [List.pairwise_map, hseek.entries_eq, List.pairwise_append] at hsort
    refine hsort.2.1.imp fun {x y} hlt hx => ?_
    rw [Bool.not_eq_true'] at hx ⊢
    exact Bool.eq_false_iff.mpr fun hy => absurd (belowHi_of_lt hlt hy) (by rw [hx]; decide)
  have hwin : ((b.entries ++ (s.blocks.drop (i + 1)).flatMap Block.entries).filter fun e =>
      !(!aboveLo e.id lo) && !(!belowHi e.id hi)) = window lo hi s.entries := by
    rw [hseek.entries_eq, window_append, hbefore, List.nil_append, window]
    simp
  unfold Stream.walkForward
  dsimp only
  rw [hseek.startSlot h (.inl rfl), scanAll_eq, hflat, scan_spec count hcount hfull hstop st (by rw [hzero]; exact filled_zero limit), hwin,
    hzero, remaining_zero]

theorem Ordered.collectForward (h : s.Ordered) (lo hi : Bound) (limit : Int) :
    s.collectForward lo hi limit = upTo limit (window lo hi s.entries) := by
  by_cases hne : s.blocks = []
  · simp [Stream.collectForward, Stream.walkForward, hne, scanAll, window, entries, upTo]
  · rw [Stream.collectForward, h.walkForward hne lo hi List.length (by simp) (fun _ => rfl) [] rfl, foldl_snoc, List.nil_append]

theorem Ordered.eachForward {σ : Type} (h : s.Ordered) (lo hi : Bound) {limit : Int} (hl : limit ≠ 0) (visit : σ → StreamEntry → σ) (st : σ) :
    s.eachForward lo hi limit visit st = (s.collectForward lo hi limit).foldl visit st := by
  rw [h.collectForward]
  by_cases hne : s.blocks = []
  · simp [Stream.eachForward, hne, window, entries, upTo]
  · rw [Stream.eachForward, if_neg (by simp [hne, hl]), h.walkForward hne lo hi Prod.fst (fun _ _ => rfl) (fun _ => rfl) (0, st) rfl,
      foldl_counted]

theorem Ordered.collectReverse (h : s.Ordered) (hne : s.blocks ≠ []) (lo hi : Bound) (limit : Int) :
    s.collectReverse lo hi limit = some (upTo limit (window lo hi s.entries).reverse) := by
  obtain ⟨i, b, hseek⟩ := h.seek hne hi.id
  have hi' := (List.getElem?_eq_some_iff.mp hseek.block).1
  have htake : s.blocks.take (i + 1) = s.blocks.take i ++ [b] := by
    rw [List.take_add_one, hseek.block]
    rfl
  have hflat : ((s.blocks.take (i + 1)).reverse.map fun b => b.entries.reverse).flatten =
      ((s.blocks.take (i + 1)).flatMap Block.entries).reverse := by
    rw [List.reverse_flatMap, ← List.flatMap_def]
    rfl
  have hfront : s.entries = (s.blocks.take (i + 1)).flatMap Block.entries ++ (s.blocks.drop (i + 1)).flatMap Block.entries := by
    rw [hseek.entries_eq, htake]
    simp
  have hafter : window lo hi ((s.blocks.drop (i + 1)).flatMap Block.entries) = [] := by
    rw [window, List.filter_eq_nil_iff]
    intro e he
    simp [belowHi_false (hseek.after_lt e he)]
  have hstop : ((s.blocks.take (i + 1)).flatMap Block.entries).reverse.Pairwise fun x y =>
      (!aboveLo x.id lo) = true → (!aboveLo y.id lo) = true := by
    have hsort := h.entries_sorted
    rw [List.pairwise_map, hfront, List.pairwise_append] at hsort
    rw [List.pairwise_reverse]
    refine hsort.1.imp fun {x y} hlt hy => ?_
    rw [Bool.not_eq_true'] at hy ⊢
    exact Bool.eq_false_iff.mpr fun hx => absurd (aboveLo_of_lt hlt hx) (by rw [hy]; decide)
  have hwin : (((s.blocks.take (i + 1)).flatMap Block.entries).reverse.filter fun e =>
      !(!belowHi e.id hi) && !(!aboveLo e.id lo)) = (window lo hi s.entries).reverse := by
    rw [hfront, window_append, hafter, List.append_nil, window, ← List.filter_reverse]
    refine List.filter_congr fun e _ => ?_
    simp [Bool.and_comm]
  unfold Stream.collectReverse
  rw [if_neg (by simp [hne])]
  dsimp only
  rw [hseek.startSlot h (.inr rfl), if_pos hi', scanAll_eq, hflat,
    scan_spec List.length (by simp) (fun _ => rfl) hstop [] (filled_zero limit), hwin, List.length_nil, remaining_zero, foldl_snoc,
    List.nil_append]

/-- A range read answers from the live entries in order. -/
def ReadsExactly (s : Stream δ) : Prop :=
  ∀ (lo hi : Bound) (limit : Int),
    s.collectForward lo hi limit = upTo limit (window lo hi s.entries) ∧
    (s.blocks ≠ [] → s.collectReverse lo hi limit = some (upTo limit (window lo hi s.entries).reverse)) ∧
    (∀ rev, s.collectRange lo hi rev limit =
      some (if limit = 0 then [] else upTo limit (if rev then (window lo hi s.entries).reverse else window lo hi s.entries))) ∧
    (∀ (σ : Type) (visit : σ → StreamEntry → σ) (st : σ),
      s.eachForward lo hi limit visit st = (if limit = 0 then [] else s.collectForward lo hi limit).foldl visit st) ∧
    (limit ≤ 0 ∨ (window lo hi s.entries).length ≤ limit.toNat → s.blocks ≠ [] →
      s.collectReverse lo hi limit = some (s.collectForward lo hi limit).reverse)

theorem upTo_all {es : List StreamEntry} {limit : Int} (h : limit ≤ 0 ∨ es.length ≤ limit.toNat) : upTo limit es = es := by
  unfold upTo
  split
  next hpos => exact List.take_of_length_le (h.resolve_left (by omega))
  next => rfl

theorem Ordered.readsExactly (h : s.Ordered) : s.ReadsExactly := by
  intro lo hi limit
  refine ⟨h.collectForward lo hi limit, fun hne => h.collectReverse hne lo hi limit, fun rev => ?_, fun σ visit st => ?_, fun hl hne => ?_⟩
  · unfold Stream.collectRange
    split
    next hcond =>
      rcases hcond with hnil | rfl
      · simp [entries, hnil, window, upTo]
      · simp
    next hcond =>
      rw [if_neg fun hz => hcond (.inr hz)]
      cases rev with
      | true => exact h.collectReverse (fun hn => hcond (.inl hn)) lo hi limit
      | false => exact congrArg some (h.collectForward lo hi limit)
  · by_cases hl : limit = 0
    · simp [Stream.eachForward, hl]
    · rw [if_neg hl, h.eachForward lo hi hl]
  · rw [h.collectReverse hne, h.collectForward, upTo_all hl, upTo_all (by simpa using hl)]

end Stream

/-- In every run whose steps fit, every range read of every state returns exactly the entries asked for. -/
theorem StreamReach.range_reads_exact {s : Stream δ} (h : StreamReach StreamOp.Fits s) : s.ReadsExactly :=
  h.ordered.readsExactly

/-- A check under which an append, a delete or a group call fits. -/
def StreamOp.plain (s : Stream δ) : StreamOp → Bool
  | .add want fields => decide (s.length + 1 < 2 ^ 63) && (s.allocID want).all fun id => decide ((∀ x ∈ s.ids, x < id) ∧
      s.blocks.length + 2 < 2 ^ 32 ∧ (s.kind = .inline → Stream.overflows (s.withTail.blocks.getLastD newBlock) ⟨id, fields⟩ = false))
  | .ensureNative => s.blocks.all fun b => !b.frames.isEmpty
  | .delete _ => true
  | _ => false

theorem StreamOp.fits_of_plain (s : Stream δ) (op : StreamOp) (h : op.plain s = true) : op.Fits s := by
  cases op with
  | add want fields =>
    intro id hid
    rw [plain, hid, Option.all_some, Bool.and_eq_true] at h
    obtain ⟨hlast, hblocks, hover⟩ := of_decide_eq_true h.2
    refine ⟨hlast, fun hk ho => ?_, hblocks⟩
    rw [hover hk] at ho
    cases ho
  | ensureNative =>
    intro _ b hb
    simpa using List.all_eq_true.mp h b hb
  | gc => cases h
  | delete | setID | trim | demote | promote => trivial

/-- Three blocks of one entry each, the second a long one, for a consumer group. -/
def groupedCalls : List StreamOp :=
  [.add (.explicit (streamId 1 0)) [], .ensureNative, .add (.ofMs 1) [([1], List.replicate 4090 0)], .add (.ofMs 1) [],
    .delete (streamId 1 1)]

def grouped : Stream (List StreamId) := (groupedCalls.foldlM (fun s (op : StreamOp) => if op.plain s then op.run s else none) newStream).getD newStream

theorem grouped_reach {cond : Stream (List StreamId) → StreamOp → Prop} (hok : ∀ s op, StreamOp.plain s op = true → cond s op) : StreamReach cond grouped := by
  obtain ⟨s, hs⟩ := Option.isSome_iff_exists.mp
    (by decide +kernel : (groupedCalls.foldlM (fun s (op : StreamOp) => if op.plain s then op.run s else none)
      (newStream : Stream (List StreamId))).isSome = true)
  rw [grouped, hs]
  exact StreamReach.calls StreamOp.plain hok groupedCalls .start hs

theorem grouped_range_reads : grouped.blocks.map (fun b => (b.frames.length, b.entries.length)) = [(1, 1), (1, 0), (1, 1)] ∧
    grouped.ReadsExactly :=
  ⟨by decide +kernel, (grouped_reach StreamOp.fits_of_plain).range_reads_exact⟩

/-- The greatest ID there is, then an automatic one. -/
def wrapped : Stream (List StreamId) := (newStream.appendEntry ⟨streamId maxWord maxWord, []⟩).appendEntry ⟨StreamId.zero, []⟩

/-- The automatic ID wraps to zero behind the greatest one, and a read of the smallest IDs stops before it gets there. -/
theorem wrapped_id_unread : StreamReach (fun _ _ => True) wrapped ∧
    Stream.window ⟨streamId 0 0, false⟩ ⟨streamId 5 0, false⟩ wrapped.entries = [⟨StreamId.zero, []⟩] ∧
    wrapped.collectForward ⟨streamId 0 0, false⟩ ⟨streamId 5 0, false⟩ 10 = [] := by
  refine ⟨?_, by decide +kernel, by decide +kernel⟩
  exact .step (.add (.auto 0) []) (.step (.add (.explicit (streamId maxWord maxWord)) []) .start trivial rfl) trivial rfl

end Aki
