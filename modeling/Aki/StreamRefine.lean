import Aki.StreamTrim

namespace Aki

variable {δ : Type} [Directory δ]

namespace Stream

variable {s s' : Stream δ} {e : StreamEntry} {id : StreamId} {b b' : Block} {bs bs' : List Block} {es : List StreamEntry} {i : Nat}

theorem appendEntry_of_fits (h : overflows b e = false) : ∃ b', b.appendEntry e = some b' := by
  obtain ⟨hcount, hsize⟩ : b.count + 1 ≤ inlineMaxEntries ∧ b.size + b.projectedFrame e ≤ inlineMaxBytes := by
    simpa [overflows] using h
  unfold inlineMaxEntries at hcount
  unfold inlineMaxBytes Block.projectedFrame at hsize
  unfold Block.appendEntry
  split
  · exact ⟨_, rfl⟩
  next hne =>
    rw [if_neg hne] at hsize
    dsimp only
    unfold blockCap blockBudget
    rw [if_neg (by omega)]
    exact ⟨_, rfl⟩

theorem openBlock_entries (s : Stream δ) (e : StreamEntry) : (s.openBlock e).entries = s.entries ++ [e] := by
  simp [entries, openBlock, (appendMaster_appended e).entries]
  rfl

theorem appendNative_entries (s : Stream δ) (e : StreamEntry) : (s.appendNative e).entries = s.entries ++ [e] := by
  unfold appendNative
  split
  · exact s.openBlock_entries e
  next b hlast =>
    split
    next b' ha =>
      have hne : s.blocks ≠ [] := fun hn => by rw [hn] at hlast; cases hlast
      obtain ⟨c, hc, hsplit⟩ := last_split hne
      obtain rfl : b = c := Option.some.inj (hlast.symm.trans hc)
      conv_rhs => rw [entries, hsplit]
      simp [entries, (Block.appendEntry_appended ha).entries]
    next => exact s.openBlock_entries e

theorem Ordered.appendEntry_entries (h : s.Ordered) (e : StreamEntry) : (s.appendEntry e).entries = s.entries ++ [e] := by
  unfold Stream.appendEntry
  dsimp only
  split
  next hk =>
    show (s.appendInline e).entries = _
    obtain ⟨-, -, -, b, hb⟩ := h.withTail hk
    have htail : s.withTail.entries = s.entries := by
      unfold Stream.withTail
      split
      next hnil => simp [entries, hnil, newBlock, Block.entries]
      next => rfl
    unfold Stream.appendInline
    dsimp only
    split
    · rw [appendNative_entries, ← htail]
      rfl
    next hover =>
      rw [hb] at hover ⊢
      obtain ⟨b', ha⟩ : ∃ b', b.appendEntry e = some b' := appendEntry_of_fits (Bool.eq_false_iff.mpr hover)
      rw [← htail]
      show ([].flatMap Block.entries ++ ((b.appendEntry e).getD b).entries ++ []) = _
      simp [entries, hb, ha, (Block.appendEntry_appended ha).entries]
  next => exact s.appendNative_entries e

theorem covers_of_mem (hspans : b.Spans) (hsorted : b.ids.Pairwise (· < ·)) (hid : id ∈ b.ids) : b.covers id = true := by
  have hpos : 0 < b.count := by
    rw [Block.count, List.length_pos_iff]
    exact fun hnil => by rw [Block.ids_eq_nil.mpr hnil] at hid; cases hid
  simp [Block.covers, hpos, hspans.first_le hsorted hid, hspans.le_last hsorted hid]

def without (id : StreamId) (es : List StreamEntry) : List StreamEntry := es.filter fun e => decide (e.id ≠ id)

theorem without_self (h : ∀ e ∈ es, e.id ≠ id) : without id es = es := List.filter_eq_self.mpr fun e he => by simpa using h e he

theorem tombstone_entries (hs : b.ids.Pairwise (· < ·)) (h : b.tombstone id = some b') :
    b'.entries = without id b.entries ∧ b'.entries.length + 1 = b.entries.length := by
  obtain ⟨fs, hfs, rfl⟩ := Option.map_eq_some_iff.mp h
  rcases Block.tombstoneFrames_spec id hs with ⟨hnone, -⟩ | ⟨pre, e, post, hid, hframes, hsome⟩
  · rw [hnone] at hfs
    cases hfs
  · obtain rfl := Option.some.inj (hsome.symm.trans hfs)
    rw [Block.ids, hframes, List.map_append, List.map_cons, List.pairwise_append, List.pairwise_cons] at hs
    have hpre : ∀ x ∈ Block.liveOf pre, x.id ≠ id := fun x hx => by
      obtain ⟨f, hf, rfl⟩ := List.mem_map.mp hx
      exact ne_of_lt (hid ▸ hs.2.2 f.id (List.mem_map_of_mem (List.mem_of_mem_filter hf)) e.id List.mem_cons_self)
    have hpost : ∀ x ∈ Block.liveOf post, x.id ≠ id := fun x hx => by
      obtain ⟨f, hf, rfl⟩ := List.mem_map.mp hx
      exact ne_of_gt (hid ▸ hs.2.1.1 f.id (List.mem_map_of_mem (List.mem_of_mem_filter hf)))
    have hold : b.entries = Block.liveOf pre ++ e :: Block.liveOf post := by
      rw [Block.entries, hframes]
      simp [Block.liveOf]
    have hnew : Block.entries { b with frames := pre ++ ⟨e, true⟩ :: post } = Block.liveOf pre ++ Block.liveOf post := by
      simp [Block.entries, Block.liveOf]
    rw [hold, hnew]
    constructor
    · rw [without, List.filter_append, List.filter_cons_of_neg (by simp [hid]), ← without, ← without, without_self hpre, without_self hpost]
    · simp only [List.length_append, List.length_cons]
      omega

theorem tombstone_none (hs : b.ids.Pairwise (· < ·)) (h : b.tombstone id = none) : ∀ e ∈ b.entries, e.id ≠ id := by
  intro e he heq
  have hnone := Option.map_eq_none_iff.mp h
  rcases Block.tombstoneFrames_spec id hs with ⟨-, hall⟩ | ⟨pre, e', post, -, -, hsome⟩
  · exact absurd (hall _ (Block.mem_entries.mp he) heq) (by simp)
  · rw [hnone] at hsome
    cases hsome

theorem Seeks.set_entries (h : s.Seeks id i b) (c : Block) : (s.blocks.set i c).flatMap Block.entries =
    (s.blocks.take i).flatMap Block.entries ++ (c.entries ++ (s.blocks.drop (i + 1)).flatMap Block.entries) := by
  rw [List.set_eq_take_append_cons_drop, if_pos (List.getElem?_eq_some_iff.mp h.block).1]
  simp

theorem Seeks.without_entries (h : s.Seeks id i b) : without id s.entries =
    (s.blocks.take i).flatMap Block.entries ++ (without id b.entries ++ (s.blocks.drop (i + 1)).flatMap Block.entries) := by
  rw [h.entries_eq, without, List.filter_append, List.filter_append, ← without, ← without, ← without,
    without_self fun e he => ne_of_lt (h.before_lt e he), without_self fun e he => ne_of_gt (h.after_lt e he)]

theorem Seeks.mem_iff (h : s.Seeks id i b) : (∃ e ∈ s.entries, e.id = id) ↔ ∃ e ∈ b.entries, e.id = id := by
  rw [h.entries_eq]
  constructor
  · rintro ⟨e, he, heq⟩
    rcases List.mem_append.mp he with he | he
    · exact absurd heq (ne_of_lt (h.before_lt e he))
    · rcases List.mem_append.mp he with he | he
      · exact ⟨e, he, heq⟩
      · exact absurd heq (ne_of_gt (h.after_lt e he))
  · exact fun ⟨e, he, heq⟩ => ⟨e, List.mem_append_right _ (List.mem_append_left _ he), heq⟩

/-- A delete takes out exactly the live entry with the ID, says whether there was one and counts it. -/
theorem Counted.delete_exact (h : s.Counted) (id : StreamId) : ∃ s', s.delete id = some (s', decide (∃ e ∈ s.entries, e.id = id)) ∧
    s'.entries = without id s.entries ∧ s'.length = s'.entries.length ∧ s'.lastID = s.lastID := by
  by_cases hnil : s.blocks = []
  · have hes : s.entries = [] := by simp [entries, hnil]
    exact ⟨s, by simp [Stream.delete, blockIndexFor, hnil, hes], by simp [hes, without], h.count, rfl⟩
  · obtain ⟨i, b, hseek⟩ := h.toOrdered.seek hnil id
    have hmem : b ∈ s.blocks := List.mem_of_getElem? hseek.block
    have hsorted := h.rising.block hmem
    have hmiss : (∀ e ∈ b.entries, e.id ≠ id) → ¬(∃ e ∈ s.entries, e.id = id) ∧ without id s.entries = s.entries := by
      intro hno
      refine ⟨fun hex => ?_, by rw [hseek.without_entries, without_self hno, ← hseek.entries_eq]⟩
      obtain ⟨e, he, heq⟩ := hseek.mem_iff.mp hex
      exact hno e he heq
    simp only [Stream.delete, hseek.index, hseek.block]
    split
    next hcov =>
      split
      next b' hb' =>
        obtain ⟨hes, hlen⟩ : b'.entries = without id b.entries ∧ b'.entries.length + 1 = b.entries.length :=
          @tombstone_entries _ b.resident _ hsorted hb'
        have hone : ∃ e ∈ s.entries, e.id = id := by
          by_contra hno
          rw [hes, without_self fun e he heq => hno (hseek.mem_iff.mpr ⟨e, he, heq⟩)] at hlen
          omega
        refine ⟨{ s with blocks := s.blocks.set i b', length := sub64 s.length 1 }, by rw [decide_eq_true hone], ?_, ?_, rfl⟩
        · show (s.blocks.set i b').flatMap Block.entries = _
          rw [hseek.set_entries, hes, hseek.without_entries]
        · show sub64 s.length 1 = ((s.blocks.set i b').flatMap Block.entries).length
          have hcount := h.count
          rw [hseek.entries_eq] at hcount
          rw [hseek.set_entries]
          simp only [List.length_append] at hcount ⊢
          rw [sub64_eq (by omega) (Nat.lt_trans h.small (by decide))]
          omega
      next hnone =>
        obtain ⟨hno, hstay⟩ := hmiss (@tombstone_none _ b.resident hsorted hnone)
        have hsame : (s.blocks.set i b.resident).flatMap Block.entries = s.entries := by
          rw [hseek.set_entries, hseek.entries_eq]
          rfl
        refine ⟨{ s with blocks := s.blocks.set i b.resident }, by rw [decide_eq_false hno], hsame.trans hstay.symm, ?_, rfl⟩
        exact h.count.trans (congrArg List.length hsame.symm)
    next hcov =>
      obtain ⟨hno, hstay⟩ := hmiss fun e he heq => hcov (covers_of_mem (h.rising.spans b hmem) hsorted (heq ▸ entry_id_mem he))
      exact ⟨_, by rw [decide_eq_false hno], hstay.symm, h.count, rfl⟩

theorem flatMap_entries_congr (h : List.Forall₂ (fun b b' => Block.entries b' = b.entries) bs bs') :
    bs'.flatMap Block.entries = bs.flatMap Block.entries := by
  induction h with
  | nil => rfl
  | cons hb _ ih => rw [List.flatMap_cons, List.flatMap_cons, hb, ih]

theorem shedRun_entries : ∀ (n : Nat) (bs : List Block), (shedRun n bs).flatMap Block.entries = bs.flatMap Block.entries
  | 0, bs => by rw [shedRun]
  | _ + 1, [] => rfl
  | n + 1, b :: bs => by
    rw [shedRun]
    split
    · rw [List.flatMap_cons, List.flatMap_cons, shedRun_entries]
    · rw [List.flatMap_cons, List.flatMap_cons, shedRun_entries]
      rfl

theorem demote_entries (s : Stream δ) (accepted : Bool) : (s.demote accepted).entries = s.entries := by
  unfold demote entries
  dsimp only
  split
  · rw [List.flatMap_append, shedRun_entries, ← List.flatMap_append, List.take_append_drop]
  · rfl

theorem promote_entries (s : Stream δ) (i : Nat) : (s.promote i).entries = s.entries := by
  show (s.blocks.modify i Block.resident).flatMap Block.entries = _
  generalize hbs : s.blocks = bs
  rw [entries, hbs]
  clear hbs
  induction bs generalizing i with
  | nil => cases i <;> rfl
  | cons b bs ih =>
    cases i with
    | zero => rfl
    | succ i => rw [List.modify_succ_cons, List.flatMap_cons, List.flatMap_cons, ih]

theorem dead_entries (h : dead b = true) : b.entries = [] := by
  simp only [dead, Bool.and_eq_true, decide_eq_true_eq, Block.live_eq] at h
  exact List.length_eq_zero_iff.mp h.2

theorem filter_dead_entries (bs : List Block) : (bs.filter fun b => !dead b).flatMap Block.entries = bs.flatMap Block.entries := by
  induction bs with
  | nil => rfl
  | cons b bs ih =>
    by_cases hd : dead b = true
    · rw [List.filter_cons_of_neg (by simp [hd]), ih, List.flatMap_cons, dead_entries hd, List.nil_append]
    · rw [List.filter_cons_of_pos (by simp [hd]), List.flatMap_cons, List.flatMap_cons, ih]

/-- The live entries of every block the pass rewrites fit one block. -/
def GcPacks (s : Stream δ) : Prop := ∀ b ∈ s.blocks.dropLast, ripe b = true → Packs b.entries

theorem Ordered.gc_entries (h : s.Ordered) (hkeep : s.KeepsFirsts) (hpacks : s.GcPacks) : s.gc.entries = s.entries := by
  have hcollected : (s.blocks.dropLast.map collected).flatMap Block.entries = s.blocks.dropLast.flatMap Block.entries := by
    refine flatMap_entries_congr (List.forall₂_map_right_iff.mpr (List.forall₂_same.mpr fun b hb => ?_))
    unfold collected
    split
    next hr => exact (hpacks b hb hr).entries (entries_le_cap (h.rising.spans b (List.dropLast_subset _ hb)))
    next => rfl
  unfold Stream.gc
  split
  next ks hk hd =>
    split
    next hlen =>
      obtain ⟨b, hlast, hsplit⟩ := last_split (List.ne_nil_of_length_pos (by omega) : s.blocks ≠ [])
      dsimp only
      rw [gcScan_eq _ hkeep, hlast]
      have hall : (s.blocks.dropLast.map collected ++ [b]).flatMap Block.entries = s.entries := by
        conv_rhs => rw [entries, hsplit]
        rw [List.flatMap_append, List.flatMap_append, hcollected]
      split
      · rw [← hall]
        show (_ ++ [b]).flatMap Block.entries = _
        rw [List.flatMap_append, List.flatMap_append, filter_dead_entries]
      · exact hall
    next => rfl
  next => rfl

theorem gc_keeps (s : Stream δ) : s.gc.length = s.length ∧ s.gc.lastID = s.lastID := by
  unfold gc
  split
  · split
    · dsimp only
      split <;> exact ⟨rfl, rfl⟩
    · exact ⟨rfl, rfl⟩
  · exact ⟨rfl, rfl⟩

end Stream

structure StreamLog where
  lastID : StreamId
  entries : List StreamEntry

namespace StreamLog

def Step (l : StreamLog) : StreamOp → StreamLog → Prop
  | .add want fields, l' =>
    match (⟨.inline, l.lastID, [], none, 0⟩ : Stream (List StreamId)).allocID want with
    | none => l' = l
    | some id => l' = ⟨id, l.entries ++ [⟨id, fields⟩]⟩
  | .delete id, l' => l' = ⟨l.lastID, Stream.without id l.entries⟩
  | .setID id, l' => l' = if l.entries ≠ [] ∧ id < l.lastID then l else ⟨id, l.entries⟩
  | .trim sp, l' => l'.lastID = l.lastID ∧ ∃ k, Stream.Trims sp l.entries l'.entries k
  | _, l' => l' = l

end StreamLog

section

def Stream.log (s : Stream δ) : StreamLog := ⟨s.lastID, s.entries⟩

variable {s : Stream δ}

theorem Stream.allocID_lastID (s : Stream δ) (want : Alloc) : (⟨.inline, s.log.lastID, [], none, 0⟩ : Stream (List StreamId)).allocID want = s.allocID want := by
  cases want <;> rfl

theorem Stream.log_eq {t : Stream δ} {l : StreamLog} (hid : t.lastID = l.lastID) (hes : t.entries = l.entries) : t.log = l := by
  unfold log
  rw [hid, hes]

theorem Stream.Counted.still {t : Stream δ} (h : s.Counted) (hlen : t.length = s.length) (hid : t.lastID = s.lastID) (hes : t.entries = s.entries) :
    t.log = s.log ∧ t.length = t.entries.length ∧ t.length < 2 ^ 63 :=
  ⟨log_eq hid hes, by rw [hlen, hes, h.count], hlen ▸ h.small⟩

end

/-- The calls that keep the log in order, keep its count a 63-bit number and leave every survivor room to land. -/
def StreamOp.Sound (s : Stream δ) (op : StreamOp) : Prop :=
  op.Fits s ∧ match op with
    | .add _ _ => s.length + 1 < 2 ^ 63
    | .trim sp => s.Trimmable sp
    | .gc => s.GcPacks
    | _ => True

/-- A sound call does not fail, does to the log what it is for, and counts. -/
theorem StreamOp.run_sound {s : Stream δ} {op : StreamOp} (h : s.Counted) (hc : op.Sound s) :
    ∃ s', op.run s = some s' ∧ s.log.Step op s'.log ∧ s'.Counted := by
  -- the order is kept by every call that fits; what is left is the log and its count
  suffices hmain : ∃ s', op.run s = some s' ∧ s.log.Step op s'.log ∧ s'.length = s'.entries.length ∧ s'.length < 2 ^ 63 by
    obtain ⟨s', hr, hstep, hcount, hsmall⟩ := hmain
    exact ⟨s', hr, hstep, run_ordered h.toOrdered hc.1 hr, hcount, hsmall⟩
  obtain ⟨hfits, hland⟩ := hc
  cases op with
  | add want fields =>
    cases hid : s.allocID want with
    | none =>
      refine ⟨s, by rw [run, hid], ?_, h.count, h.small⟩
      rw [StreamLog.Step, s.allocID_lastID, hid]
    | some id =>
      have hes := h.toOrdered.appendEntry_entries ⟨id, fields⟩
      have hlen : (s.appendEntry ⟨id, fields⟩).length = s.length + 1 := Nat.mod_eq_of_lt (Nat.lt_trans hland (by decide))
      refine ⟨_, by rw [run, hid], ?_, ?_, ?_⟩
      · rw [StreamLog.Step, s.allocID_lastID, hid]
        exact Stream.log_eq rfl hes
      · rw [hlen, hes, List.length_append, h.count]
        rfl
      · rw [hlen]
        exact hland
  | delete id =>
    obtain ⟨s', hd, hes, hcount, hlast⟩ := h.delete_exact id
    refine ⟨s', by rw [run, hd]; rfl, Stream.log_eq hlast hes, hcount, ?_⟩
    have hle := (List.filter_sublist (l := s.entries) (p := fun e => decide (e.id ≠ id))).length_le
    have hsmall := h.small
    rw [h.count] at hsmall
    rw [hcount, hes]
    exact Nat.lt_of_le_of_lt hle hsmall
  | setID id =>
    have hcond : 0 < s.length ∧ id < s.lastID ↔ s.entries ≠ [] ∧ id < s.lastID := by rw [h.count, List.length_pos_iff]
    refine ⟨_, rfl, ?_, ?_⟩
    · by_cases hlow : s.entries ≠ [] ∧ id < s.lastID
      · rw [StreamLog.Step, Stream.setID, if_pos (hcond.mpr hlow)]
        exact (if_pos hlow).symm
      · rw [StreamLog.Step, Stream.setID, if_neg (mt hcond.mp hlow)]
        exact (if_neg hlow).symm
    · unfold Stream.setID
      split <;> exact ⟨h.count, h.small⟩
  | trim sp =>
    obtain ⟨s', k, ht, htrims, hlen, hlast⟩ := h.trim hland
    refine ⟨s', by rw [run, ht]; rfl, ⟨hlast, k, htrims⟩, ?_, by have := h.small; omega⟩
    rw [hlen, htrims.entries, List.length_drop, h.count]
  | gc => exact ⟨_, rfl, h.still s.gc_keeps.1 s.gc_keeps.2 (h.toOrdered.gc_entries hfits hland)⟩
  | demote accepted =>
    have hkeep : (s.demote accepted).length = s.length ∧ (s.demote accepted).lastID = s.lastID := by
      unfold Stream.demote
      dsimp only
      split <;> exact ⟨rfl, rfl⟩
    exact ⟨_, rfl, h.still hkeep.1 hkeep.2 (s.demote_entries accepted)⟩
  | promote i => exact ⟨_, rfl, h.still rfl rfl (s.promote_entries i)⟩
  | ensureNative =>
    have hkeep : s.ensureNative.length = s.length ∧ s.ensureNative.lastID = s.lastID ∧ s.ensureNative.entries = s.entries := by
      unfold Stream.ensureNative
      split <;> exact ⟨rfl, rfl, rfl⟩
    exact ⟨_, rfl, h.still hkeep.1 hkeep.2.1 hkeep.2.2⟩

theorem StreamReach.counted {s : Stream δ} (h : StreamReach StreamOp.Sound s) : s.Counted := by
  induction h with
  | start => exact ⟨Stream.newStream_ordered, rfl, Nat.two_pow_pos 63⟩
  | step op _ hc hr ih =>
    obtain ⟨s', hr', -, hs'⟩ := op.run_sound ih hc
    rw [hr] at hr'
    exact Option.some.inj hr' ▸ hs'

/-- In every run of sound calls the stream does what the log of its entries does, and none of them fails. -/
theorem StreamReach.refines_log {s : Stream δ} {op : StreamOp} (h : StreamReach StreamOp.Sound s) (hc : op.Sound s) :
    ∃ s', op.run s = some s' ∧ s.log.Step op s'.log ∧ s'.length = s'.entries.length := by
  obtain ⟨s', hr, hstep, hs'⟩ := op.run_sound h.counted hc
  exact ⟨s', hr, hstep, hs'.count⟩

theorem StreamOp.sound_of_plain (s : Stream δ) (op : StreamOp) (h : op.plain s = true) : op.Sound s := by
  refine ⟨op.fits_of_plain s h, ?_⟩
  cases op with
  | add want fields => exact of_decide_eq_true (Bool.and_eq_true_iff.mp h).1
  | trim | gc => cases h
  | delete | setID | demote | promote | ensureNative => trivial

theorem grouped_sound : StreamReach StreamOp.Sound grouped := grouped_reach StreamOp.sound_of_plain

theorem grouped_delete_refines : StreamReach StreamOp.Sound grouped ∧
    ∃ s', (StreamOp.delete (streamId 1 0)).run grouped = some s' ∧ grouped.log.Step (.delete (streamId 1 0)) s'.log ∧
      s'.length = s'.entries.length :=
  ⟨grouped_sound, grouped_sound.refines_log ⟨trivial, trivial⟩⟩

/-- A delete answers whether the entry was there, and every read after it gives, up to its limit, what the read without a limit gave
before it less that entry. -/
theorem StreamReach.delete_then_read {s : Stream δ} (h : StreamReach StreamOp.Sound s) (id : StreamId) :
    ∃ s', s.delete id = some (s', decide (∃ e ∈ s.entries, e.id = id)) ∧
      ∀ lo hi limit, s'.collectForward lo hi limit = BoundedScan.upTo limit (Stream.without id (s.collectForward lo hi (-1))) := by
  obtain ⟨s', hd, hes, -, -⟩ := h.counted.delete_exact id
  refine ⟨s', hd, fun lo hi limit => ?_⟩
  have hall : BoundedScan.upTo (-1) (Stream.window lo hi s.entries) = Stream.window lo hi s.entries := Stream.upTo_all (.inl (by decide))
  rw [(h.counted.toOrdered.delete hd).collectForward, h.counted.toOrdered.collectForward, hes, hall, Stream.window,
    Stream.window, Stream.without, Stream.without, List.filter_filter, List.filter_filter]
  exact congrArg _ (List.filter_congr fun e _ => Bool.and_comm ..)

theorem grouped_delete_then_read : StreamReach StreamOp.Sound grouped ∧
    ∃ s', grouped.delete (streamId 1 0) = some (s', decide (∃ e ∈ grouped.entries, e.id = streamId 1 0)) ∧
      ∀ lo hi limit, s'.collectForward lo hi limit =
        BoundedScan.upTo limit (Stream.without (streamId 1 0) (grouped.collectForward lo hi (-1))) :=
  ⟨grouped_sound, grouped_sound.delete_then_read (streamId 1 0)⟩

/-- In every run of sound calls, a trim the code can carry out takes out exactly what it is to take out. -/
theorem StreamReach.trim_exact {s : Stream δ} {sp : Stream.TrimSpec} (h : StreamReach StreamOp.Sound s) (ht : s.Trimmable sp) :
    ∃ s' k, s.trim sp = some (s', k) ∧ Stream.Trims sp s.entries s'.entries k ∧ s'.length = s'.entries.length := by
  obtain ⟨s', k, heq, htrims, hlen, -⟩ := h.counted.trim ht
  refine ⟨s', k, heq, htrims, ?_⟩
  rw [hlen, htrims.entries, List.length_drop, h.counted.count]

theorem grouped_trim_exact : StreamReach StreamOp.Sound grouped ∧ ∃ s' k, grouped.trim ⟨.maxlen 1, false, none⟩ = some (s', k) ∧
    Stream.Trims ⟨.maxlen 1, false, none⟩ grouped.entries s'.entries k ∧ s'.length = s'.entries.length := by
  refine ⟨grouped_sound, grouped_sound.trim_exact ⟨(fun _ h => nomatch h), fun _ => rfl, fun hk => ?_, fun _ _ => by decide +kernel⟩⟩
  exact absurd hk (by decide +kernel)

/-- A group on a stream with no entry leaves the native band without a block, and an exact trim indexes it. -/
theorem blockless_trim_fails : StreamReach (fun _ _ => True) (newStream : Stream (List StreamId)).ensureNative ∧
    (newStream : Stream (List StreamId)).ensureNative.trim ⟨.maxlen 0, false, none⟩ = none :=
  ⟨.step .ensureNative .start trivial rfl, by decide +kernel⟩

end Aki
