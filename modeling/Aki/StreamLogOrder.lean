import Aki.StreamLog

namespace Aki

theorem Block.live_eq (b : Block) : b.live = b.entries.length := by
  have h := List.length_eq_countP_add_countP Frame.deleted (l := b.frames)
  have he : b.entries.length = b.frames.countP fun f => !f.deleted := by
    rw [Block.entries, List.length_map, List.countP_eq_length_filter]
  have hc : (b.frames.countP fun f => decide ¬f.deleted = true) = b.frames.countP fun f => !f.deleted :=
    List.countP_congr fun f _ => by simp
  unfold Block.live Block.count Block.deleted
  rw [he]
  omega

namespace Stream

variable {δ : Type} [Directory δ] {s s' : Stream δ} {d : δ} {e : StreamEntry} {id : StreamId} {ks : List StreamId} {b b' : Block} {bs bs' : List Block}

theorem fileKey_above (h : ∀ k ∈ ks, k < id) : fileKey id ks = ks ++ [id] := by
  induction ks with
  | nil => rfl
  | cons k ks ih =>
    have hk := h k List.mem_cons_self
    rw [fileKey, if_neg (not_lt_of_gt (StreamId.treeKey_lt.mpr hk)), if_neg (ne_of_gt hk), ih fun x hx => h x (List.mem_cons_of_mem k hx)]
    rfl

theorem keys_buildDir (h : (bs.map Block.first).Pairwise (· < ·)) : Directory.keys (buildDir bs : δ) = bs.map Block.first := by
  induction bs using List.reverseRecOn with
  | nil => exact Directory.keys_new
  | append_singleton bs b ih =>
    rw [List.map_append, List.pairwise_append] at h
    have hstep : (buildDir (bs ++ [b]) : δ) = Directory.insert b.first (buildDir bs) := by simp [buildDir]
    rw [hstep, Directory.keys_insert, ih h.1, fileKey_above fun k hk => h.2.2 k hk b.first (by simp)]
    simp

/-- Taking the keys of the front blocks out one by one leaves the keys of the others. -/
theorem keys_unfile (h : Directory.keys d = bs.map Block.first) (n : Nat) :
    Directory.keys (unfile d (bs.take n)) = (bs.drop n).map Block.first := by
  induction bs generalizing d n with
  | nil => simpa [unfile] using h
  | cons b bs ih =>
    cases n with
    | zero => exact h
    | succ n =>
      rw [List.take_succ_cons, List.drop_succ_cons]
      refine ih (d := Directory.delete b.first d) ?_ n
      rw [Directory.keys_delete, h, List.map_cons, List.erase_cons_head]

theorem count_split (h : ks.Pairwise (· < ·)) (id : StreamId) : (∀ k ∈ ks.take (ks.countP fun k => decide (k < id)), k < id) ∧
    ∀ k ∈ ks.drop (ks.countP fun k => decide (k < id)), id ≤ k := by
  induction ks with
  | nil => simp
  | cons k ks ih =>
    rw [List.pairwise_cons] at h
    by_cases hk : k < id
    · obtain ⟨hlt, hle⟩ := ih h.2
      rw [List.countP_cons_of_pos (by simpa using hk), List.take_succ_cons, List.drop_succ_cons]
      exact ⟨List.forall_mem_cons.mpr ⟨hk, hlt⟩, hle⟩
    · have hall : ∀ x ∈ k :: ks, id ≤ x :=
        List.forall_mem_cons.mpr ⟨not_lt.mp hk, fun x hx => le_trans (not_lt.mp hk) (le_of_lt (h.1 x hx))⟩
      have hzero : (k :: ks).countP (fun k => decide (k < id)) = 0 :=
        List.countP_eq_zero.mpr fun x hx => by simpa using hall x hx
      rw [hzero]
      exact ⟨by simp, hall⟩

/-- The floor is the last key at or below the ID, or the first key when there is none. -/
theorem floorBlock_spec (hd : Directory.keys d = ks) (h : ks.Pairwise (· < ·)) (hne : ks ≠ []) (id : StreamId) :
    ∃ k, ks[floorBlock d id]? = some k ∧ (k ≤ id ∨ floorBlock d id = 0) ∧ ∀ x ∈ ks.drop (floorBlock d id + 1), id < x := by
  obtain ⟨hlt, hle⟩ := count_split h id
  unfold floorBlock
  simp only [Directory.rank_eq, hd, rank, StreamId.treeKey_lt]
  generalize hn : ks.countP (fun k => decide (k < id)) = n at hlt hle ⊢
  by_cases hid : id ∈ ks
  · -- the key itself stands right behind the smaller ones
    rw [decide_eq_true hid]
    have hmem : id ∈ ks.drop n := by
      rw [← List.take_append_drop n ks] at hid
      exact (List.mem_append.mp hid).resolve_left fun hm => lt_irrefl _ (hlt id hm)
    have hsort : (ks.drop n).Pairwise (· < ·) := h.sublist (List.drop_sublist n ks)
    cases hd : ks.drop n with
    | nil =>
      rw [hd] at hmem
      cases hmem
    | cons k rest =>
      rw [hd, List.pairwise_cons] at hsort
      rw [hd] at hmem hle
      have hk : k = id := by
        rcases List.mem_cons.mp hmem with heq | hin
        · exact heq.symm
        · exact absurd (hsort.1 id hin) (not_lt.mpr (hle k List.mem_cons_self))
      have hget : ks[n]? = some k := by rw [← List.head?_drop, hd, List.head?_cons]
      refine ⟨k, hget, .inl (le_of_eq hk), fun x hx => ?_⟩
      have hrest : ks.drop (n + 1) = rest := by rw [← List.tail_drop, hd, List.tail_cons]
      exact hk ▸ hsort.1 x (hrest ▸ hx)
  · rw [decide_eq_false hid]
    have hgt : ∀ x ∈ ks.drop n, id < x := fun x hx =>
      lt_of_le_of_ne (hle x hx) fun heq => hid (heq ▸ List.mem_of_mem_drop hx)
    cases n with
    | zero =>
      obtain ⟨k, rest, rfl⟩ := List.exists_cons_of_ne_nil hne
      exact ⟨k, rfl, .inr rfl, fun x hx => hgt x (List.mem_of_mem_drop hx)⟩
    | succ n =>
      have hlen : n < ks.length := by
        have := List.countP_le_length (p := fun k => decide (k < id)) (l := ks)
        omega
      refine ⟨ks.get ⟨n, hlen⟩, List.getElem?_eq_getElem hlen, .inl (le_of_lt (hlt _ ?_)), hgt⟩
      rw [List.mem_take_iff_getElem]
      exact ⟨n, by omega, rfl⟩

/-- The IDs rise through the blocks and every header tells the truth. -/
structure Rising (bs : List Block) : Prop where
  sorted : (bs.flatMap Block.ids).Pairwise (· < ·)
  spans : ∀ b ∈ bs, b.Spans

def Filled (bs : List Block) : Prop := ∀ b ∈ bs, b.frames ≠ []

theorem Rising.block (h : Rising bs) (hb : b ∈ bs) : b.ids.Pairwise (· < ·) := (List.pairwise_flatMap.mp h.sorted).1 b hb

theorem Rising.firsts (h : Rising bs) (hf : Filled bs) : (bs.map Block.first).Pairwise (· < ·) := by
  rw [List.pairwise_map]
  refine (List.pairwise_flatMap.mp h.sorted).2.imp_of_mem fun hb hc hlt => ?_
  exact hlt _ ((h.spans _ hb).first_mem (hf _ hb)) _ ((h.spans _ hc).first_mem (hf _ hc))

theorem Rising.of_sublist (h : Rising bs) (hsub : (bs'.flatMap Block.ids).Sublist (bs.flatMap Block.ids)) (hs : ∀ b ∈ bs', b.Spans) :
    Rising bs' :=
  ⟨h.sorted.sublist hsub, hs⟩

theorem flatMap_ids_sublist (h : bs'.Sublist bs) : (bs'.flatMap Block.ids).Sublist (bs.flatMap Block.ids) := by
  rw [List.flatMap_def, List.flatMap_def]
  exact (h.map Block.ids).flatten

theorem Rising.sublist (h : Rising bs) (hsub : bs'.Sublist bs) : Rising bs' :=
  h.of_sublist (flatMap_ids_sublist hsub) fun b hb => h.spans b (hsub.subset hb)

theorem forall_snoc {p : Block → Prop} (h : ∀ c ∈ bs, p c) (hb : p b) : ∀ c ∈ bs ++ [b], p c :=
  List.forall_mem_append.mpr ⟨h, List.forall_mem_singleton.mpr hb⟩

theorem Rising.append_entry {init : List Block} (h : Rising (init ++ [b])) (ha : b.Appended e b')
    (hid : ∀ x ∈ (init ++ [b]).flatMap Block.ids, x < e.id) : Rising (init ++ [b']) := by
  have hids : (init ++ [b']).flatMap Block.ids = (init ++ [b]).flatMap Block.ids ++ [e.id] := by
    simp [ha.ids]
  constructor
  · rw [hids, List.pairwise_append]
    exact ⟨h.sorted, List.pairwise_singleton _ _, fun x hx y hy => by rw [List.mem_singleton.mp hy]; exact hid x hx⟩
  · exact forall_snoc (fun c hc => h.spans c (List.mem_append_left _ hc)) (ha.spans (h.spans b (by simp)))

theorem Rising.snoc_new (h : Rising bs) : Rising (bs ++ [newBlock]) :=
  ⟨by simpa [Block.ids, newBlock] using h.sorted, forall_snoc h.spans Block.newBlock_spans⟩

theorem appendMaster_appended (e : StreamEntry) : newBlock.Appended e (newBlock.appendMaster e) :=
  Block.appendEntry_appended (Block.appendEntry_empty rfl)

theorem Rising.open_block (h : Rising bs) (hid : ∀ x ∈ bs.flatMap Block.ids, x < e.id) : Rising (bs ++ [newBlock.appendMaster e]) := by
  refine h.snoc_new.append_entry (appendMaster_appended e) fun x hx => hid x ?_
  simpa [Block.ids, newBlock] using hx

theorem same_ids (h : List.Forall₂ Block.SameIds bs bs') : bs'.flatMap Block.ids = bs.flatMap Block.ids ∧
    bs'.map Block.first = bs.map Block.first ∧ ((∀ b ∈ bs, b.Spans) → ∀ b ∈ bs', b.Spans) ∧ (Filled bs → Filled bs') := by
  induction h with
  | nil => exact ⟨rfl, rfl, id, id⟩
  | cons hb _ ih =>
    obtain ⟨hids, hfirst, hspans, hfilled⟩ := ih
    refine ⟨by simp [hids, hb.ids], by simp [hfirst, hb.first], fun hs => ?_, fun hf => ?_⟩
    · rw [List.forall_mem_cons] at hs ⊢
      exact ⟨hb.spans hs.1, hspans hs.2⟩
    · rw [Filled, List.forall_mem_cons] at hf ⊢
      exact ⟨hb.frames_ne_nil hf.1, hfilled hf.2⟩

theorem same_trans {c : Block} (h : b.SameIds b') (h' : b'.SameIds c) : b.SameIds c :=
  ⟨h'.ids.trans h.ids, h'.first.trans h.first, h'.last.trans h.last⟩

theorem same_refl (bs : List Block) : List.Forall₂ Block.SameIds bs bs := List.forall₂_same.mpr fun b _ => Block.SameIds.refl b

theorem same_set {i : Nat} (hi : bs[i]? = some b) (h : b.SameIds b') : List.Forall₂ Block.SameIds bs (bs.set i b') := by
  induction bs generalizing i with
  | nil => cases hi
  | cons c bs ih =>
    cases i with
    | zero =>
      obtain rfl : c = b := Option.some.inj hi
      exact .cons h (same_refl bs)
    | succ i => exact .cons (Block.SameIds.refl c) (ih hi)

/-- The blocks rise, the inline band has at most one of them, and the directory of the native band holds the first ID of each. -/
structure Ordered (s : Stream δ) : Prop where
  rising : Rising s.blocks
  inline : s.kind = .inline → s.dir = none ∧ s.blocks.length ≤ 1
  native : s.kind = .native → Filled s.blocks ∧ s.dir.map Directory.keys = some (s.blocks.map Block.first)

theorem Ordered.of_native (hk : s.kind = .native) (hr : Rising s.blocks) (hf : Filled s.blocks)
    (hd : s.dir.map Directory.keys = some (s.blocks.map Block.first)) : s.Ordered :=
  ⟨hr, (fun h => by rw [hk] at h; cases h), fun _ => ⟨hf, hd⟩⟩

theorem Ordered.of_inline (hk : s.kind = .inline) (hr : Rising s.blocks) (hd : s.dir = none) (hl : s.blocks.length ≤ 1) : s.Ordered :=
  ⟨hr, fun _ => ⟨hd, hl⟩, (fun h => by rw [hk] at h; cases h)⟩

theorem native_of_not_inline (h : s.kind ≠ .inline) : s.kind = .native := by
  cases hk : s.kind with
  | inline => exact absurd hk h
  | native => rfl

theorem newStream_ordered : (newStream : Stream δ).Ordered :=
  .of_inline rfl ⟨List.Pairwise.nil, (fun _ h => nomatch h)⟩ rfl (Nat.zero_le 1)

theorem Ordered.same (h : s.Ordered) (hk : s'.kind = s.kind) (hd : s'.dir = s.dir)
    (hb : List.Forall₂ Block.SameIds s.blocks s'.blocks) : s'.Ordered := by
  obtain ⟨hids, hfirst, hspans, hfilled⟩ := same_ids hb
  refine ⟨⟨by rw [hids]; exact h.rising.sorted, hspans h.rising.spans⟩, fun hi => ?_, fun hn => ?_⟩
  · obtain ⟨hnone, hlen⟩ := h.inline (hk ▸ hi)
    exact ⟨hd.trans hnone, hb.length_eq ▸ hlen⟩
  · obtain ⟨hf, hdir⟩ := h.native (hk ▸ hn)
    exact ⟨hfilled hf, by rw [hd, hdir, hfirst]⟩

theorem last_split (hne : bs ≠ []) : ∃ b, bs.getLast? = some b ∧ bs = bs.dropLast ++ [b] :=
  ⟨bs.getLast hne, List.getLast?_eq_some_getLast hne, (List.dropLast_append_getLast hne).symm⟩

theorem Ordered.openBlock (h : s.Ordered) (hk : s.kind = .native) (hid : ∀ x ∈ s.ids, x < e.id) : (s.openBlock e).Ordered := by
  obtain ⟨hf, hd⟩ := h.native hk
  refine .of_native hk (h.rising.open_block hid) (forall_snoc hf (List.cons_ne_nil _ _)) ?_
  · have habove : ∀ k ∈ s.blocks.map Block.first, k < e.id := by
      intro k hk
      obtain ⟨c, hc, rfl⟩ := List.mem_map.mp hk
      exact hid _ (List.mem_flatMap.mpr ⟨c, hc, (h.rising.spans c hc).first_mem (hf c hc)⟩)
    obtain ⟨d, hdir, hkeys⟩ := Option.map_eq_some_iff.mp hd
    rw [Stream.openBlock, hdir, Option.map_some, Option.map_some, Directory.keys_insert, hkeys, fileKey_above habove]
    simp [Block.appendMaster]

theorem Ordered.appendNative (h : s.Ordered) (hk : s.kind = .native) (hid : ∀ x ∈ s.ids, x < e.id) : (s.appendNative e).Ordered := by
  unfold Stream.appendNative
  split
  · exact h.openBlock hk hid
  next b hlast =>
    split
    next b' ha =>
      have happ := Block.appendEntry_appended ha
      obtain ⟨hf, hd⟩ := h.native hk
      have hne : s.blocks ≠ [] := fun hn => by rw [hn] at hlast; cases hlast
      obtain ⟨c, hc, hsplit⟩ := last_split hne
      obtain rfl : b = c := Option.some.inj (hlast.symm.trans hc)
      have hbne : b.frames ≠ [] := hf b (by rw [hsplit]; simp)
      refine .of_native hk ?_ ?_ ?_
      · refine Rising.append_entry (hsplit ▸ h.rising) happ fun x hx => hid x ?_
        rw [Stream.ids, hsplit]
        exact hx
      · exact forall_snoc (fun c hc => hf c (List.dropLast_subset _ hc)) (by simp [happ.frames])
      · show s.dir.map Directory.keys = some ((s.blocks.dropLast ++ [b']).map Block.first)
        conv_lhs => rw [hd, hsplit]
        simp [happ.first, hbne]
    next => exact h.openBlock hk hid

/-- When the append changes the band, there is no empty block to file. -/
def Upgradable (s : Stream δ) (e : StreamEntry) : Prop :=
  s.kind = .inline → overflows (s.withTail.blocks.getLastD newBlock) e = true → Filled s.withTail.blocks

theorem Ordered.withTail (h : s.Ordered) (hk : s.kind = .inline) : s.withTail.Ordered ∧ s.withTail.ids = s.ids ∧
    s.withTail.kind = .inline ∧ ∃ b, s.withTail.blocks = [b] := by
  unfold Stream.withTail
  obtain ⟨hd, hl⟩ := h.inline hk
  split
  next hnil =>
    have hr : Rising ([] ++ [newBlock]) := Rising.snoc_new ⟨List.Pairwise.nil, List.forall_mem_nil _⟩
    exact ⟨.of_inline hk hr hd (Nat.le_refl 1), by simp [Stream.ids, hnil, Block.ids, newBlock], hk, newBlock, rfl⟩
  next hne =>
    obtain ⟨b, rest, hb⟩ := List.exists_cons_of_ne_nil hne
    obtain rfl : rest = [] := by
      rw [hb, List.length_cons] at hl
      exact List.length_eq_zero_iff.mp (by omega)
    exact ⟨h, rfl, hk, b, hb⟩

theorem Ordered.upgrade (h : s.Ordered) (hf : Filled s.blocks) : s.upgrade.Ordered :=
  .of_native rfl h.rising hf (congrArg some (keys_buildDir (h.rising.firsts hf)))

theorem Ordered.appendInline (h : s.Ordered) (hk : s.kind = .inline) (hid : ∀ x ∈ s.ids, x < e.id) (hup : s.Upgradable e) :
    (s.appendInline e).Ordered := by
  obtain ⟨htail, hids, hkind, b, hb⟩ := h.withTail hk
  unfold Stream.appendInline
  dsimp only
  split
  next hover => exact (htail.upgrade (hup hk hover)).appendNative rfl (fun x hx => hid x (hids ▸ hx))
  next =>
    rw [hb]
    refine .of_inline hkind ?_ (htail.inline hkind).1 (Nat.le_refl 1)
    have hr : Rising ([] ++ [b]) := hb ▸ htail.rising
    show Rising ([] ++ [(b.appendEntry e).getD b])
    cases ha : b.appendEntry e with
    | none => exact hr
    | some b' =>
      refine hr.append_entry (Block.appendEntry_appended ha) fun x hx => hid x ?_
      rw [← hids, Stream.ids, hb]
      exact hx

theorem Ordered.appendEntry (h : s.Ordered) (hid : ∀ x ∈ s.ids, x < e.id) (hup : s.Upgradable e) : (s.appendEntry e).Ordered := by
  unfold Stream.appendEntry
  dsimp only
  split
  next hk => exact (h.appendInline hk hid hup).same rfl rfl (same_refl _)
  next hk => exact (h.appendNative (native_of_not_inline hk) hid).same rfl rfl (same_refl _)

theorem Ordered.delete {r : Bool} (h : s.Ordered) (hd : s.delete id = some (s', r)) : s'.Ordered := by
  unfold Stream.delete at hd
  split at hd
  · cases hd
    exact h
  · split at hd
    · cases hd
    next b hb =>
      split at hd
      · split at hd
        next b' ht =>
          cases hd
          exact h.same rfl rfl (same_set hb (same_trans b.resident_same (Block.tombstone_same ht)))
        next =>
          cases hd
          exact h.same rfl rfl (same_set hb b.resident_same)
      · cases hd
        exact h

theorem dropFront_fields (s : Stream δ) (n live : Nat) : (s.dropFront n live).kind = s.kind ∧ (s.dropFront n live).blocks = s.blocks.drop n ∧
    (s.dropFront n live).dir = s.dir.map fun d => unfile d (s.blocks.take n) :=
  ⟨rfl, rfl, rfl⟩

theorem Ordered.dropFront (h : s.Ordered) (hk : s.kind = .native) (n live : Nat) : (s.dropFront n live).Ordered := by
  obtain ⟨hf, hd⟩ := h.native hk
  obtain ⟨hkind, hblocks, hdir⟩ := s.dropFront_fields n live
  refine .of_native (hkind.trans hk) ?_ ?_ ?_
  · rw [hblocks]
    exact h.rising.sublist (List.drop_sublist n _)
  · rw [hblocks]
    exact fun c hc => hf c (List.mem_of_mem_drop hc)
  · obtain ⟨d, hsome, hkeys⟩ := Option.map_eq_some_iff.mp hd
    rw [hdir, hblocks, hsome, Option.map_some, Option.map_some, keys_unfile hkeys]

theorem trimBoundary_same (sp : TrimSpec) (length : Nat) (b : Block) : b.SameIds (trimBoundary sp length b).1 := by
  unfold trimBoundary
  split
  all_goals
    split
    · exact same_trans b.resident_same (Block.tombstoneWhile_same _ _ _)
    · exact Block.SameIds.refl b

theorem Ordered.trimNative {sp : TrimSpec} {n : Nat} (h : s.Ordered) (hk : s.kind = .native) (ht : s.trimNative sp = some (s', n)) :
    s'.Ordered := by
  unfold Stream.trimNative at ht
  dsimp only at ht
  generalize hr : dropScan sp s.length s.blocks.dropLast 0 = r at ht
  have hfront : (if r.1 = 0 then s else s.dropFront r.1 r.2).Ordered := by
    split
    · exact h
    · exact h.dropFront hk _ _
  split at ht
  · cases ht
    exact hfront
  · split at ht
    · cases ht
    next b bs hb =>
      cases ht
      refine hfront.same rfl rfl ?_
      rw [hb]
      exact .cons (trimBoundary_same _ _ b) (same_refl bs)

theorem Ordered.trimInline {sp : TrimSpec} {n : Nat} (h : s.Ordered) (hk : s.kind = .inline) (ht : s.trimInline sp = some (s', n)) :
    s'.Ordered := by
  obtain ⟨hd, hl⟩ := h.inline hk
  unfold Stream.trimInline at ht
  split at ht
  · cases ht
    exact h
  next b bs hb =>
    dsimp only at ht
    generalize inlineDrop sp b.entries = drop at ht
    split at ht
    · cases ht
      exact h
    · split at ht
      · cases ht
      · cases ht
        refine .of_inline hk (h.rising.of_sublist ?_ ?_) hd (by rw [hb] at hl; exact hl)
        · rw [hb, List.flatMap_cons, List.flatMap_cons]
          refine List.Sublist.append ?_ (List.Sublist.refl _)
          exact (Block.pack_ids_sublist _).trans (((List.drop_sublist _ _).map _).trans (Block.entries_ids_sublist b))
        · refine List.forall_mem_cons.mpr ⟨(Block.pack_spec _).1, fun c hc => h.rising.spans c ?_⟩
          rw [hb]
          exact List.mem_cons_of_mem b hc

theorem Ordered.trim {sp : TrimSpec} {n : Nat} (h : s.Ordered) (ht : s.trim sp = some (s', n)) : s'.Ordered := by
  unfold Stream.trim at ht
  split at ht
  next hk => exact h.trimInline hk ht
  next hk => exact h.trimNative (native_of_not_inline hk) ht

/-- A sealed block once the pass has been over it. -/
def collected (b : Block) : Block := if ripe b then b.rewriteBlock else b

/-- No rewritten block starts at a later ID than before. -/
def KeepsFirsts (s : Stream δ) : Prop := ∀ b ∈ s.blocks.dropLast, ripe b = true → b.rewriteBlock.first = b.first

theorem gcScan_eq (d : δ) (h : ∀ b ∈ bs, ripe b = true → b.rewriteBlock.first = b.first) :
    gcScan bs d = (bs.map collected, d) := by
  induction bs with
  | nil => rfl
  | cons b bs ih =>
    rw [List.forall_mem_cons] at h
    rw [gcScan]
    split
    next hr =>
      dsimp only
      rw [if_pos (h.1 hr), ih h.2]
      simp [collected, hr]
    next hr =>
      dsimp only
      rw [ih h.2]
      simp [collected, hr]

theorem ripe_entries (h : ripe b = true) : b.entries ≠ [] := by
  simp only [ripe, Bool.and_eq_true, decide_eq_true_eq, Block.live_eq] at h
  exact fun hnil => h.1.2 (by rw [hnil]; rfl)

theorem collected_spec (hs : b.Spans) (hne : b.frames ≠ []) :
    (collected b).Spans ∧ (collected b).frames ≠ [] ∧ (collected b).ids.Sublist b.ids := by
  unfold collected
  split
  next hr =>
    have hspec := Block.pack_spec b.entries
    obtain ⟨x, xs, hx⟩ := List.exists_cons_of_ne_nil (ripe_entries hr)
    refine ⟨hspec.1, (hspec.2.2.2.2 x (by rw [hx]; rfl)).2, ?_⟩
    exact (Block.pack_ids_sublist _).trans (Block.entries_ids_sublist b)
  next => exact ⟨hs, hne, List.Sublist.refl _⟩

theorem collected_sublist (h : ∀ b ∈ bs, b.Spans ∧ b.frames ≠ []) :
    (bs.flatMap fun b => (collected b).ids).Sublist (bs.flatMap Block.ids) := by
  induction bs with
  | nil => exact List.Sublist.refl _
  | cons b bs ih =>
    rw [List.forall_mem_cons] at h
    rw [List.flatMap_cons, List.flatMap_cons]
    exact (collected_spec h.1.1 h.1.2).2.2.append (ih h.2)

theorem Ordered.gc (h : s.Ordered) (hkeep : s.KeepsFirsts) : s.gc.Ordered := by
  unfold Stream.gc
  split
  next d hk hd =>
    split
    next hlen =>
      obtain ⟨hf, hdir⟩ := h.native hk
      rw [hd, Option.map_some, Option.some.injEq] at hdir
      obtain ⟨b, hlast, hsplit⟩ := last_split (List.ne_nil_of_length_pos (by omega) : s.blocks ≠ [])
      dsimp only
      rw [gcScan_eq _ hkeep, hlast]
      have hsealed : ∀ c ∈ s.blocks.dropLast, c.Spans ∧ c.frames ≠ [] := fun c hc =>
        ⟨h.rising.spans c (List.dropLast_subset _ hc), hf c (List.dropLast_subset _ hc)⟩
      have hb : b ∈ s.blocks := by rw [hsplit]; simp
      have hsub : ((s.blocks.dropLast.map collected ++ [b]).flatMap Block.ids).Sublist (s.blocks.flatMap Block.ids) := by
        conv_rhs => rw [hsplit]
        rw [List.flatMap_append, List.flatMap_append, List.flatMap_map]
        refine List.Sublist.append ?_ (List.Sublist.refl _)
        exact collected_sublist hsealed
      have hall : ∀ c ∈ s.blocks.dropLast.map collected ++ [b], c.Spans ∧ c.frames ≠ [] := by
        refine forall_snoc (List.forall_mem_map.mpr fun x hx => ?_) ⟨h.rising.spans b hb, hf b hb⟩
        have := collected_spec (hsealed x hx).1 (hsealed x hx).2
        exact ⟨this.1, this.2.1⟩
      have hr : Rising (s.blocks.dropLast.map collected ++ [b]) := h.rising.of_sublist hsub fun c hc => (hall c hc).1
      split
      next =>
        have hkept : ((s.blocks.dropLast.map collected).filter (fun b => !dead b) ++ [b]).Sublist (s.blocks.dropLast.map collected ++ [b]) :=
          List.Sublist.append List.filter_sublist (List.Sublist.refl _)
        have hr' := hr.sublist hkept
        have hf' : Filled ((s.blocks.dropLast.map collected).filter (fun b => !dead b) ++ [b]) := fun c hc => (hall c (hkept.subset hc)).2
        exact .of_native hk hr' hf' (congrArg some (keys_buildDir (hr'.firsts hf')))
      next =>
        refine .of_native hk hr (fun c hc => (hall c hc).2) (congrArg some ?_)
        rw [hdir]
        conv_lhs => rw [hsplit]
        rw [List.map_append, Option.toList_some, List.map_append, List.map_map]
        refine congrArg (· ++ [b.first]) (List.map_congr_left fun c hc => ?_)
        show c.first = (collected c).first
        unfold collected
        split
        next hripe => exact (hkeep c hc hripe).symm
        next => rfl
    next => exact h
  next => exact h

theorem shedRun_same : ∀ (n : Nat) (bs : List Block), List.Forall₂ Block.SameIds bs (shedRun n bs)
  | 0, bs => by
    rw [shedRun]
    exact same_refl bs
  | _ + 1, [] => .nil
  | n + 1, b :: bs => by
    rw [shedRun]
    split
    · exact .cons (Block.SameIds.refl b) (shedRun_same (n + 1) bs)
    · exact .cons b.shed_same (shedRun_same n bs)

theorem Ordered.demote (h : s.Ordered) (accepted : Bool) : (s.demote accepted).Ordered := by
  unfold Stream.demote
  dsimp only
  split
  · refine h.same rfl rfl ?_
    generalize s.blocks.length - demoteTailMargin = limit
    conv_lhs => rw [← List.take_append_drop limit s.blocks]
    exact List.rel_append (shedRun_same _ _) (same_refl _)
  · exact h

theorem Ordered.promote (h : s.Ordered) (i : Nat) : (s.promote i).Ordered := by
  refine h.same rfl rfl ?_
  show List.Forall₂ Block.SameIds s.blocks (s.blocks.modify i Block.resident)
  cases hi : s.blocks[i]? with
  | none =>
    rw [List.modify_eq_self (List.getElem?_eq_none_iff.mp hi)]
    exact same_refl _
  | some b =>
    rw [List.modify_eq_set_getElem?, hi]
    exact same_set hi b.resident_same

end Stream

variable {δ : Type} [Directory δ]

inductive StreamOp
  | add (want : Stream.Alloc) (fields : List (Bytes × Bytes))
  | delete (id : StreamId)
  | setID (id : StreamId)
  | trim (sp : Stream.TrimSpec)
  | gc
  | demote (accepted : Bool)
  | promote (i : Nat)
  | ensureNative

namespace StreamOp

/-- One call. A refused append changes nothing; `none` is a panic. An append with a trim is the two calls in a row. -/
def run (s : Stream δ) : StreamOp → Option (Stream δ)
  | add want fields =>
    match s.allocID want with
    | none => some s
    | some id => some (s.appendEntry ⟨id, fields⟩)
  | delete id => (s.delete id).map Prod.fst
  | setID id => some (s.setID id)
  | trim sp => (s.trim sp).map Prod.fst
  | gc => some s.gc
  | demote accepted => some (s.demote accepted)
  | promote i => some (s.promote i)
  | ensureNative => some s.ensureNative

/-- The calls under which the log stays in order: an appended ID is above every stored one, no empty block is filed when the band
changes (a first entry of more than 512 bytes files the still empty block at 0-0 and never again, so reads seek past it), the
32-bit references tell the blocks apart, and a pass moves no first ID: the tree's separators are read through it, so one that moves
may stand out of order, though not every one does. -/
def Fits (s : Stream δ) : StreamOp → Prop
  | add want fields => ∀ id, s.allocID want = some id →
      (∀ x ∈ s.ids, x < id) ∧ s.Upgradable ⟨id, fields⟩ ∧ s.blocks.length + 2 < 2 ^ 32
  | gc => s.KeepsFirsts
  | ensureNative => s.kind = .inline → Stream.Filled s.blocks
  | _ => True

end StreamOp

/-- The streams reached from a new one by calls that meet a condition. -/
inductive StreamReach (cond : Stream δ → StreamOp → Prop) : Stream δ → Prop
  | start : StreamReach cond newStream
  | step {s s' : Stream δ} (op : StreamOp) : StreamReach cond s → cond s op → op.run s = some s' → StreamReach cond s'

theorem StreamReach.calls {cond : Stream δ → StreamOp → Prop} (ok : Stream δ → StreamOp → Bool) (hok : ∀ s op, ok s op = true → cond s op) :
    ∀ (ops : List StreamOp) {s s' : Stream δ}, StreamReach cond s → ops.foldlM (fun s op => if ok s op then op.run s else none) s = some s' →
      StreamReach cond s'
  | [], _, _, h, hs => Option.some.inj hs ▸ h
  | op :: ops, s, _, h, hs => by
    obtain ⟨s₁, h₁, hs⟩ := Option.bind_eq_some_iff.mp hs
    obtain ⟨hc, h₁⟩ := Option.ite_none_right_eq_some.mp h₁
    exact StreamReach.calls ok hok ops (h.step op (hok s op hc) h₁) hs

theorem StreamOp.run_ordered {s s' : Stream δ} {op : StreamOp} (h : s.Ordered) (hc : op.Fits s) (hr : op.run s = some s') : s'.Ordered := by
  cases op with
  | add want fields =>
    rw [run] at hr
    split at hr
    · cases hr
      exact h
    next id hid =>
      cases hr
      obtain ⟨habove, hup, -⟩ := hc id hid
      exact h.appendEntry habove hup
  | delete id =>
    obtain ⟨⟨t, r⟩, hd, rfl⟩ := Option.map_eq_some_iff.mp hr
    exact h.delete hd
  | setID id =>
    cases hr
    unfold Stream.setID
    split
    · exact h
    · exact h.same rfl rfl (Stream.same_refl _)
  | trim sp =>
    obtain ⟨⟨t, r⟩, ht, rfl⟩ := Option.map_eq_some_iff.mp hr
    exact h.trim ht
  | gc =>
    cases hr
    exact h.gc hc
  | demote accepted =>
    cases hr
    exact h.demote accepted
  | promote i =>
    cases hr
    exact h.promote i
  | ensureNative =>
    cases hr
    unfold Stream.ensureNative
    split
    next hk => exact h.upgrade (hc hk)
    next => exact h

theorem StreamReach.ordered {s : Stream δ} (h : StreamReach StreamOp.Fits s) : s.Ordered := by
  induction h with
  | start => exact Stream.newStream_ordered
  | step op _ hc hr ih => exact StreamOp.run_ordered ih hc hr

end Aki
