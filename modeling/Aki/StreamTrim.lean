import Mathlib.Data.List.TakeWhile
import Aki.StreamRange

namespace Aki

open BoundedScan

theorem sub64_eq {a b : Nat} (hb : b ≤ a) (ha : a < 2 ^ 64) : sub64 a b = a - b := by
  unfold sub64
  generalize hp : (2 : Nat) ^ 64 = p at ha ⊢
  have hbp : b % p = b := Nat.mod_eq_of_lt (by omega)
  rw [hbp, show a + p - b = (a - b) + p by omega, Nat.add_mod_right, Nat.mod_eq_of_lt (by omega)]

namespace Stream

variable {δ : Type} [Directory δ] {s s' : Stream δ} {e : StreamEntry} {id : StreamId} {b : Block} {bs : List Block} {es : List StreamEntry} {sp : TrimSpec}

/-- The entries a trim to the threshold is to leave. -/
def kept (es : List StreamEntry) : TrimBy → List StreamEntry
  | .maxlen n => es.drop (es.length - n)
  | .minid id => es.filter fun e => decide (id ≤ e.id)

/-- The first `k` entries are gone: no more than an exact trim would take, and no more than the limit. -/
structure Trims (sp : TrimSpec) (es es' : List StreamEntry) (k : Nat) : Prop where
  entries : es' = es.drop k
  within : k + (kept es sp.threshold).length ≤ es.length
  exact : sp.approx = false → es' = kept es sp.threshold
  limit : ∀ l ∈ sp.limit, (k : Int) ≤ l

/-- A trim that does not fail takes entries out, counts them and leaves the last ID. -/
def TrimsTo (s : Stream δ) (sp : TrimSpec) (r : Option (Stream δ × Nat)) : Prop :=
  ∃ s' k, r = some (s', k) ∧ Trims sp s.entries s'.entries k ∧ s'.length = s.length - k ∧ s'.lastID = s.lastID

/-- How many of the first entries are in excess of a threshold, for a log of this length. -/
def excessIn (length : Nat) (es : List StreamEntry) : TrimBy → Nat
  | .maxlen n => length - n
  | .minid id => (es.takeWhile fun e => decide (e.id < id)).length

def excess (es : List StreamEntry) (th : TrimBy) : Nat := excessIn es.length es th

def IdsRise (es : List StreamEntry) : Prop := (es.map StreamEntry.id).Pairwise (· < ·)

theorem dropWhile_below (h : IdsRise es) (id : StreamId) :
    (es.dropWhile fun e => decide (e.id < id)) = es.filter fun e => decide (id ≤ e.id) := by
  rw [dropWhile_eq_filter ((List.pairwise_map.mp h).imp fun {a b} hlt hb => ?_)]
  · exact List.filter_congr fun e _ => by rw [Bool.eq_iff_iff]; simp
  · rw [decide_eq_true_eq] at hb ⊢
    exact lt_trans hlt hb

theorem kept_eq (h : IdsRise es) (th : TrimBy) : kept es th = es.drop (excess es th) ∧ excess es th ≤ es.length := by
  cases th with
  | maxlen n => exact ⟨rfl, Nat.sub_le ..⟩
  | minid id => exact ⟨by rw [kept, excess, excessIn, drop_takeWhile, dropWhile_below h], (List.takeWhile_sublist _).length_le⟩

theorem Trims.of_excess {k : Nat} (h : IdsRise es) (hk : k ≤ excess es sp.threshold) (hexact : sp.approx = false → k = excess es sp.threshold)
    (hlimit : ∀ l ∈ sp.limit, (k : Int) ≤ l) : Trims sp es (es.drop k) k := by
  obtain ⟨hkept, hle⟩ := kept_eq h sp.threshold
  refine ⟨rfl, ?_, fun ha => by rw [hkept, ← hexact ha], hlimit⟩
  rw [hkept, List.length_drop]
  omega

/-- Spelled out against the first of them, the entries fit one block. -/
def Packs (es : List StreamEntry) : Prop := es.length ≤ 1 ∨ Block.packedLen es ≤ blockBudget

theorem Packs.entries (h : Packs es) (hcap : es.length ≤ blockCap) : (Block.pack es).entries = es := by
  cases es with
  | nil => rfl
  | cons e es =>
    refine (Block.pack_lands e es hcap).1.mpr (h.imp_left fun hone => ?_)
    rw [List.length_cons] at hone
    exact List.length_eq_zero_iff.mp (by omega)

theorem entries_le_cap (hs : b.Spans) : b.entries.length ≤ blockCap := by
  have hcap := hs.cap
  rw [Block.ids, List.length_map] at hcap
  rw [Block.entries, List.length_map]
  exact Nat.le_trans (List.length_filter_le _ _) hcap

/-- The call is one the code can carry out: no negative limit nor one without the approximate mode, survivors that fit the inline
block built for them, and a block to index in the native band's exact mode. -/
def Trimmable (s : Stream δ) (sp : TrimSpec) : Prop :=
  (∀ l ∈ sp.limit, 0 ≤ l) ∧ (sp.approx = false → sp.limit = none) ∧
    (s.kind = .inline → ∀ b ∈ s.blocks, Packs (b.entries.drop (inlineDrop sp b.entries).toNat)) ∧ (s.kind = .native → sp.approx = false → s.blocks ≠ [])

theorem inlineDrop_eq (hl : ∀ l ∈ sp.limit, 0 ≤ l) (es : List StreamEntry) : 0 ≤ inlineDrop sp es ∧
    (inlineDrop sp es).toNat ≤ excess es sp.threshold ∧ (sp.limit = none → (inlineDrop sp es).toNat = excess es sp.threshold) ∧
    ∀ l ∈ sp.limit, ((inlineDrop sp es).toNat : Int) ≤ l := by
  have hdrop : inlineDrop sp es = sp.limit.elim (excess es sp.threshold : Int) fun limit =>
      if limit < excess es sp.threshold then limit else excess es sp.threshold := by
    unfold inlineDrop excess excessIn
    cases sp.threshold <;> cases sp.limit <;> rfl
  rw [hdrop]
  cases hsp : sp.limit with
  | none => exact ⟨by simp, by simp, by simp, by simp⟩
  | some l =>
    have hpos := hl l hsp
    rw [Option.elim_some]
    have hall : ∀ k : Nat, (k : Int) ≤ l → ∀ l' ∈ some l, (k : Int) ≤ l' := fun k hk l' hl' => Option.some.inj hl' ▸ hk
    split
    · exact ⟨hpos, by omega, by simp, hall _ (by omega)⟩
    · exact ⟨by omega, by omega, by simp, hall _ (by omega)⟩

/-- The blocks rise and the counter counts the live entries. -/
structure Counted (s : Stream δ) : Prop extends s.Ordered where
  count : s.length = s.entries.length
  small : s.length < 2 ^ 63

theorem Counted.trimInline (h : s.Counted) (hk : s.kind = .inline) (ht : s.Trimmable sp) : s.TrimsTo sp (s.trimInline sp) := by
  obtain ⟨hl, hexact, hpack, -⟩ := ht
  have hsorted := h.toOrdered.entries_sorted
  unfold Stream.trimInline
  split
  next hnil =>
    have hes : s.entries = [] := by simp [entries, hnil]
    refine ⟨s, 0, rfl, ?_, rfl, rfl⟩
    show Trims sp s.entries (s.entries.drop 0) 0
    refine Trims.of_excess hsorted (Nat.zero_le _) (fun _ => ?_) fun l hl' => by simpa using hl l hl'
    rw [hes]
    cases sp.threshold <;> simp [excess, excessIn]
  next b bs hb =>
    obtain rfl : bs = [] := by
      have := (h.inline hk).2
      rw [hb, List.length_cons] at this
      exact List.length_eq_zero_iff.mp (by omega)
    have hes : s.entries = b.entries := by simp [entries, hb]
    obtain ⟨hnn, hle, heq, hlim⟩ := inlineDrop_eq hl b.entries
    have hmem : b ∈ s.blocks := by simp [hb]
    have hp := (hpack hk b hmem).entries
      (Nat.le_trans (List.drop_sublist ..).length_le (entries_le_cap (h.rising.spans b hmem)))
    have htrims : Trims sp b.entries (b.entries.drop (inlineDrop sp b.entries).toNat) (inlineDrop sp b.entries).toNat :=
      .of_excess (hes ▸ hsorted) hle (fun ha => heq (hexact ha)) hlim
    have hcap : (inlineDrop sp b.entries).toNat ≤ s.length := by
      rw [h.count, hes]
      have := htrims.within
      omega
    dsimp only
    rw [TrimsTo, hes]
    generalize inlineDrop sp b.entries = drop at hnn hp htrims hcap ⊢
    split
    next hz =>
      rw [hz] at htrims
      exact ⟨s, 0, rfl, by simpa [hes] using htrims, rfl, rfl⟩
    next =>
      rw [if_neg (by omega)]
      refine ⟨_, _, rfl, ?_, sub64_eq hcap (Nat.lt_trans h.small (by decide)), rfl⟩
      simpa [entries, hp] using htrims

/-- Whether a block may go whole, in numbers. -/
def Droppable (th : TrimBy) (length dropped : Nat) (b : Block) : Prop :=
  match th with
  | .maxlen n => n + (dropped + b.entries.length) ≤ length
  | .minid id => b.last < id

theorem droppable_iff {length dropped : Nat} (hfit : dropped + b.entries.length ≤ length) (hlen : length < 2 ^ 64) :
    sp.droppable length dropped b = true ↔ Droppable sp.threshold length dropped b := by
  unfold TrimSpec.droppable Droppable
  cases sp.threshold with
  | maxlen n =>
    rw [Block.live_eq, sub64_eq (by omega) hlen, sub64_eq (by omega) (by omega)]
    simp only [decide_eq_true_eq]
    omega
  | minid id => simp

/-- The scan takes a run of front blocks, each of them droppable; without a limit it ends at the first one that is not. -/
theorem dropScan_spec {length : Nat} (hlen : length < 2 ^ 64) : ∀ {bs : List Block} {dropped : Nat},
    dropped + (bs.flatMap Block.entries).length ≤ length →
    ∃ m, m ≤ bs.length ∧ dropScan sp length bs dropped = (m, dropped + ((bs.take m).flatMap Block.entries).length) ∧
      (0 < m → ∀ n, sp.threshold = .maxlen n → n + (dropped + ((bs.take m).flatMap Block.entries).length) ≤ length) ∧
      (∀ id, sp.threshold = .minid id → ∀ b ∈ bs.take m, b.last < id) ∧
      (∀ l ∈ sp.limit, 0 < m → ((dropped + ((bs.take m).flatMap Block.entries).length : Nat) : Int) ≤ l) ∧
      (sp.limit = none → ∀ b, bs[m]? = some b →
        ¬Droppable sp.threshold length (dropped + ((bs.take m).flatMap Block.entries).length) b) := by
  intro bs
  induction bs with
  | nil => exact fun _ => ⟨0, Nat.le_refl 0, rfl, by simp, by simp, by simp, by simp⟩
  | cons b bs ih =>
    intro dropped hfit
    rw [List.flatMap_cons, List.length_append] at hfit
    have hd : sp.droppable length dropped b = true ↔ Droppable sp.threshold length dropped b := droppable_iff (by omega) hlen
    rw [dropScan, Block.live_eq]
    by_cases hgo : (!sp.over (dropped + b.entries.length) && sp.droppable length dropped b) = true
    · rw [if_pos hgo]
      rw [Bool.and_eq_true, hd, Bool.not_eq_true'] at hgo
      obtain ⟨m, hm, heq, hmax, hmin, hlim, hend⟩ := @ih (dropped + b.entries.length) (by omega)
      have hsum : dropped + (((b :: bs).take (m + 1)).flatMap Block.entries).length =
          dropped + b.entries.length + ((bs.take m).flatMap Block.entries).length := by
        rw [List.take_succ_cons, List.flatMap_cons, List.length_append]
        omega
      refine ⟨m + 1, Nat.succ_le_succ hm, ?_, ?_, ?_, ?_, ?_⟩
      · dsimp only
        rw [heq, hsum]
      · intro _ n hn
        rw [hsum]
        cases m with
        | zero =>
          have hdrop := hgo.2
          rw [hn] at hdrop
          simpa [Droppable] using hdrop
        | succ m => exact hmax (Nat.succ_pos m) n hn
      · intro id hid c hc
        rcases List.mem_cons.mp (List.take_succ_cons ▸ hc) with rfl | hc
        · have hdrop := hgo.2
          rwa [hid] at hdrop
        · exact hmin id hid c hc
      · intro l hl _
        rw [hsum]
        cases m with
        | zero =>
          have hover := hgo.1
          rw [TrimSpec.over, Option.mem_def.mp hl] at hover
          simpa using hover
        | succ m => exact hlim l hl (Nat.succ_pos m)
      · intro hl c hc
        rw [hsum]
        exact hend hl c (by simpa using hc)
    · rw [if_neg hgo]
      refine ⟨0, Nat.zero_le _, by simp, by simp, by simp, by simp, fun hl c hc hdrop => hgo ?_⟩
      obtain rfl : b = c := by simpa using hc
      rw [Bool.and_eq_true, hd]
      exact ⟨by simp [TrimSpec.over, hl], by simpa using hdrop⟩

theorem tombstoneWhile_spec (b : Block) (limit : Nat) (pred : StreamId → Bool) :
    (b.tombstoneWhile limit pred).1.entries = b.entries.drop (min limit (b.entries.takeWhile fun e => pred e.id).length) ∧
      (b.tombstoneWhile limit pred).2 = min limit (b.entries.takeWhile fun e => pred e.id).length := by
  have h := Block.tombstoneWhileFrames_eq pred b.frames limit
  constructor
  · show Block.liveOf (Block.tombstoneWhileFrames pred limit b.frames).1 = _
    rw [h, Block.liveOf_markOldest]
    rfl
  · show (Block.tombstoneWhileFrames pred limit b.frames).2 = _
    rw [h]
    rfl

/-- The boundary pass takes the excess out of the front block when the block holds all of it. -/
theorem trimBoundary_spec {length : Nat} (hs : b.Spans) (hsorted : b.ids.Pairwise (· < ·)) (hlen : length < 2 ^ 63)
    (hin : ∀ n, sp.threshold = .maxlen n → length - n ≤ b.entries.length) :
    (trimBoundary sp length b).2 = excessIn length b.entries sp.threshold ∧
      (trimBoundary sp length b).1.entries = b.entries.drop (excessIn length b.entries sp.threshold) := by
  have hcap := entries_le_cap hs
  unfold trimBoundary excessIn
  cases hth : sp.threshold with
  | maxlen n =>
    have hover := hin n hth
    dsimp only
    split
    next hlt =>
      have hsmall : (toInt64 (length - n)).toNat = length - n := by
        unfold toInt64
        rw [if_pos (by omega)]
        exact Int.toNat_natCast _
      obtain ⟨hes, hk⟩ := tombstoneWhile_spec b.resident (length - n) fun _ => true
      have hall : (b.resident.entries.takeWhile fun _ => true).length = b.entries.length :=
        congrArg List.length (List.takeWhile_eq_self_iff.mpr fun _ _ => rfl)
      rw [hall, Nat.min_eq_left hover] at hes hk
      rw [hsmall]
      exact ⟨hk, hes⟩
    next hge =>
      rw [show length - n = 0 by omega]
      exact ⟨rfl, rfl⟩
  | minid id =>
    dsimp only
    split
    next hlt =>
      obtain ⟨hes, hk⟩ := tombstoneWhile_spec b.resident (2 ^ 63 - 1) fun x => decide (x < id)
      have hle := (List.takeWhile_sublist (l := b.entries) fun e => decide (e.id < id)).length_le
      unfold blockCap at hcap
      have hres : b.resident.entries = b.entries := rfl
      rw [hres, Nat.min_eq_right (by omega)] at hes hk
      exact ⟨hk, hes⟩
    next hge =>
      -- the block starts at the bound or above, so none of its entries is below
      have hnone : b.entries.takeWhile (fun e => decide (e.id < id)) = [] := by
        cases hes : b.entries with
        | nil => rfl
        | cons e es =>
          have hfirst := hs.first_le hsorted (entry_id_mem (hes ▸ List.mem_cons_self : e ∈ b.entries))
          exact List.takeWhile_cons_of_neg (by simpa using le_trans (not_lt.mp hge) hfirst)
      rw [hnone]
      exact ⟨rfl, rfl⟩

/-- The entries in excess are those of the dropped blocks and the excess of the front block. -/
theorem excess_split {D B R : List StreamEntry} {th : TrimBy} (hmax : ∀ n, th = .maxlen n → D = [] ∨ n + D.length ≤ (D ++ (B ++ R)).length)
    (hmin : ∀ id, th = .minid id → (∀ e ∈ D, e.id < id) ∧ ∀ e ∈ R, id ≤ e.id) :
    excess (D ++ (B ++ R)) th = D.length + excessIn (B ++ R).length B th := by
  cases th with
  | maxlen n =>
    have h := hmax n rfl
    simp only [excess, excessIn, List.length_append] at h ⊢
    rcases h with rfl | h
    · simp
    · omega
  | minid id =>
    obtain ⟨hD, hR⟩ := hmin id rfl
    have hnone : R.takeWhile (fun e => decide (e.id < id)) = [] := by
      cases R with
      | nil => rfl
      | cons e R => exact List.takeWhile_cons_of_neg (by simpa using hR e List.mem_cons_self)
    simp only [excess, excessIn]
    rw [List.takeWhile_append_of_pos fun e he => by simpa using hD e he, List.length_append, List.takeWhile_append, hnone]
    split <;> simp_all

/-- What the pass over whole blocks leaves: the entries of the first `m` of them are gone, and a trim without a limit stopped at a block
that has to stay. -/
structure Fronted (s : Stream δ) (sp : TrimSpec) (m : Nat) (D : List StreamEntry) (t : Stream δ) : Prop where
  split : s.entries = D ++ (s.blocks.drop m).flatMap Block.entries
  blocks : t.blocks = s.blocks.drop m
  length : t.length = s.length - D.length
  lastID : t.lastID = s.lastID
  room : ∀ n, sp.threshold = .maxlen n → D = [] ∨ n + D.length ≤ s.length
  below : ∀ id, sp.threshold = .minid id → ∀ e ∈ D, e.id < id
  limit : ∀ l ∈ sp.limit, (D.length : Int) ≤ l
  stops : sp.limit = none → m + 1 < s.blocks.length → ∀ b, s.blocks[m]? = some b → ¬Droppable sp.threshold s.length D.length b

theorem Counted.fronted (h : s.Counted) (hl : ∀ l ∈ sp.limit, 0 ≤ l) : ∃ m D, m ≤ s.blocks.length - 1 ∧
    dropScan sp s.length s.blocks.dropLast 0 = (m, D.length) ∧ Fronted s sp m D (if m = 0 then s else s.dropFront m D.length) := by
  have hbig : s.length < 2 ^ 64 := Nat.lt_trans h.small (by decide)
  have hinit : 0 + (s.blocks.dropLast.flatMap Block.entries).length ≤ s.length := by
    rw [h.count, Nat.zero_add]
    conv_rhs => rw [entries, ← List.take_append_drop (s.blocks.length - 1) s.blocks]
    rw [← List.dropLast_eq_take, List.flatMap_append, List.length_append]
    exact Nat.le_add_right ..
  obtain ⟨m, hm, hscan, hmax, hmin, hlim, hend⟩ := @dropScan_spec sp _ hbig _ _ hinit
  rw [List.length_dropLast] at hm
  have htake : s.blocks.dropLast.take m = s.blocks.take m := by
    rw [List.dropLast_eq_take, List.take_take, Nat.min_eq_left hm]
  simp only [Nat.zero_add, htake] at hscan hmax hmin hlim hend
  have hsplit : s.entries = (s.blocks.take m).flatMap Block.entries ++ (s.blocks.drop m).flatMap Block.entries := by
    rw [← List.flatMap_append, List.take_append_drop]
    rfl
  have hlen : ((s.blocks.take m).flatMap Block.entries).length ≤ s.length := by
    rw [h.count, hsplit, List.length_append]
    omega
  refine ⟨m, _, hm, hscan, hsplit, ?_, ?_, ?_, fun n hn => ?_, fun id hid e he => ?_, fun l hl' => ?_, fun hnone hm' b hb => ?_⟩
  · split
    next hz => rw [hz, List.drop_zero]
    next => rfl
  · split
    next hz => simp [hz]
    next => exact sub64_eq hlen hbig
  · split <;> rfl
  · rcases Nat.eq_zero_or_pos m with rfl | hpos
    · exact .inl rfl
    · exact .inr (hmax hpos n hn)
  · obtain ⟨c, hc, he⟩ := List.mem_flatMap.mp he
    have hc' := List.mem_of_mem_take hc
    exact lt_of_le_of_lt ((h.rising.spans c hc').le_last (h.rising.block hc') (entry_id_mem he)) (hmin id hid c hc)
  · rcases Nat.eq_zero_or_pos m with rfl | hpos
    · exact hl l hl'
    · exact hlim l hl' hpos
  · refine hend hnone b ?_
    rw [List.dropLast_eq_take, List.getElem?_take, if_pos (by omega), hb]

theorem Fronted.approximate {m : Nat} {D : List StreamEntry} {t : Stream δ} (hf : Fronted s sp m D t) (h : s.Counted) (happ : sp.approx = true) :
    Trims sp s.entries t.entries D.length := by
  have hes : t.entries = s.entries.drop D.length := by
    rw [hf.split, List.drop_left, entries, hf.blocks]
  rw [hes]
  refine .of_excess h.toOrdered.entries_sorted ?_ (fun ha => by rw [happ] at ha; cases ha) hf.limit
  cases hth : sp.threshold with
  | maxlen n =>
    rcases hf.room n hth with rfl | hroom
    · exact Nat.zero_le _
    · rw [h.count] at hroom
      simp only [excess, excessIn]
      omega
  | minid id =>
    rw [hf.split, excess, excessIn, List.takeWhile_append_of_pos fun e he => by simpa using hf.below id hth e he, List.length_append]
    omega

/-- The exact mode takes the rest of the excess out of the block the pass stopped at, which holds all of it. -/
theorem Fronted.boundary {m : Nat} {D : List StreamEntry} {t : Stream δ} {rest : List Block} (hf : Fronted s sp m D t) (h : s.Counted)
    (hk : s.kind = .native) (hlimit : sp.limit = none) (hb : s.blocks.drop m = b :: rest) :
    Trims sp s.entries ((trimBoundary sp t.length b).1.entries ++ rest.flatMap Block.entries) (D.length + (trimBoundary sp t.length b).2) ∧
      (trimBoundary sp t.length b).2 ≤ t.length := by
  have hbm : s.blocks[m]? = some b := by rw [← List.head?_drop, hb, List.head?_cons]
  have hmem : b ∈ s.blocks := List.mem_of_getElem? hbm
  have hrest : rest = s.blocks.drop (m + 1) := by rw [← List.tail_drop, hb, List.tail_cons]
  have hes : s.entries = D ++ (b.entries ++ rest.flatMap Block.entries) := by rw [hf.split, hb, List.flatMap_cons]
  have hlen : t.length = (b.entries ++ rest.flatMap Block.entries).length := by
    rw [hf.length, h.count, hes, List.length_append, Nat.add_sub_cancel_left]
  have hcount : s.length = D.length + (b.entries.length + (rest.flatMap Block.entries).length) := by
    rw [h.count, hes, List.length_append, List.length_append]
  -- a block that is not the tail was left because it is not droppable
  have hstay : rest ≠ [] → ¬Droppable sp.threshold s.length D.length b := by
    intro hr
    refine hf.stops hlimit ?_ b hbm
    rw [hrest] at hr
    have := List.length_pos_iff.mpr hr
    rw [List.length_drop] at this
    omega
  have hin : ∀ n, sp.threshold = .maxlen n → t.length - n ≤ b.entries.length := by
    intro n hn
    rw [hf.length]
    by_cases hr : rest = []
    · rw [hr] at hcount
      simp only [List.flatMap_nil, List.length_nil] at hcount
      omega
    · have := hstay hr
      rw [hn] at this
      simp only [Droppable] at this
      omega
  have hrestge : ∀ id, sp.threshold = .minid id → ∀ e ∈ rest.flatMap Block.entries, id ≤ e.id := by
    intro id hid e he
    have hlast := hstay (by rintro rfl; cases he)
    rw [hid] at hlast
    obtain ⟨c, hc, he⟩ := List.mem_flatMap.mp he
    have hpair := (List.pairwise_flatMap.mp h.rising.sorted).2
    rw [split_at hbm, List.pairwise_append, List.pairwise_cons] at hpair
    have hlt := hpair.2.1.1 c (hrest ▸ hc) b.last ((h.rising.spans b hmem).last_mem ((h.native hk).1 b hmem)) e.id (entry_id_mem he)
    exact le_of_lt (lt_of_le_of_lt (not_lt.mp hlast) hlt)
  obtain ⟨hk2, hk1⟩ := trimBoundary_spec (h.rising.spans b hmem) (h.rising.block hmem)
    (by rw [hf.length]; exact Nat.lt_of_le_of_lt (Nat.sub_le ..) h.small) hin
  have hkb : excessIn t.length b.entries sp.threshold ≤ b.entries.length := by
    cases hth : sp.threshold with
    | maxlen n => exact hin n hth
    | minid id => exact (List.takeWhile_sublist _).length_le
  have hexcess : excess s.entries sp.threshold = D.length + excessIn t.length b.entries sp.threshold := by
    rw [hes, hlen]
    refine excess_split (fun n hn => ?_) fun id hid => ⟨hf.below id hid, hrestge id hid⟩
    rw [← hes, ← h.count]
    exact hf.room n hn
  rw [hk1, hk2]
  refine ⟨?_, Nat.le_trans hkb (by rw [hlen, List.length_append]; exact Nat.le_add_right ..)⟩
  rw [show b.entries.drop (excessIn t.length b.entries sp.threshold) ++ rest.flatMap Block.entries =
    s.entries.drop (D.length + excessIn t.length b.entries sp.threshold) by
      rw [hes, ← List.drop_drop, List.drop_left, List.drop_append_of_le_length hkb]]
  refine .of_excess h.toOrdered.entries_sorted (Nat.le_of_eq hexcess.symm) (fun _ => hexcess.symm) fun l hl' => ?_
  rw [hlimit] at hl'
  cases hl'

theorem Counted.trimNative (h : s.Counted) (hk : s.kind = .native) (ht : s.Trimmable sp) : s.TrimsTo sp (s.trimNative sp) := by
  obtain ⟨hl, hlimit, -, hne⟩ := ht
  obtain ⟨m, D, hm, hscan, hf⟩ := h.fronted hl
  unfold Stream.trimNative
  simp only [hscan]
  generalize (if m = 0 then s else s.dropFront m D.length) = t at hf ⊢
  cases happ : sp.approx with
  | true => exact ⟨t, D.length, rfl, hf.approximate h happ, hf.length, hf.lastID⟩
  | false =>
    obtain ⟨b, rest, hb⟩ := List.exists_cons_of_ne_nil (fun hn => by
      have := congrArg List.length hn
      rw [List.length_drop, List.length_nil] at this
      have := List.length_pos_iff.mpr (hne hk happ)
      omega : s.blocks.drop m ≠ [])
    obtain ⟨htrims, hle⟩ := hf.boundary h hk (hlimit happ) hb
    have hlen := hf.length
    have hsmall := h.small
    rw [hf.blocks, hb]
    refine ⟨{ t with blocks := (trimBoundary sp t.length b).1 :: rest, length := sub64 t.length (trimBoundary sp t.length b).2 }, _,
      by simp only [Bool.false_eq_true, if_false], htrims, ?_, hf.lastID⟩
    show sub64 t.length _ = _
    rw [sub64_eq hle (by omega)]
    omega

theorem Counted.trim (h : s.Counted) (ht : s.Trimmable sp) : s.TrimsTo sp (s.trim sp) := by
  unfold Stream.trim
  cases hk : s.kind with
  | inline => exact h.trimInline hk ht
  | native => exact h.trimNative hk ht

end Stream

end Aki
