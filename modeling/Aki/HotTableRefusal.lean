import Aki.HotTable

namespace Aki.Sqlo1

open Aki.Sqlo1b (Key SeamRecord Op)

/-- The shadow bit of the tag is the table's own. -/
def HotOp.Typed : HotOp → Prop
  | .put _ _ tag _ | .promote _ _ tag _ _ => tag.intShadow = false
  | _ => True

namespace HotHeaders

/-- A flagged header has a live value and its integer in the side table. -/
def ShadowInv (t : HotHeaders) : Prop :=
  ∀ s, (t.hdrs s).tag.intShadow = true → (t.hdrs s).val.isSome = true ∧ (t.intShadow s).isSome = true

variable {hash : Key → Nat} {t t' : HotHeaders}

theorem ShadowInv.setHdr (h : ShadowInv t) {s : Nat} {hd : Hdr}
    (hn : hd.tag.intShadow = true → hd.val.isSome = true ∧ (t.intShadow s).isSome = true) : ShadowInv (t.setHdr s hd) := by
  intro s' hf
  by_cases he : s' = s
  · subst he
    simp only [HotHeaders.setHdr, Function.update_self] at hf ⊢
    exact hn hf
  · simp only [HotHeaders.setHdr, Function.update_of_ne he] at hf ⊢
    exact h s' hf

theorem ShadowInv.setUnflagged (h : ShadowInv t) {s : Nat} {hd : Hdr} (hn : hd.tag.intShadow = false) :
    ShadowInv (t.setHdr s hd) := h.setHdr fun hf => absurd hf (by simp [hn])

theorem ShadowInv.enqueueDirty (h : ShadowInv t) (s : Nat) : ShadowInv (t.enqueueDirty s) := by
  unfold HotHeaders.enqueueDirty
  dsimp only
  split
  · split
    · exact h.setHdr (h s)
    · exact h
  · exact h.setHdr (h s)

theorem ShadowInv.fileIndex (h : ShadowInv t) (k s : Nat) : ShadowInv (t.fileIndex k s) := by
  unfold HotHeaders.fileIndex
  split <;> exact h

theorem ShadowInv.popLoop (fuel : Nat) (h : ShadowInv t) : ShadowInv (popLoop fuel t).1 := by
  induction fuel generalizing t with
  | zero => exact h
  | succ n ih =>
    unfold HotHeaders.popLoop
    split
    · exact h
    · next s rest hq =>
      split
      · split
        · exact h
        · exact ih h
      · dsimp only
        split
        · exact ih (h.setHdr (h s))
        · exact h.setHdr (h s)

theorem dropShadow_unflagged (t : HotHeaders) (s : Nat) : ((t.dropShadow s).hdrs s).tag.intShadow = false := by
  unfold dropShadow
  dsimp only
  split
  · simp [setHdr]
  · next hf => exact Bool.not_eq_true _ ▸ hf

theorem ShadowInv.dropShadow (h : ShadowInv t) (s : Nat) : ShadowInv (t.dropShadow s) := by
  unfold HotHeaders.dropShadow
  dsimp only
  split
  · intro s' hf
    by_cases he : s' = s
    · subst he
      simp [HotHeaders.setHdr] at hf
    · simp only [HotHeaders.setHdr, Function.update_of_ne he] at hf ⊢
      exact h s' hf
  · exact h

theorem ShadowInv.freshen (h : ShadowInv t) (s : Nat) : ShadowInv (t.freshen s) := by
  unfold HotHeaders.freshen
  dsimp only
  refine ShadowInv.dropShadow ?_ s
  split
  · exact h.setHdr (h s)
  · exact h

theorem ShadowInv.removeSlot (h : ShadowInv t) (k s : Nat) : ShadowInv (t.removeSlot k s) := by
  have hz : ShadowInv ((t.dropShadow s).setHdr s zeroHdr) := (h.dropShadow s).setHdr fun hf => (nomatch hf)
  have hd : ({ t with keyDelta := t.keyDelta - keyDeltaOf (t.hdrs s) } : HotHeaders).dropShadow s =
      { t.dropShadow s with keyDelta := t.keyDelta - keyDeltaOf (t.hdrs s) } := by
    unfold HotHeaders.dropShadow
    dsimp only
    split <;> rfl
  unfold HotHeaders.removeSlot HotHeaders.unindex
  dsimp only
  rw [hd]
  split
  · split <;> exact hz
  · exact hz

theorem ShadowInv.claimSlot (h : ShadowInv t) {key : Key} {val : Option (List UInt8)} {room : Bool} {s : Nat}
    (hc : t.claimSlot key val room = some (t', s)) : ShadowInv t' ∧ (t'.hdrs s).tag.intShadow = false := by
  unfold HotHeaders.claimSlot at hc
  dsimp only at hc
  split at hc
  · split at hc
    · obtain ⟨rfl, rfl⟩ := Prod.mk.inj (Option.some.inj hc)
      exact ⟨h.setHdr fun hf => (nomatch hf), by simp [HotHeaders.setHdr, zeroHdr]⟩
    · cases hc
  · split at hc
    · split at hc
      · obtain ⟨rfl, rfl⟩ := Prod.mk.inj (Option.some.inj hc)
        exact ⟨h.setHdr fun hf => (nomatch hf), by simp [HotHeaders.setHdr, zeroHdr]⟩
      · cases hc
    · cases hc

theorem claimSlot_of_nextSlot {s : Nat} (h : t.nextSlot = some s) (key : Key) (val : Option (List UInt8)) :
    ∃ r, t.claimSlot key val true = some r := by
  unfold nextSlot at h
  unfold HotHeaders.claimSlot
  split at h
  · exact ⟨_, rfl⟩
  split at h
  next hcap =>
    rw [if_pos hcap]
    exact ⟨_, rfl⟩
  next => cases h

theorem windowTag_intShadow (hd : Hdr) (tag : TypeTag) : (windowTag hd tag).intShadow = tag.intShadow := by
  unfold windowTag
  split <;> rfl

theorem ShadowInv.putGen (h : ShadowInv t) {key : Key} {val : List UInt8} {tag : TypeTag} {gen : Nat} {room : Bool}
    (ht : tag.intShadow = false) : ShadowInv (t.putGen hash key val tag gen room).1 := by
  unfold HotHeaders.putGen
  split
  · exact h
  split
  · next s _ =>
    unfold HotHeaders.putHeld
    dsimp only
    split
    · refine ShadowInv.enqueueDirty ?_ s
      exact (h.freshen s).setUnflagged ((windowTag_intShadow (t.hdrs s) tag).trans ht)
    · exact h.freshen s
  · split
    · exact h
    · next t₁ s hc =>
      refine ShadowInv.fileIndex ?_ _ s
      refine ShadowInv.enqueueDirty ?_ s
      exact (h.claimSlot hc).1.setUnflagged ht

theorem ShadowInv.drained (h : ShadowInv t) (s vptr : Nat) : ShadowInv (t.drained hash s vptr) := by
  unfold HotHeaders.drained
  dsimp only
  split
  · exact h
  split
  · refine ShadowInv.removeSlot ?_ _ s
    exact h
  · exact h.setHdr (h s)

theorem ShadowInv.del (h : ShadowInv t) (key : Key) : ShadowInv (t.del hash key) := by
  unfold HotHeaders.del
  split
  · exact h
  dsimp only
  split
  · exact h
  · next s _ _ v _ =>
    refine ShadowInv.enqueueDirty ?_ s
    exact (h.dropShadow s).setUnflagged (dropShadow_unflagged t s)

theorem ShadowInv.setExpireMs (h : ShadowInv t) (key : Key) (atMs : Int) : ShadowInv (t.setExpireMs hash key atMs) := by
  unfold HotHeaders.setExpireMs
  split
  · exact h
  · next s _ =>
    dsimp only
    split
    · exact h
    split
    · exact h
    split
    · refine ShadowInv.enqueueDirty ?_ s
      exact h.setHdr (h s)
    · exact h.setHdr (h s)

theorem ShadowInv.armIntShadow (h : ShadowInv t) (key : Key) (n : Int) : ShadowInv (t.armIntShadow hash key n) := by
  unfold HotHeaders.armIntShadow
  split
  · exact h
  · next s _ =>
    dsimp only
    split
    · exact h
    · next hlive =>
      simp only [Bool.or_eq_true, not_or] at hlive
      intro s' hf
      by_cases he : s' = s
      · subst he
        simp only [HotHeaders.setHdr, Function.update_self, Option.isSome_some, and_true]
        cases hv : (t.hdrs s').val with
        | none => simp [hv] at hlive
        | some v => rfl
      · simp only [HotHeaders.setHdr, Function.update_of_ne he] at hf ⊢
        exact h s' hf

theorem ShadowInv.step (h : ShadowInv t) {op : HotOp} (room : Bool) (ht : op.Typed) : ShadowInv (t.step hash room op) := by
  cases op with
  | now ms => exact h
  | put key val tag gen => exact h.putGen ht
  | promote key val tag gen expMs =>
    unfold HotHeaders.step HotHeaders.promote
    dsimp only
    split
    · exact h
    split
    · exact h
    split
    · exact h
    · next t₁ s hc =>
      refine ShadowInv.fileIndex ?_ _ s
      exact (h.claimSlot hc).1.setUnflagged ht
  | delCold key keyClass =>
    unfold HotHeaders.step HotHeaders.delCold
    dsimp only
    split
    · exact h
    split
    · exact h
    split
    · exact h
    · next t₁ s hc =>
      refine ShadowInv.fileIndex (ShadowInv.enqueueDirty ?_ s) _ s
      exact (h.claimSlot hc).1.setUnflagged (h.claimSlot hc).2
  | del key => exact h.del key
  | expire key atMs => exact h.setExpireMs key atMs
  | arm key n => exact h.armIntShadow key n
  | pin key =>
    unfold HotHeaders.step HotHeaders.pinRoot
    dsimp only
    split
    · exact h
    · split <;> exact h
  | unpin => exact h
  | pop => exact h.popLoop _
  | lap s => exact h.setHdr (h s)
  | enqueue s => exact h.enqueueDirty s
  | drained s vptr => exact h.drained s vptr
  | evict s =>
    unfold HotHeaders.step HotHeaders.evict
    dsimp only
    split
    · exact h.removeSlot _ s
    · exact h
  | reclaim => exact h

/-- A key's value and deadline as a read finds them, its cached integer, and what the queue would drain. -/
def SameReads (hash : Key → Nat) (t t' : HotHeaders) : Prop :=
  ∀ now, t.nowMs ≤ now →
    (∀ k, (t'.setNow now).get hash k = (t.setNow now).get hash k ∧
      ((t'.setNow now).probeEntry hash k).map (·.map fun e => e.2.2) = ((t.setNow now).probeEntry hash k).map (·.map fun e => e.2.2) ∧
      (t'.setNow now).intShadowOf hash k = (t.setNow now).intShadowOf hash k) ∧
    t'.queue = t.queue ∧ ∀ s ∈ t.queue, (t'.setNow now).collectOp s = (t.setNow now).collectOp s

/-- The table holds the key with a value whose deadline has passed, or with a cached integer. -/
def Stale (hash : Key → Nat) (t : HotHeaders) (key : Key) : Prop :=
  ∃ s, t.lookup hash key = some s ∧ ((t.hdrs s).val.isSome && t.expired (t.hdrs s) || (t.hdrs s).tag.intShadow) = true

theorem freshen_key (t : HotHeaders) (s s' : Nat) : ((t.freshen s).hdrs s').key = (t.hdrs s').key := by
  unfold freshen dropShadow
  dsimp only
  by_cases he : s' = s
  · subst he
    split <;> split <;> simp [setHdr]
  · split <;> split <;> simp [setHdr, Function.update_of_ne he]

theorem freshen_lookup (t : HotHeaders) (s : Nat) (key : Key) : (t.freshen s).lookup hash key = t.lookup hash key := by
  have hk : (t.freshen s).keyIs = t.keyIs := by
    funext s' k
    simp only [keyIs, freshen_key]
  have hi : (t.freshen s).index = t.index ∧ (t.freshen s).dups = t.dups := by
    unfold freshen dropShadow
    dsimp only
    split <;> split <;> exact ⟨rfl, rfl⟩
  simp only [lookup, hk, hi.1, hi.2]

theorem freshen_nowMs (t : HotHeaders) (s : Nat) : (t.freshen s).nowMs = t.nowMs := by
  unfold freshen dropShadow
  dsimp only
  split <;> split <;> rfl

theorem freshen_hdr (t : HotHeaders) (s : Nat) :
    (t.freshen s).hdrs s =
      { (if (t.hdrs s).val.isSome && t.expired (t.hdrs s) then { t.hdrs s with expireLo := 0, expireRem := 0 } else t.hdrs s) with
        tag := { (t.hdrs s).tag with intShadow := false } } := by
  have hfix (hd : Hdr) (hf : ¬ hd.tag.intShadow = true) : { hd with tag := { hd.tag with intShadow := false } } = hd := by
    obtain ⟨key, val, vptr, state, ⟨kind, root, delta, fence, shadow⟩, queued, defers, volLaps, lo, rem, gen⟩ := hd
    simp only [Bool.not_eq_true] at hf
    subst hf
    rfl
  unfold freshen dropShadow
  dsimp only
  split
  · split
    · simp [setHdr]
    · next hf =>
      simp only [setHdr, Function.update_self] at hf ⊢
      exact (hfix { t.hdrs s with expireLo := 0, expireRem := 0 } hf).symm
  · split
    · simp [setHdr]
    · next hf => exact (hfix _ hf).symm

theorem freshen_fresh {s : Nat} (h : ((t.hdrs s).val.isSome && t.expired (t.hdrs s) || (t.hdrs s).tag.intShadow) = false) :
    t.freshen s = t := by
  obtain ⟨h1, h2⟩ := Bool.or_eq_false_iff.mp h
  unfold freshen dropShadow
  simp [h1, h2]

theorem setNow_self (t : HotHeaders) : t.setNow t.nowMs = t := rfl

/-- The old life's deadline is gone, so the key is back. -/
theorem freshen_revives {s : Nat} {key : Key} (hl : t.lookup hash key = some s) (hv : (t.hdrs s).val.isSome = true)
    (hx : t.expired (t.hdrs s) = true) : t.get hash key = none ∧ (t.freshen s).get hash key = (t.hdrs s).val := by
  refine ⟨by simp [get, probeEntry, hl, hx], ?_⟩
  have hlive (u : HotHeaders) (tag : TypeTag) : u.expired { t.hdrs s with expireLo := 0, expireRem := 0, tag := tag } = false := by
    simp [expired]
  simp only [get, probeEntry, freshen_lookup, hl, Option.map_some, freshen_hdr, hv, hx, Bool.and_self, if_true, hlive,
    Bool.false_eq_true, if_false, Option.bind_some, id_eq, Option.map_map]
  cases (t.hdrs s).val <;> rfl

theorem freshen_forgets {s : Nat} {key : Key} (hs : ShadowInv t) (hl : t.lookup hash key = some s)
    (hf : (t.hdrs s).tag.intShadow = true) (hx : t.expired (t.hdrs s) = false) :
    t.intShadowOf hash key ≠ none ∧ (t.freshen s).intShadowOf hash key = none := by
  obtain ⟨hv, hn⟩ := hs s hf
  refine ⟨?_, by simp [intShadowOf, freshen_lookup, hl, freshen_hdr]⟩
  obtain ⟨n, hn⟩ := Option.isSome_iff_exists.mp hn
  simp [intShadowOf, hl, hf, hv, hx, hn]

/-- A put the arenas refuse goes unseen by every later read and drain, the headers being the ones they were, exactly when they do not
hold the key with an expired value or a cached integer. -/
theorem refused_unseen_iff {key : Key} {val : List UInt8} {tag : TypeTag} {gen : Nat} {room : Bool} (hr : ShadowInv t)
    (hp : t.putGen hash key val tag gen room = (t', false)) :
    (SameReads hash t t' ↔ key.length ≤ maxKlen → ¬ t.Stale hash key) ∧ (SameReads hash t t' → t' = t) := by
  have hsame : SameReads hash t t := fun _ _ => ⟨fun _ => ⟨rfl, rfl, rfl⟩, rfl, fun _ _ => rfl⟩
  unfold putGen at hp
  split at hp
  · next hlen =>
    cases hp
    exact ⟨⟨fun _ hle => absurd hle (Nat.not_le.mpr hlen), fun _ => hsame⟩, fun _ => rfl⟩
  · next hlen =>
    have hlen : key.length ≤ maxKlen := Nat.not_lt.mp hlen
    cases hl : t.lookup hash key with
    | none =>
      have hfresh : ¬ t.Stale hash key := fun ⟨s, h, _⟩ => by simp [hl] at h
      rw [hl] at hp
      dsimp only at hp
      split at hp
      · cases hp
        exact ⟨⟨fun _ _ => hfresh, fun _ => hsame⟩, fun _ => rfl⟩
      · cases hp
    | some s =>
      rw [hl] at hp
      dsimp only [putHeld] at hp
      split at hp
      · cases hp
      · cases hp
        have hiff : t.Stale hash key ↔
            ((t.hdrs s).val.isSome && t.expired (t.hdrs s) || (t.hdrs s).tag.intShadow) = true := by
          refine ⟨fun ⟨s', h, hb⟩ => ?_, fun hb => ⟨s, hl, hb⟩⟩
          rw [hl] at h
          exact Option.some.inj h ▸ hb
        cases hb : ((t.hdrs s).val.isSome && t.expired (t.hdrs s) || (t.hdrs s).tag.intShadow) with
        | false =>
          have hst : ¬ t.Stale hash key := by simp [hiff, hb]
          rw [freshen_fresh hb]
          exact ⟨⟨fun _ _ => hst, fun _ => hsame⟩, fun _ => rfl⟩
        | true =>
          have hseen : ¬ SameReads hash t (t.freshen s) := by
            intro h
            obtain ⟨hg, -, hi⟩ := (h t.nowMs (Nat.le_refl _)).1 key
            rw [setNow_self, ← freshen_nowMs t s, setNow_self] at hg hi
            rcases Bool.or_eq_true_iff.mp hb with hb | hb
            · obtain ⟨hv, hx⟩ := Bool.and_eq_true_iff.mp hb
              obtain ⟨h1, h2⟩ := freshen_revives hl hv hx
              rw [h2, h1] at hg
              rw [hg] at hv
              cases hv
            · cases hx : t.expired (t.hdrs s) with
              | true =>
                obtain ⟨h1, h2⟩ := freshen_revives hl (hr s hb).1 hx
                rw [h2, h1] at hg
                have := (hr s hb).1
                rw [hg] at this
                cases this
              | false =>
                obtain ⟨h1, h2⟩ := freshen_forgets hr hl hb hx
                exact h1 (hi.symm.trans h2)
          exact ⟨⟨fun h => absurd h hseen, fun h => absurd (hiff.mpr hb) (h hlen)⟩, fun h => absurd h hseen⟩

end HotHeaders

namespace HotTable

open HotHeaders (SameReads Stale refused_unseen_iff)

inductive HotReach (hash : Key → Nat) : HotTable → Prop
  | start (cap : Nat) (limit : Option Nat) : HotReach hash (newHotTable cap limit)
  | next {t t' : HotTable} {op : HotOp} (h : HotReach hash t) (ht : op.Typed) (hs : t.step hash op = some t') : HotReach hash t'

variable {hash : Key → Nat} {t t' : HotTable}

theorem step_headers {op : HotOp} (h : t.step hash op = some t') : ∃ room, t'.headers = t.headers.step hash room op := by
  obtain ⟨r, -, rfl⟩ := Option.map_eq_some_iff.mp h
  exact ⟨r.2, rfl⟩

theorem HotReach.shadowInv (h : HotReach hash t) : t.headers.ShadowInv := by
  induction h with
  | start cap limit => exact fun _ hf => absurd hf Bool.false_ne_true
  | next _ ht hs ih =>
    obtain ⟨room, heq⟩ := step_headers hs
    rw [heq]
    exact ih.step room ht

def run (hash : Key → Nat) (t : HotTable) (ops : List HotOp) : Option HotTable := ops.foldlM (step hash) t

theorem HotReach.run {ops : List HotOp} (h : HotReach hash t) (ht : ∀ op ∈ ops, op.Typed) (hr : t.run hash ops = some t') :
    HotReach hash t' := by
  induction ops generalizing t with
  | nil =>
    cases hr
    exact h
  | cons op ops ih =>
    rw [HotTable.run, List.foldlM_cons] at hr
    obtain ⟨t₁, hs, hr⟩ := Option.bind_eq_some_iff.mp hr
    exact ih (h.next (ht op List.mem_cons_self) hs) (fun o ho => ht o (List.mem_cons_of_mem _ ho)) hr

theorem fund_refused {key : Key} {n : Nat} (h : t.fund hash key n = some (t', false)) : t'.keyRef = t.keyRef ∧ t'.valRef = t.valRef := by
  unfold fund at h
  split at h
  · cases h
    exact ⟨rfl, rfl⟩
  split at h
  · unfold fundHeld at h
    split at h
    · cases h
    split at h
    · cases h
    split at h
    · cases h
      exact ⟨rfl, rfl⟩
    · cases h
  · unfold fundNew at h
    split at h
    · cases h
      exact ⟨rfl, rfl⟩
    split at h
    · cases h
    dsimp only at h
    split at h
    · cases h
      exact ⟨rfl, rfl⟩
    unfold fundVal at h
    dsimp only at h
    split at h
    · cases h
    split at h
    · cases h
      exact ⟨rfl, rfl⟩
    · cases h

theorem fund_taken {key : Key} {n : Nat} (h : t.fund hash key n = some (t', true)) (val : List UInt8) (tag : TypeTag) (gen : Nat) :
    (t.headers.putGen hash key val tag gen true).2 = true := by
  unfold fund at h
  unfold HotHeaders.putGen
  split at h
  · cases h
  next hlen =>
    rw [if_neg hlen]
    split at h
    next => rfl
    next =>
      cases hslot : t.headers.nextSlot with
      | none =>
        rw [fundNew, hslot] at h
        cases h
      | some s =>
        obtain ⟨claimed, hc⟩ := HotHeaders.claimSlot_of_nextSlot hslot key (some val)
        rw [hc]

/-- A table of one short value, with a chunk for keys, one for values and no budget for a third. -/
def tight (ops : List HotOp) : Option HotTable := (newHotTable 1 (some (2 ^ 20))).run (fun _ => 0) (.put [1] [1] tagString 0 :: ops)

theorem tight_getD (ops : List HotOp) (h : (tight ops).isSome = true) : tight ops = some ((tight ops).getD (newHotTable 1 none)) := by
  obtain ⟨t, ht⟩ := Option.isSome_iff_exists.mp h
  rw [ht, Option.getD_some]

theorem tight_reach {ops : List HotOp} (h : tight ops = some t) (ht : ∀ op ∈ ops, op.Typed) : HotReach (fun _ => 0) t := by
  refine (HotReach.start 1 (some (2 ^ 20))).run (List.forall_mem_cons.mpr ⟨?_, ht⟩) h
  simp [HotOp.Typed, tagString]

theorem putGen_refused (hash : Key → Nat) (key : Key) (tag : TypeTag) (gen : Nat) {val : List UInt8} {n : Nat} (hn : val.length = n)
    (hf : (t.fund hash key n).map Prod.snd = some false) (hp : (t.headers.putGen hash key val tag gen false).2 = false) :
    ∃ t', t.putGen hash key val tag gen = some (t', false) ∧ t'.headers = (t.headers.putGen hash key val tag gen false).1 := by
  obtain ⟨r, hr, hroom⟩ := Option.map_eq_some_iff.mp hf
  refine ⟨{ r.1 with headers := (t.headers.putGen hash key val tag gen false).1 }, ?_, rfl⟩
  rw [putGen, hn, hr, Option.map_some, hroom]
  dsimp only
  rw [hp]

def expiredOps : List HotOp := [.expire [1] 1024, .now 2048]

end HotTable

end Aki.Sqlo1
