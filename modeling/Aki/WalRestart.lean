import Mathlib.Data.List.Perm.Subperm
import Aki.CondWrite
import Aki.WalFlusherRun

namespace Aki.Obs1

/-- A stored WAL object; its bytes are the sections they encode. -/
abbrev StoredWal := Stored (List RawSection)

/-- The objects under one node's WAL namespace, by number. -/
abbrev WalBucket := Std.ExtTreeMap Nat StoredWal

/-- The number a live commit record names, with the node that wrote it. -/
structure WalRef where
  walNode : Nat
  walSeq : Nat
deriving DecidableEq

def maxOurs (node : Nat) (verdicts : List WalRef) : Nat :=
  verdicts.foldl (fun m v => if v.walNode = node ∧ m < v.walSeq then v.walSeq else m) 0

/-- The open sequence probe: forward until a number has no object. -/
def probe (bucket : WalBucket) : Nat → Nat → Nat
  | 0, next => next
  | fuel + 1, next => if bucket.contains next then probe bucket fuel (next + 1) else next

/-- `Recover`'s `NextWALSeq`, past the last number the walked chain names. -/
def nextWalSeq (bucket : WalBucket) (node : Nat) (verdicts : List WalRef) : Nat :=
  probe bucket bucket.size (maxOurs node verdicts + 1)

theorem probe_spec (bucket : WalBucket) (fuel next : Nat) : next ≤ probe bucket fuel next ∧
    (∀ s, next ≤ s → s < probe bucket fuel next → s ∈ bucket) ∧
    (probe bucket fuel next ∈ bucket → probe bucket fuel next = next + fuel) := by
  induction fuel generalizing next with
  | zero => exact ⟨Nat.le_refl _, fun s hs hs' => absurd hs' (Nat.not_lt.mpr hs), fun _ => rfl⟩
  | succ fuel ih =>
    unfold probe
    split
    next hin =>
      obtain ⟨hle, hall, hend⟩ := ih (next + 1)
      refine ⟨by omega, ?_, fun h => by have := hend h; omega⟩
      intro s hs hs'
      by_cases heq : s = next
      · rw [heq]
        exact Std.ExtTreeMap.contains_iff_mem.mp hin
      · exact hall s (by omega) hs'
    next hout =>
      refine ⟨Nat.le_refl _, fun s hs hs' => absurd hs' (Nat.not_lt.mpr hs), ?_⟩
      intro h
      exact absurd (Std.ExtTreeMap.contains_iff_mem.mpr h) hout

/-- The objects past the last number the chain names stand without a hole right behind it. -/
def NoHole (bucket : WalBucket) (node : Nat) (verdicts : List WalRef) : Prop :=
  ∀ s ∈ bucket, ∀ t, maxOurs node verdicts < t → t ≤ s → t ∈ bucket

theorem nextWalSeq_free (bucket : WalBucket) (node : Nat) (verdicts : List WalRef) : nextWalSeq bucket node verdicts ∉ bucket := by
  obtain ⟨-, hall, hend⟩ := probe_spec bucket bucket.size (maxOurs node verdicts + 1)
  intro hin
  -- the probe would have met more numbers than the bucket has objects
  have heq := hend hin
  have hsub : List.range' (maxOurs node verdicts + 1) (bucket.size + 1) ⊆ bucket.keys := by
    intro t ht
    rw [List.mem_range'_1] at ht
    rw [Std.ExtTreeMap.mem_keys]
    by_cases hlt : t < probe bucket bucket.size (maxOurs node verdicts + 1)
    · exact hall t ht.1 hlt
    · have : t = nextWalSeq bucket node verdicts := by unfold nextWalSeq; omega
      exact this ▸ hin
  have hlen := (List.Nodup.subperm List.nodup_range' hsub).length_le
  rw [List.length_range', Std.ExtTreeMap.length_keys] at hlen
  omega

theorem noHole_iff (bucket : WalBucket) (node : Nat) (verdicts : List WalRef) :
    NoHole bucket node verdicts ↔ ∀ s, nextWalSeq bucket node verdicts ≤ s → bucket[s]? = none := by
  obtain ⟨hle, hall, -⟩ := probe_spec bucket bucket.size (maxOurs node verdicts + 1)
  have hfree := nextWalSeq_free bucket node verdicts
  have hnone : ∀ t, bucket[t]? = none ↔ t ∉ bucket := by
    intro t
    rw [Std.ExtTreeMap.mem_iff_isSome_getElem?, Bool.not_eq_true, Option.isSome_eq_false_iff, Option.isNone_iff_eq_none]
  constructor
  · intro h s hs
    by_contra hne
    exact hfree (h s (not_not.mp (mt (hnone s).mpr hne)) _ hle hs)
  · intro h s hs t ht hts
    refine hall t ht (Nat.lt_of_not_le fun hge => ?_)
    exact (hnone s).mp (h s (hge.trans hts)) hs

/-- A create's round fills a free number only. -/
def WalBucket.fill (bucket : WalBucket) (seq : Nat) (cell : Option StoredWal) : WalBucket :=
  match bucket[seq]?, cell with
  | none, some st => bucket.insert seq st
  | _, _ => bucket

structure WalNode where
  fl : Flusher
  bucket : WalBucket

inductive WalEvent
  | flusher (ev : FlushEvent)
  | round (walSeq : Nat) (wire : Wire) (rereads : Bool)
  | cancelled (walSeq : Nat)
deriving DecidableEq

namespace WalNode

/-- An object's PUT ends in a round that settles it, or with the flusher's context. -/
def step (w : WalNode) : WalEvent → Option WalNode
  | .flusher (.putDone _ _) => none
  | .flusher ev => (w.fl.step ev).map fun fl => { w with fl := fl }
  | .round walSeq wire rereads =>
    match w.fl.inflight.find? fun o => o.walSeq = walSeq with
    | none => none
    | some o =>
      if encodable o.sections then
        let r := putRound w.bucket[walSeq]? ⟨⟨w.fl.cfg.node, walSeq⟩, o.sections⟩ wire rereads
        let bucket := w.bucket.fill walSeq r.1
        match r.2 with
        | none => some { w with bucket := bucket }
        -- another writer's object on the node's own key is fatal
        | some e => (w.fl.step (.putDone walSeq (decide (e ≠ .other)))).map fun fl => ⟨fl, bucket⟩
      else (w.fl.step (.putDone walSeq false)).map fun fl => { w with fl := fl }
  | .cancelled walSeq =>
    if w.fl.failed then (w.fl.step (.putDone walSeq false)).map fun fl => { w with fl := fl } else none

def run (w : WalNode) (evs : List WalEvent) : Option WalNode := evs.foldlM step w

/-- Every object the sink was told of holds the bytes this flusher encoded for it. -/
def Faithful (w : WalNode) : Prop := ∀ o ∈ w.fl.sunk, (w.bucket[o.walSeq]?).map Stored.body = some o.sections

end WalNode

/-- The states of a flusher restarted over what the crash left in the bucket. -/
inductive WalReach (cfg : FlusherConfig) (bucket : WalBucket) : WalNode → Prop
  | restart : WalReach cfg bucket ⟨newFlusher cfg, bucket⟩
  | step {w w' : WalNode} {ev : WalEvent} : WalReach cfg bucket w → w.step ev = some w' → WalReach cfg bucket w'

theorem WalReach.of_run {cfg : FlusherConfig} {bucket : WalBucket} {w w' : WalNode} (h : WalReach cfg bucket w)
    {evs : List WalEvent} (hr : w.run evs = some w') : WalReach cfg bucket w' := by
  induction evs generalizing w with
  | nil =>
    rw [← Option.some.inj hr]
    exact h
  | cons ev evs ih =>
    simp only [WalNode.run, List.foldlM_cons, Option.bind_eq_bind, Option.bind_eq_some_iff] at hr
    obtain ⟨mid, hmid, hrest⟩ := hr
    exact ih (h.step hmid) hrest

theorem WalReach.flushReach {cfg : FlusherConfig} {bucket : WalBucket} {w : WalNode} (h : WalReach cfg bucket w) :
    FlushReach cfg w.fl := by
  induction h with
  | restart => exact FlushReach.new
  | @step w w' ev _ hs ih =>
    have hmap : ∀ {ev : FlushEvent} {b : WalBucket},
        (w.fl.step ev).map (fun fl => (⟨fl, b⟩ : WalNode)) = some w' → FlushReach cfg w'.fl := by
      intro ev b hm
      obtain ⟨fl, hfl, rfl⟩ := Option.map_eq_some_iff.mp hm
      exact ih.step hfl
    unfold WalNode.step at hs
    split at hs
    · cases hs
    · exact hmap hs
    · split at hs
      · cases hs
      · split at hs
        · dsimp only at hs
          split at hs
          · rw [← Option.some.inj hs]
            exact ih
          · exact hmap hs
        · exact hmap hs
    · split at hs
      · exact hmap hs
      · cases hs

namespace Flusher

/-- The objects whose PUT is booked as done. -/
def reported (fl : Flusher) : List WalObject := fl.sunk ++ fl.deliverC ++ fl.completed

theorem mem_reported {fl : Flusher} {o : WalObject} : o ∈ fl.reported ↔ o ∈ fl.sunk ∨ o ∈ fl.deliverC ∨ o ∈ fl.completed := by
  simp [reported]

theorem Appends.frame {fl fl' : Flusher} {group : Nat} (h : Appends fl group fl') :
    fl'.started = fl.started ∧ fl'.nextSeq = fl.nextSeq ∧ fl'.reported = fl.reported := by
  obtain ⟨epoch, f, fs, rfl, -⟩ := h.run
  exact ⟨rfl, rfl, rfl⟩

theorem finishPut_started (fl : Flusher) (o : WalObject) (ok : Bool) :
    (fl.finishPut o ok).started = fl.started ∧ (fl.finishPut o ok).nextSeq = fl.nextSeq := by
  unfold finishPut
  dsimp only
  split <;> exact ⟨rfl, rfl⟩

theorem finishPut_reported {fl : Flusher} {o p : WalObject} {ok : Bool} (h : p ∈ (fl.finishPut o ok).reported) :
    p ∈ fl.reported ∨ (ok = true ∧ p = o) := by
  unfold finishPut at h
  dsimp only at h
  split at h
  · exact Or.inl h
  next hgood =>
    have hok : ok = true := by
      cases hok : ok
      · simp [hok] at hgood
      · rfl
    have r := release_spec _ (fl.completed ++ [o]) fl.nextDeliver (Nat.le_refl _)
    have hin : ∀ q ∈ fl.completed ++ [o], q ∈ fl.reported ∨ (ok = true ∧ q = o) := by
      intro q hq
      rcases List.mem_append.mp hq with hq | hq
      · exact Or.inl (mem_reported.mpr (Or.inr (Or.inr hq)))
      · exact Or.inr ⟨hok, List.mem_singleton.mp hq⟩
    rcases mem_reported.mp h with h | h | h
    · exact Or.inl (mem_reported.mpr (Or.inl h))
    · rcases List.mem_append.mp h with h | h
      · exact Or.inl (mem_reported.mpr (Or.inr (Or.inl h)))
      · exact hin p (r.from_completed p h)
    · exact hin p ((r.left p).mp h).1

theorem deliver_reported {fl : Flusher} {d p : WalObject} {rest : List WalObject} {ok : Bool} (hd : fl.deliverC = d :: rest)
    (h : p ∈ (fl.deliver d rest ok).reported) : p ∈ fl.reported := by
  rw [mem_reported, hd, List.mem_cons]
  unfold deliver at h
  split at h
  · rcases mem_reported.mp h with h | h | h
    · exact Or.inl h
    · exact Or.inr (Or.inl (Or.inr h))
    · exact Or.inr (Or.inr h)
  · rcases mem_reported.mp h with h | h | h
    · rcases List.mem_append.mp h with h | h
      · exact Or.inl h
      · exact Or.inr (Or.inl (Or.inl (List.mem_singleton.mp h)))
    · exact Or.inr (Or.inl (Or.inr h))
    · exact Or.inr (Or.inr h)

/-- What a step adds: a swap starts the object at the next number, and only a done PUT is booked. -/
structure Adds (fl : Flusher) (ev : FlushEvent) (fl' : Flusher) : Prop where
  started : (fl'.started = fl.started ∧ fl'.nextSeq = fl.nextSeq) ∨
    ∃ ss, fl'.started = fl.started ++ [⟨fl.nextSeq, ss⟩] ∧ fl'.nextSeq = fl.nextSeq + 1
  reported : ∀ o ∈ fl'.reported, o ∈ fl.reported ∨ ∃ s, ev = .putDone s true ∧ o ∈ fl.inflight ∧ o.walSeq = s

theorem step_adds {fl fl' : Flusher} {ev : FlushEvent} (h : fl.step ev = some fl') : Adds fl ev fl' := by
  have hframe : ∀ {fl' : Flusher}, fl'.started = fl.started ∧ fl'.nextSeq = fl.nextSeq ∧ fl'.reported = fl.reported →
      Adds fl ev fl' := fun hf => ⟨Or.inl ⟨hf.1, hf.2.1⟩, fun o ho => Or.inl (hf.2.2 ▸ ho)⟩
  have happend : ∀ {group : Nat} {r : Option Flusher}, (∀ fl', r = some fl' → Appends fl group fl') →
      some (r.getD fl) = some fl' → Adds fl ev fl' := by
    intro group r hr he
    rw [← Option.some.inj he]
    cases hres : r with
    | none => exact hframe ⟨rfl, rfl, rfl⟩
    | some fl'' => exact hframe (hr fl'' hres).frame
  cases ev with
  | appendOp group epoch f => exact happend (fun _ h => appendOp_spec h) h
  | appendStrSet group epoch slot seq key value expiryMs ladder => exact happend (fun _ h => appendOp_spec h) h
  | appendRun group epoch frames => exact happend (fun _ h => appendRun_spec h) h
  | barrier =>
    rw [← Option.some.inj h]
    exact hframe ⟨rfl, rfl, rfl⟩
  | swap aged floor =>
    simp only [step] at h
    split at h
    · rw [← Option.some.inj h]
      exact ⟨Or.inr ⟨_, rfl, rfl⟩, fun o ho => Or.inl ho⟩
    · cases h
  | putDone walSeq ok =>
    simp only [step] at h
    split at h
    · cases h
    next o ho =>
      rw [← Option.some.inj h]
      refine ⟨Or.inl (finishPut_started fl o _), ?_⟩
      intro p hp
      rcases finishPut_reported hp with hp | ⟨hok, rfl⟩
      · exact Or.inl hp
      · rw [Bool.and_eq_true] at hok
        rw [hok.1]
        exact Or.inr ⟨walSeq, rfl, List.mem_of_find?_eq_some ho, by simpa using List.find?_some ho⟩
  | deliver ok =>
    simp only [step] at h
    split at h
    · cases h
    next d rest hd =>
      rw [← Option.some.inj h]
      refine ⟨Or.inl ?_, fun p hp => Or.inl (deliver_reported hd hp)⟩
      unfold deliver
      split <;> exact ⟨rfl, rfl⟩
  | close =>
    rw [← Option.some.inj h]
    exact hframe ⟨rfl, rfl, rfl⟩
  | runReturn =>
    simp only [step] at h
    split at h
    · rw [← Option.some.inj h]
      exact hframe ⟨rfl, rfl, rfl⟩
    · cases h
  | loopReturn =>
    simp only [step] at h
    split at h
    · rw [← Option.some.inj h]
      exact hframe ⟨rfl, rfl, rfl⟩
    · cases h

end Flusher

/-- A round leaves the bucket alone or creates the object where none was, and the cell it computes is what then stands. -/
theorem WalBucket.fill_round (bucket : WalBucket) (seq : Nat) (o : StoredWal) (wire : Wire) (rereads : Bool) :
    (bucket.fill seq (putRound bucket[seq]? o wire rereads).1 = bucket ∨
      bucket.fill seq (putRound bucket[seq]? o wire rereads).1 = bucket.insert seq o) ∧
    (bucket.fill seq (putRound bucket[seq]? o wire rereads).1)[seq]? = (putRound bucket[seq]? o wire rereads).1 := by
  have hr := (putRound_spec bucket[seq]? o wire rereads).cell_eq
  generalize (putRound bucket[seq]? o wire rereads).1 = cell at hr ⊢
  unfold WalBucket.fill
  rcases hr with rfl | ⟨hnone, rfl⟩
  · cases hc : bucket[seq]? with
    | none => exact ⟨Or.inl rfl, hc⟩
    | some st => exact ⟨Or.inl rfl, hc⟩
  · rw [hnone]
    exact ⟨Or.inr rfl, by simp⟩

/-- What stands at a started object's number is its own bytes, nothing stands past them, and a booked object stands. -/
structure StoredInv (w : WalNode) : Prop where
  agree : ∀ o ∈ w.fl.started, ∀ st, w.bucket[o.walSeq]? = some st → st.body = o.sections
  fresh : ∀ s, w.fl.nextSeq ≤ s → w.bucket[s]? = none
  kept : ∀ o ∈ w.fl.reported, (w.bucket[o.walSeq]?).isSome = true

theorem StoredInv.flush {w : WalNode} (h : StoredInv w) {ev : FlushEvent} {fl : Flusher} (hs : w.fl.step ev = some fl)
    (hdone : ∀ s, ev = .putDone s true → (w.bucket[s]?).isSome = true) : StoredInv ⟨fl, w.bucket⟩ := by
  have ha := Flusher.step_adds hs
  have hkept : ∀ o ∈ fl.reported, (w.bucket[o.walSeq]?).isSome = true := by
    intro o ho
    rcases ha.reported o ho with ho | ⟨s, hev, -, hos⟩
    · exact h.kept o ho
    · rw [hos]
      exact hdone s hev
  rcases ha.started with ⟨hst, hn⟩ | ⟨ss, hst, hn⟩
  · exact ⟨fun o ho => h.agree o (hst ▸ ho), fun s hs => h.fresh s (hn ▸ hs), hkept⟩
  · refine ⟨?_, fun s hs => h.fresh s ?_, hkept⟩
    · intro o ho st hb
      rw [show (WalNode.mk fl w.bucket).fl.started = w.fl.started ++ [⟨w.fl.nextSeq, ss⟩] from hst] at ho
      rcases List.mem_append.mp ho with ho | ho
      · exact h.agree o ho st hb
      · have hfree := h.fresh w.fl.nextSeq (Nat.le_refl _)
        rw [List.mem_singleton.mp ho] at hb
        rw [hfree] at hb
        cases hb
    · have hs' : fl.nextSeq ≤ s := hs
      omega

theorem StoredInv.create {start : Nat} {w : WalNode} (h : StoredInv w) (hb : Flusher.BufInv start w.fl) {o : WalObject}
    (ho : o ∈ w.fl.started) (tag : WriteTag) : StoredInv { w with bucket := w.bucket.insert o.walSeq ⟨tag, o.sections⟩ } := by
  have hnum := hb.numbered
  -- started objects have different numbers
  have hinj : ∀ p ∈ w.fl.started, p.walSeq = o.walSeq → p = o := by
    have hnd : (w.fl.started.map WalObject.walSeq).Nodup := by
      rw [hnum]
      exact List.nodup_range'
    exact fun p hp heq => List.inj_on_of_nodup_map hnd hp ho heq
  have hlt : o.walSeq < w.fl.nextSeq := by
    have hm : o.walSeq ∈ w.fl.started.map WalObject.walSeq := List.mem_map_of_mem ho
    rw [hnum, List.mem_range'_1] at hm
    have := hb.next
    omega
  refine ⟨?_, ?_, ?_⟩
  · intro p hp st hst
    simp only [Std.ExtTreeMap.getElem?_insert, Nat.compare_eq_eq] at hst
    split at hst
    next heq =>
      rw [hinj p hp heq.symm, ← Option.some.inj hst]
    · exact h.agree p hp st hst
  · intro s hs
    simp only [Std.ExtTreeMap.getElem?_insert, Nat.compare_eq_eq]
    have hs' : w.fl.nextSeq ≤ s := hs
    rw [if_neg (by omega)]
    exact h.fresh s hs
  · intro p hp
    simp only [Std.ExtTreeMap.getElem?_insert, Nat.compare_eq_eq]
    split
    · rfl
    · exact h.kept p hp

theorem WalReach.storedInv {cfg : FlusherConfig} {bucket : WalBucket} (hclean : ∀ s, cfg.start ≤ s → bucket[s]? = none)
    {w : WalNode} (h : WalReach cfg bucket w) : StoredInv w := by
  induction h with
  | restart => exact ⟨by simp [newFlusher], hclean, by simp [newFlusher, Flusher.reported]⟩
  | @step w w' ev hw hs ih =>
    obtain ⟨hb, hp⟩ := hw.flushReach.inv
    -- a flusher step that books no PUT
    have hmap : ∀ {ev : FlushEvent}, (∀ s, ev ≠ .putDone s true) →
        (w.fl.step ev).map (fun fl => ({ w with fl := fl } : WalNode)) = some w' → StoredInv w' := by
      intro ev hev hm
      obtain ⟨fl, hfl, rfl⟩ := Option.map_eq_some_iff.mp hm
      exact ih.flush hfl fun s hs => absurd hs (hev s)
    unfold WalNode.step at hs
    split at hs
    · cases hs
    next ev hev => exact hmap (fun s h => hev s true h) hs
    next walSeq wire rereads =>
      split at hs
      · cases hs
      next o ho =>
        have hos : o.walSeq = walSeq := by simpa using List.find?_some ho
        have hst : o ∈ w.fl.started := hp.riding o (List.mem_append_left _ (List.mem_of_find?_eq_some ho))
        split at hs
        · dsimp only at hs
          have hround := putRound_spec w.bucket[walSeq]? ⟨⟨w.fl.cfg.node, walSeq⟩, o.sections⟩ wire rereads
          obtain ⟨hbucket, hcell⟩ := w.bucket.fill_round walSeq ⟨⟨w.fl.cfg.node, walSeq⟩, o.sections⟩ wire rereads
          generalize putRound w.bucket[walSeq]? ⟨⟨w.fl.cfg.node, walSeq⟩, o.sections⟩ wire rereads = r at hs hround hbucket hcell
          have hput : StoredInv { w with bucket := w.bucket.fill walSeq r.1 } := by
            rcases hbucket with heq | heq
            · rw [heq]
              exact ih
            · rw [heq, ← hos]
              exact ih.create hb hst _
          split at hs
          · rw [← Option.some.inj hs]
            exact hput
          next e he =>
            obtain ⟨fl, hfl, rfl⟩ := Option.map_eq_some_iff.mp hs
            refine hput.flush hfl ?_
            intro s hs
            obtain ⟨rfl, hgood⟩ := FlushEvent.putDone.inj hs
            show (w.bucket.fill walSeq r.1)[walSeq]?.isSome = true
            rw [hcell]
            cases e with
            | stored => simp [hround.stored he]
            | ours =>
              obtain ⟨st, hst, -⟩ := hround.ours he
              simp [hst]
            | other => cases hgood
        · exact hmap (by simp) hs
    · split at hs
      · exact hmap (by simp) hs
      · cases hs

/-- Nothing buffered, in flight or waiting; the next object is number `n`, and group 0 has taken only numbers below it. -/
structure Quiet (cfg : FlusherConfig) (w : WalNode) (n : Nat) : Prop where
  cfg_eq : w.fl.cfg = cfg
  running : w.fl.running = true ∧ w.fl.failed = false ∧ w.fl.stopping = false
  idle : w.fl.inflight = [] ∧ w.fl.completed = [] ∧ w.fl.deliverC = [] ∧ w.fl.dirtyBytes = 0
  numbers : w.fl.nextSeq = n ∧ w.fl.nextDeliver = n
  empty : ∀ g, (w.fl.buf g).frames = []
  ever : (w.fl.buf 0).haveEver = true → (w.fl.buf 0).lastEver < n

def byteFrame (n : Nat) (b : UInt8) : WalFrame := ⟨opStrSet, 0, 0, n, [], [b]⟩

theorem Flusher.encodable_dirtySections {fl : Flusher} (hcap : ∀ g, frameBytes (fl.buf g).frames ≤ 0xFFFFFFFF) {g : Nat}
    (hne : (fl.buf g).frames ≠ []) : encodable fl.dirtySections = true := by
  unfold encodable
  rw [Bool.and_eq_true]
  constructor
  · by_contra hnil
    have hnil' : fl.dirtySections = [] := by simpa using hnil
    have hfr := framesOf_dirtySections fl 0 g
    rw [hnil'] at hfr
    exact hne hfr.symm
  · rw [List.all_eq_true]
    intro s hs
    obtain ⟨p, hp, rfl⟩ := List.mem_map.mp hs
    obtain ⟨hin, hdirty⟩ := List.mem_filter.mp hp
    have hbuf : fl.buf p.1 = p.2 := by
      have hget := Std.ExtTreeMap.mem_toList_iff_getElem?_eq_some.mp hin
      rw [buf, hget]
      rfl
    have := hcap p.1
    rw [hbuf] at this
    simpa [sectionOf, this] using hdirty

/-- The flusher after one byte is buffered and swapped out. -/
def byteSwapped (fl : Flusher) (n : Nat) (b : UInt8) : Flusher :=
  (fl.took 0 (fl.buf 0) 0 (byteFrame n b) []).startFlush

theorem Quiet.append {cfg : FlusherConfig} {w : WalNode} {n : Nat} (h : Quiet cfg w n) (b : UInt8) :
    w.fl.appendOp 0 0 (byteFrame n b) = some (w.fl.noteAppended 0 (w.fl.buf 0) 0 (byteFrame n b) []) := by
  have htaken : w.fl.admitOp 0 0 (byteFrame n b).seq = some (w.fl.buf 0) := by
    unfold Flusher.admitOp
    simp only [h.running.2.1, h.running.2.2, h.empty 0, Bool.false_eq_true, if_false, ne_eq, not_true_eq_false, false_and]
    rw [if_neg]
    rintro ⟨hev, hle⟩
    have := h.ever hev
    exact absurd hle (Nat.not_le.mpr this)
  unfold Flusher.appendOp
  rw [htaken]
  rfl

theorem Quiet.swapped {cfg : FlusherConfig} {w : WalNode} {n : Nat} (h : Quiet cfg w n) (b : UInt8) :
    ∃ ss, (byteSwapped w.fl n b).inflight = [⟨n, ss⟩] ∧ encodable ss = true ∧
      (WalObject.mk n ss).framesOf 0 = [byteFrame n b] := by
  have hbuf := fun g => Flusher.buf_took w.fl 0 g (w.fl.buf 0) 0 (byteFrame n b) []
  refine ⟨(w.fl.took 0 (w.fl.buf 0) 0 (byteFrame n b) []).dirtySections, ?_, ?_, ?_⟩
  · show w.fl.inflight ++ [_] = _
    rw [h.idle.1]
    show [WalObject.mk w.fl.nextSeq _] = _
    rw [h.numbers.1]
  · refine Flusher.encodable_dirtySections ?_ (g := 0) ?_
    · intro g
      rw [hbuf, h.empty, h.empty]
      split
      · simp [frameBytes, byteFrame, WalFrame.flen, WalFrame.walFrameFixed]
      · simp [frameBytes]
    · rw [hbuf]
      simp
  · rw [Flusher.framesOf_dirtySections, hbuf, h.empty]
    rfl

def byteBooked (fl : Flusher) (n : Nat) (b : UInt8) (o : WalObject) : Flusher :=
  { byteSwapped fl n b with inflight := [], failed := false, completed := [], nextDeliver := n + 1, deliverC := [o] }

/-- The flusher with its one object handed to the sink. -/
def byteDelivered (fl : Flusher) (n : Nat) (b : UInt8) (o : WalObject) : Flusher :=
  { byteBooked fl n b o with deliverC := [], sunk := fl.sunk ++ [o] }

theorem Quiet.delivered {cfg : FlusherConfig} {w : WalNode} {n : Nat} (h : Quiet cfg w n) (b : UInt8) (o : WalObject)
    (bucket : WalBucket) : Quiet cfg ⟨byteDelivered w.fl n b o, bucket⟩ (n + 1) := by
  have hbuf : ∀ g, (byteDelivered w.fl n b o).buf g =
      { (w.fl.took 0 (w.fl.buf 0) 0 (byteFrame n b) []).buf g with frames := [] } := fun g =>
    Flusher.buf_startFlush (w.fl.took 0 (w.fl.buf 0) 0 (byteFrame n b) []) g
  refine ⟨h.cfg_eq, ⟨h.running.1, rfl, h.running.2.2⟩, ⟨rfl, rfl, rfl, rfl⟩, ⟨congrArg (· + 1) h.numbers.1, rfl⟩, fun g => by rw [hbuf], ?_⟩
  intro _
  have hlast : ((byteDelivered w.fl n b o).buf 0).lastEver = n := by
    rw [hbuf]
    simp [Flusher.buf, Flusher.took, Flusher.accept, Flusher.noteAppended, byteFrame]
  show ((byteDelivered w.fl n b o).buf 0).lastEver < n + 1
  omega

/-- The bucket's tags are the node's own, each at its number. -/
def OwnTags (node : Nat) (bucket : WalBucket) : Prop := ∀ (s : Nat) (st : StoredWal), bucket[s]? = some st → st.tag = ⟨node, s⟩

/-- One more object goes out from rest: an object already at its number makes the round end well all the same. -/
theorem Quiet.pump {cfg : FlusherConfig} {bucket : WalBucket} {w : WalNode} {n : Nat} (h : Quiet cfg w n)
    (hr : WalReach cfg bucket w) (htags : ∀ st, w.bucket[n]? = some st → st.tag = ⟨cfg.node, n⟩) (b : UInt8) :
    ∃ w' ss, WalReach cfg bucket w' ∧ Quiet cfg w' (n + 1) ∧ ⟨n, ss⟩ ∈ w'.fl.sunk ∧
      (WalObject.mk n ss).framesOf 0 = [byteFrame n b] ∧ (∀ s, s ≠ n → w'.bucket[s]? = w.bucket[s]?) ∧
      ∀ st, w.bucket[n]? = some st → w'.bucket[n]? = some st := by
  obtain ⟨ss, hfly, henc, hframes⟩ := h.swapped b
  obtain ⟨hrun, hfail, hstop⟩ := h.running
  obtain ⟨hin, hcomp, hq, -⟩ := h.idle
  have h1 : w.step (.flusher (.appendOp 0 0 (byteFrame n b))) =
      some { w with fl := w.fl.took 0 (w.fl.buf 0) 0 (byteFrame n b) [] } := by
    simp only [WalNode.step, Flusher.step, h.append b]
    rfl
  have h2 : WalNode.step { w with fl := w.fl.took 0 (w.fl.buf 0) 0 (byteFrame n b) [] }
      (.flusher (.swap true false)) = some { w with fl := byteSwapped w.fl n b } := by
    have hlen : w.fl.inflight.length < walPipelineDepth := by
      rw [hin]
      decide
    have hdue : (w.fl.took 0 (w.fl.buf 0) 0 (byteFrame n b) []).swapDue true false = true := by
      unfold Flusher.swapDue
      rw [if_neg]
      · simp
      · simp [Flusher.took, Flusher.accept, Flusher.noteAppended, frameBytes, byteFrame, WalFrame.flen, WalFrame.walFrameFixed]
    simp only [WalNode.step, Flusher.step]
    rw [if_pos ⟨hrun, hfail, hlen, hdue⟩]
    rfl
  have hfind : (byteSwapped w.fl n b).inflight.find? (fun o => decide (o.walSeq = n)) = some ⟨n, ss⟩ := by
    rw [hfly]
    simp
  -- the round ends well whether it creates the object or finds the node's own tag there
  obtain ⟨hcell, hend⟩ := putRound_own w.bucket[n]? ⟨⟨cfg.node, n⟩, ss⟩ htags
  obtain ⟨hbucket, hstands⟩ := w.bucket.fill_round n ⟨⟨cfg.node, n⟩, ss⟩ .answered true
  have hdone : (byteSwapped w.fl n b).step (.putDone n true) =
      some (byteBooked w.fl n b ⟨n, ss⟩) := by
    have hc : (byteSwapped w.fl n b).completed = [] := hcomp
    have hd : (byteSwapped w.fl n b).deliverC = [] := hq
    have hn : (byteSwapped w.fl n b).nextDeliver = n := h.numbers.2
    have hf : (byteSwapped w.fl n b).failed = false := hfail
    have hrel : Flusher.release 1 [⟨n, ss⟩] n = ([⟨n, ss⟩], [], n + 1) := by simp [Flusher.release]
    simp only [Flusher.step, hfind, henc, Bool.and_self]
    unfold Flusher.finishPut
    simp only [hf, hc, hd, hn, hfly, List.nil_append, List.length_singleton, hrel, Bool.not_true, Bool.or_self,
      Bool.false_eq_true, if_false]
    have hnil : [WalObject.mk n ss].filter (fun p => decide (p.walSeq ≠ n)) = [] := by simp
    rw [hnil]
    rfl
  have h3 : WalNode.step { w with fl := byteSwapped w.fl n b } (.round n .answered true) =
      some ⟨byteBooked w.fl n b ⟨n, ss⟩, w.bucket.fill n (putRound w.bucket[n]? ⟨⟨cfg.node, n⟩, ss⟩ .answered true).1⟩ := by
    have hnode : (byteSwapped w.fl n b).cfg.node = cfg.node := congrArg FlusherConfig.node h.cfg_eq
    simp only [WalNode.step, hfind, henc, if_true, hnode]
    rcases hend with he | he
    · simp only [he, ne_eq, reduceCtorEq, not_false_eq_true, decide_true, hdone]
      rfl
    · simp only [he, ne_eq, reduceCtorEq, not_false_eq_true, decide_true, hdone]
      rfl
  have h4 : WalNode.step
      ⟨byteBooked w.fl n b ⟨n, ss⟩, w.bucket.fill n (putRound w.bucket[n]? ⟨⟨cfg.node, n⟩, ss⟩ .answered true).1⟩
      (.flusher (.deliver true)) = some ⟨byteDelivered w.fl n b ⟨n, ss⟩,
        w.bucket.fill n (putRound w.bucket[n]? ⟨⟨cfg.node, n⟩, ss⟩ .answered true).1⟩ := rfl
  refine ⟨_, ss, (((hr.step h1).step h2).step h3).step h4, h.delivered b _ _,
    List.mem_append_right _ (List.mem_singleton_self _), hframes, ?_, ?_⟩
  · intro s hs
    rcases hbucket with heq | heq
    · rw [heq]
    · rw [heq, Std.ExtTreeMap.getElem?_insert, if_neg (by rw [Nat.compare_eq_eq]; exact Ne.symm hs)]
  · intro st hst
    rw [hstands, hcell, hst]
    rfl

/-- What any number of crashed incarnations of a node leave in its namespace, with objects deleted at any time. -/
inductive WalHistory (node : Nat) : WalBucket → Prop
  | fresh : WalHistory node ∅
  | crash {cfg : FlusherConfig} {bucket : WalBucket} {w : WalNode} : WalHistory node bucket → cfg.node = node →
      WalReach cfg bucket w → WalHistory node w.bucket
  | delete {bucket : WalBucket} (s : Nat) : WalHistory node bucket → WalHistory node (bucket.erase s)

theorem Flusher.step_cfg {fl fl' : Flusher} {ev : FlushEvent} (h : fl.step ev = some fl') : fl'.cfg = fl.cfg := by
  have happend : ∀ {group : Nat} {r : Option Flusher}, (∀ fl', r = some fl' → Appends fl group fl') →
      some (r.getD fl) = some fl' → fl'.cfg = fl.cfg := by
    intro group r hr he
    rw [← Option.some.inj he]
    cases hres : r with
    | none => rfl
    | some fl'' =>
      obtain ⟨epoch, f, fs, rfl, -⟩ := (hr fl'' hres).run
      rfl
  cases ev with
  | appendOp group epoch f => exact happend (fun _ h => appendOp_spec h) h
  | appendStrSet group epoch slot seq key value expiryMs ladder => exact happend (fun _ h => appendOp_spec h) h
  | appendRun group epoch frames => exact happend (fun _ h => appendRun_spec h) h
  | barrier => rw [← Option.some.inj h]
  | putDone walSeq ok =>
    simp only [Flusher.step] at h
    split at h
    · cases h
    · rw [← Option.some.inj h]
      unfold finishPut
      dsimp only
      split <;> rfl
  | deliver ok =>
    simp only [Flusher.step] at h
    split at h
    · cases h
    · rw [← Option.some.inj h]
      unfold Flusher.deliver
      split <;> rfl
  | close => rw [← Option.some.inj h]
  | swap aged floor | runReturn | loopReturn =>
    simp only [Flusher.step] at h
    split at h
    · exact (congrArg Flusher.cfg (Option.some.inj h)).symm
    · cases h

theorem FlushReach.cfg_eq {cfg : FlusherConfig} {fl : Flusher} (h : FlushReach cfg fl) : fl.cfg = cfg := by
  induction h with
  | new => rfl
  | step _ hs ih => exact (Flusher.step_cfg hs).trans ih

theorem OwnTags.insert {node : Nat} {bucket : WalBucket} (h : OwnTags node bucket) (n : Nat) (body : List RawSection) :
    OwnTags node (bucket.insert n ⟨⟨node, n⟩, body⟩) := by
  intro s st hst
  simp only [Std.ExtTreeMap.getElem?_insert, Nat.compare_eq_eq] at hst
  split at hst
  next heq => rw [← Option.some.inj hst, heq]
  · exact h s st hst

theorem WalReach.ownTags {cfg : FlusherConfig} {bucket : WalBucket} (htags : OwnTags cfg.node bucket) {w : WalNode}
    (h : WalReach cfg bucket w) : OwnTags cfg.node w.bucket := by
  induction h with
  | restart => exact htags
  | @step w w' ev hw hs ih =>
    have hkeep : ∀ {ev : FlushEvent} {b : WalBucket}, OwnTags cfg.node b →
        (w.fl.step ev).map (fun fl => (⟨fl, b⟩ : WalNode)) = some w' → OwnTags cfg.node w'.bucket := by
      intro ev b hb hm
      obtain ⟨fl, -, rfl⟩ := Option.map_eq_some_iff.mp hm
      exact hb
    unfold WalNode.step at hs
    split at hs
    · cases hs
    · exact hkeep ih hs
    next walSeq wire rereads =>
      split at hs
      · cases hs
      next o ho =>
        split at hs
        · dsimp only at hs
          rw [hw.flushReach.cfg_eq] at hs
          obtain ⟨hbucket, -⟩ := w.bucket.fill_round walSeq ⟨⟨cfg.node, walSeq⟩, o.sections⟩ wire rereads
          have hput : OwnTags cfg.node
              (w.bucket.fill walSeq (putRound w.bucket[walSeq]? ⟨⟨cfg.node, walSeq⟩, o.sections⟩ wire rereads).1) := by
            rcases hbucket with heq | heq
            · rw [heq]
              exact ih
            · rw [heq]
              exact ih.insert walSeq o.sections
          split at hs
          · rw [← Option.some.inj hs]
            exact hput
          · exact hkeep hput hs
        · exact hkeep ih hs
    · split at hs
      · exact hkeep ih hs
      · cases hs

theorem WalHistory.ownTags {node : Nat} {bucket : WalBucket} (h : WalHistory node bucket) : OwnTags node bucket := by
  induction h with
  | fresh =>
    intro s st hst
    simp at hst
  | crash _ hnode hw ih =>
    subst hnode
    exact hw.ownTags ih
  | delete s _ ih =>
    intro t st hst
    rw [Std.ExtTreeMap.getElem?_erase] at hst
    split at hst
    · cases hst
    · exact ih t st hst

/-- Objects can be pumped out one by one from the restart on, whatever stands at their numbers. -/
theorem WalReach.exists_quiet {cfg : FlusherConfig} {bucket : WalBucket} (htags : OwnTags cfg.node bucket) (k : Nat) :
    ∃ w, WalReach cfg bucket w ∧ Quiet cfg w (cfg.start + k) ∧ ∀ s, cfg.start + k ≤ s → w.bucket[s]? = bucket[s]? := by
  induction k with
  | zero =>
    refine ⟨_, WalReach.restart, ⟨rfl, ⟨rfl, rfl, rfl⟩, ⟨rfl, rfl, rfl, rfl⟩, ⟨rfl, rfl⟩, ?_, ?_⟩, fun _ _ => rfl⟩
    · intro g
      simp [newFlusher, Flusher.buf, Flusher.GroupBuf.empty]
    · simp [newFlusher, Flusher.buf, Flusher.GroupBuf.empty]
  | succ k ih =>
    obtain ⟨w, hw, hq, hb⟩ := ih
    obtain ⟨w', ss, hw', hq', -, -, hother, -⟩ := hq.pump hw (hw.ownTags htags _) 0
    refine ⟨w', hw', hq', ?_⟩
    intro s hs
    rw [hother s (by omega), hb s (by omega)]

theorem nextWalSeq_start (bucket : WalBucket) (node flushSize : Nat) (verdicts : List WalRef) :
    (FlusherConfig.mk node flushSize (nextWalSeq bucket node verdicts)).start = nextWalSeq bucket node verdicts := by
  have hle := (probe_spec bucket bucket.size (maxOurs node verdicts + 1)).1
  unfold FlusherConfig.start
  exact if_neg (show ¬nextWalSeq bucket node verdicts = 0 by unfold nextWalSeq; omega)

/-- A flusher restarted at the probed number tells the sink of its own bytes only, whatever comes, exactly when the bucket has no
hole before an object past the last number the chain names. -/
theorem WalHistory.restart_faithful_iff {node : Nat} {bucket : WalBucket} (h : WalHistory node bucket)
    (verdicts : List WalRef) (flushSize : Nat) :
    (∀ w, WalReach ⟨node, flushSize, nextWalSeq bucket node verdicts⟩ bucket w → w.Faithful) ↔
      NoHole bucket node verdicts := by
  rw [noHole_iff]
  have hstart := nextWalSeq_start bucket node flushSize verdicts
  constructor
  · intro hall s hs
    by_contra hne
    obtain ⟨st, hst⟩ := Option.ne_none_iff_exists'.mp hne
    obtain ⟨k, rfl⟩ := Nat.exists_eq_add_of_le hs
    obtain ⟨w, hw, hq, hb⟩ := @WalReach.exists_quiet ⟨node, flushSize, nextWalSeq bucket node verdicts⟩ bucket h.ownTags k
    rw [hstart] at hq hb
    have hwst : w.bucket[nextWalSeq bucket node verdicts + k]? = some st := (hb _ (Nat.le_refl _)).trans hst
    -- a byte the stored object does not carry
    obtain ⟨b, hdiff⟩ : ∃ b : UInt8, (WalObject.mk (nextWalSeq bucket node verdicts + k) st.body).framesOf 0 ≠
        [byteFrame (nextWalSeq bucket node verdicts + k) b] := by
      by_contra hno
      have h0 := not_not.mp (not_exists.mp hno 0)
      have h1 := not_not.mp (not_exists.mp hno 1)
      rw [h0] at h1
      simp [byteFrame] at h1
    obtain ⟨w', ss, hw', -, hsunk, hframes, -, hsame⟩ := hq.pump hw (hw.ownTags h.ownTags _) b
    have hf := hall w' hw' _ hsunk
    rw [hsame st hwst] at hf
    have hbody : st.body = ss := Option.some.inj hf
    rw [hbody] at hdiff
    exact hdiff hframes
  · intro hclean w hw o ho
    have hinv := hw.storedInv (hstart.symm ▸ hclean)
    obtain ⟨hb, hp⟩ := hw.flushReach.inv
    obtain ⟨st, hst⟩ := Option.isSome_iff_exists.mp (hinv.kept o (Flusher.mem_reported.mpr (Or.inl ho)))
    rw [hst]
    exact congrArg some (hinv.agree o (hp.sunk_prefix.subset ho) st hst)

/-- Two objects in flight, the second of which lands before the crash. -/
def secondPutLands : List WalEvent :=
  [.flusher (.appendOp 0 1 (byteFrame 1 1)), .flusher (.swap true false), .flusher (.appendOp 0 1 (byteFrame 2 2)),
    .flusher (.swap true false), .round 2 .answered true]

def twoMoreObjects : List WalEvent :=
  [.flusher (.appendOp 0 1 (byteFrame 1 3)), .flusher (.swap true false), .round 1 .answered true, .flusher (.deliver true),
    .flusher (.appendOp 0 1 (byteFrame 2 4)), .flusher (.swap true false), .round 2 .answered true, .flusher (.deliver true)]

theorem secondPutLands_runs : ((WalNode.mk (newFlusher ⟨9, 0, 0⟩) ∅).run secondPutLands).isSome = true := by decide +kernel

def orphanBucket : WalBucket := (((WalNode.mk (newFlusher ⟨9, 0, 0⟩) ∅).run secondPutLands).get secondPutLands_runs).bucket

theorem orphanBucket_history : WalHistory 9 orphanBucket :=
  WalHistory.crash WalHistory.fresh rfl (WalReach.restart.of_run (Option.some_get _).symm)

theorem twoMoreObjects_runs :
    ((WalNode.mk (newFlusher ⟨9, 0, nextWalSeq orphanBucket 9 []⟩) orphanBucket).run twoMoreObjects).isSome = true := by
  decide +kernel

def adoptingNode : WalNode :=
  ((WalNode.mk (newFlusher ⟨9, 0, nextWalSeq orphanBucket 9 []⟩) orphanBucket).run twoMoreObjects).get twoMoreObjects_runs

/-- The probe stops in the hole before the orphan, and the second object is booked over the earlier incarnation's bytes. -/
theorem orphan_past_hole_adopted : WalHistory 9 orphanBucket ∧ nextWalSeq orphanBucket 9 [] = 1 ∧
    WalReach ⟨9, 0, nextWalSeq orphanBucket 9 []⟩ orphanBucket adoptingNode ∧
    adoptingNode.fl.sunk = [⟨1, [⟨0, 1, [byteFrame 1 3], 1, 1⟩]⟩, ⟨2, [⟨0, 1, [byteFrame 2 4], 2, 2⟩]⟩] ∧
    (adoptingNode.bucket[2]?).map Stored.body = some [⟨0, 1, [byteFrame 2 2], 2, 2⟩] ∧ ¬adoptingNode.Faithful := by
  refine ⟨orphanBucket_history, by decide +kernel, WalReach.restart.of_run (Option.some_get _).symm, by decide +kernel,
    by decide +kernel, ?_⟩
  unfold WalNode.Faithful
  decide +kernel

/-- Three objects in flight, of which the first two land before the crash. -/
def twoPutsLand : List WalEvent :=
  [.flusher (.appendOp 0 1 (byteFrame 1 1)), .flusher (.swap true false), .flusher (.appendOp 0 1 (byteFrame 2 2)),
    .flusher (.swap true false), .flusher (.appendOp 0 1 (byteFrame 3 3)), .flusher (.swap true false),
    .round 2 .answered true, .round 1 .answered true]

theorem twoPutsLand_runs : ((WalNode.mk (newFlusher ⟨9, 0, 0⟩) ∅).run twoPutsLand).isSome = true := by decide +kernel

/-- The first object, which the chain names, has been deleted since. -/
def trimmedBucket : WalBucket := (((WalNode.mk (newFlusher ⟨9, 0, 0⟩) ∅).run twoPutsLand).get twoPutsLand_runs).bucket.erase 1

theorem trimmed_restart_faithful : WalHistory 9 trimmedBucket ∧ nextWalSeq trimmedBucket 9 [⟨9, 1⟩] = 3 ∧
    ∀ w, WalReach ⟨9, 0, nextWalSeq trimmedBucket 9 [⟨9, 1⟩]⟩ trimmedBucket w → w.Faithful := by
  have hist : WalHistory 9 trimmedBucket :=
    .delete 1 (.crash .fresh rfl (WalReach.restart.of_run (Option.some_get _).symm))
  have hmem : ∀ t, t ∈ trimmedBucket ↔ t = 2 := by
    intro t
    rw [← Std.ExtTreeMap.mem_keys, show trimmedBucket.keys = [2] by decide +kernel, List.mem_singleton]
  refine ⟨hist, by decide +kernel, (hist.restart_faithful_iff [⟨9, 1⟩] 0).mpr fun s hs t ht hts => ?_⟩
  have hm : maxOurs 9 [⟨9, 1⟩] = 1 := by decide
  rw [hmem] at hs ⊢
  omega

end Aki.Obs1
