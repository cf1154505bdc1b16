import Aki.StoreRun

namespace Aki.Sqlo1b

/-- The map after any sound history is the fold of the batches it committed, in order, over the empty map; the store opens after
every crash, torn or not, and nothing of a batch without its mark ever shows. -/
theorem run_folds_committed (c : RootCodec) (segSize : Nat) (hseg : Frame.len (.sealed 0) ≤ segSize) (h : List Event)
    (hh : AllFrom (fun s e => e.Sound c s) c (createStore segSize) h) :
    ∃ t, (createStore segSize).run c h = some t ∧
      plainView t.recs = ((createStore segSize).history c h).foldl Batch.onPlain fun _ => none := by
  obtain ⟨t, hrun, -, -, hview⟩ := (sane_createStore hseg).run_exact rfl hh
  exact ⟨t, hrun, hview⟩

/-- A type layer that claims no payload. -/
def plainCodec : RootCodec :=
  ⟨fun _ => none, fun _ => none, fun _ => none, fun _ => none, fun _ => none, fun _ => none, fun _ _ _ => none⟩

def plainPut (k v : UInt8) : Op := .put ⟨[k], [v], 0, 0, false, false, false⟩

theorem plainPuts_ok (seq : Int) (kvs : List (UInt8 × UInt8)) :
    Batch.Rootless ⟨seq, kvs.map fun kv => plainPut kv.1 kv.2, []⟩ ∧ Batch.Fits ⟨seq, kvs.map fun kv => plainPut kv.1 kv.2, []⟩ := by
  have hput : ∀ r, Op.put r ∈ kvs.map (fun kv => plainPut kv.1 kv.2) → ∃ k v, r = ⟨[k], [v], 0, 0, false, false, false⟩ := by
    intro r hr
    obtain ⟨kv, -, heq⟩ := List.mem_map.mp hr
    exact ⟨kv.1, kv.2, (Op.put.inj heq).symm⟩
  constructor
  · intro r hr
    obtain ⟨k, v, rfl⟩ := hput r hr
    exact ⟨rfl, by simp [subkind, subkeySize]⟩
  · intro r hr
    obtain ⟨k, v, rfl⟩ := hput r hr
    exact .inl (by simp [seamRecord, Record.encodedLen, Record.optLen, blobThreshold])

/-- The crash tears the second batch behind its first put; the reopened store cuts the put off, and the next opening does again. -/
def tornHistory : List Event :=
  [.apply ⟨true, true, true⟩ ⟨1, [plainPut 97 1], []⟩, .crash (some ⟨2, [plainPut 98 2, plainPut 99 3], []⟩) 1, .crash none 0]

theorem torn_sound : AllFrom (fun s e => e.Sound plainCodec s) plainCodec (createStore 200) tornHistory := by
  refine ⟨⟨⟨?_, ?_, ?_⟩, fun _ _ => ?_⟩, fun t ht => ?_⟩
  · exact (plainPuts_ok 1 [(97, 1)]).1
  · exact (plainPuts_ok 1 [(97, 1)]).2
  · show _ ≤ _
    decide
  · exact ⟨rfl, fun f hf => absurd hf List.not_mem_nil⟩
  · obtain rfl := Option.some.inj ht
    refine ⟨⟨⟨fun x hx => ?_, ?_⟩, fun h => ?_⟩, fun t ht => ⟨⟨⟨fun x hx => ?_, ?_⟩, fun h => ?_⟩, fun _ _ => trivial⟩⟩
    · obtain rfl := Option.some.inj hx
      exact plainPuts_ok 2 [(98, 2), (99, 3)]
    · decide +kernel
    · exact absurd h (by decide +kernel)
    · cases hx
    · have hroom : ((((createStore 200).applyBatch plainCodec ⟨true, true, true⟩ ⟨1, [plainPut 97 1], []⟩).1.step plainCodec
          (.crash (some ⟨2, [plainPut 98 2, plainPut 99 3], []⟩) 1)).all fun t =>
          decide (restoredExtents (t.wal.log ++ (t.unsynced plainCodec none).take 0) +
            (t.wal.log ++ (t.unsynced plainCodec none).take 0).length * storeGrowExtents ≤ 2 ^ 40)) = true := by decide +kernel
      rw [ht] at hroom
      exact of_decide_eq_true hroom
    · rw [List.take_zero] at h
      cases h

theorem torn_batch_folds : ∃ t, (createStore 200).run plainCodec tornHistory = some t ∧
    plainView t.recs = ((createStore 200).history plainCodec tornHistory).foldl Batch.onPlain fun _ => none :=
  run_folds_committed plainCodec 200 (by decide) tornHistory torn_sound

/-- The second batch loses its mark in a crash that keeps its first put; the store drops the put on opening, but the
third batch's mark lands behind it, and the next opening takes it in. -/
theorem dropped_put_returns :
    (((createStore 200).run plainCodec
        [.apply ⟨true, true, true⟩ ⟨1, [plainPut 97 1], []⟩, .crash (some ⟨2, [plainPut 98 2, plainPut 99 3], []⟩) 1,
          .apply ⟨true, true, true⟩ ⟨3, [plainPut 100 4], []⟩, .crash none 0]).map fun t =>
          (plainView t.recs [98]).map Record.value) = some (some [2]) ∧
      (((createStore 200).history plainCodec
        [.apply ⟨true, true, true⟩ ⟨1, [plainPut 97 1], []⟩, .crash (some ⟨2, [plainPut 98 2, plainPut 99 3], []⟩) 1,
          .apply ⟨true, true, true⟩ ⟨3, [plainPut 100 4], []⟩, .crash none 0]).foldl Batch.onPlain fun _ => none) [98] = none := by
  decide +kernel

def Store.replies (c : RootCodec) (s : Store) : List Event → List Outcome
  | [] => []
  | .apply io b :: es => (s.applyBatch c io b).2 :: (s.applyBatch c io b).1.replies c es
  | .crash b kept :: es => (s.step c (.crash b kept)).elim [] fun t => t.replies c es

/-- What an early failure leaves: everything as it was. -/
theorem applyBatch_early {c : RootCodec} {io : CallIO} {s : Store} {b : Batch} (h : TurnedDownEarly c io s b) :
    (s.applyBatch c io b).1 = s := by
  unfold Store.applyBatch
  split
  · rfl
  next hbroken =>
  split
  · rfl
  next hdone =>
  split
  · rfl
  split
  · rfl
  next ps hplan =>
  rcases h with h | h | h | ⟨f, hf, hlen⟩
  · exact absurd h hbroken
  · exact absurd (by rw [h]; rfl) hdone
  · rw [hplan] at h
    cases h
  · rw [planFrames, hplan, Option.getD_some] at hf
    obtain ⟨fs, hfs⟩ := List.head?_eq_some_iff.mp hf
    have happend : s.wal.appendAll (ps.filterMap Planned.frame?) = (s.wal, false) := by
      rw [hfs, Wal.appendAll, Wal.append, if_pos hlen]
    rw [happend]

/-- A put of a value longer than a segment. -/
def wideOp : Op := .put ⟨[98], List.replicate 300 0, 0, 0, false, false, false⟩

section Synced

variable {c : RootCodec} {s t : Store} {b : Batch}

theorem fits_of_install (h : s.install b.planned = some t) : b.Fits := by
  intro r hr
  rw [Store.install] at h
  split at h
  · cases h
  next u hplace =>
    exact Store.placeAll_installable hplace _ (List.mem_mergeSort.mpr (planned_record_of_put hr))

/-- With a working sidecar, a call that reaches its flush reaches its apply step. -/
theorem applyBatch_of_launch (hb : b.Rootless) (hlaunch : (s.launch c b).isSome = true) :
    s.applyBatch c ⟨true, true, true⟩ b = ((synced s b).install b.planned).elim ({ synced s b with broken := true }, .poisoned)
      fun t => ({ t with hw := b.seq }, .ok) := by
  rcases applyBatch_cases c ⟨true, true, true⟩ s b with ⟨-, -, h⟩ | ⟨w, n, -, h⟩ | ⟨ps, s', hplan, -, -, -, hs', h⟩
  · rw [h] at hlaunch
    cases hlaunch
  · rw [h.failed rfl] at hlaunch
    cases hlaunch
  · obtain ⟨rfl, -⟩ := plan_rootless hb hplan
    rw [frames_of_plan] at hs'
    rw [h, hs']
    rfl

/-- The records fit exactly when the apply step goes through. -/
theorem applyBatch_ok_iff_fits (hs : Sane s) (hb : b.Rootless) (hlaunch : (s.launch c b).isSome = true) (hroom : b.Room s) :
    (s.applyBatch c ⟨true, true, true⟩ b).2 = .ok ↔ b.Fits := by
  constructor
  · intro hok
    rw [applyBatch_of_launch hb hlaunch] at hok
    cases hinstall : (synced s b).install b.planned with
    | none => simp [hinstall] at hok
    | some t => exact fits_of_install hinstall
  · intro hfits
    rcases hs.apply c ⟨true, true, true⟩ hb hfits hroom with ⟨h, -⟩ | ⟨w, n, -, h, -⟩ | ⟨t, h, -⟩
    · rw [h]
    · rw [h.failed rfl] at hlaunch
      cases hlaunch
    · rw [h]

theorem tailOps_unsynced (hb : b.Rootless) (hlaunch : (s.launch c b).isSome = true) :
    tailOps (s.wal.log ++ s.unsynced c (some b)) = s.appended ++ b.frames ∧
      ∀ r, Op.put r ∈ b.ops → (seamRecord r).validateEnvelope = true := by
  rcases unsynced_cases c s (some b) fun x hx => Option.some.inj hx ▸ hb with ⟨-, h⟩ | ⟨x, hx, -, heq, hvalid⟩
  · rw [h b rfl] at hlaunch
    cases hlaunch
  · obtain rfl := Option.some.inj hx
    rw [heq]
    exact ⟨tailOps_synced, hvalid⟩

theorem fits_of_openStore (hs : Sane s) (hb : b.Rootless) (hlaunch : (s.launch c b).isSome = true)
    (hopen : openStore c s.wal.segSize (s.wal.log ++ s.unsynced c (some b)) = some t) : b.Fits := by
  intro r hr
  have hops : truncateTail (tailOps (s.wal.log ++ s.unsynced c (some b))) = s.appended ++ b.frames := by
    rw [(tailOps_unsynced hb hlaunch).1, truncateTail_batch]
  refine openStore_installable hopen ?_ (r := seamRecord r) ?_
  · rw [hops]
    intro f hf
    rcases List.mem_append.mp hf with hf | hf
    · exact (hs.plain f hf).bare
    · simp only [Batch.frames, List.mem_append, List.mem_map, List.mem_singleton] at hf
      rcases hf with (⟨op, hop, rfl⟩ | ⟨bp, -, rfl⟩) | rfl
      · cases op with
        | put x =>
          rintro r' hr'
          obtain rfl := Frame.put.inj hr'
          exact (seamRecord_rtype (hb x hop).1).1
        | del k =>
          intro r' hr'
          cases hr'
      all_goals
        intro r' hr'
        cases hr'
  · rw [hops]
    simp only [Batch.frames, List.mem_append, List.mem_map]
    exact .inr (.inl (.inl ⟨_, hr, rfl⟩))

end Synced

section Megabyte

variable {v : List UInt8} (hv : v.length = 2 ^ 20)
include hv

/-- A put of a megabyte goes through the encoder and the sidecar. -/
theorem launch_megabyte :
    (createStore (2 ^ 21)).launch plainCodec ⟨1, [.put ⟨[97], v, 0, 0, false, false, false⟩], []⟩ =
      some ⟨2 ^ 21, [], [.put ⟨.string, [97], v, none, none⟩, .mark 1], []⟩ := by
  have hvalid : (Record.mk .string [97] v none none).validateEnvelope = true := by
    simp [Record.validateEnvelope, Record.planed, Record.encodedLen, Record.optLen, hv]
  have hplan : plan plainCodec ⟨1, [.put ⟨[97], v, 0, 0, false, false, false⟩], []⟩ =
      some [.put ⟨.string, [97], v, none, none⟩, .mark 1] := by
    simp [plan, planOp, planPut, seamRecord, hvalid]
  simp [Store.launch, createStore, hplan, Planned.frame?, Wal.appendAll, Wal.append, Wal.flush, framesLen, Frame.len,
    walHdrSize, Record.optLen, hv]

/-- Its record needs more groups than a blob extent has. -/
theorem megabyte_not_fits : ¬ Batch.Fits ⟨1, [.put ⟨[97], v, 0, 0, false, false, false⟩], []⟩ := by
  intro h
  have hlen : (seamRecord ⟨[97], v, 0, 0, false, false, false⟩).encodedLen = 17 + 2 ^ 20 := by
    simp [seamRecord, Record.encodedLen, Record.optLen, hv]
  have hfit := h _ (List.mem_singleton.mpr rfl)
  rw [hlen] at hfit
  exact absurd hfit (by decide)

end Megabyte

end Aki.Sqlo1b
