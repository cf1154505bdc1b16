import Aki.AkiRecordRun

namespace Aki.Akifile

open ByteDevice

abbrev Batch := UInt16 × List UInt8

/-- The file, and the counter of every shard's record log. The counters live in the process and start at zero. -/
structure SeqState where
  st : State
  seq : UInt16 → UInt64

/-- `flush` of every shard in one group commit: a batch takes the next number of its shard, an empty batch is not cut. -/
def number : (UInt16 → UInt64) → List Batch → (UInt16 → UInt64) × List Pending
  | seq, [] => (seq, [])
  | seq, (shard, payload) :: bs =>
    if payload = [] then number seq bs
    else
      let r := number (fun i => if i = shard then seq i + 1 else seq i) bs
      (r.1, LogState.logPending shard (seq shard + 1) payload :: r.2)

inductive SeqOp where
  | commit (due : Bool) (batches : List Batch) (fault : Fault)
  | reopen
  | crash (batches : List Batch) (fates : List Fate)

/-- `newAkiRlog` builds a record log with the counter at zero, whatever recovery found. -/
def SeqState.op (policy : SyncPolicy) (s : SeqState) : SeqOp → SeqState
  | .commit due batches fault => ⟨(s.st.appendGroup policy due (number s.seq batches).2 fault).1, (number s.seq batches).1⟩
  | .reopen => ⟨reopened s.st.live, fun _ => 0⟩
  | .crash batches fates => ⟨s.st.crash (number s.seq batches).2 fates, fun _ => 0⟩

def SeqState.ops (policy : SyncPolicy) (s : SeqState) (os : List SeqOp) : SeqState := os.foldl (SeqState.op policy) s

def createdSeq : SeqState := ⟨created, fun _ => 0⟩

/-- The shard_seq values of one shard's segments, along the file. -/
def shardSeqs (d : Dev) (shard : UInt16) : List UInt64 :=
  ((tailSegs d).filter fun x => decide (x.header.shard = shard)).map fun x => x.header.shardSeq

/-- A shard whose log has cut nothing yet in this opening has no segment in the file, and no counter wraps. -/
def Unused (s : SeqState) (batches : List Batch) : Prop :=
  ∀ b ∈ batches, (s.seq b.1 = 0 → ∀ x ∈ tailSegs s.st.live, x.header.shard ≠ b.1) ∧ (s.seq b.1).toNat + batches.length < 2 ^ 64

def FitSeqOp (s : SeqState) : SeqOp → Prop
  | .commit _ batches fault => Unused s batches ∧ Clear s.st (number s.seq batches).2 fault
  | .reopen => True
  | .crash batches fates => Unused s batches ∧ Cut s.st (number s.seq batches).2 fates

def FitSeq (policy : SyncPolicy) : SeqState → List SeqOp → Prop
  | _, [] => True
  | s, o :: os => FitSeqOp s o ∧ FitSeq policy (s.op policy o) os

def Ascending (xs : List Seg) : Prop :=
  xs.Pairwise fun a b => a.header.shard = b.header.shard → a.header.shardSeq < b.header.shardSeq

/-- The segments of a numbered group continue their shards' counters. -/
structure Numbered (seq : UInt16 → UInt64) (bs : List Batch) (xs : List Seg) : Prop where
  grows : ∀ i, seq i ≤ (number seq bs).1 i
  others : ∀ i, i ∉ bs.map Prod.fst → (number seq bs).1 i = seq i
  bound : ∀ x ∈ xs, x.header.shard ∈ bs.map Prod.fst ∧ seq x.header.shard < x.header.shardSeq ∧
    x.header.shardSeq ≤ (number seq bs).1 x.header.shard
  ascending : Ascending xs

theorem number_numbered (bs : List Batch) : ∀ (seq : UInt16 → UInt64) (f : File),
    (∀ b ∈ bs, (seq b.1).toNat + bs.length < 2 ^ 64) → Numbered seq bs (f.segs (number seq bs).2) := by
  induction bs with
  | nil => exact fun seq f _ => ⟨fun _ => UInt64.le_refl _, fun _ _ => rfl, by simp [number, File.segs, File.lay], .nil⟩
  | cons b bs ih =>
    obtain ⟨shard, payload⟩ := b
    intro seq f h
    have hshard := h _ List.mem_cons_self
    rw [List.length_cons] at h hshard
    by_cases hp : payload = []
    · obtain ⟨hg, ho, hb, ha⟩ := ih seq f fun b hb => by have := h b (List.mem_cons_of_mem _ hb); omega
      have he : number seq ((shard, payload) :: bs) = number seq bs := by rw [number, if_pos hp]
      rw [he]
      refine ⟨by rw [he]; exact hg, fun i hi => ?_, fun x hx => ?_, ha⟩
      · rw [he]
        exact ho i fun hm => hi (List.mem_cons_of_mem _ hm)
      · rw [he]
        exact ⟨List.mem_cons_of_mem _ (hb x hx).1, (hb x hx).2⟩
    · generalize hseq : (fun i => if i = shard then seq i + 1 else seq i) = seq'
      have hsucc : (seq shard + 1).toNat = (seq shard).toNat + 1 := by
        rw [UInt64.toNat_add]
        exact Nat.mod_eq_of_lt (show (seq shard).toNat + 1 < 2 ^ 64 by dsimp only at hshard; omega)
      have hself : seq' shard = seq shard + 1 := by rw [← hseq]; exact if_pos rfl
      have hother : ∀ i, i ≠ shard → seq' i = seq i := fun i hi => by rw [← hseq]; exact if_neg hi
      have hle : ∀ i, seq i ≤ seq' i := by
        intro i
        by_cases hi : i = shard
        · rw [hi, hself, UInt64.le_iff_toNat_le]; omega
        · rw [hother i hi]; exact UInt64.le_refl _
      obtain ⟨hg, ho, hb, ha⟩ := ih seq' ⟨f.cursor + segmentSpan payload.length, f.globalSeq + 1⟩ fun b hb => by
        have := h b (List.mem_cons_of_mem _ hb)
        by_cases hi : b.1 = shard
        · rw [hi, hself]; rw [hi] at this; omega
        · rw [hother _ hi]; omega
      have he : number seq ((shard, payload) :: bs) =
          ((number seq' bs).1, LogState.logPending shard (seq shard + 1) payload :: (number seq' bs).2) := by
        rw [number, if_neg hp, hseq]
      rw [he]
      refine ⟨fun i => ?_, fun i hi => ?_, fun x hx => ?_, ?_⟩
      · rw [he]
        exact UInt64.le_trans (hle i) (hg i)
      · rw [he]
        have hne : i ≠ shard := fun hc => hi (by simp [hc])
        exact (ho i fun hm => hi (List.mem_cons_of_mem _ hm)).trans (hother i hne)
      · rw [he]
        rcases List.mem_cons.mp hx with rfl | hx
        · refine ⟨List.mem_cons_self, ?_, ?_⟩
          · change seq shard < seq shard + 1
            rw [UInt64.lt_iff_toNat_lt]; omega
          · change seq shard + 1 ≤ (number seq' bs).1 shard
            rw [← hself]
            exact hg shard
        · obtain ⟨hm, hlt, hbd⟩ := hb x hx
          exact ⟨List.mem_cons_of_mem _ hm, UInt64.lt_of_le_of_lt (hle _) hlt, hbd⟩
      · refine List.pairwise_cons.mpr ⟨fun x hx hs => ?_, ha⟩
        change shard = x.header.shard at hs
        change seq shard + 1 < x.header.shardSeq
        rw [← hself, hs]
        exact (hb x hx).2.1

structure SeqInv (s : SeqState) : Prop where
  file : Inv s.st
  ascending : Ascending s.st.log
  bounded : ∀ x ∈ s.st.log, s.seq x.header.shard ≠ 0 → x.header.shardSeq ≤ s.seq x.header.shard

variable {s : SeqState} {policy : SyncPolicy}

theorem created_seqInv : SeqInv createdSeq := ⟨created_inv, .nil, by simp [createdSeq, created, State.log]⟩

theorem SeqInv.tail (h : SeqInv s) : tailSegs s.st.live = s.st.log := tailSegs_chain h.file.chain h.file.stop

/-- A group of shards that continue their own counters goes behind the log in order. -/
theorem SeqInv.append (h : SeqInv s) {batches : List Batch} (hu : Unused s batches) :
    Numbered s.seq batches (s.st.file.segs (number s.seq batches).2) ∧
      Ascending (s.st.log ++ s.st.file.segs (number s.seq batches).2) := by
  have hn := number_numbered batches s.seq s.st.file fun b hb => (hu b hb).2
  refine ⟨hn, List.pairwise_append.mpr ⟨h.ascending, hn.ascending, fun x hx y hy hs => ?_⟩⟩
  obtain ⟨hm, hlt, -⟩ := hn.bound y hy
  obtain ⟨b, hb, hshard⟩ := List.mem_map.mp hm
  rw [← hs] at hlt hshard
  by_cases hz : s.seq x.header.shard = 0
  · rw [← hshard] at hz
    exact absurd hshard.symm ((hu b hb).1 hz x (by rw [h.tail]; exact hx))
  · exact UInt64.lt_of_le_of_lt (h.bounded x hx hz) hlt

theorem SeqInv.commit (h : SeqInv s) {due : Bool} {batches : List Batch} {fault : Fault} (hu : Unused s batches)
    (hc : Clear s.st (number s.seq batches).2 fault) : SeqInv (s.op policy (.commit due batches fault)) := by
  obtain ⟨hn, ha⟩ := h.append hu
  obtain ⟨m, hm⟩ := lay_landed (number s.seq batches).2 s.st.file fault
  have hlog : ∃ m, (s.st.appendGroup policy due (number s.seq batches).2 fault).1.log =
      s.st.log ++ (s.st.file.segs (number s.seq batches).2).take m := by
    rcases appendGroup_cases policy due (number s.seq batches).2 fault s.st with ⟨he, -⟩ | he | he
    · exact ⟨0, by rw [he]; simp⟩
    · exact ⟨m, by rw [he, lays_log, hm]⟩
    · exact ⟨m, by rw [he, flush_log, lays_log, hm]⟩
  obtain ⟨m, hlog⟩ := hlog
  refine ⟨h.file.appendGroup hc policy due, ?_, fun x hx hne => ?_⟩
  · change Ascending (s.st.appendGroup policy due (number s.seq batches).2 fault).1.log
    rw [hlog]
    exact ha.sublist ((List.take_sublist _ _).append_left _)
  · change x ∈ (s.st.appendGroup policy due (number s.seq batches).2 fault).1.log at hx
    rw [hlog] at hx
    change (number s.seq batches).1 x.header.shard ≠ 0 at hne
    rcases List.mem_append.mp hx with hx | hx
    · by_cases hz : s.seq x.header.shard = 0
      · -- the shard has a segment, so it is none of those cut here, and its counter still stands at zero
        refine absurd ((hn.others _ fun hm => ?_).trans hz) hne
        obtain ⟨b, hb, hshard⟩ := List.mem_map.mp hm
        exact (hu b hb).1 (by rw [hshard]; exact hz) x (by rw [h.tail]; exact hx) hshard.symm
      · exact UInt64.le_trans (h.bounded x hx hz) (hn.grows _)
    · exact (hn.bound x (List.mem_of_mem_take hx)).2.2

theorem SeqInv.crash (h : SeqInv s) {batches : List Batch} {fates : List Fate} (hu : Unused s batches)
    (hc : Cut s.st (number s.seq batches).2 fates) : SeqInv (s.op policy (.crash batches fates)) := by
  obtain ⟨hinv, m, hlog⟩ := h.file.crash hc
  refine ⟨hinv, ?_, fun x _ hne => absurd rfl hne⟩
  change Ascending (s.st.crash (number s.seq batches).2 fates).log
  have ha := (h.append hu).2
  rw [State.log, List.append_assoc] at ha
  rw [hlog]
  exact ha.sublist ((List.take_sublist _ _).append_left _)

theorem SeqInv.op (h : SeqInv s) {o : SeqOp} (hfit : FitSeqOp s o) : SeqInv (s.op policy o) := by
  cases o with
  | commit due batches fault => exact h.commit hfit.1 hfit.2
  | reopen =>
    obtain ⟨hlog, hinv⟩ := reopened_inv h.file.chain h.file.stop h.file.increasing
    refine ⟨hinv, ?_, fun x _ hne => absurd rfl hne⟩
    change Ascending (reopened s.st.live).log
    rw [hlog]
    exact h.ascending
  | crash batches fates => exact h.crash hfit.1 hfit.2

theorem SeqInv.ops (h : SeqInv s) {os : List SeqOp} (hfit : FitSeq policy s os) : SeqInv (s.ops policy os) := by
  induction os generalizing s with
  | nil => exact h
  | cons o os ih => exact ih (h.op hfit.1) hfit.2

/-- In every run in which no shard cuts the first segment of an opening onto a file that holds one of its segments, and no counter
wraps, the shard_seq values of each shard are strictly increasing along the file. -/
theorem shardSeqs_increasing (policy : SyncPolicy) (os : List SeqOp) (hfit : FitSeq policy createdSeq os) (shard : UInt16) :
    (shardSeqs (createdSeq.ops policy os).st.live shard).Pairwise (· < ·) := by
  have h := created_seqInv.ops hfit
  rw [shardSeqs, h.tail, List.pairwise_map]
  refine (h.ascending.filter _).imp_of_mem fun ha hb hlt => hlt ?_
  rw [List.mem_filter, decide_eq_true_eq] at ha hb
  rw [ha.2, hb.2]

/-- Two shards, one in each opening. -/
theorem shardSeqs_increasing_two_openings :
    FitSeq .always createdSeq [.commit false [(0, [1])] .none, .reopen, .commit false [(1, [2])] .none, .commit false [(1, [3])] .none] ∧
      (shardSeqs (createdSeq.ops .always [.commit false [(0, [1])] .none, .reopen, .commit false [(1, [2])] .none,
        .commit false [(1, [3])] .none]).st.live 1).Pairwise (· < ·) := by
  have hclear {s : SeqState} {b : Batch} (hseq : s.st.file.globalSeq + 1 < 2 ^ 64) (hb : (number s.seq [b]).2.length = 1)
      (hlen : ∀ p ∈ (number s.seq [b]).2, p.payload.length < 2 ^ 64)
      (hend : s.st.live.size < (s.st.file.lay (number s.seq [b]).2 .none).file.cursor) : Clear s.st (number s.seq [b]).2 .none :=
    ⟨by rw [hb]; exact hseq, hlen, fun _ => by rw [segAt, if_neg (by omega)], fun hne => absurd (segs_length _ _) hne⟩
  have hfit : FitSeq .always createdSeq
      [.commit false [(0, [1])] .none, .reopen, .commit false [(1, [2])] .none, .commit false [(1, [3])] .none] := by
    refine ⟨⟨?_, hclear ?_ ?_ ?_ ?_⟩, trivial, ⟨?_, hclear ?_ ?_ ?_ ?_⟩, ⟨?_, hclear ?_ ?_ ?_ ?_⟩, trivial⟩
    all_goals first | (unfold Unused; decide +kernel) | decide +kernel
  exact ⟨hfit, shardSeqs_increasing .always _ hfit 1⟩

/-- A flush, a reopen and a flush of the same shard number both segments 1. -/
theorem reopened_shard_numbers_again :
    shardSeqs (createdSeq.ops .always [.commit false [(0, [1])] .none, .reopen, .commit false [(0, [2])] .none]).st.live 0 = [1, 1] := by
  decide +kernel

end Aki.Akifile
