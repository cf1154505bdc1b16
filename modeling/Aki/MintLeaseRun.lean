import Aki.MintLease

namespace Aki.Sqlo1b

theorem genKey_ne_leaseKey (rooth : Nat) : genKey rooth ≠ leaseKey := by
  intro h
  have := congrArg (·[9]?) h
  simp [genKey, leaseKey, leBytes] at this

theorem rootkeyKey_ne_leaseKey (rooth : Nat) : rootkeyKey rooth ≠ leaseKey := by
  intro h
  have := congrArg (·[9]?) h
  simp [rootkeyKey, rootkeyTag, leaseKey, leBytes] at this

/-- A batch's steps leave the lease record to the leases. -/
def Planned.Clean : Planned → Prop
  | .put r => r.key = leaseKey → r.rtype ≠ .metadata
  | .elided r => r.key = leaseKey → r.rtype ≠ .metadata
  | .del k => k ≠ leaseKey
  | _ => True

theorem Planned.Clean.frame {p : Planned} (h : p.Clean) {f : Frame} (hf : p.frame? = some f) : (SideFrame.data f).Clean := by
  cases p with
  | elided r => cases hf
  | bump b =>
    cases hf
    exact genKey_ne_leaseKey b.rooth
  | put r =>
    cases hf
    exact h
  | del k =>
    cases hf
    exact h
  | mark seq =>
    cases hf
    trivial

theorem seamRecord_not_metadata (r : SeamRecord) : (seamRecord r).rtype ≠ .metadata := by
  simp only [seamRecord]
  split
  · decide
  · split
    · decide
    · split <;> decide

theorem mem_of_mapM {α β : Type} {f : α → Option β} {l : List α} {out : List β} (h : l.mapM f = some out) {y : β} (hy : y ∈ out) :
    ∃ x ∈ l, f x = some y := by
  induction l generalizing out with
  | nil =>
    cases h
    exact absurd hy List.not_mem_nil
  | cons x l ih =>
    rw [List.mapM_cons] at h
    obtain ⟨z, hz, h⟩ := Option.bind_eq_some_iff.mp h
    obtain ⟨rest, hrest, h⟩ := Option.bind_eq_some_iff.mp h
    cases h
    rcases List.mem_cons.mp hy with rfl | hy
    · exact ⟨x, List.mem_cons_self, hz⟩
    · obtain ⟨x', hx', hfx⟩ := ih hrest hy
      exact ⟨x', List.mem_cons_of_mem _ hx', hfx⟩

theorem planPut_clean {c : RootCodec} {r : SeamRecord} {ps : List Planned} (h : planPut c r = some ps) : ∀ p ∈ ps, p.Clean := by
  have hkey {rooth : Nat} : Planned.Clean (.put (rootkeyRecord rooth (seamRecord r).key)) :=
    fun hk => absurd hk (rootkeyKey_ne_leaseKey rooth)
  have hrec : Planned.Clean (.put (seamRecord r)) := fun _ => seamRecord_not_metadata r
  have hpair {rooth : Nat} : ∀ p ∈ [Planned.put (rootkeyRecord rooth (seamRecord r).key), .put (seamRecord r)], p.Clean := by
    intro p hp
    rcases List.mem_cons.mp hp with rfl | hp
    · exact hkey
    · rw [List.mem_singleton.mp hp]
      exact hrec
  unfold planPut at h
  split at h
  · cases h
  · dsimp only at h
    split at h
    · split at h
      · cases h
        intro p hp
        rw [List.mem_singleton.mp hp]
        exact hrec
      · split at h
        · cases h
          exact hpair
        · cases h
    · split at h
      · cases h
        exact hpair
      · cases h
    · split at h
      · cases h
        intro p hp
        rw [List.mem_singleton.mp hp]
        exact hrec
      · cases h

theorem plan_clean {c : RootCodec} {b : Batch} {ps : List Planned} (hd : Op.del leaseKey ∉ b.ops) (h : plan c b = some ps) :
    ∀ p ∈ ps, p.Clean := by
  unfold plan at h
  split at h
  · next ops bumps hops hbumps =>
    cases h
    intro p hp
    rcases List.mem_append.mp hp with hp | hp
    · rcases List.mem_append.mp hp with hp | hp
      · obtain ⟨qs, hqs, hp⟩ := List.mem_flatten.mp hp
        obtain ⟨op, hop, hplan⟩ := mem_of_mapM hops hqs
        cases op with
        | put r => exact planPut_clean hplan p hp
        | del k =>
          simp only [planOp] at hplan
          split at hplan
          · cases hplan
          · cases hplan
            rw [List.mem_singleton.mp hp]
            rintro rfl
            exact hd hop
      · obtain ⟨b', -, hb⟩ := mem_of_mapM hbumps hp
        simp only [planBump] at hb
        split at hb
        · cases hb
        · cases hb
          trivial
    · rw [List.mem_singleton.mp hp]
      trivial
  · cases h

theorem index_raised {m m' : RecMap} {p : Planned} (hp : p.Clean) (h : m.index p = some m') : Raised [] m m' := by
  cases p with
  | put r =>
    cases h
    exact putRec_raised hp
  | elided r =>
    cases h
    exact putRec_raised hp
  | del k =>
    cases h
    exact .of_eq (Function.update_of_ne (Ne.symm hp) ..)
  | bump b => exact bumpRec_raised (genKey_ne_leaseKey b.rooth) h
  | mark seq =>
    cases h
    exact .refl _

theorem foldlM_index_raised (ps : List Planned) {m m' : RecMap} (hps : ∀ p ∈ ps, p.Clean) (h : ps.foldlM RecMap.index m = some m') :
    Raised [] m m' := by
  induction ps generalizing m with
  | nil =>
    cases h
    exact .refl _
  | cons p ps ih =>
    rw [List.foldlM_cons] at h
    obtain ⟨mid, h1, h2⟩ := Option.bind_eq_some_iff.mp h
    exact (index_raised (hps p List.mem_cons_self) h1).trans (ih (fun q hq => hps q (List.mem_cons_of_mem _ hq)) h2)

namespace Sidecar

def frames (w : Sidecar) : List SideFrame := w.log ++ w.tail ++ w.buf

theorem lastSeq_eq (w : Sidecar) : w.lastSeq = w.frames.length := by
  simp [lastSeq, frames, Nat.add_assoc]

/-- Frames of this list were added at the end, and what was synced still is. -/
structure Grows (w w' : Sidecar) (fs : List SideFrame) : Prop where
  frames : ∃ n, w'.frames = w.frames ++ fs.take n
  log : w.log <+: w'.log

theorem Grows.of_frames {w w' : Sidecar} {fs : List SideFrame} (hf : w'.frames = w.frames ++ fs) (hl : w.log <+: w'.log) :
    Grows w w' fs := ⟨⟨fs.length, by rw [hf, List.take_length]⟩, hl⟩

theorem appendAll_grows (fs : List SideFrame) (w : Sidecar) :
    (w.appendAll fs).1.log = w.log ∧ (w.appendAll fs).1.tail = w.tail ∧
      ∃ n, (w.appendAll fs).1.buf = w.buf ++ fs.take n ∧ ((w.appendAll fs).2 = true → fs.take n = fs) := by
  induction fs generalizing w with
  | nil => exact ⟨rfl, rfl, 0, by simp [appendAll], fun _ => rfl⟩
  | cons f fs ih =>
    simp only [appendAll, append]
    split
    · next hnone => exact ⟨rfl, rfl, 0, by simp, fun h => (nomatch h)⟩
    · next w' hsome =>
      have hw' : w' = { w with buf := w.buf ++ [f] } := by
        split at hsome
        · cases hsome
        · exact (Option.some.inj hsome).symm
      obtain ⟨h1, h2, n, h3, h4⟩ := ih w'
      subst hw'
      refine ⟨h1, h2, n + 1, by rw [h3]; simp, fun hok => by rw [List.take_succ_cons, h4 hok]⟩

theorem flush_some {w w' : Sidecar} {writes : Bool} (h : w.flush writes = some w') :
    w'.frames = w.frames ∧ w'.log = w.log ∧ w'.buf = [] := by
  unfold flush at h
  split at h
  · next hnil =>
    cases h
    exact ⟨rfl, rfl, hnil⟩
  · split at h
    · cases h
    · split at h
      · cases h
        exact ⟨by simp [frames], rfl, rfl⟩
      · cases h

end Sidecar

namespace MintStore

theorem emit_grows (s : MintStore) (io : CallIO) (fs : List SideFrame) :
    ∃ w, (s.emit io fs).1 = { s with wal := w } ∧ s.wal.Grows w fs ∧ ((s.emit io fs).2 = true → w.log = s.wal.frames ++ fs) := by
  obtain ⟨h1, h2, n, h3, h4⟩ := s.wal.appendAll_grows fs
  have happ : ∀ w, (s.wal.appendAll fs).1 = w → s.wal.Grows w fs := by
    rintro w rfl
    exact ⟨⟨n, by simp [Sidecar.frames, h1, h2, h3]⟩, h1 ▸ List.prefix_rfl⟩
  unfold emit
  split
  · next w hw => exact ⟨w, rfl, happ w (by rw [hw]), fun h => (nomatch h)⟩
  · next w hw =>
    have hg := happ w (by rw [hw])
    have hall : w.frames = s.wal.frames ++ fs := by
      have hb : w.buf = s.wal.buf ++ fs := by rw [hw] at h3 h4; rw [h3, h4 rfl]
      rw [hw] at h1 h2
      simp only [Sidecar.frames, hb, show w.log = s.wal.log from h1, show w.tail = s.wal.tail from h2, List.append_assoc]
    split
    · exact ⟨w, rfl, hg, fun h => (nomatch h)⟩
    · next w' hw' =>
      obtain ⟨hf, hl, hb⟩ := Sidecar.flush_some hw'
      split
      · refine ⟨w'.sync, rfl, ⟨?_, ?_⟩, fun _ => ?_⟩
        · exact ⟨fs.length, by rw [List.take_length, ← hall, ← hf]; simp [Sidecar.sync, Sidecar.frames]⟩
        · rw [Sidecar.sync]
          exact hg.log.trans (by rw [hl]; exact List.prefix_append ..)
        · rw [← hall, ← hf]
          simp [Sidecar.sync, Sidecar.frames, hb]
      · exact ⟨w', rfl, .of_frames (by rw [hf, hall]) (by rw [hl]; exact hg.log), fun h => (nomatch h)⟩

theorem settle_ok {s s' : MintStore} {place : Placing} {recs : Option RecMap} (h : s.settle place recs = (s', true)) :
    ∃ m, recs = some m ∧ s' = { s with wal.buf := s.wal.buf ++ sealFrames place.seals, recs := m } := by
  unfold settle at h
  dsimp only at h
  split at h
  · next m hok => exact ⟨m, rfl, (congrArg Prod.fst h).symm⟩
  · simp at h

/-- The ranges handed out lie one above the other, below any mark the store reads, and below any mark it could read after a
crash. -/
structure MintInv (s : MintStore) : Prop where
  clean : ∀ f ∈ s.wal.frames, f.Clean
  trims : ∀ x ∈ s.sb :: s.written, x.trim ≤ s.wal.lastSeq
  mark : s.broken = false → ∀ k, s.recs.currentLease = some k → ∀ l ∈ s.leases, l.2 ≤ k
  roots : ∀ x ∈ s.sb :: s.written, ∀ k, x.recs.currentLease = some k → ∀ l ∈ s.leases,
    l.2 ≤ k ∨ ∃ mark, .lease mark ∈ s.wal.log.drop x.trim ∧ l.2 ≤ mark
  apart : s.leases.Pairwise fun a b => a.2 ≤ b.1

namespace MintInv

variable {s : MintStore}

theorem grow (h : MintInv s) {w : Sidecar} {fs : List SideFrame} (hg : s.wal.Grows w fs) (hfs : ∀ f ∈ fs, f.Clean) :
    MintInv { s with wal := w } := by
  obtain ⟨n, hn⟩ := hg.frames
  refine ⟨fun f hf => ?_, fun x hx => ?_, h.mark, fun x hx k hk l hl => ?_, h.apart⟩
  · rcases List.mem_append.mp (hn ▸ hf) with hf | hf
    · exact h.clean f hf
    · exact hfs f (List.mem_of_mem_take hf)
  · rw [Sidecar.lastSeq_eq, hn, List.length_append, ← Sidecar.lastSeq_eq]
    exact Nat.le_trans (h.trims x hx) (Nat.le_add_right ..)
  · rcases h.roots x hx k hk l hl with hle | ⟨mark, hm, hle⟩
    · exact .inl hle
    · obtain ⟨new, hnew⟩ := hg.log
      refine .inr ⟨mark, ?_, hle⟩
      rw [← hnew, List.drop_append]
      exact List.mem_append_left _ hm

theorem seals (h : MintInv s) (exts : List Nat) : MintInv { s with wal.buf := s.wal.buf ++ sealFrames exts } := by
  have hg : s.wal.Grows { s.wal with buf := s.wal.buf ++ sealFrames exts } (sealFrames exts) :=
    .of_frames (by simp [Sidecar.frames]) List.prefix_rfl
  refine h.grow hg fun f hf => ?_
  obtain ⟨ext, -, rfl⟩ := List.mem_map.mp hf
  trivial

theorem settle (h : MintInv s) (place : Placing) (recs : Option RecMap)
    (hr : ∀ m, recs = some m → ∀ k, m.currentLease = some k → ∀ l ∈ s.leases, l.2 ≤ k) : MintInv (s.settle place recs).1 := by
  have hg : MintInv { s with wal.buf := s.wal.buf ++ sealFrames place.seals } :=
    h.seals place.seals
  unfold MintStore.settle
  dsimp only
  split
  · next m hok => exact ⟨hg.clean, hg.trims, fun _ k hk l hl => hr m rfl k hk l hl, hg.roots, hg.apart⟩
  · exact ⟨hg.clean, hg.trims, fun hb => (nomatch hb), hg.roots, hg.apart⟩

theorem settle_raised (h : MintInv s) (hb : s.broken = false) (place : Placing) {recs : Option RecMap}
    (hr : ∀ m, recs = some m → Raised [] s.recs m) : MintInv (s.settle place recs).1 := by
  refine h.settle place recs fun m hm k' hk' l hl => ?_
  obtain ⟨k, hk, hle, -⟩ := hr m hm k' hk'
  exact Nat.le_trans (h.mark hb k hk l hl) hle

theorem mintLease (h : MintInv s) (n : Nat) (io : CallIO) (place : Placing) : MintInv (s.mintLease n io place).1 := by
  unfold MintStore.mintLease
  split
  · exact h
  · next hbroken =>
    have hb : s.broken = false := by simpa using fun hb => hbroken (.inl hb)
    split
    · exact h
    · next start hstart =>
      split
      · exact h
      · next mark hmark =>
        obtain ⟨hlt, hle⟩ : mark < 2 ^ 64 ∧ start ≤ mark := by
          unfold leaseEnd at hmark
          split at hmark
          · cases hmark
          · split at hmark
            · cases hmark
            · next hn =>
              cases hmark
              simp only [maxRoothCounter] at hn
              omega
        obtain ⟨w, hw, hg, hall⟩ := s.emit_grows io [.lease mark]
        have hs : MintInv { s with wal := w } := h.grow hg fun f hf => by
          rw [List.mem_singleton.mp hf]
          exact hlt
        split
        · next s' hemit =>
          rw [hemit] at hw
          rw [show s' = _ from hw]
          exact hs
        · next s' hemit =>
          rw [hemit] at hw hall
          obtain rfl : s' = { s with wal := w } := hw
          have hset : MintInv (({ s with wal := w } : MintStore).settle place (s.recs.applyLease mark)).1 :=
            hs.settle place _ fun m hm k' hk' l hl => by
              obtain ⟨k, hk, hle', -⟩ := applyLease_raised hlt hm k' hk'
              exact Nat.le_trans (h.mark hb k hk l hl) hle'
          split
          · next s'' hsettle =>
            dsimp only at hsettle
            rw [hsettle] at hset
            exact hset
          · next s'' hsettle =>
            dsimp only at hsettle
            obtain ⟨m, hm, hs''⟩ := settle_ok hsettle
            rw [hsettle] at hset
            refine ⟨hset.clean, hset.trims, fun _ k' hk' l hl => ?_, fun x hx k hk l hl => ?_, ?_⟩
            · obtain ⟨k, hk, hle', hmarks⟩ := applyLease_raised hlt hm k' (by rw [hs''] at hk'; exact hk')
              rcases List.mem_append.mp hl with hl | hl
              · exact Nat.le_trans (h.mark hb k hk l (by rw [hs''] at hl; exact hl)) hle'
              · rw [List.mem_singleton.mp hl]
                exact hmarks mark List.mem_cons_self
            · rcases List.mem_append.mp hl with hl | hl
              · exact hset.roots x hx k hk l hl
              · -- the frame was appended past every trim and is synced
                refine .inr ⟨mark, ?_, Nat.le_of_eq (congrArg Prod.snd (List.mem_singleton.mp hl))⟩
                rw [hs''] at hx ⊢
                have htrim := h.trims x hx
                rw [Sidecar.lastSeq_eq] at htrim
                dsimp only
                rw [hall rfl, List.drop_append_of_le_length htrim]
                exact List.mem_append_right _ List.mem_cons_self
            · rw [hs'']
              refine List.pairwise_append.mpr ⟨h.apart, List.pairwise_singleton .., fun l hl r hr => ?_⟩
              rw [List.mem_singleton.mp hr]
              exact h.mark hb start hstart l hl

theorem genBump (h : MintInv s) (rooth newgen : Nat) (io : CallIO) (place : Placing) : MintInv (s.genBump rooth newgen io place) := by
  have hkey := genKey_ne_leaseKey rooth
  unfold MintStore.genBump
  split
  · exact h
  · next hno =>
    have hb : s.broken = false := by simpa using fun hb => hno (.inl hb)
    obtain ⟨w, hw, hg, -⟩ := s.emit_grows io [.data (.genbump (genKey rooth) newgen)]
    have hs : MintInv { s with wal := w } := h.grow hg fun f hf => by
      rw [List.mem_singleton.mp hf]
      exact hkey
    split
    · next s' hemit =>
      rw [hemit] at hw
      rw [show s' = _ from hw]
      exact hs
    · next s' hemit =>
      rw [hemit] at hw
      obtain rfl : s' = { s with wal := w } := hw
      exact hs.settle_raised hb place fun m hm => bumpRec_raised hkey hm

theorem applyBatch {c : RootCodec} (h : MintInv s) {b : Batch} (hd : Op.del leaseKey ∉ b.ops) (io : CallIO) (place : Placing) :
    MintInv (s.applyBatch c b io place) := by
  unfold MintStore.applyBatch
  split
  · exact h
  · next hno =>
    have hb : s.broken = false := by simpa using fun hb => hno (.inl hb)
    split
    · exact h
    · next ps hps =>
      have hclean := plan_clean hd hps
      obtain ⟨w, hw, hg, -⟩ := s.emit_grows io ((ps.filterMap Planned.frame?).map .data)
      have hs : MintInv { s with wal := w } := h.grow hg fun f hf => by
        obtain ⟨d, hd, rfl⟩ := List.mem_map.mp hf
        obtain ⟨p, hp, hpd⟩ := List.mem_filterMap.mp hd
        exact (hclean p hp).frame hpd
      split
      · next s' hemit =>
        rw [hemit] at hw
        rw [show s' = _ from hw]
        exact hs
      · next s' hemit =>
        rw [hemit] at hw
        obtain rfl : s' = { s with wal := w } := hw
        have hset := hs.settle_raised hb place fun m hm => foldlM_index_raised ps hclean hm
        split
        · next s'' hsettle =>
          dsimp only at hsettle
          rw [hsettle] at hset
          exact hset
        · next s'' hsettle =>
          dsimp only at hsettle
          rw [hsettle] at hset
          exact ⟨hset.clean, hset.trims, hset.mark, hset.roots, hset.apart⟩

theorem checkpoint (h : MintInv s) (fault : CkptFault) (seals : List Nat) : MintInv (s.checkpoint fault seals) := by
  unfold MintStore.checkpoint
  split
  · exact h
  · next hbroken =>
    have hb : s.broken = false := by simpa using hbroken
    have hseals := h.seals seals
    -- the map frozen is the one in memory, so its mark covers every lease
    have hnext {w : Sidecar} {x : MintSuper} (hw : MintInv { s with wal := w }) (hlen : s.wal.lastSeq ≤ w.lastSeq)
        (hx : x ∈ [(⟨s.sb.seq + 1, s.wal.lastSeq, s.recs, s.hw⟩ : MintSuper)] ∨ x ∈ s.sb :: s.written) :
        x.trim ≤ w.lastSeq ∧ ∀ k, x.recs.currentLease = some k → ∀ l ∈ s.leases,
          l.2 ≤ k ∨ ∃ mark, .lease mark ∈ w.log.drop x.trim ∧ l.2 ≤ mark := by
      rcases hx with hx | hx
      · rw [List.mem_singleton.mp hx]
        exact ⟨hlen, fun k hk l hl => .inl (h.mark hb k hk l hl)⟩
      · exact ⟨hw.trims x hx, hw.roots x hx⟩
    have hwritten {w : Sidecar} (hw : MintInv { s with wal := w }) (hlen : s.wal.lastSeq ≤ w.lastSeq) :
        MintInv { s with wal := w, written := ⟨s.sb.seq + 1, s.wal.lastSeq, s.recs, s.hw⟩ :: s.written } := by
      have hmem {x : MintSuper} (hx : x ∈ s.sb :: ⟨s.sb.seq + 1, s.wal.lastSeq, s.recs, s.hw⟩ :: s.written) :
          x ∈ [(⟨s.sb.seq + 1, s.wal.lastSeq, s.recs, s.hw⟩ : MintSuper)] ∨ x ∈ s.sb :: s.written := by
        simp only [List.mem_cons, List.not_mem_nil, or_false] at hx ⊢
        tauto
      exact ⟨hw.clean, fun x hx => (hnext hw hlen (hmem hx)).1, hw.mark, fun x hx => (hnext hw hlen (hmem hx)).2, hw.apart⟩
    have hlen : s.wal.lastSeq ≤ ({ s.wal with buf := s.wal.buf ++ sealFrames seals } : Sidecar).lastSeq := by
      simp only [Sidecar.lastSeq, List.length_append]
      omega
    dsimp only
    split
    · exact hseals
    · split
      · exact hwritten hseals hlen
      · split
        · exact hwritten hseals hlen
        · next w hw =>
          obtain ⟨rfl⟩ : w = { s.wal with buf := s.wal.buf ++ sealFrames seals ++ [.ckpt (s.sb.seq + 1)] } := by
            unfold Sidecar.append at hw
            split at hw
            · cases hw
            · exact (Option.some.inj hw).symm
          have hnote : MintInv { s with wal.buf := s.wal.buf ++ sealFrames seals ++ [.ckpt (s.sb.seq + 1)] } := by
            have hg : Sidecar.Grows { s.wal with buf := s.wal.buf ++ sealFrames seals }
                { s.wal with buf := s.wal.buf ++ sealFrames seals ++ [.ckpt (s.sb.seq + 1)] } [.ckpt (s.sb.seq + 1)] :=
              .of_frames (by simp [Sidecar.frames]) List.prefix_rfl
            exact hseals.grow hg fun f hf => by rw [List.mem_singleton.mp hf]; trivial
          have hlen' : s.wal.lastSeq ≤ ({ s.wal with buf := s.wal.buf ++ sealFrames seals ++ [.ckpt (s.sb.seq + 1)] } : Sidecar).lastSeq := by
            simp only [Sidecar.lastSeq, List.length_append]
            omega
          split
          · exact hwritten hnote hlen'
          · next w' hw' =>
            obtain ⟨hf, hl, -⟩ := Sidecar.flush_some hw'
            have hflush : MintInv { s with wal := w' } :=
              hnote.grow (.of_frames (by rw [hf, List.append_nil]) (hl ▸ List.prefix_rfl)) fun f hf => absurd hf List.not_mem_nil
            have hlen'' : s.wal.lastSeq ≤ w'.lastSeq := by rw [w'.lastSeq_eq, hf, ← Sidecar.lastSeq_eq]; exact hlen'
            exact ⟨hflush.clean, fun x hx => (hnext hflush hlen'' (.inl hx)).1, hflush.mark,
              fun x hx => (hnext hflush hlen'' (.inl hx)).2, hflush.apart⟩

theorem reopen {c : RootCodec} {s' : MintStore} (h : MintInv s) {root kept : Nat}
    (hkept : ((s.sb :: s.written).getD root s.sb).trim ≤ s.wal.log.length + min kept s.wal.tail.length)
    (hr : s.reopen c root kept = some s') : MintInv s' := by
  have hx : (s.sb :: s.written).getD root s.sb ∈ s.sb :: s.written := by
    rw [List.getD_eq_getElem?_getD]
    cases hg : (s.sb :: s.written)[root]? with
    | none => exact List.mem_cons_self
    | some x => exact List.mem_of_getElem? hg
  unfold MintStore.reopen at hr
  dsimp only at hr
  generalize (s.sb :: s.written).getD root s.sb = x at hx hr hkept
  obtain ⟨r, hopen, rfl⟩ := Option.map_eq_some_iff.mp hr
  have hclean : ∀ f ∈ s.wal.log ++ s.wal.tail.take kept, f.Clean := fun f hf => by
    refine h.clean f (List.mem_append_left _ ?_)
    rcases List.mem_append.mp hf with hf | hf
    · exact List.mem_append_left _ hf
    · exact List.mem_append_right _ (List.mem_of_mem_take hf)
  have hdrop {mark : Nat} (hm : SideFrame.lease mark ∈ s.wal.log.drop x.trim) :
      .lease mark ∈ (s.wal.log ++ s.wal.tail.take kept).drop x.trim := by
    rw [List.drop_append]
    exact List.mem_append_left _ hm
  refine ⟨by simpa [Sidecar.frames] using hclean, fun y hy => ?_, fun _ k' hk' l hl => ?_, fun y hy k hk l hl => ?_, h.apart⟩
  · rw [List.mem_singleton.mp hy]
    simpa [Sidecar.lastSeq] using hkept
  · obtain ⟨k, hk, hle, hmarks⟩ := openOn_raised hclean hopen k' hk'
    rcases h.roots x hx k hk l hl with hle' | ⟨mark, hm, hle'⟩
    · exact Nat.le_trans hle' hle
    · exact Nat.le_trans hle' (hmarks mark (hdrop hm))
  · rw [List.mem_singleton.mp hy] at hk ⊢
    rcases h.roots x hx k hk l hl with hle' | ⟨mark, hm, hle'⟩
    · exact .inl hle'
    · exact .inr ⟨mark, hdrop hm, hle'⟩

end MintInv

/-- What keeps the ranges apart: no batch deletes the lease key, and a crash leaves every frame at or below the trim mark of
the superblock it opens on. -/
def Sound (s : MintStore) : MintOp → Prop
  | .applyBatch b _ _ => Op.del leaseKey ∉ b.ops
  | .reopen root kept => ((s.sb :: s.written).getD root s.sb).trim ≤ s.wal.log.length + min kept s.wal.tail.length
  | _ => True

theorem MintInv.step {c : RootCodec} {s s' : MintStore} (h : MintInv s) {op : MintOp} (hs : s.Sound op)
    (hop : s.step c op = some s') : MintInv s' := by
  cases op with
  | mintLease n io place =>
    cases hop
    exact h.mintLease n io place
  | genBump rooth newgen io place =>
    cases hop
    exact h.genBump rooth newgen io place
  | applyBatch b io place =>
    cases hop
    exact h.applyBatch hs io place
  | checkpoint fault seals =>
    cases hop
    exact h.checkpoint fault seals
  | close =>
    cases hop
    cases hf : s.wal.flush true with
    | none => exact h
    | some w =>
      obtain ⟨h1, h2, -⟩ := Sidecar.flush_some hf
      rw [Option.getD_some]
      exact h.grow (.of_frames (by rw [h1, List.append_nil]) (h2 ▸ List.prefix_rfl)) fun f hf => absurd hf List.not_mem_nil
  | reopen root kept => exact h.reopen hs hop

inductive MintReach (c : RootCodec) (segSize : Nat) : MintStore → Prop
  | start : MintReach c segSize (createMintStore segSize)
  | next {s s' : MintStore} {op : MintOp} : MintReach c segSize s → s.Sound op → s.step c op = some s' → MintReach c segSize s'

theorem MintReach.inv {c : RootCodec} {segSize : Nat} {s : MintStore} (h : MintReach c segSize s) : MintInv s := by
  induction h with
  | start =>
    refine ⟨fun f hf => absurd hf List.not_mem_nil, fun x hx => ?_, fun _ _ _ l hl => absurd hl List.not_mem_nil,
      fun _ _ _ _ l hl => absurd hl List.not_mem_nil, .nil⟩
    rw [List.mem_singleton.mp hx]
    exact Nat.le_refl 0
  | next _ hs hop ih => exact ih.step hs hop

/-- No counter lies in two of the ranges handed out. -/
theorem leased_ranges_disjoint (c : RootCodec) (segSize : Nat) (s : MintStore) (h : MintReach c segSize s) :
    s.leases.Pairwise fun a b => ∀ n, ¬ (a.1 ≤ n ∧ n < a.2 ∧ b.1 ≤ n ∧ n < b.2) :=
  h.inv.apart.imp fun hle n hn => by omega

def bareCodec : RootCodec :=
  ⟨fun _ => none, fun _ => none, fun _ => none, fun _ => none, fun _ => none, fun _ => none, fun _ _ _ => none⟩

/-- A lease, a checkpoint, a crash that loses the checkpoint's note, and a second lease. -/
theorem leased_twice_apart : ∃ s, MintReach bareCodec 200 s ∧ s.leases = [(0, 10), (10, 15)] ∧
    s.leases.Pairwise fun a b => ∀ n, ¬ (a.1 ≤ n ∧ n < a.2 ∧ b.1 ≤ n ∧ n < b.2) := by
  have h1 : MintReach bareCodec 200 _ := .next .start (show Sound _ (.mintLease 10 ⟨true, true, true⟩ ⟨true, []⟩) from trivial) rfl
  have h2 := h1.next (show Sound _ (.checkpoint .done []) from trivial) rfl
  have h3 := h2.next (show Sound _ (.reopen 0 0) from Nat.le_of_ble_eq_true rfl) (Option.some_get (by decide +kernel)).symm
  have h4 := h3.next (show Sound _ (.mintLease 5 ⟨true, true, true⟩ ⟨true, []⟩) from trivial) rfl
  exact ⟨_, h4, by decide +kernel, leased_ranges_disjoint bareCodec 200 _ h4⟩

/-- The second checkpoint's trim covers the first one's note, which no sync had reached. The crash loses it, the next lease
takes its number, and the crash after that skips the lease. The other run deletes the lease key through a batch. -/
theorem lease_handed_out_twice :
    (([.checkpoint .done [], .checkpoint .done [], .reopen 0 0, .mintLease 10 ⟨true, true, true⟩ ⟨true, []⟩, .reopen 0 0,
        .mintLease 10 ⟨true, true, true⟩ ⟨true, []⟩] : List MintOp).foldlM (step bareCodec) (createMintStore 200)).map leases =
      some [(0, 10), (0, 10)] ∧
    (([.mintLease 10 ⟨true, true, true⟩ ⟨true, []⟩, .applyBatch ⟨1, [.del leaseKey], []⟩ ⟨true, true, true⟩ ⟨true, []⟩,
        .mintLease 10 ⟨true, true, true⟩ ⟨true, []⟩] : List MintOp).foldlM (step bareCodec) (createMintStore 200)).map leases =
      some [(0, 10), (0, 10)] := by
  decide +kernel

end MintStore

end Aki.Sqlo1b
