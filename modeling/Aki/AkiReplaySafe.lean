import Aki.AkiFile

namespace Aki.Akifile

open ByteDevice LittleEndian

/-- A read at the offset `int64(off)`: a negative one is refused. -/
def readAt64 (d : Dev) (off n : Nat) : Option (List UInt8) := if off < 2 ^ 63 then d.readAt off n else none

/-- `(n + a - 1) &^ (a - 1)` for a power of two. -/
def alignUp64 (n a : Nat) : Nat := (n + a - 1) % 2 ^ 64 - (n + a - 1) % 2 ^ 64 % a

def segmentSpan64 (payloadLen : Nat) : Nat := alignUp64 ((segHeaderLen + payloadLen) % 2 ^ 64) segmentAlign

/-- How one turn of the walk ends: the walk stops here, `make` is asked for more bytes than an int holds, or an intact segment. -/
inductive Turn where
  | stop
  | panic
  | seg (x : Seg)
  deriving DecidableEq, Repr

/-- One turn on a device whose size is the bound of the walk. -/
def turn64 (d : Dev) (cursor : Nat) : Turn :=
  if (cursor + segHeaderLen) % 2 ^ 64 ≤ d.size then
    match readAt64 d cursor segHeaderLen with
    | none => .stop
    | some hb =>
      match parseSegHeader hb with
      | none => .stop
      | some h =>
        if d.size < (cursor + segHeaderLen + h.payloadLen) % 2 ^ 64 then .stop
        else if 2 ^ 63 ≤ h.payloadLen then .panic
        else
          match readAt64 d ((cursor + segHeaderLen) % 2 ^ 64) h.payloadLen with
          | none => .stop
          | some payload => if h.verifyPayload payload then .seg ⟨cursor, h, payload⟩ else .stop
  else .stop

/-- What a walk leaves: the visitor's state and error, the cursor, whether it panicked, and the segments handed out. -/
structure Walked (σ ε : Type) where
  st : σ
  cursor : Nat
  err : Option ε
  panicked : Bool
  visited : List Seg

section Walk

variable {σ ε : Type}

def replay64 (visit : σ → Seg → σ × Option ε) (d : Dev) : Nat → Nat → σ → Option (Walked σ ε)
  | 0, _, _ => none
  | fuel + 1, cursor, st =>
    match turn64 d cursor with
    | .stop => some ⟨st, cursor, none, false, []⟩
    | .panic => some ⟨st, cursor, none, true, []⟩
    | .seg x =>
      match visit st x with
      | (st', some e) => some ⟨st', cursor, some e, false, [x]⟩
      | (st', none) =>
        (replay64 visit d fuel ((cursor + segmentSpan64 x.header.payloadLen) % 2 ^ 64) st').map fun r =>
          { r with visited := x :: r.visited }

/-- A checked header whose payload would end past the 64-bit offsets. -/
def Overlong (d : Dev) (off : Nat) : Prop :=
  off + segHeaderLen ≤ d.size ∧ ∃ h, parseSegHeader (d.read off segHeaderLen) = some h ∧ 2 ^ 64 ≤ off + segHeaderLen + h.payloadLen

variable {d : Dev} {off : Nat}

theorem parseSegHeader_payloadLen_lt {b : List UInt8} {h : SegHeader} (hp : parseSegHeader b = some h) : h.payloadLen < 2 ^ 64 := by
  unfold parseSegHeader at hp
  split at hp
  · simp at hp
  · split at hp
    · simp at hp
    · split at hp
      · simp at hp
      · cases hp
        exact word_lt b 24 8

theorem segmentSpan64_eq {n : Nat} (h : n < 2 ^ 63) : segmentSpan64 n = segmentSpan n := by
  have hsum : (segHeaderLen + n) % 2 ^ 64 = segHeaderLen + n := Nat.mod_eq_of_lt (by simp only [segHeaderLen]; omega)
  have hall : (segHeaderLen + n + segmentAlign - 1) % 2 ^ 64 = segHeaderLen + n + segmentAlign - 1 :=
    Nat.mod_eq_of_lt (by simp only [segHeaderLen, segmentAlign]; omega)
  have hdiv := Nat.div_add_mod' (segHeaderLen + n + segmentAlign - 1) segmentAlign
  rw [segmentSpan64, hsum, alignUp64, hall, segmentSpan, alignUp]
  omega

/-- Below 2^63 bytes, a turn panics at an overlong header and is otherwise the turn over exact offsets. -/
theorem turn64_cases (hsize : d.size < 2 ^ 63) (off : Nat) :
    (turn64 d off = .panic ∧ Overlong d off) ∨ (¬ Overlong d off ∧ turn64 d off = .stop ∧ segAt d d.size off = none) ∨
      ∃ x, ¬ Overlong d off ∧ turn64 d off = .seg x ∧ segAt d d.size off = some x := by
  by_cases hin : off + segHeaderLen ≤ d.size
  · have hoff : off < 2 ^ 63 := by omega
    have hsum : (off + segHeaderLen) % 2 ^ 64 = off + segHeaderLen := Nat.mod_eq_of_lt (by omega)
    have hread : readAt64 d off segHeaderLen = some (d.read off segHeaderLen) := by
      rw [readAt64, if_pos hoff, Dev.readAt, if_pos hin]
    cases hp : parseSegHeader (d.read off segHeaderLen) with
    | none =>
      refine Or.inr (Or.inl ⟨fun hov => ?_, ?_, ?_⟩)
      · obtain ⟨-, h, hh, -⟩ := hov
        rw [hp] at hh
        exact absurd hh (by simp)
      · rw [turn64, hsum, if_pos hin, hread]
        dsimp only
        rw [hp]
      · rw [segAt, if_pos hin, Dev.readAt, if_pos hin, Option.bind_some, hp, Option.bind_none]
    | some h =>
      have hlen := parseSegHeader_payloadLen_lt hp
      have hturn : turn64 d off = if d.size < (off + segHeaderLen + h.payloadLen) % 2 ^ 64 then .stop
          else if 2 ^ 63 ≤ h.payloadLen then .panic
          else
            match readAt64 d (off + segHeaderLen) h.payloadLen with
            | none => .stop
            | some payload => if h.verifyPayload payload then .seg ⟨off, h, payload⟩ else .stop := by
        rw [turn64, hsum, if_pos hin, hread]
        dsimp only
        rw [hp]
      have hseg : segAt d d.size off = if d.size < off + segHeaderLen + h.payloadLen then none
          else (d.readAt (off + segHeaderLen) h.payloadLen).bind fun payload =>
            if h.verifyPayload payload then some ⟨off, h, payload⟩ else none := by
        rw [segAt, if_pos hin, Dev.readAt, if_pos hin, Option.bind_some, hp, Option.bind_some]
      have hover : Overlong d off ↔ 2 ^ 64 ≤ off + segHeaderLen + h.payloadLen := by
        refine ⟨fun ⟨_, h', hh, hle⟩ => ?_, fun hle => ⟨hin, h, hp, hle⟩⟩
        rw [hp] at hh
        rw [Option.some.inj hh]
        exact hle
      by_cases hov : 2 ^ 64 ≤ off + segHeaderLen + h.payloadLen
      · -- the sum wraps to less than the end of the header, so the bound lets it through
        refine Or.inl ⟨?_, hover.mpr hov⟩
        have hmod : (off + segHeaderLen + h.payloadLen) % 2 ^ 64 = off + segHeaderLen + h.payloadLen - 2 ^ 64 := by
          rw [Nat.mod_eq_sub_mod hov, Nat.mod_eq_of_lt (by omega)]
        rw [hturn, hmod, if_neg (by omega), if_pos (by omega)]
      · have hno : ¬ Overlong d off := fun hc => hov (hover.mp hc)
        rw [Nat.mod_eq_of_lt (by omega)] at hturn
        by_cases hend : d.size < off + segHeaderLen + h.payloadLen
        · exact Or.inr (Or.inl ⟨hno, by rw [hturn, if_pos hend], by rw [hseg, if_pos hend]⟩)
        · have hbody : readAt64 d (off + segHeaderLen) h.payloadLen = some (d.read (off + segHeaderLen) h.payloadLen) := by
            rw [readAt64, if_pos (by omega), Dev.readAt, if_pos (by omega)]
          rw [if_neg hend, if_neg (by omega), hbody] at hturn
          rw [if_neg hend, Dev.readAt, if_pos (by omega), Option.bind_some] at hseg
          by_cases hv : h.verifyPayload (d.read (off + segHeaderLen) h.payloadLen) = true
          · rw [if_pos hv] at hseg
            exact Or.inr (Or.inr ⟨_, hno, by rw [hturn]; exact if_pos hv, hseg⟩)
          · rw [if_neg hv] at hseg
            exact Or.inr (Or.inl ⟨hno, by rw [hturn]; exact if_neg hv, hseg⟩)
  · refine Or.inr (Or.inl ⟨fun hov => hin hov.1, ?_, by rw [segAt, if_neg hin]⟩)
    have hread : readAt64 d off segHeaderLen = none := by
      rw [readAt64, Dev.readAt, if_neg hin, ite_self]
    rw [turn64, hread]
    exact ite_self _

/-- No intact run of segments that the visitor takes ends at an overlong header. -/
def NoOverlong (visit : σ → Seg → σ × Option ε) (d : Dev) (start : Nat) (st : σ) : Prop :=
  ∀ xs e, Chain d d.size start xs e → (visitAll visit xs st).2 = none → ¬ Overlong d e

structure Walks (visit : σ → Seg → σ × Option ε) (d : Dev) (start : Nat) (st : σ) (r : Walked σ ε) : Prop where
  increasing : (r.visited.map Seg.off).Pairwise (· < ·)
  behind : ∀ x ∈ r.visited, start ≤ x.off
  inside : ∀ x ∈ r.visited, x.off + segHeaderLen + x.payload.length ≤ d.size ∧
    x.payload = d.read (x.off + segHeaderLen) x.header.payloadLen
  safe : r.panicked = false ↔ NoOverlong visit d start st

variable {visit : σ → Seg → σ × Option ε} {st : σ}

theorem noOverlong_stop (hov : ¬ Overlong d off) (hs : segAt d d.size off = none) : NoOverlong visit d off st := by
  intro xs e hc _
  cases xs with
  | nil => exact (show off = e from hc) ▸ hov
  | cons x xs => exact absurd (hs.symm.trans hc.1) (by simp)

theorem noOverlong_seg {x : Seg} (hov : ¬ Overlong d off) (hs : segAt d d.size off = some x) {st' : σ} (hv : visit st x = (st', none)) :
    NoOverlong visit d off st ↔ NoOverlong visit d x.stop st' := by
  have hall : ∀ xs, visitAll visit (x :: xs) st = visitAll visit xs st' := fun xs => by rw [visitAll, hv]
  constructor
  · intro h xs e hc hn
    exact h (x :: xs) e ⟨hs, hc⟩ (by rw [hall]; exact hn)
  · intro h xs e hc hn
    cases xs with
    | nil => exact (show off = e from hc) ▸ hov
    | cons y xs =>
      obtain ⟨hy, hc⟩ := hc
      cases Option.some.inj (hs.symm.trans hy)
      exact h xs e hc (by rw [← hall]; exact hn)

theorem noOverlong_refused {x : Seg} (hov : ¬ Overlong d off) (hs : segAt d d.size off = some x) {st' : σ} {err : ε}
    (hv : visit st x = (st', some err)) : NoOverlong visit d off st := by
  intro xs e hc hn
  cases xs with
  | nil => exact (show off = e from hc) ▸ hov
  | cons y xs =>
    cases Option.some.inj (hs.symm.trans hc.1)
    rw [visitAll, hv] at hn
    exact absurd hn (by simp)

theorem segAt_inside {x : Seg} (hs : segAt d d.size off = some x) : x.off + segHeaderLen + x.payload.length ≤ d.size ∧
    x.payload = d.read (x.off + segHeaderLen) x.header.payloadLen := by
  obtain ⟨-, hle, ho, -, hp, -⟩ := segAt_eq_some.mp hs
  rw [segAt_payload_length hs, ho]
  exact ⟨hle, hp⟩

/-- The walk ends within one turn more than the device has bytes ahead: every segment moves the cursor on. -/
theorem replay64_walks (hsize : d.size < 2 ^ 63) (visit : σ → Seg → σ × Option ε) (n : Nat) : ∀ (off : Nat) (st : σ), d.size - off ≤ n →
    ∃ r, (∀ fuel, n ≤ fuel → replay64 visit d (fuel + 1) off st = some r) ∧ Walks visit d off st r := by
  induction n using Nat.strong_induction_on with
  | _ n ih =>
    intro off st hn
    rcases turn64_cases hsize off with ⟨ht, hov⟩ | ⟨hov, ht, hs⟩ | ⟨x, hov, ht, hs⟩
    · exact ⟨⟨st, off, none, true, []⟩, fun fuel _ => by rw [replay64, ht], .nil, by simp, by simp,
        iff_of_false (by simp) fun h => h [] off rfl rfl hov⟩
    · exact ⟨⟨st, off, none, false, []⟩, fun fuel _ => by rw [replay64, ht], .nil, by simp, by simp,
        iff_of_true rfl (noOverlong_stop hov hs)⟩
    · have hin := segAt_inside hs
      have ho := segAt_off hs
      rcases hv : visit st x with ⟨st', none | err⟩
      · have hstop := segAt_lt_stop hs
        have hlen := segAt_payload_length hs
        have hspan := segAt_stop hs
        have hle : x.stop < 2 ^ 64 := by
          rw [hspan, segmentSpan, alignUp, ← hlen]
          simp only [segHeaderLen, segmentAlign] at hin ⊢
          omega
        have hnext : (off + segmentSpan64 x.header.payloadLen) % 2 ^ 64 = x.stop := by
          rw [segmentSpan64_eq (by omega), ← hspan, Nat.mod_eq_of_lt hle]
        have hpos : 0 < n := by simp only [segHeaderLen] at hin; omega
        obtain ⟨r, hr, hw⟩ := ih (n - 1) (by omega) x.stop st' (by omega)
        refine ⟨{ r with visited := x :: r.visited }, fun fuel hf => ?_, ?_, ?_, ?_, ?_⟩
        · rw [replay64, ht]
          dsimp only
          rw [hv]
          dsimp only
          rw [hnext, show fuel = fuel - 1 + 1 by omega, hr (fuel - 1) (by omega), Option.map_some]
        · refine List.pairwise_cons.mpr ⟨fun o hm => ?_, hw.increasing⟩
          obtain ⟨y, hy, rfl⟩ := List.mem_map.mp hm
          have := hw.behind y hy
          omega
        · intro y hy
          rcases List.mem_cons.mp hy with rfl | hy
          · exact Nat.le_of_eq ho.symm
          · have := hw.behind y hy
            omega
        · intro y hy
          rcases List.mem_cons.mp hy with rfl | hy
          · exact hin
          · exact hw.inside y hy
        · exact hw.safe.trans (noOverlong_seg hov hs hv).symm
      · refine ⟨⟨st', off, some err, false, [x]⟩, fun fuel _ => ?_, List.pairwise_singleton _ _, ?_, ?_,
          iff_of_true rfl (noOverlong_refused hov hs hv)⟩
        · rw [replay64, ht]
          dsimp only
          rw [hv]
        · exact fun y hy => (List.mem_singleton.mp hy) ▸ Nat.le_of_eq ho.symm
        · exact fun y hy => (List.mem_singleton.mp hy) ▸ hin

/-- On every device and from every offset the walk ends, visits strictly increasing offsets and hands out payloads inside the device.
It panics exactly when the intact segments lead to a checked header whose payload would end past the 64-bit offsets. -/
theorem replayTail_safe (visit : σ → Seg → σ × Option ε) (d : Dev) (hsize : d.size < 2 ^ 63) (start : Nat) (st : σ) :
    ∃ r, (∀ fuel, d.size ≤ fuel → replay64 visit d (fuel + 1) start st = some r) ∧ Walks visit d start st r :=
  replay64_walks hsize visit d.size start st (Nat.sub_le _ _)

end Walk

/-- A file that holds one header, of a payload of `n` bytes that are not there. -/
def headerDev (n : Nat) : Dev := Dev.write ⟨fun _ => 0, pageSize⟩ ⟨pageSize, SegHeader.encode ⟨0, kindLog, 1, 1, n, 0, 0, 0, 0⟩⟩

theorem replayTail_safe_header : (headerDev 1).size < 2 ^ 63 ∧
    ∃ r, (∀ fuel, (headerDev 1).size ≤ fuel →
        replay64 (σ := Unit) (ε := Empty) (fun _ _ => ((), none)) (headerDev 1) (fuel + 1) pageSize () = some r) ∧
      Walks (fun _ _ => ((), none)) (headerDev 1) pageSize () r := by
  have hsize : (headerDev 1).size < 2 ^ 63 := by decide +kernel
  exact ⟨hsize, replayTail_safe _ _ hsize _ _⟩

theorem overlong_header_panics :
    (replay64 (σ := Unit) (ε := Empty) (fun _ _ => ((), none)) (headerDev (2 ^ 64 - 1)) 2 pageSize ()).map Walked.panicked = some true := by
  decide +kernel

end Aki.Akifile
