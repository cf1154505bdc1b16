import Mathlib.Data.List.TakeWhile
import Aki.Decimal
import Aki.StreamGroupRead

namespace Aki

open Decimal

theorem isDigit_iff {c : UInt8} : isDigit c = true ↔ 48 ≤ c ∧ c ≤ 57 := by
  simp [isDigit]

/-- The accumulator is one 64-bit register, multiplied by ten for each digit. -/
theorem parseUint_register (b : Bytes) : parseUint b =
    if b ≠ [] ∧ b.all isDigit then some (b.foldl (fun v c => (v * 10 + (c.toNat - 48)) % 2 ^ 64) 0 % 2 ^ 64) else none := by
  rw [parseUint, foldl_mod_eq, digitsVal]

/-- A numeral is read modulo `2 ^ 64`, and nothing else is read. -/
theorem parseUint_eq_some {b : Bytes} {v : Nat} : parseUint b = some v ↔ ∃ n, Spells b n ∧ v = n % 2 ^ 64 := by
  rw [parseUint]
  constructor
  · intro h
    split at h
    next hb =>
      refine ⟨digitsVal b, ⟨hb.1, fun c hc => isDigit_iff.mp (List.all_eq_true.mp hb.2 c hc), ofDigits_eq_foldl b⟩, ?_⟩
      exact (Option.some.inj h).symm
    next => cases h
  · rintro ⟨n, hn, rfl⟩
    have hall : b.all isDigit = true := List.all_eq_true.mpr fun c hc => isDigit_iff.mpr (hn.digits c hc)
    rw [if_pos ⟨hn.nonempty, hall⟩, digitsVal, ← ofDigits_eq_foldl, hn.value]

theorem decimalLoop_spells : ∀ (fuel u : Nat) (acc : Bytes), u ≤ fuel →
    ∃ b, Resp.decimalLoop (fuel + 1) u acc = b ++ acc ∧ Spells b u := by
  intro fuel
  induction fuel with
  | zero =>
    intro u acc hu
    obtain rfl : u = 0 := Nat.le_zero.mp hu
    exact ⟨_, rfl, spells_digit (by decide)⟩
  | succ fuel ih =>
    intro u acc hu
    rw [Resp.decimalLoop]
    by_cases h : u / 10 = 0
    · exact ⟨_, if_pos h, spells_digit (by omega)⟩
    · obtain ⟨b, hb, hs⟩ := ih (u / 10) (UInt8.ofNat (48 + u % 10) :: acc) (by omega)
      refine ⟨b ++ [UInt8.ofNat (48 + u % 10)], ?_, hs.concat⟩
      rw [if_neg h, hb, List.append_assoc, List.singleton_append]

theorem putDecimal_spells (u : Nat) : Spells (Resp.putDecimal u) u := by
  obtain ⟨b, hb, hs⟩ := decimalLoop_spells u u [] (Nat.le_refl u)
  rwa [Resp.putDecimal, hb, List.append_nil]

def formatId (dst : Bytes) (id : StreamId) : Bytes := dst ++ Resp.putDecimal id.ms ++ 45 :: Resp.putDecimal id.seq

/-- The argument spells a pair: two numerals around a dash, or one alone for a pair ending in zero. -/
def Names (arg : Bytes) (ms seq : Nat) : Prop :=
  Spells arg ms ∧ seq = 0 ∨ ∃ a b, arg = a ++ 45 :: b ∧ Spells a ms ∧ Spells b seq

theorem Spells.not_dash {b : Bytes} {n : Nat} (h : Spells b n) : ∀ c ∈ b, c ≠ 45 := h.ne_of_not_digit (by decide)

theorem split_dash {a : Bytes} (b : Bytes) (h : ∀ c ∈ a, c ≠ 45) :
    (a ++ 45 :: b).takeWhile (fun c => c ≠ 45) = a ∧ (a ++ 45 :: b).dropWhile (fun c => c ≠ 45) = 45 :: b := by
  have hall : ∀ c ∈ a, decide (c ≠ 45) = true := fun c hc => decide_eq_true (h c hc)
  rw [List.takeWhile_append_of_pos hall, List.dropWhile_append_of_pos hall]
  simp

theorem parseStreamId_dash {a : Bytes} (b : Bytes) (h : ∀ c ∈ a, c ≠ 45) :
    parseStreamId (a ++ 45 :: b) = (parseUint a).bind fun ms => (parseUint b).map fun seq => streamId ms seq := by
  obtain ⟨htake, hdrop⟩ := split_dash b h
  rw [parseStreamId, htake, hdrop]
  cases parseUint a with
  | none => rfl
  | some ms => simp

theorem parseStreamId_bare {a : Bytes} (h : ∀ c ∈ a, c ≠ 45) : parseStreamId a = (parseUint a).map fun ms => streamId ms 0 := by
  have hall : ∀ c ∈ a, decide (c ≠ 45) = true := fun c hc => decide_eq_true (h c hc)
  have hnot : a.contains 45 = false := by
    rw [List.contains_eq_mem, decide_eq_false_iff_not]
    exact fun hmem => h 45 hmem rfl
  rw [parseStreamId, List.takeWhile_eq_self_iff.mpr hall, hnot]
  cases parseUint a <;> rfl

theorem streamId_mod (ms seq : Nat) : streamId (ms % 2 ^ 64) (seq % 2 ^ 64) = streamId ms seq :=
  StreamId.ext (Nat.mod_mod _ _) (Nat.mod_mod _ _)

theorem names_dash {a b : Bytes} {ms seq : Nat} (h : ∀ c ∈ a, c ≠ 45) :
    Names (a ++ 45 :: b) ms seq ↔ Spells a ms ∧ Spells b seq := by
  constructor
  · rintro (⟨hs, -⟩ | ⟨a', b', heq, ha, hb⟩)
    · exact absurd rfl (Spells.not_dash hs 45 (List.mem_append_right a List.mem_cons_self))
    · obtain ⟨htake, hdrop⟩ := split_dash b h
      obtain ⟨htake', hdrop'⟩ := split_dash b' (Spells.not_dash ha)
      rw [← heq] at htake' hdrop'
      obtain rfl := htake.symm.trans htake'
      obtain rfl := (List.cons.inj (hdrop.symm.trans hdrop')).2
      exact ⟨ha, hb⟩
  · exact fun ⟨ha, hb⟩ => .inr ⟨a, b, rfl, ha, hb⟩

theorem names_bare {a : Bytes} {ms seq : Nat} (h : ∀ c ∈ a, c ≠ 45) : Names a ms seq ↔ Spells a ms ∧ seq = 0 := by
  constructor
  · rintro (hs | ⟨a', b', rfl, -⟩)
    · exact hs
    · exact absurd rfl (h 45 (List.mem_append_right a' List.mem_cons_self))
  · exact .inl

theorem Names.unique {arg : Bytes} {ms seq ms' seq' : Nat} (h : Names arg ms seq) (h' : Names arg ms' seq') :
    ms = ms' ∧ seq = seq' := by
  rcases h with ⟨hs, rfl⟩ | ⟨a, b, rfl, ha, hb⟩
  · obtain ⟨hs', rfl⟩ := (names_bare (Spells.not_dash hs)).mp h'
    exact ⟨hs.unique hs', rfl⟩
  · obtain ⟨ha', hb'⟩ := (names_dash (Spells.not_dash ha)).mp h'
    exact ⟨ha.unique ha', hb.unique hb'⟩

/-- An argument is read as the pair it spells, each word modulo `2 ^ 64`. -/
theorem parseStreamId_eq_some {arg : Bytes} {id : StreamId} :
    parseStreamId arg = some id ↔ ∃ ms seq, Names arg ms seq ∧ id = streamId ms seq := by
  by_cases hdash : 45 ∈ arg
  · obtain ⟨a, b, rfl, ha⟩ := List.eq_append_cons_of_mem hdash
    have ha' : ∀ c ∈ a, c ≠ 45 := fun c hc heq => ha (heq ▸ hc)
    simp only [parseStreamId_dash b ha', Option.bind_eq_some_iff, Option.map_eq_some_iff, parseUint_eq_some, names_dash ha']
    constructor
    · rintro ⟨_, ⟨ms, hms, rfl⟩, _, ⟨seq, hseq, rfl⟩, rfl⟩
      exact ⟨ms, seq, ⟨hms, hseq⟩, streamId_mod ms seq⟩
    · rintro ⟨ms, seq, ⟨hms, hseq⟩, rfl⟩
      exact ⟨_, ⟨ms, hms, rfl⟩, _, ⟨seq, hseq, rfl⟩, streamId_mod ms seq⟩
  · have harg : ∀ c ∈ arg, c ≠ 45 := fun c hc heq => hdash (heq ▸ hc)
    simp only [parseStreamId_bare harg, Option.map_eq_some_iff, parseUint_eq_some, names_bare harg]
    constructor
    · rintro ⟨_, ⟨ms, hms, rfl⟩, rfl⟩
      exact ⟨ms, 0, ⟨hms, rfl⟩, streamId_mod ms 0⟩
    · rintro ⟨ms, seq, ⟨hms, rfl⟩, rfl⟩
      exact ⟨_, ⟨ms, hms, rfl⟩, streamId_mod ms 0⟩

theorem names_formatId (id : StreamId) : Names (formatId [] id) id.ms id.seq :=
  .inr ⟨_, _, rfl, putDecimal_spells id.ms, putDecimal_spells id.seq⟩

theorem streamId_self (id : StreamId) : streamId id.ms id.seq = id :=
  StreamId.ext (Nat.mod_eq_of_lt id.msLt) (Nat.mod_eq_of_lt id.seqLt)

/-- Parsing is exact on a text, with numerals at or above `2 ^ 64` refused, just when the text spells no such numeral; and every ID is
read back from its own text. -/
theorem stream_id_text (b arg : Bytes) (id : StreamId) :
    ((∀ v, parseUint b = some v ↔ Spells b v ∧ v < 2 ^ 64) ↔ ∀ n, Spells b n → n < 2 ^ 64) ∧
    ((∀ id, parseStreamId arg = some id ↔ Names arg id.ms id.seq) ↔ ∀ ms seq, Names arg ms seq → ms < 2 ^ 64 ∧ seq < 2 ^ 64) ∧
    parseStreamId (formatId [] id) = some id := by
  refine ⟨⟨fun h n hn => ?_, fun h v => ?_⟩, ⟨fun h ms seq hn => ?_, fun h id => ?_⟩, ?_⟩
  · obtain ⟨hmod, hlt⟩ := (h (n % 2 ^ 64)).mp (parseUint_eq_some.mpr ⟨n, hn, rfl⟩)
    rw [← hn.unique hmod] at hlt
    exact hlt
  · rw [parseUint_eq_some]
    constructor
    · rintro ⟨n, hn, rfl⟩
      rw [Nat.mod_eq_of_lt (h n hn)]
      exact ⟨hn, h n hn⟩
    · exact fun ⟨hv, hlt⟩ => ⟨v, hv, (Nat.mod_eq_of_lt hlt).symm⟩
  · have hmod := (h (streamId ms seq)).mp (parseStreamId_eq_some.mpr ⟨ms, seq, hn, rfl⟩)
    obtain ⟨hms, hseq⟩ := hn.unique hmod
    exact ⟨hms ▸ (streamId ms seq).msLt, hseq ▸ (streamId ms seq).seqLt⟩
  · rw [parseStreamId_eq_some]
    constructor
    · rintro ⟨ms, seq, hn, rfl⟩
      obtain ⟨hms, hseq⟩ := h ms seq hn
      have hself := streamId_self ⟨ms, seq, hms, hseq⟩
      rw [hself]
      exact hn
    · exact fun hn => ⟨id.ms, id.seq, hn, (streamId_self id).symm⟩
  · exact parseStreamId_eq_some.mpr ⟨id.ms, id.seq, names_formatId id, (streamId_self id).symm⟩

/-- The numeral `2 ^ 64` is accepted as zero, and `2 ^ 64` dash one as the ID `0-1`. -/
theorem two_pow_64_read_as_zero :
    (parseUint [49, 56, 52, 52, 54, 55, 52, 52, 48, 55, 51, 55, 48, 57, 53, 53, 49, 54, 49, 54] = some 0 ∧
      Spells [49, 56, 52, 52, 54, 55, 52, 52, 48, 55, 51, 55, 48, 57, 53, 53, 49, 54, 49, 54] (2 ^ 64)) ∧
    parseStreamId [49, 56, 52, 52, 54, 55, 52, 52, 48, 55, 51, 55, 48, 57, 53, 53, 49, 54, 49, 54, 45, 49] = some (streamId 0 1) :=
  ⟨⟨by decide +kernel, List.cons_ne_nil _ _, by decide +kernel, by decide +kernel⟩, by decide +kernel⟩

end Aki
