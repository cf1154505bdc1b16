import Mathlib.Tactic.Ring
import Aki.Incremental
import Aki.Resp

namespace Aki.Sqlo1

open Incremental Resp

def maxArgs : Nat := 1024 * 1024

def maxBulkLen : Nat := 512 * 2 ^ 20

def maxInlineLen : Nat := 64 * 2 ^ 10

inductive ProtoError where
  | multibulkLength
  | expectedBulk (got : UInt8)
  | bulkLength
  | bulkTerminator
  | invalidLength
  | lengthTerminator
  | inlineTooBig
deriving DecidableEq

def ProtoError.msg : ProtoError → String
  | multibulkLength => "ERR Protocol error: invalid multibulk length"
  | expectedBulk got => "ERR Protocol error: expected '$', got '" ++ String.singleton (Char.ofNat got.toNat) ++ "'"
  | bulkLength => "ERR Protocol error: invalid bulk length"
  | bulkTerminator => "ERR Protocol error: invalid bulk terminator"
  | invalidLength => "ERR Protocol error: invalid length"
  | lengthTerminator => "ERR Protocol error: invalid length terminator"
  | inlineTooBig => "ERR Protocol error: too big inline request"

abbrev Reader := Parser UInt8 ProtoError

def isDigit (b : UInt8) : Bool := 48 ≤ b && b ≤ 57

/-- The digit loop of `parseNumberLine`: the value and the number of digits, or `none` at the twelfth. -/
def digitsLoop (v digits : Nat) : Bytes → Option (Nat × Nat)
  | [] => some (v, digits)
  | b :: rest =>
    if isDigit b then
      if 10 < digits then none else digitsLoop (v * 10 + (b.toNat - 48)) (digits + 1) rest
    else some (v, digits)

def unsignedLine : Reader Nat := fun b =>
  match digitsLoop 0 0 b with
  | none => .fail .multibulkLength
  | some (v, digits) =>
    match b.drop digits with
    | [] => .incomplete
    | [_] => if digits = 0 then .fail .invalidLength else .incomplete
    | r :: n :: _ =>
      if digits = 0 then .fail .invalidLength
      else if r ≠ 13 ∨ n ≠ 10 then .fail .lengthTerminator
      else .done v (digits + 2)

def parseNumberLine : Reader Int :=
  .peek (· == 45)
    (do
      let _ ← Parser.item
      let v ← unsignedLine
      pure (-(v : Int)))
    (do
      let v ← unsignedLine
      pure (v : Int))

def parseBulk : Reader Bytes := do
  let lead ← Parser.item
  if lead ≠ 36 then Parser.fail (.expectedBulk lead)
  else do
    let blen ← parseNumberLine
    if blen < 0 ∨ blen > maxBulkLen then Parser.fail .bulkLength
    else do
      let body ← Parser.tokens (blen.toNat + 2)
      if body[blen.toNat]? ≠ some 13 ∨ body[blen.toNat + 1]? ≠ some 10 then Parser.fail .bulkTerminator
      else pure (body.take blen.toNat)

def parseBulks : Nat → Reader (List Bytes)
  | 0 => pure []
  | count + 1 => do
    let arg ← parseBulk
    let args ← parseBulks count
    pure (arg :: args)

def parseMultibulk : Reader (List Bytes) := do
  let _ ← Parser.item
  let count ← parseNumberLine
  if count > maxArgs then Parser.fail .multibulkLength
  else if count ≤ 0 then pure []
  else parseBulks count.toNat

/-- The search of `parseInline` for the end of the line. -/
def inlineEnd (i : Nat) : Bytes → Res ProtoError Nat
  | [] => if maxInlineLen < i then .fail .inlineTooBig else .incomplete
  | b :: rest =>
    if b = 10 then .done i (i + 1)
    else if maxInlineLen ≤ i then .fail .inlineTooBig
    else inlineEnd (i + 1) rest

def isBlank (b : UInt8) : Bool := b == 32 || b == 9

/-- The arguments of a line; `word` is the one being read. -/
def inlineWords (word : Bytes) : Bytes → List Bytes
  | [] => if word = [] then [] else [word]
  | b :: rest =>
    if isBlank b then (if word = [] then [] else [word]) ++ inlineWords [] rest
    else inlineWords (word ++ [b]) rest

def inlineArgs (line : Bytes) : List Bytes :=
  inlineWords [] (if line.getLast? = some 13 then line.dropLast else line)

def parseInline : Reader (List Bytes) := fun b =>
  match inlineEnd 0 b with
  | .incomplete => .incomplete
  | .fail e => .fail e
  | .done stop n => .done (inlineArgs (b.take stop)) n

def parseCommand : Reader (List Bytes) := .peek (· != 42) parseInline parseMultibulk

/-- What `AppendArray` and `AppendBulk` write for a command. -/
def encodeCommand (args : List Bytes) : Bytes := args.foldl appendBulk (appendArrayHeader [] args.length)

theorem digitsLoop_stop : ∀ {s : Bytes} {v k w d : Nat}, digitsLoop v k s = some (w, d) → k ≤ d ∧ d - k ≤ s.length ∧
    ∀ t : Bytes, t.take (d - k + 1) = s.take (d - k + 1) → digitsLoop v k t = some (w, d)
  | [], v, k, w, d, h => by
    obtain ⟨rfl, rfl⟩ := Prod.mk.inj (Option.some.inj h)
    refine ⟨Nat.le_refl _, by omega, fun t ht => ?_⟩
    rw [Nat.sub_self, List.take_nil] at ht
    cases t with
    | nil => rfl
    | cons b t => cases ht
  | b :: s, v, k, w, d, h => by
    rw [digitsLoop] at h
    split at h
    next hb =>
      split at h
      · cases h
      next hk =>
        obtain ⟨hle, hlen, hstop⟩ := digitsLoop_stop h
        have hsub : d - k = d - (k + 1) + 1 := by omega
        refine ⟨by omega, by rw [List.length_cons]; omega, fun t ht => ?_⟩
        rw [hsub] at ht
        cases t with
        | nil => cases ht
        | cons c t =>
          rw [List.take_succ_cons, List.take_succ_cons] at ht
          obtain ⟨rfl, ht'⟩ := List.cons.inj ht
          rw [digitsLoop, if_pos hb, if_neg hk]
          exact hstop t ht'
    next hb =>
      obtain ⟨rfl, rfl⟩ := Prod.mk.inj (Option.some.inj h)
      refine ⟨Nat.le_refl _, by omega, fun t ht => ?_⟩
      rw [Nat.sub_self] at ht
      cases t with
      | nil => cases ht
      | cons c t =>
        obtain ⟨rfl, -⟩ := List.cons.inj ht
        rw [digitsLoop, if_neg hb]

theorem digitsLoop_none (x : Bytes) : ∀ {s : Bytes} {v k : Nat}, digitsLoop v k s = none → digitsLoop v k (s ++ x) = none
  | [], _, _, h => nomatch h
  | b :: s, v, k, h => by
    rw [digitsLoop] at h
    rw [List.cons_append, digitsLoop]
    split at h
    next hb =>
      rw [if_pos hb]
      split at h
      next hk => rw [if_pos hk]
      next hk => rw [if_neg hk]; exact digitsLoop_none x h
    next => cases h

theorem unsignedLine_done {b : Bytes} {v n : Nat} : unsignedLine b = .done v n ↔
    ∃ d rest, digitsLoop 0 0 b = some (v, d) ∧ d ≠ 0 ∧ b.drop d = 13 :: 10 :: rest ∧ n = d + 2 := by
  rw [unsignedLine]
  constructor
  · intro h
    split at h
    · cases h
    next w d hd =>
      split at h
      · cases h
      · split at h <;> cases h
      next r m rest hr =>
        split at h
        · cases h
        next h0 =>
          split at h
          · cases h
          next ht =>
            obtain ⟨rfl, rfl⟩ := Res.done.inj h
            obtain ⟨rfl, rfl⟩ := not_or.mp ht |>.imp not_not.mp not_not.mp
            exact ⟨d, rest, hd, h0, hr, rfl⟩
  · rintro ⟨d, rest, hd, h0, hr, rfl⟩
    simp only [hd, hr]
    rw [if_neg h0, if_neg (by simp)]

theorem unsignedLine_fail {b : Bytes} {e : ProtoError} : unsignedLine b = .fail e →
    digitsLoop 0 0 b = none ∧ e = .multibulkLength ∨
    ∃ v d, digitsLoop 0 0 b = some (v, d) ∧
      (d = 0 ∧ b ≠ [] ∧ e = .invalidLength ∨
        d ≠ 0 ∧ e = .lengthTerminator ∧ ∃ r m rest, b.drop d = r :: m :: rest ∧ (r ≠ 13 ∨ m ≠ 10)) := by
  intro h
  rw [unsignedLine] at h
  split at h
  next hd => exact .inl ⟨hd, (Res.fail.inj h).symm⟩
  next w d hd =>
    refine .inr ⟨w, d, hd, ?_⟩
    split at h
    · cases h
    next r hr =>
      split at h
      next h0 =>
        subst h0
        exact .inl ⟨rfl, (fun hb => by rw [hb] at hr; cases hr), (Res.fail.inj h).symm⟩
      · cases h
    next r m rest hr =>
      split at h
      next h0 =>
        subst h0
        exact .inl ⟨rfl, (fun hb => by rw [hb] at hr; cases hr), (Res.fail.inj h).symm⟩
      next h0 =>
        split at h
        next ht => exact .inr ⟨h0, (Res.fail.inj h).symm, r, m, rest, hr, ht⟩
        · cases h

theorem unsignedLine_stable : unsignedLine.Stable := by
  refine .of_local (fun {b v n} h => ?_) fun {b e} h x => ?_
  · obtain ⟨d, rest, hd, h0, hr, rfl⟩ := unsignedLine_done.mp h
    have hlen : b.length = d + (rest.length + 2) := by
      have := congrArg List.length hr
      rw [List.length_drop, List.length_cons, List.length_cons] at this
      omega
    refine ⟨by omega, fun t ht => unsignedLine_done.mpr ⟨d, t.drop (d + 2), (digitsLoop_stop hd).2.2 t ?_, h0, ?_, rfl⟩⟩
    · have := congrArg (List.take (d + 1)) ht
      rwa [List.take_take, List.take_take, Nat.min_eq_left (by omega)] at this
    · have hb : b.take (d + 2) = b.take d ++ [13, 10] := by rw [List.take_add, hr]; rfl
      have ht' : t = b.take d ++ ([13, 10] ++ t.drop (d + 2)) := by
        rw [← List.append_assoc, ← hb, ← ht, List.take_append_drop]
      have hd' : (b.take d).length = d := List.length_take_of_le (by omega)
      conv_lhs => rw [ht', List.drop_left' hd']
      rfl
  · rcases unsignedLine_fail h with ⟨hd, rfl⟩ | ⟨v, d, hd, ⟨rfl, hne, rfl⟩ | ⟨h0, rfl, r, m, rest, hr, hterm⟩⟩
    · rw [unsignedLine, digitsLoop_none x hd]
    · obtain ⟨c, b, rfl⟩ := List.exists_cons_of_ne_nil hne
      have hd' : digitsLoop 0 0 (c :: (b ++ x)) = some (v, 0) := (digitsLoop_stop hd).2.2 _ rfl
      rw [List.cons_append, unsignedLine, hd']
      cases b ++ x <;> rfl
    · have hlen : d + 2 ≤ b.length := by
        have := congrArg List.length hr
        rw [List.length_drop, List.length_cons, List.length_cons] at this
        omega
      have hd' : digitsLoop 0 0 (b ++ x) = some (v, d) :=
        (digitsLoop_stop hd).2.2 _ (List.take_append_of_le_length (by omega))
      rw [unsignedLine, hd']
      simp only [List.drop_append_of_le_length (show d ≤ b.length by omega), hr, List.cons_append]
      rw [if_neg h0, if_pos hterm]

theorem unsignedLine_progress : unsignedLine.Progress := by
  intro b v n h
  obtain ⟨d, -, -, -, -, rfl⟩ := unsignedLine_done.mp h
  exact Nat.succ_pos _

theorem parseNumberLine_stable : parseNumberLine.Stable :=
  .peek (Parser.Stable.item.bind fun _ => unsignedLine_stable.bind fun _ => .pure _) (unsignedLine_stable.bind fun _ => .pure _)
    Parser.Progress.item.bind unsignedLine_progress.bind

theorem parseBulk_stable : parseBulk.Stable :=
  Parser.Stable.item.bind fun _ => .ite (.failure _) <| parseNumberLine_stable.bind fun _ => .ite (.failure _) <|
    (Parser.Stable.tokens _).bind fun _ => .ite (.failure _) (.pure _)

theorem parseBulks_stable : ∀ count, (parseBulks count).Stable
  | 0 => .pure _
  | count + 1 => parseBulk_stable.bind fun _ => (parseBulks_stable count).bind fun _ => .pure _

theorem parseMultibulk_stable : parseMultibulk.Stable :=
  Parser.Stable.item.bind fun _ => parseNumberLine_stable.bind fun _ => .ite (.failure _) <| .ite (.pure _) (parseBulks_stable _)

theorem inlineEnd_done : ∀ {b : Bytes} {i stop n : Nat}, inlineEnd i b = .done stop n → n = stop + 1 ∧ i ≤ stop ∧ n ≤ i + b.length ∧
    ∀ t : Bytes, t.take (n - i) = b.take (n - i) → inlineEnd i t = .done stop n
  | [], i, stop, n, h => by
    rw [inlineEnd] at h
    split at h <;> cases h
  | c :: b, i, stop, n, h => by
    rw [inlineEnd] at h
    split at h
    next hc =>
      obtain ⟨rfl, rfl⟩ := Res.done.inj h
      refine ⟨rfl, Nat.le_refl _, by rw [List.length_cons]; omega, fun t ht => ?_⟩
      rw [Nat.add_sub_cancel_left] at ht
      cases t with
      | nil => cases ht
      | cons d t =>
        obtain ⟨rfl, -⟩ := List.cons.inj ht
        rw [inlineEnd, if_pos hc]
    next hc =>
      split at h
      · cases h
      next hi =>
        obtain ⟨rfl, hle, hlen, hstop⟩ := inlineEnd_done h
        refine ⟨rfl, by omega, by rw [List.length_cons]; omega, fun t ht => ?_⟩
        have hsub : stop + 1 - i = stop + 1 - (i + 1) + 1 := by omega
        rw [hsub] at ht
        cases t with
        | nil => cases ht
        | cons d t =>
          rw [List.take_succ_cons, List.take_succ_cons] at ht
          obtain ⟨rfl, ht'⟩ := List.cons.inj ht
          rw [inlineEnd, if_neg hc, if_neg hi]
          exact hstop t ht'

/-- The length cap is reached at a byte that is there, so more input does not lift it. -/
theorem inlineEnd_fail (x : Bytes) : ∀ {b : Bytes} {i : Nat} {e : ProtoError}, i ≤ maxInlineLen → inlineEnd i b = .fail e →
    inlineEnd i (b ++ x) = .fail e
  | [], i, e, hi, h => by
    rw [inlineEnd, if_neg (by omega)] at h
    cases h
  | c :: b, i, e, _, h => by
    rw [inlineEnd] at h
    rw [List.cons_append, inlineEnd]
    split at h
    · cases h
    next hc =>
      rw [if_neg hc]
      split at h
      next hi => rw [if_pos hi]; exact h
      next hi =>
        rw [if_neg hi]
        exact inlineEnd_fail x (by omega) h

theorem parseInline_stable : parseInline.Stable := by
  refine .of_local (fun {b args n} h => ?_) fun {b e} h x => ?_
  · rw [parseInline] at h
    split at h
    · cases h
    · cases h
    next stop m hm =>
      obtain ⟨rfl, rfl⟩ := Res.done.inj h
      obtain ⟨rfl, -, hlen, hstop⟩ := inlineEnd_done hm
      refine ⟨by omega, fun t ht => ?_⟩
      have hline := congrArg (List.take stop) ht
      rw [List.take_take, List.take_take, Nat.min_eq_left (by omega)] at hline
      rw [parseInline, hstop t ht]
      dsimp only
      rw [hline]
  · rw [parseInline] at h
    split at h
    · cases h
    next e' he =>
      obtain rfl := Res.fail.inj h
      rw [parseInline, inlineEnd_fail x (Nat.zero_le _) he]
    · cases h

theorem parseInline_progress : parseInline.Progress := by
  intro b args n h
  rw [parseInline] at h
  split at h
  · cases h
  · cases h
  next stop m hm =>
    obtain ⟨-, rfl⟩ := Res.done.inj h
    obtain ⟨rfl, -⟩ := inlineEnd_done hm
    exact Nat.succ_pos _

theorem parseCommand_stable : parseCommand.Stable :=
  .peek parseInline_stable parseMultibulk_stable parseInline_progress Parser.Progress.item.bind

theorem parseCommand_progress : parseCommand.Progress := Parser.Progress.peek parseInline_progress Parser.Progress.item.bind

theorem decimalLoop_append (acc : Bytes) : ∀ (fuel u : Nat) (acc' : Bytes),
    decimalLoop fuel u (acc' ++ acc) = decimalLoop fuel u acc' ++ acc
  | 0, _, _ => rfl
  | fuel + 1, u, acc' => by
    rw [decimalLoop, decimalLoop]
    split
    · rfl
    · exact decimalLoop_append acc fuel (u / 10) (_ :: acc')

/-- The digits written are the digits read: as many as the number has, and its value. -/
theorem digitsLoop_decimal : ∀ (fuel u : Nat) (acc : Bytes), u ≤ fuel → ∃ d, (decimalLoop (fuel + 1) u acc).length = d + acc.length ∧
    1 ≤ d ∧ (∀ m, 1 ≤ m → u < 10 ^ m → d ≤ m) ∧
    ∀ v k, k + d ≤ 11 → digitsLoop v k (decimalLoop (fuel + 1) u acc) = digitsLoop (v * 10 ^ d + u) (k + d) acc := by
  have hdigit (u : Nat) : isDigit (UInt8.ofNat (48 + u % 10)) = true ∧ (UInt8.ofNat (48 + u % 10)).toNat - 48 = u % 10 := by
    have hall : ∀ r < 10, isDigit (UInt8.ofNat (48 + r)) = true ∧ (UInt8.ofNat (48 + r)).toNat - 48 = r := by decide
    exact hall (u % 10) (Nat.mod_lt _ (by decide))
  -- one digit moves from the text into the number
  have hone (u : Nat) (acc : Bytes) (v k : Nat) (hk : k + 1 ≤ 11) :
      digitsLoop v k (UInt8.ofNat (48 + u % 10) :: acc) = digitsLoop (v * 10 + u % 10) (k + 1) acc := by
    rw [digitsLoop, if_pos (hdigit u).1, if_neg (by omega), (hdigit u).2]
  intro fuel
  induction fuel with
  | zero =>
    intro u acc hu
    obtain rfl := Nat.le_zero.mp hu
    refine ⟨1, Nat.add_comm acc.length 1, Nat.le_refl 1, fun m hm _ => hm, fun v k hk => ?_⟩
    rw [Nat.pow_one]
    exact hone 0 acc v k hk
  | succ fuel ih =>
    intro u acc hu
    rw [decimalLoop]
    by_cases h10 : u / 10 = 0
    · rw [if_pos h10]
      have hmod : u % 10 = u := Nat.mod_eq_of_lt (by omega)
      refine ⟨1, Nat.add_comm acc.length 1, Nat.le_refl 1, fun m hm _ => hm, fun v k hk => ?_⟩
      rw [hone u acc v k hk, hmod, Nat.pow_one]
    · rw [if_neg h10]
      obtain ⟨d, hlen, hd, hle, hread⟩ := ih (u / 10) (UInt8.ofNat (48 + u % 10) :: acc) (by omega)
      refine ⟨d + 1, by rw [hlen, List.length_cons]; omega, by omega, fun m hm hlt => ?_, fun v k hk => ?_⟩
      · obtain ⟨m, rfl⟩ := Nat.exists_eq_succ_of_ne_zero (Nat.ne_of_gt hm)
        have hdiv : u / 10 < 10 ^ m := Nat.div_lt_of_lt_mul (by rwa [Nat.pow_succ, Nat.mul_comm] at hlt)
        rcases Nat.eq_zero_or_pos m with rfl | hm0
        · omega
        · exact Nat.succ_le_succ (hle m hm0 hdiv)
      · have hval : (v * 10 ^ d + u / 10) * 10 + u % 10 = v * 10 ^ (d + 1) + u := by
          have : u = u / 10 * 10 + u % 10 := by omega
          conv_rhs => rw [this]
          ring
        rw [hread v k (by omega), hone u acc _ _ (by omega), hval, Nat.add_assoc]

theorem unsignedLine_decimal {u : Nat} (hu : u < 10 ^ 11) (rest : Bytes) :
    unsignedLine (putDecimal u ++ crlf ++ rest) = .done u ((putDecimal u).length + 2) ∧ (putDecimal u ++ crlf ++ rest).head? ≠ some 45 := by
  obtain ⟨d, hlen, hd, hle, hread⟩ := digitsLoop_decimal u u (crlf ++ rest) (Nat.le_refl u)
  have happ : decimalLoop (u + 1) u (crlf ++ rest) = putDecimal u ++ crlf ++ rest := by
    rw [List.append_assoc]
    exact decimalLoop_append (crlf ++ rest) (u + 1) u []
  rw [happ] at hlen hread
  have hput : (putDecimal u).length = d := by
    rw [List.append_assoc, List.length_append] at hlen
    omega
  have hdig : digitsLoop 0 0 (putDecimal u ++ crlf ++ rest) = some (u, d) := by
    rw [hread 0 0 (by have := hle 11 (by decide) hu; omega), Nat.zero_mul, Nat.zero_add, Nat.zero_add]
    rfl
  refine ⟨unsignedLine_done.mpr ⟨d, rest, hdig, by omega, ?_, by rw [hput]⟩, fun hhead => ?_⟩
  · rw [List.append_assoc, List.drop_left' hput]
    rfl
  -- a sign would stop the digit loop at once
  · obtain ⟨tail, htail⟩ := List.head?_eq_some_iff.mp hhead
    rw [htail, digitsLoop, if_neg (by decide)] at hdig
    have := (Prod.mk.inj (Option.some.inj hdig)).2
    omega

theorem parseNumberLine_decimal {u : Nat} (hu : u < 10 ^ 11) (rest : Bytes) :
    parseNumberLine (putDecimal u ++ crlf ++ rest) = .done (u : Int) ((putDecimal u).length + 2) := by
  obtain ⟨hline, hhead⟩ := unsignedLine_decimal hu rest
  generalize putDecimal u ++ crlf ++ rest = b at hline hhead
  cases b with
  | nil => cases hline
  | cons c b =>
    have hc : (c == 45) = false := beq_eq_false_iff_ne.mpr fun h => hhead (by rw [h]; rfl)
    show (if c == 45 then _ else _) = _
    rw [hc, if_neg (by decide)]
    exact Parser.bind_done.mpr ⟨u, _, 0, hline, rfl, rfl⟩

theorem parseBulk_appendBulk {v : Bytes} (hv : v.length ≤ maxBulkLen) (rest : Bytes) :
    parseBulk (appendBulk [] v ++ rest) = .done v (appendBulk [] v).length := by
  have hbytes : appendBulk [] v ++ rest = 36 :: (putDecimal v.length ++ crlf ++ (v ++ crlf ++ rest)) := by
    simp only [appendBulk, List.nil_append, List.cons_append, List.append_assoc]
  have hlen : (appendBulk [] v).length = 1 + ((putDecimal v.length).length + 2 + (v.length + 2)) := by
    simp only [appendBulk, crlf, List.nil_append, List.length_append, List.length_cons, List.length_nil]
    omega
  have hnum := parseNumberLine_decimal (u := v.length) (by rw [maxBulkLen] at hv; omega) (v ++ crlf ++ rest)
  have hdrop : (putDecimal v.length ++ crlf ++ (v ++ crlf ++ rest)).drop ((putDecimal v.length).length + 2) = v ++ crlf ++ rest :=
    List.drop_left' (by rw [List.length_append]; rfl)
  have hbody : (v ++ crlf ++ rest).take (v.length + 2) = v ++ crlf := List.take_left' (by rw [List.length_append]; rfl)
  rw [hbytes, hlen]
  refine Parser.bind_done.mpr ⟨36, 1, _, rfl, ?_, rfl⟩
  rw [if_neg (by decide)]
  refine Parser.bind_done.mpr ⟨(v.length : Int), _, v.length + 2, hnum, ?_, rfl⟩
  rw [if_neg (by omega), Int.toNat_natCast, List.drop_one, List.tail_cons, hdrop]
  refine Parser.bind_done.mpr ⟨v ++ crlf, v.length + 2, 0, ?_, ?_, rfl⟩
  · rw [Parser.tokens, if_neg (by rw [List.length_append, List.length_append]; simp [crlf]), hbody]
  · have h13 : (v ++ crlf)[v.length]? = some 13 := by rw [List.getElem?_append_right (Nat.le_refl _), Nat.sub_self]; rfl
    have h10 : (v ++ crlf)[v.length + 1]? = some 10 := by
      rw [List.getElem?_append_right (by omega), Nat.add_sub_cancel_left]
      rfl
    rw [if_neg (by simp [h13, h10]), List.take_left]
    rfl

theorem parseBulks_appendBulk : ∀ (args : List Bytes) (rest : Bytes), (∀ a ∈ args, a.length ≤ maxBulkLen) →
    parseBulks args.length (args.flatMap (appendBulk []) ++ rest) = .done args (args.flatMap (appendBulk [])).length
  | [], _, _ => rfl
  | a :: args, rest, h => by
    have hbulk := parseBulk_appendBulk (h a List.mem_cons_self) (args.flatMap (appendBulk []) ++ rest)
    have hmore := parseBulks_appendBulk args rest fun x hx => h x (List.mem_cons_of_mem _ hx)
    rw [List.flatMap_cons, List.append_assoc, List.length_append]
    refine Parser.bind_done.mpr ⟨a, _, _, hbulk, ?_, rfl⟩
    rw [List.drop_left]
    exact Parser.bind_done.mpr ⟨args, _, 0, hmore, rfl, rfl⟩

theorem foldl_appendBulk (args : List Bytes) (dst : Bytes) : args.foldl appendBulk dst = dst ++ args.flatMap (appendBulk []) := by
  induction args generalizing dst with
  | nil => rw [List.foldl_nil, List.flatMap_nil, List.append_nil]
  | cons a args ih => rw [List.foldl_cons, ih, List.flatMap_cons, ← List.append_assoc, appendBulk, appendBulk, List.nil_append]

theorem parseCommand_encodeCommand {args : List Bytes} (hpos : 1 ≤ args.length) (hle : args.length ≤ 2 ^ 20)
    (hargs : ∀ a ∈ args, a.length ≤ maxBulkLen) (rest : Bytes) :
    parseCommand (encodeCommand args ++ rest) = .done args (encodeCommand args).length := by
  have hbytes : encodeCommand args ++ rest =
      42 :: (putDecimal args.length ++ crlf ++ (args.flatMap (appendBulk []) ++ rest)) := by
    rw [encodeCommand, foldl_appendBulk]
    simp only [appendArrayHeader, List.nil_append, List.cons_append, List.append_assoc]
  have hlen : (encodeCommand args).length = 1 + ((putDecimal args.length).length + 2 + (args.flatMap (appendBulk [])).length) := by
    rw [encodeCommand, foldl_appendBulk]
    simp only [appendArrayHeader, crlf, List.nil_append, List.length_append, List.length_cons, List.length_nil]
    omega
  have hnum := parseNumberLine_decimal (u := args.length) (by omega) (args.flatMap (appendBulk []) ++ rest)
  have hdrop : (putDecimal args.length ++ crlf ++ (args.flatMap (appendBulk []) ++ rest)).drop ((putDecimal args.length).length + 2) =
      args.flatMap (appendBulk []) ++ rest := List.drop_left' (by rw [List.length_append]; rfl)
  rw [hbytes, hlen]
  show parseMultibulk _ = _
  refine Parser.bind_done.mpr ⟨42, 1, _, rfl, ?_, rfl⟩
  refine Parser.bind_done.mpr ⟨(args.length : Int), _, _, hnum, ?_, rfl⟩
  rw [if_neg (by rw [maxArgs]; omega), if_neg (by omega), Int.toNat_natCast, List.drop_one, List.tail_cons, hdrop]
  exact parseBulks_appendBulk args rest hargs

/-- The reads of a connection, each parsed as far as it goes; `seen` is what it dispatches, the empty commands skipped. -/
def commandsSeen (chunks : List Bytes) : List (List Bytes) × Option ProtoError :=
  let conn := chunks.foldl (Conn.feed parseCommand) ⟨[], [], none⟩
  (conn.seen.filter (· ≠ []), conn.closed)

/-- A command is read once its last byte is there and never otherwise, a protocol error is final, a built command reads back, and so
the commands of a connection do not depend on how its stream was cut. -/
theorem parsing_is_incremental :
    (∀ b args n, parseCommand b = .done args n → n ≤ b.length ∧ (∀ k < n, parseCommand (b.take k) = .incomplete) ∧
      ∀ x, parseCommand (b.take n ++ x) = .done args n) ∧
    (∀ b e, parseCommand b = .fail e → ∀ x, ∃ e', parseCommand (b ++ x) = .fail e') ∧
    (∀ args : List Bytes, 1 ≤ args.length → args.length ≤ 2 ^ 20 → (∀ a ∈ args, a.length ≤ 512 * 2 ^ 20) →
      ∀ rest, parseCommand (encodeCommand args ++ rest) = .done args (encodeCommand args).length) ∧
    ∀ chunks chunks' : List Bytes, chunks.flatten = chunks'.flatten → commandsSeen chunks = commandsSeen chunks' := by
  refine ⟨fun b args n h => ⟨parseCommand_stable.le h, fun k hk => parseCommand_stable.incomplete_of_lt h hk,
      parseCommand_stable.extend (parseCommand_stable.trim h)⟩,
    fun b e h x => ⟨e, parseCommand_stable.fail h x⟩,
    fun args hpos hle hargs rest => parseCommand_encodeCommand hpos hle hargs rest, fun chunks chunks' heq => ?_⟩
  have h := feed_chunks parseCommand_stable parseCommand_progress rfl chunks
  have h' := feed_chunks parseCommand_stable parseCommand_progress rfl chunks'
  rw [← heq] at h'
  exact Prod.ext (congrArg (List.filter _) (h.seen.trans h'.seen.symm)) (h.closed.trans h'.closed.symm)

/-- A `GET k` cut inside its last line ending, then completed with the next command behind it. -/
theorem get_parsed_incrementally :
    parseCommand (encodeCommand [[71, 69, 84], [107]]) = .done [[71, 69, 84], [107]] 20 ∧
    parseCommand ((encodeCommand [[71, 69, 84], [107]]).take 19) = .incomplete ∧
    ∀ x, parseCommand ((encodeCommand [[71, 69, 84], [107]]).take 20 ++ x) = .done [[71, 69, 84], [107]] 20 :=
  have h : parseCommand (encodeCommand [[71, 69, 84], [107]]) = .done [[71, 69, 84], [107]] 20 := by decide +kernel
  ⟨h, (parsing_is_incremental.1 _ _ _ h).2.1 19 (by decide), (parsing_is_incremental.1 _ _ _ h).2.2⟩

end Aki.Sqlo1
