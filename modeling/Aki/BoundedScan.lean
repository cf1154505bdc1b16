import Mathlib.Data.List.Basic

-- A scan of a list in parts that skips some elements, ends at the first one that stops it and takes at most a given number.

namespace BoundedScan

variable {α σ : Type} (skip stop : α → Bool) (full : σ → Bool) (visit : σ → α → σ)

/-- The scan of one part: the state it leaves, and whether the scan is over. -/
def scan : List α → σ → σ × Bool
  | [], st => (st, false)
  | e :: es, st =>
    if skip e then scan es st
    else if stop e then (st, true)
    else if full (visit st e) then (visit st e, true)
    else scan es (visit st e)

def scanAll : List (List α) → σ → σ
  | [], st => st
  | es :: parts, st =>
    match scan skip stop full visit es st with
    | (st, true) => st
    | (st, false) => scanAll parts st

def filled (limit : Int) (n : Nat) : Bool := decide (0 < limit) && decide (limit ≤ n)

/-- The first elements up to a positive limit, all of them otherwise. -/
def upTo (limit : Int) (es : List α) : List α := if 0 < limit then es.take limit.toNat else es

/-- How much of a list is still taken after the first `n`. -/
def remaining (limit : Int) (n : Nat) (es : List α) : List α := if 0 < limit then es.take (limit.toNat - n) else es

variable {skip stop full visit}

theorem scan_append (es es' : List α) (st : σ) : scan skip stop full visit (es ++ es') st =
    match scan skip stop full visit es st with
    | (st, true) => (st, true)
    | (st, false) => scan skip stop full visit es' st := by
  induction es generalizing st with
  | nil => rfl
  | cons e es ih =>
    rw [List.cons_append, scan, scan]
    split
    · exact ih st
    · split
      · rfl
      · split
        · rfl
        · exact ih _

theorem scanAll_eq (parts : List (List α)) (st : σ) :
    scanAll skip stop full visit parts st = (scan skip stop full visit parts.flatten st).1 := by
  induction parts generalizing st with
  | nil => rfl
  | cons es parts ih =>
    rw [scanAll, List.flatten_cons, scan_append]
    split
    · rfl
    · exact ih _

theorem remaining_nil (limit : Int) (n : Nat) : remaining limit n ([] : List α) = [] := by simp [remaining]

theorem remaining_zero (limit : Int) (es : List α) : remaining limit 0 es = upTo limit es := by rw [remaining, upTo, Nat.sub_zero]

theorem remaining_cons_filled {limit : Int} {n : Nat} {e : α} {es : List α} (hroom : filled limit n = false)
    (hfull : filled limit (n + 1) = true) : remaining limit n (e :: es) = [e] := by
  simp only [filled, Bool.and_eq_true, decide_eq_true_eq, Bool.and_eq_false_imp, decide_eq_false_iff_not] at hroom hfull
  have hn : limit.toNat - n = 1 := by
    have := hroom hfull.1
    omega
  rw [remaining, if_pos hfull.1, hn]
  simp

theorem remaining_cons {limit : Int} {n : Nat} {e : α} {es : List α} (hroom : filled limit (n + 1) = false) :
    remaining limit n (e :: es) = e :: remaining limit (n + 1) es := by
  simp only [filled, Bool.and_eq_false_imp, decide_eq_true_eq, decide_eq_false_iff_not] at hroom
  unfold remaining
  split
  next hpos =>
    have := hroom hpos
    rw [show limit.toNat - n = limit.toNat - (n + 1) + 1 by omega, List.take_succ_cons]
  next => rfl

/-- Where an element that stops the scan is followed by no other kind, the scan visits the wanted elements up to the limit. -/
theorem scan_spec {limit : Int} (count : σ → Nat) (hcount : ∀ st e, count (visit st e) = count st + 1)
    (hfull : ∀ st, full st = filled limit (count st)) {es : List α} (hstop : es.Pairwise fun a b => stop a = true → stop b = true) (st : σ)
    (hroom : filled limit (count st) = false) :
    (scan skip stop full visit es st).1 = (remaining limit (count st) (es.filter fun e => !skip e && !stop e)).foldl visit st := by
  induction es generalizing st with
  | nil => simp [scan, remaining_nil]
  | cons e es ih =>
    rw [List.pairwise_cons] at hstop
    rw [scan]
    split
    next hskip => rw [ih hstop.2 st hroom, List.filter_cons_of_neg (by simp [hskip])]
    next hskip =>
      split
      next hs =>
        have hnil : ((e :: es).filter fun e => !skip e && !stop e) = [] := by
          rw [List.filter_eq_nil_iff]
          intro x hx
          rcases List.mem_cons.mp hx with rfl | hx
          · simp [hs]
          · simp [hstop.1 x hx hs]
        rw [hnil, remaining_nil]
        rfl
      next hs =>
        rw [List.filter_cons_of_pos (by simp [hskip, hs]), hfull, hcount]
        split
        next hover =>
          rw [remaining_cons_filled hroom hover]
          rfl
        next hover =>
          have hopen : filled limit (count st + 1) = false := by simpa using hover
          rw [ih hstop.2 _ (by rw [hcount]; exact hopen), hcount, remaining_cons hopen, List.foldl_cons]

theorem filled_zero (limit : Int) : filled limit 0 = false := by
  by_cases hpos : 0 < limit <;> simp [filled, hpos]

theorem foldl_snoc (es out : List α) : es.foldl (fun out e => out ++ [e]) out = out ++ es := by
  induction es generalizing out with
  | nil => simp
  | cons e es ih => rw [List.foldl_cons, ih, List.append_assoc, List.singleton_append]

theorem foldl_counted (visit : σ → α → σ) (es : List α) (n : Nat) (st : σ) :
    es.foldl (fun (r : Nat × σ) e => (r.1 + 1, visit r.2 e)) (n, st) = (n + es.length, es.foldl visit st) := by
  induction es generalizing n st with
  | nil => rfl
  | cons e es ih => rw [List.foldl_cons, ih, List.foldl_cons, List.length_cons, Nat.add_assoc, Nat.add_comm 1]

section Cut

variable {p : α → Bool} {es : List α}

theorem drop_takeWhile (p : α → Bool) (es : List α) : es.drop (es.takeWhile p).length = es.dropWhile p := by
  conv_lhs => arg 2; rw [← List.takeWhile_append_dropWhile (p := p) (l := es)]
  exact List.drop_left

/-- Where no element passes behind one that fails, dropping the front part drops all that pass. -/
theorem dropWhile_eq_filter (h : es.Pairwise fun a b => p b = true → p a = true) : es.dropWhile p = es.filter fun e => !p e := by
  induction es with
  | nil => rfl
  | cons e es ih =>
    rw [List.pairwise_cons] at h
    cases he : p e with
    | true => rw [List.dropWhile_cons_of_pos he, List.filter_cons_of_neg (by simp [he]), ih h.2]
    | false =>
      rw [List.dropWhile_cons_of_neg (by simp [he]), List.filter_eq_self.mpr]
      intro x hx
      rcases List.mem_cons.mp hx with rfl | hx
      · simp [he]
      · cases hx' : p x with
        | true => exact absurd (h.1 x hx hx') (by simp [he])
        | false => rfl

theorem any_getElem?_eq (h : es.Pairwise fun a b => p b = true → p a = true) (i : Nat) :
    es[i]?.any p = decide (i < (es.takeWhile p).length) := by
  induction es generalizing i with
  | nil => simp
  | cons e es ih =>
    rw [List.pairwise_cons] at h
    cases he : p e with
    | true =>
      rw [List.takeWhile_cons_of_pos he]
      cases i with
      | zero => simp [he]
      | succ i => simpa using ih h.2 i
    | false =>
      rw [List.takeWhile_cons_of_neg (by simp [he]), List.length_nil]
      cases hi : (e :: es)[i]? with
      | none => rfl
      | some x =>
        rcases List.mem_cons.mp (List.mem_of_getElem? hi) with rfl | hx
        · simp [he]
        · cases hx' : p x with
          | true => exact absurd (h.1 x hx hx') (by simp [he])
          | false => simp [hx']

end Cut

end BoundedScan
