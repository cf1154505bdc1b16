import Mathlib.Data.List.Basic

-- Parsers over a stream that arrives in pieces.
-- A parser looks at the front of a buffer and asks for more, refuses it, or returns a value and how much it took. It is stable when
-- more input never changes an answer and an answer needs no more input than it took; then the values read off a stream do not depend
-- on where the stream was cut.

namespace Aki.Incremental

inductive Res (ε α : Type) where
  | incomplete
  | fail (e : ε)
  | done (a : α) (n : Nat)
deriving DecidableEq

def Res.shift {ε α : Type} (k : Nat) : Res ε α → Res ε α
  | .incomplete => .incomplete
  | .fail e => .fail e
  | .done a n => .done a (k + n)

def Parser (τ ε α : Type) : Type := List τ → Res ε α

variable {τ ε α β : Type}

namespace Parser

def pure (a : α) : Parser τ ε α := fun _ => .done a 0

def bind (f : Parser τ ε α) (g : α → Parser τ ε β) : Parser τ ε β := fun b =>
  match f b with
  | .incomplete => .incomplete
  | .fail e => .fail e
  | .done a n => (g a (b.drop n)).shift n

instance : Monad (Parser τ ε) where
  pure := pure
  bind := bind

def fail (e : ε) : Parser τ ε α := fun _ => .fail e

def item : Parser τ ε τ := fun
  | [] => .incomplete
  | t :: _ => .done t 1

def tokens (n : Nat) : Parser τ ε (List τ) := fun b => if b.length < n then .incomplete else .done (b.take n) n

/-- A choice by the first token, which stays in the input. -/
def peek (p : τ → Bool) (f g : Parser τ ε α) : Parser τ ε α := fun
  | [] => .incomplete
  | t :: b => if p t then f (t :: b) else g (t :: b)

theorem bind_done {f : Parser τ ε α} {g : α → Parser τ ε β} {b : List τ} {c : β} {n : Nat} :
    (f >>= g) b = .done c n ↔ ∃ a m k, f b = .done a m ∧ g a (b.drop m) = .done c k ∧ n = m + k := by
  show bind f g b = _ ↔ _
  rw [bind]
  cases hf : f b with
  | incomplete => simp
  | fail e => simp
  | done a m =>
    cases hg : g a (b.drop m) with
    | incomplete => simp [Res.shift, hg]
    | fail e => simp [Res.shift, hg]
    | done d k => simp [Res.shift, hg, eq_comm]

theorem bind_fail {f : Parser τ ε α} {g : α → Parser τ ε β} {b : List τ} {e : ε} :
    (f >>= g) b = .fail e ↔ f b = .fail e ∨ ∃ a m, f b = .done a m ∧ g a (b.drop m) = .fail e := by
  show bind f g b = _ ↔ _
  rw [bind]
  cases hf : f b with
  | incomplete => simp
  | fail e => simp
  | done a m =>
    cases hg : g a (b.drop m) with
    | incomplete => simp [Res.shift, hg]
    | fail e => simp [Res.shift, hg]
    | done d k => simp [Res.shift, hg]

/-- An answer stays under more input and needs no more than it took. -/
structure Stable (f : Parser τ ε α) : Prop where
  le : ∀ {b a n}, f b = .done a n → n ≤ b.length
  extend : ∀ {b a n}, f b = .done a n → ∀ x, f (b ++ x) = .done a n
  trim : ∀ {b a n}, f b = .done a n → f (b.take n) = .done a n
  fail : ∀ {b e}, f b = .fail e → ∀ x, f (b ++ x) = .fail e

theorem Stable.of_local {f : Parser τ ε α}
    (hdone : ∀ {b a n}, f b = .done a n → n ≤ b.length ∧ ∀ t : List τ, t.take n = b.take n → f t = .done a n)
    (hfail : ∀ {b e}, f b = .fail e → ∀ x, f (b ++ x) = .fail e) : Stable f where
  le h := (hdone h).1
  extend h _ := (hdone h).2 _ (List.take_append_of_le_length (hdone h).1)
  trim {b _ n} h := (hdone h).2 _ (by rw [List.take_take, Nat.min_self])
  fail := hfail

theorem Stable.pure (a : α) : Stable (Pure.pure a : Parser τ ε α) where
  le h := by
    obtain ⟨-, rfl⟩ := Res.done.inj h
    exact Nat.zero_le _
  extend h _ := h
  trim h := h
  fail h := nomatch h

theorem Stable.failure (e : ε) : Stable (Parser.fail e : Parser τ ε α) where
  le h := nomatch h
  extend h := nomatch h
  trim h := nomatch h
  fail h _ := h

theorem Stable.item : Stable (Parser.item : Parser τ ε τ) where
  le {b _ _} h := by
    cases b with
    | nil => cases h
    | cons t b =>
      obtain ⟨-, rfl⟩ := Res.done.inj h
      exact Nat.le_add_left _ _
  extend {b _ _} h x := by
    cases b with
    | nil => cases h
    | cons t b => exact h
  trim {b _ _} h := by
    cases b with
    | nil => cases h
    | cons t b =>
      obtain ⟨rfl, rfl⟩ := Res.done.inj h
      rfl
  fail {b _} h := by cases b <;> cases h

theorem Stable.tokens (n : Nat) : Stable (Parser.tokens n : Parser τ ε (List τ)) := by
  refine .of_local (fun {b a k} h => ?_) fun {b e} h => ?_
  · rw [Parser.tokens] at h
    split at h
    · cases h
    · obtain ⟨rfl, rfl⟩ := Res.done.inj h
      refine ⟨by omega, fun t ht => ?_⟩
      have hlen := congrArg List.length ht
      rw [List.length_take, List.length_take] at hlen
      rw [Parser.tokens, if_neg (by omega), ht]
  · rw [Parser.tokens] at h
    split at h <;> cases h

theorem Stable.bind {f : Parser τ ε α} {g : α → Parser τ ε β} (hf : Stable f) (hg : ∀ a, Stable (g a)) : Stable (f >>= g) where
  le h := by
    obtain ⟨a, m, k, hfb, hgb, rfl⟩ := bind_done.mp h
    have h₁ := hf.le hfb
    have h₂ := (hg a).le hgb
    rw [List.length_drop] at h₂
    omega
  extend {b d n} h x := by
    obtain ⟨a, m, k, hfb, hgb, rfl⟩ := bind_done.mp h
    refine bind_done.mpr ⟨a, m, k, hf.extend hfb x, ?_, rfl⟩
    rw [List.drop_append_of_le_length (hf.le hfb)]
    exact (hg a).extend hgb x
  trim {b d n} h := by
    obtain ⟨a, m, k, hfb, hgb, rfl⟩ := bind_done.mp h
    have hcut : b.take (m + k) = b.take m ++ (b.drop m).take k := List.take_add
    have hlen : (b.take m).length = m := List.length_take_of_le (hf.le hfb)
    refine bind_done.mpr ⟨a, m, k, hcut ▸ hf.extend (hf.trim hfb) _, ?_, rfl⟩
    rw [hcut, List.drop_left' hlen]
    exact (hg a).trim hgb
  fail {b e} h x := by
    rcases bind_fail.mp h with hfb | ⟨a, m, hfb, hgb⟩
    · exact bind_fail.mpr (.inl (hf.fail hfb x))
    · refine bind_fail.mpr (.inr ⟨a, m, hf.extend hfb x, ?_⟩)
      rw [List.drop_append_of_le_length (hf.le hfb)]
      exact (hg a).fail hgb x

theorem Stable.ite {p : Prop} [Decidable p] {f g : Parser τ ε α} (hf : Stable f) (hg : Stable g) : Stable (if p then f else g) := by
  split
  · exact hf
  · exact hg

/-- An answer takes at least one token. -/
def Progress (f : Parser τ ε α) : Prop := ∀ {b a n}, f b = .done a n → 0 < n

theorem Progress.bind {f : Parser τ ε α} {g : α → Parser τ ε β} (hf : Progress f) : Progress (f >>= g) := by
  intro b d n h
  obtain ⟨a, m, k, hfb, -, rfl⟩ := bind_done.mp h
  exact Nat.lt_of_lt_of_le (hf hfb) (Nat.le_add_right m k)

theorem Progress.item : Progress (Parser.item : Parser τ ε τ) := by
  intro b a n h
  cases b with
  | nil => cases h
  | cons t b =>
    obtain ⟨-, rfl⟩ := Res.done.inj h
    exact Nat.one_pos

theorem Progress.peek {p : τ → Bool} {f g : Parser τ ε α} (hf : Progress f) (hg : Progress g) : Progress (peek p f g) := by
  intro b a n h
  cases b with
  | nil => cases h
  | cons t b =>
    rw [Parser.peek] at h
    split at h
    · exact hf h
    · exact hg h

theorem Stable.peek {p : τ → Bool} {f g : Parser τ ε α} (hf : Stable f) (hg : Stable g) (pf : Progress f) (pg : Progress g) :
    Stable (peek p f g) := by
  -- the first token picks the same parser in every buffer that begins with it
  have hcons (t : τ) (b : List τ) : Parser.peek p f g (t :: b) = if p t then f (t :: b) else g (t :: b) := rfl
  refine ⟨fun {b a n} h => ?_, fun {b a n} h x => ?_, fun {b a n} h => ?_, fun {b e} h x => ?_⟩
  all_goals cases b with
    | nil => cases h
    | cons t b => ?_
  · rw [hcons] at h
    split at h
    · exact hf.le h
    · exact hg.le h
  · rw [List.cons_append, hcons]
    rw [hcons] at h
    split at h
    next ht => rw [if_pos ht]; exact hf.extend h x
    next ht => rw [if_neg ht]; exact hg.extend h x
  · obtain ⟨n, rfl⟩ := Nat.exists_eq_succ_of_ne_zero (Nat.ne_of_gt (Progress.peek pf pg h))
    rw [List.take_succ_cons, hcons]
    rw [hcons] at h
    split at h
    next ht => rw [if_pos ht]; exact hf.trim h
    next ht => rw [if_neg ht]; exact hg.trim h
  · rw [List.cons_append, hcons]
    rw [hcons] at h
    split at h
    next ht => rw [if_pos ht]; exact hf.fail h x
    next ht => rw [if_neg ht]; exact hg.fail h x

theorem Stable.incomplete_of_lt {f : Parser τ ε α} (hf : Stable f) {b : List τ} {a : α} {n k : Nat} (h : f b = .done a n) (hk : k < n) :
    f (b.take k) = .incomplete := by
  have hsplit : b.take k ++ b.drop k = b := List.take_append_drop k b
  cases hb : f (b.take k) with
  | incomplete => rfl
  | fail e =>
    have := hf.fail hb (b.drop k)
    rw [hsplit, h] at this
    cases this
  | done a' n' =>
    have hle := hf.le hb
    have := hf.extend hb (b.drop k)
    rw [hsplit, h] at this
    obtain ⟨-, rfl⟩ := Res.done.inj this
    rw [List.length_take] at hle
    omega

end Parser

/-- What a connection has read: the values so far, the bytes left over, and the error that closed it. -/
structure Conn (τ ε α : Type) where
  seen : List α
  buf : List τ
  closed : Option ε

variable (f : Parser τ ε α)

/-- Everything the buffer holds is parsed, up to the first error. -/
def drain : Nat → List τ → Conn τ ε α
  | 0, b => ⟨[], b, none⟩
  | fuel + 1, b =>
    match f b with
    | .incomplete => ⟨[], b, none⟩
    | .fail e => ⟨[], b, some e⟩
    | .done a n =>
      let r := drain fuel (b.drop n)
      ⟨a :: r.seen, r.buf, r.closed⟩

def drained (b : List τ) : Conn τ ε α := drain f (b.length + 1) b

def Conn.feed (s : Conn τ ε α) (chunk : List τ) : Conn τ ε α :=
  match s.closed with
  | some _ => s
  | none =>
    let r := drained f (s.buf ++ chunk)
    ⟨s.seen ++ r.seen, r.buf, r.closed⟩

def Conn.cons (a : α) (s : Conn τ ε α) : Conn τ ε α := { s with seen := a :: s.seen }

/-- What the peer can tell: the values, the error, and while there is none what is left over. -/
structure Conn.Same (s t : Conn τ ε α) : Prop where
  seen : s.seen = t.seen
  closed : s.closed = t.closed
  buf : s.closed = none → s.buf = t.buf

theorem Conn.Same.refl (s : Conn τ ε α) : s.Same s := ⟨rfl, rfl, fun _ => rfl⟩

theorem Conn.Same.symm {s t : Conn τ ε α} (h : s.Same t) : t.Same s :=
  ⟨h.seen.symm, h.closed.symm, fun ht => (h.buf (h.closed.trans ht)).symm⟩

theorem Conn.Same.trans {s t u : Conn τ ε α} (h : s.Same t) (h' : t.Same u) : s.Same u :=
  ⟨h.seen.trans h'.seen, h.closed.trans h'.closed, fun hs => (h.buf hs).trans (h'.buf (h.closed ▸ hs))⟩

theorem Conn.Same.feed {s t : Conn τ ε α} (h : s.Same t) (chunk : List τ) : (s.feed f chunk).Same (t.feed f chunk) := by
  obtain ⟨seen, buf, closed⟩ := s
  obtain ⟨seen', buf', closed'⟩ := t
  obtain ⟨rfl, rfl, hbuf⟩ := h
  cases closed with
  | none =>
    obtain rfl := hbuf rfl
    exact .refl _
  | some e => exact ⟨rfl, rfl, fun h => nomatch h⟩

theorem Conn.feed_cons (a : α) (s : Conn τ ε α) (chunk : List τ) : (s.cons a).feed f chunk = (s.feed f chunk).cons a := by
  obtain ⟨seen, buf, closed⟩ := s
  cases closed <;> rfl

section
variable {f}
variable (hf : f.Stable) (hpos : f.Progress)
include hf hpos

theorem drain_fuel : ∀ (fuel fuel' : Nat) (b : List τ), b.length < fuel → b.length < fuel' → drain f fuel b = drain f fuel' b
  | 0, _, _, h, _ => absurd h (Nat.not_lt_zero _)
  | _ + 1, 0, _, _, h => absurd h (Nat.not_lt_zero _)
  | fuel + 1, fuel' + 1, b, h, h' => by
    rw [drain, drain]
    cases hb : f b with
    | incomplete => rfl
    | fail e => rfl
    | done a n =>
      have hn := hpos hb
      have hle := hf.le hb
      have hlen : (b.drop n).length = b.length - n := List.length_drop
      dsimp only
      rw [drain_fuel fuel fuel' (b.drop n) (by omega) (by omega)]

theorem drained_done {b : List τ} {a : α} {n : Nat} (h : f b = .done a n) : drained f b = (drained f (b.drop n)).cons a := by
  have hn := hpos h
  have hle := hf.le h
  have hlen : (b.drop n).length = b.length - n := List.length_drop
  rw [drained, drain, h]
  dsimp only
  rw [drain_fuel hf hpos b.length ((b.drop n).length + 1) _ (by omega) (by omega)]
  rfl

theorem drained_append (x b : List τ) : (drained f (b ++ x)).Same ((drained f b).feed f x) := by
  induction hlen : b.length using Nat.strongRecOn generalizing b with
  | _ len ih =>
    subst hlen
    cases hb : f b with
    | incomplete =>
      have hbase : drained f b = ⟨[], b, none⟩ := by rw [drained, drain, hb]
      rw [hbase]
      exact .refl _
    | fail e =>
      have hbase : drained f b = ⟨[], b, some e⟩ := by rw [drained, drain, hb]
      have hmore : drained f (b ++ x) = ⟨[], b ++ x, some e⟩ := by rw [drained, drain, hf.fail hb x]
      rw [hbase, hmore]
      exact ⟨rfl, rfl, fun h => nomatch h⟩
    | done a n =>
      have hle := hf.le hb
      have hn := hpos hb
      have hshort : (b.drop n).length < b.length := by rw [List.length_drop]; omega
      have hrest := ih _ hshort (b.drop n) rfl
      rw [drained_done hf hpos (hf.extend hb x), drained_done hf hpos hb, Conn.feed_cons, List.drop_append_of_le_length hle]
      exact ⟨congrArg (a :: ·) hrest.seen, hrest.closed, hrest.buf⟩

theorem Conn.feed_feed (s : Conn τ ε α) (b x : List τ) : ((s.feed f b).feed f x).Same (s.feed f (b ++ x)) := by
  obtain ⟨seen, buf, closed⟩ := s
  cases closed with
  | some e => exact .refl _
  | none =>
    have h := (drained_append hf hpos x (buf ++ b)).symm
    rw [List.append_assoc] at h
    show Conn.Same (Conn.feed f ⟨seen ++ (drained f (buf ++ b)).seen, (drained f (buf ++ b)).buf, (drained f (buf ++ b)).closed⟩ x)
      ⟨seen ++ (drained f (buf ++ (b ++ x))).seen, (drained f (buf ++ (b ++ x))).buf, (drained f (buf ++ (b ++ x))).closed⟩
    generalize drained f (buf ++ b) = r at h
    obtain ⟨rseen, rbuf, rclosed⟩ := r
    cases rclosed with
    | some e => exact ⟨congrArg (seen ++ ·) h.seen, h.closed, fun h => nomatch h⟩
    | none => exact ⟨(List.append_assoc ..).trans (congrArg (seen ++ ·) h.seen), h.closed, h.buf⟩

/-- However a stream is cut, the connection reads what it would read of the whole. -/
theorem feed_chunks (hnil : f [] = .incomplete) (chunks : List (List τ)) :
    (chunks.foldl (Conn.feed f) ⟨[], [], none⟩).Same (Conn.feed f ⟨[], [], none⟩ chunks.flatten) := by
  have hrun : ∀ (chunks : List (List τ)) (s t : Conn τ ε α) (b : List τ), s.Same (t.feed f b) →
      (chunks.foldl (Conn.feed f) s).Same (t.feed f (b ++ chunks.flatten)) := by
    intro chunks
    induction chunks with
    | nil =>
      intro s t b h
      rwa [List.flatten_nil, List.append_nil]
    | cons d chunks ih =>
      intro s t b h
      rw [List.flatten_cons, ← List.append_assoc]
      exact ih _ t (b ++ d) ((h.feed f d).trans (t.feed_feed hf hpos b d))
  refine hrun chunks _ _ [] ?_
  show Conn.Same _ ⟨[] ++ (drained f []).seen, (drained f []).buf, (drained f []).closed⟩
  rw [drained, drain, hnil]
  exact .refl _

end

end Aki.Incremental
