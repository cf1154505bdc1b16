import Aki.Wildcard

namespace Aki.Sqlo1

namespace Glob

open Wildcard (Token Matches groups Dead)

-- The bytes of the syntax: 42 is the star, 63 the question mark, 91 and 93 the brackets, 94 the caret, 92 the backslash, 45 the dash.

/-- The class at the head of a pattern, read against a byte: whether an item has it, and the pattern from the closing bracket on. -/
def classScan (c : UInt8) : List UInt8 → Bool → Bool × List UInt8
  | [], found => (found, [93])
  | x :: p, found =>
    match x, p with
    | 92, y :: p => classScan c p (found || y = c)
    | 93, p => (found, 93 :: p)
    | x, 45 :: y :: p =>
      let start := if y < x then y else x
      let last := if y < x then x else y
      classScan c p (found || decide (start ≤ c ∧ c ≤ last))
    | x, p => classScan c p (found || x = c)

/-- The answer, the skip flag, and how often the matcher was entered. -/
structure Out where
  matched : Bool
  skip : Bool
  calls : Nat

def starLoop (call : List UInt8 → Bool → Out) : List UInt8 → Bool → Out
  | [], _ => ⟨false, true, 0⟩
  | c :: s, skip =>
    let r := call (c :: s) skip
    if r.matched then r
    else if r.skip then ⟨false, r.skip, r.calls⟩
    else
      let rest := starLoop call s r.skip
      { rest with calls := r.calls + rest.calls }

def enter (nesting : Nat) (skip : Bool) (body : Out) : Out :=
  if 1000 < nesting then ⟨false, skip, 1⟩ else { body with calls := body.calls + 1 }

/-- The loop of `globMatchImpl`. A turn takes at least one byte of the pattern, which bounds the number of turns. -/
def globLoop : Nat → List UInt8 → List UInt8 → Bool → Nat → Out
  | _, [], s, skip, _ => ⟨s.isEmpty, skip, 0⟩
  | _, _ :: _, [], skip, _ => ⟨false, skip, 0⟩
  | 0, _ :: _, _ :: _, skip, _ => ⟨false, skip, 0⟩
  | n + 1, p :: rest, c :: s, skip, nesting =>
    -- the end of a turn that read one byte of the subject
    let next (pattern : List UInt8) : Out :=
      if s.isEmpty then ⟨(pattern.dropWhile (· = 42)).isEmpty, skip, 0⟩ else globLoop n pattern s skip nesting
    if p = 42 then
      let rest := rest.dropWhile (· = 42)
      if rest.isEmpty then ⟨true, skip, 0⟩
      else starLoop (fun s skip => enter (nesting + 1) skip (globLoop n rest s skip (nesting + 1))) (c :: s) skip
    else if p = 63 then next rest
    else if p = 91 then
      let negated := rest.head? = some 94
      let scan := classScan c (if negated then rest.tail else rest) false
      if (scan.1 != decide negated) = false then ⟨false, skip, 0⟩ else next scan.2.tail
    else
      let pattern := if p = 92 ∧ rest ≠ [] then rest else p :: rest
      if pattern.head? ≠ some c then ⟨false, skip, 0⟩ else next pattern.tail

def globMatchImpl (pattern s : List UInt8) (skip : Bool) (nesting : Nat) : Out :=
  enter nesting skip (globLoop pattern.length pattern s skip nesting)

def globMatch (pattern s : List UInt8) : Bool := (globMatchImpl pattern s false 0).matched

inductive Item
  | single (x : UInt8)
  | range (x y : UInt8)

def Item.has (c : UInt8) : Item → Bool
  | .single x => x = c
  | .range x y => decide ((x ≤ c ∧ c ≤ y) ∨ (y ≤ c ∧ c ≤ x))

/-- The items of a class and what follows its closing bracket, or the end of the pattern in its place. -/
def items : List UInt8 → List Item × List UInt8
  | [] => ([], [])
  | x :: p =>
    match x, p with
    | 92, y :: p => (.single y :: (items p).1, (items p).2)
    | 93, p => ([], p)
    | x, 45 :: y :: p => (.range x y :: (items p).1, (items p).2)
    | x, p => (.single x :: (items p).1, (items p).2)

theorem items_length (p : List UInt8) : (items p).2.length ≤ p.length := by
  fun_induction items p <;> simp_all <;> omega

def classToken (negated : Bool) (is : List Item) : Token UInt8 := .one fun c => is.any (Item.has c) != negated

def tokens : List UInt8 → List (Token UInt8)
  | [] => []
  | 42 :: p => .star :: tokens p
  | 63 :: p => (.one fun _ => true) :: tokens p
  | 91 :: 94 :: p => classToken true (items p).1 :: tokens (items p).2
  | 91 :: p => classToken false (items p).1 :: tokens (items p).2
  | 92 :: x :: p => (.one (· = x)) :: tokens p
  | x :: p => (.one (· = x)) :: tokens p
termination_by p => p.length
decreasing_by
  all_goals
    first
    | simp only [List.length_cons]; omega
    | have := items_length p
      simp only [List.length_cons]
      omega

open Wildcard (Token Matches groups Dead matches_nil_iff matches_star_iff matches_one_iff matches_one_cons matches_star_star dead_star dead_one)

theorem range_has (x y c : UInt8) :
    decide ((if y < x then y else x) ≤ c ∧ c ≤ (if y < x then x else y)) = (Item.range x y).has c := by
  rw [Item.has, decide_eq_decide]
  split
  · next h =>
    refine ⟨.inr, fun hc => hc.elim (fun hc => ?_) id⟩
    have := UInt8.lt_iff_toNat_lt.mp h
    have := UInt8.le_iff_toNat_le.mp hc.1
    have := UInt8.le_iff_toNat_le.mp hc.2
    omega
  · next h =>
    refine ⟨.inl, fun hc => hc.elim id fun hc => ?_⟩
    have h1 := UInt8.le_iff_toNat_le.mp hc.1
    have h2 := UInt8.le_iff_toNat_le.mp hc.2
    have h3 : ¬ y.toNat < x.toNat := fun h' => h (UInt8.lt_iff_toNat_lt.mpr h')
    exact ⟨UInt8.le_iff_toNat_le.mpr (by omega), UInt8.le_iff_toNat_le.mpr (by omega)⟩

theorem classScan_eq (c : UInt8) (p : List UInt8) (found : Bool) :
    classScan c p found = (found || (items p).1.any (Item.has c), 93 :: (items p).2) := by
  induction p using items.induct generalizing found with
  | case1 => simp [classScan, items]
  | case2 y p ih =>
    rw [classScan, items, ih]
    simp [Item.has, Bool.or_assoc]
  | case3 p => simp [classScan, items]
  | case4 x y p h1 h2 ih =>
    rw [classScan, items]
    · dsimp only
      rw [ih, range_has, List.any_cons, Bool.or_assoc]
    all_goals assumption
  | case5 x p h1 h2 h3 ih =>
    rw [classScan, items]
    · rw [ih, List.any_cons, Bool.or_assoc]
      rfl
    all_goals assumption

/-- What a turn does once it has read one byte of the subject. -/
def next (n : Nat) (pattern s : List UInt8) (skip : Bool) (nesting : Nat) : Out :=
  if s.isEmpty then ⟨(pattern.dropWhile (· = 42)).isEmpty, skip, 0⟩ else globLoop n pattern s skip nesting

/-- The pattern starts with a token for one byte, and a turn reads the subject's first byte against it. -/
def Reads (pattern : List UInt8) (acc : UInt8 → Bool) (after : List UInt8) : Prop :=
  tokens pattern = .one acc :: tokens after ∧ after.length < pattern.length ∧
    ∀ n c s skip nesting, globLoop (n + 1) pattern (c :: s) skip nesting = if acc c then next n after s skip nesting else ⟨false, skip, 0⟩

theorem reads_any (rest : List UInt8) : Reads (63 :: rest) (fun _ => true) rest :=
  ⟨by rw [tokens], Nat.lt_succ_self _, fun n c s skip nesting => by rw [globLoop]; rfl⟩

theorem reads_class (rest : List UInt8) : ∃ acc after, Reads (91 :: rest) acc after := by
  have hturn (negated : Bool) (p : List UInt8) (n : Nat) (c : UInt8) (s : List UInt8) (skip : Bool) (nesting : Nat) :
      (if ((classScan c p false).1 != negated) = false then (⟨false, skip, 0⟩ : Out) else next n (classScan c p false).2.tail s skip nesting) =
        if ((items p).1.any (Item.has c) != negated) = true then next n (items p).2 s skip nesting else ⟨false, skip, 0⟩ := by
    rw [classScan_eq, Bool.false_or]
    cases ((items p).1.any (Item.has c) != negated) <;> rfl
  by_cases hneg : rest.head? = some 94
  · obtain ⟨r, rfl⟩ : ∃ r, rest = 94 :: r := by
      cases rest with
      | nil => cases hneg
      | cons a r => exact ⟨r, by rw [Option.some.inj hneg]⟩
    refine ⟨_, (items r).2, by rw [tokens]; rfl, Nat.lt_succ_of_le (Nat.le_succ_of_le (items_length r)), fun n c s skip nesting => ?_⟩
    rw [globLoop]
    exact hturn true r n c s skip nesting
  · refine ⟨fun c => (items rest).1.any (Item.has c) != false, (items rest).2, ?_, Nat.lt_succ_of_le (items_length rest), fun n c s skip nesting => ?_⟩
    · rw [tokens]
      · rfl
      · intro p hp
        rw [hp] at hneg
        exact hneg rfl
    · rw [globLoop]
      simp only [hneg, decide_false, if_false]
      exact hturn false rest n c s skip nesting

theorem reads_literal {pattern rest : List UInt8} {x : UInt8} (ht : tokens pattern = (.one (· = x)) :: tokens rest)
    (hl : rest.length < pattern.length) (hturn : ∀ n c s skip nesting, globLoop (n + 1) pattern (c :: s) skip nesting =
      if some x ≠ some c then ⟨false, skip, 0⟩ else next n rest s skip nesting) : Reads pattern (· = x) rest := by
  refine ⟨ht, hl, fun n c s skip nesting => ?_⟩
  rw [hturn]
  by_cases h : c = x
  · simp [h]
  · have h' : ¬ x = c := fun he => h he.symm
    simp [h, h']

theorem reads_one {p : UInt8} (hp : p ≠ 42) (rest : List UInt8) : ∃ acc after, Reads (p :: rest) acc after := by
  by_cases h63 : p = 63
  · subst h63
    exact ⟨_, _, reads_any rest⟩
  by_cases h91 : p = 91
  · subst h91
    exact reads_class rest
  by_cases h92 : p = 92
  · subst h92
    cases rest with
    | nil =>
      refine ⟨_, [], reads_literal (x := 92) ?_ (Nat.lt_succ_self _) fun n c s skip nesting => ?_⟩
      · simp [tokens]
      · rw [globLoop]
        rfl
    | cons x rest =>
      refine ⟨_, rest, reads_literal (x := x) ?_ (Nat.lt_succ_of_lt (Nat.lt_succ_self _)) fun n c s skip nesting => ?_⟩
      · rw [tokens]
      · rw [globLoop]
        rfl
  · refine ⟨_, rest, reads_literal (x := p) ?_ (Nat.lt_succ_self _) fun n c s skip nesting => ?_⟩
    · rw [tokens]
      all_goals simp_all
    · rw [globLoop]
      simp only [hp, h63, h91, h92, if_false, false_and]
      rfl

theorem tokens_stars (rest : List UInt8) : groups (.star :: tokens rest) = groups (.star :: tokens (rest.dropWhile (· = 42))) ∧
    ∀ s, Matches (.star :: tokens rest) s ↔ Matches (.star :: tokens (rest.dropWhile (· = 42))) s := by
  induction rest with
  | nil => exact ⟨rfl, fun _ => Iff.rfl⟩
  | cons p rest ih =>
    by_cases hp : p = 42
    · subst hp
      rw [List.dropWhile_cons_of_pos (by simp), tokens]
      exact ⟨ih.1, fun s => matches_star_star.trans (ih.2 s)⟩
    · rw [List.dropWhile_cons_of_neg (by simpa using hp)]
      exact ⟨rfl, fun _ => Iff.rfl⟩

theorem matches_empty_iff (pattern : List UInt8) : Matches (tokens pattern) [] ↔ (pattern.dropWhile (· = 42)).isEmpty = true := by
  induction pattern with
  | nil =>
    rw [tokens]
    exact ⟨fun _ => rfl, fun _ => .nil⟩
  | cons p rest ih =>
    by_cases hp : p = 42
    · subst hp
      rw [List.dropWhile_cons_of_pos (by simp), tokens, ← ih, matches_star_iff]
      constructor
      · rintro ⟨t, ht, hm⟩
        rwa [List.suffix_nil.mp ht] at hm
      · exact fun hm => ⟨[], List.suffix_refl _, hm⟩
    · obtain ⟨acc, after, ht, -, -⟩ := reads_one hp rest
      rw [List.dropWhile_cons_of_neg (by simpa using hp), ht, matches_one_iff]
      constructor
      · rintro ⟨c, t, he, -, -⟩
        cases he
      · intro he
        cases he

variable {ts : List (Token UInt8)} {s : List UInt8} {r : Out}

/-- What a run of the loop says about its tokens: the answer is right, and a raised flag means that the tokens match no suffix either.
A run that neither matched nor raised the flag met no star. -/
structure Good (ts : List (Token UInt8)) (s : List UInt8) (r : Out) : Prop where
  correct : s ≠ [] → (r.matched = true ↔ Matches ts s)
  dead : r.skip = true → r.matched = false ∧ Dead ts s
  calls : r.calls ≤ groups ts * s.length
  quiet : r.matched = false → r.skip = false → r.calls = 0

/-- The suffixes behind a star: one of them matches, or the flag is up and none does. -/
theorem starLoop_good (call : List UInt8 → Bool → Out) (hts : ¬ Matches ts []) (hc : ∀ t, t <:+ s → t ≠ [] → ∃ r, Good ts t r ∧ call t false = { r with calls := r.calls + 1 }) :
    ((starLoop call s false).matched = true ↔ ∃ t, t <:+ s ∧ Matches ts t) ∧
      ((starLoop call s false).matched = false → (starLoop call s false).skip = true) ∧
      ((starLoop call s false).skip = true → (starLoop call s false).matched = false ∧ Dead ts s) ∧
      (starLoop call s false).calls ≤ (groups ts + 1) * s.length := by
  induction s with
  | nil =>
    have hnone {t : List UInt8} (ht : t <:+ []) : ¬ Matches ts t := List.suffix_nil.mp ht ▸ hts
    exact ⟨⟨fun h => (nomatch h), fun ⟨t, ht, hm⟩ => absurd hm (hnone ht)⟩, fun _ => rfl, fun _ => ⟨rfl, fun t ht => hnone ht⟩, Nat.zero_le _⟩
  | cons c s ih =>
    obtain ⟨r, hr, he⟩ := hc (c :: s) (List.suffix_refl _) (List.cons_ne_nil _ _)
    have hone : r.calls + 1 ≤ (groups ts + 1) * (c :: s).length := by
      have := hr.calls
      rw [Nat.add_mul, Nat.one_mul]
      rw [List.length_cons] at this ⊢
      omega
    unfold starLoop
    rw [he]
    dsimp only
    cases hm : r.matched with
    | true =>
      simp only [if_true]
      refine ⟨⟨fun _ => ⟨_, List.suffix_refl _, (hr.correct (List.cons_ne_nil _ _)).mp hm⟩, fun _ => trivial⟩, fun h => (nomatch h), fun h => ?_, hone⟩
      · cases (hr.dead h).1.symm.trans hm
    | false =>
      simp only [Bool.false_eq_true, if_false]
      cases hs : r.skip with
      | true =>
        obtain ⟨-, hdead⟩ := hr.dead hs
        exact ⟨⟨fun h => (nomatch h), fun ⟨t, ht, hmt⟩ => absurd hmt (hdead t ht)⟩, fun _ => rfl, fun _ => ⟨rfl, hdead⟩, hone⟩
      | false =>
        obtain ⟨h1, h2, h3, h4⟩ := ih fun t ht hne => hc t (ht.trans (List.suffix_cons c s)) hne
        have hself : ¬ Matches ts (c :: s) := fun hmt => by
          cases hm.symm.trans ((hr.correct (List.cons_ne_nil _ _)).mpr hmt)
        simp only [Bool.false_eq_true, if_false]
        refine ⟨h1.trans ⟨fun ⟨t, ht, hmt⟩ => ⟨t, ht.trans (List.suffix_cons c s), hmt⟩, fun ⟨t, ht, hmt⟩ => ?_⟩, h2, fun h => ?_, ?_⟩
        · rcases List.suffix_cons_iff.mp ht with rfl | ht
          · exact absurd hmt hself
          · exact ⟨t, ht, hmt⟩
        · refine ⟨(h3 h).1, fun t ht => ?_⟩
          rcases List.suffix_cons_iff.mp ht with rfl | ht
          · exact hself
          · exact (h3 h).2 t ht
        · rw [hr.quiet hm hs, List.length_cons, Nat.mul_succ]
          omega

theorem Good.one {acc : UInt8 → Bool} {c : UInt8} (h : Good ts s r) (hs : s ≠ []) (hc : acc c = true) : Good (.one acc :: ts) (c :: s) r where
  correct _ := by rw [matches_one_cons, hc, h.correct hs, and_iff_right rfl]
  dead hk := ⟨(h.dead hk).1, dead_one (h.dead hk).2⟩
  calls := Nat.le_trans h.calls (Nat.mul_le_mul_left _ (Nat.le_succ _))
  quiet := h.quiet

/-- The loop on every pattern whose stars are within the nesting cap. -/
theorem globLoop_good (n : Nat) (pattern s : List UInt8) (nesting : Nat) (hn : pattern.length ≤ n)
    (hcap : nesting + groups (tokens pattern) ≤ 1000) : Good (tokens pattern) s (globLoop n pattern s false nesting) := by
  induction n generalizing pattern s nesting with
  | zero =>
    obtain rfl : pattern = [] := List.length_eq_zero_iff.mp (by omega)
    rw [globLoop, tokens]
    exact ⟨fun hne => by rw [matches_nil_iff, List.isEmpty_iff], fun h => (nomatch h), Nat.zero_le _, fun _ _ => rfl⟩
  | succ n ih =>
    cases pattern with
    | nil =>
      rw [globLoop, tokens]
      exact ⟨fun hne => by rw [matches_nil_iff, List.isEmpty_iff], fun h => (nomatch h), Nat.zero_le _, fun _ _ => rfl⟩
    | cons p rest =>
      rw [List.length_cons] at hn
      cases s with
      | nil =>
        rw [globLoop]
        exact ⟨fun hne => absurd rfl hne, fun h => (nomatch h), Nat.zero_le _, fun _ _ => rfl⟩
      | cons c s =>
        by_cases hp : p = 42
        · subst hp
          obtain ⟨hgroups, hmatch⟩ := tokens_stars rest
          rw [tokens] at hcap ⊢
          rw [globLoop]
          dsimp only
          generalize hafter : rest.dropWhile (· = 42) = after at hgroups hmatch ⊢
          simp only [if_true]
          cases after with
          | nil =>
            refine ⟨fun _ => ⟨fun _ => (hmatch _).mpr ?_, fun _ => rfl⟩, fun h => (nomatch h), Nat.zero_le _, fun h => (nomatch h)⟩
            rw [tokens]
            exact matches_star_iff.mpr ⟨[], List.nil_suffix, .nil⟩
          | cons q after =>
            have hq : q ≠ 42 := by
              have := List.head?_dropWhile_not (fun x : UInt8 => decide (x = 42)) rest
              rw [hafter] at this
              simpa using this
            have hlen : (q :: after).length ≤ n := by
              have := (List.dropWhile_sublist (fun x : UInt8 => decide (x = 42)) (l := rest)).length_le
              rw [hafter] at this
              omega
            obtain ⟨acc, after', ht, -, -⟩ := reads_one hq after
            have hg : groups (.star :: tokens (q :: after)) = groups (tokens (q :: after)) + 1 := by
              rw [ht]
              rfl
            have hempty : ¬ Matches (tokens (q :: after)) [] := by
              rw [ht, matches_one_iff]
              rintro ⟨c, t, he, -⟩
              cases he
            obtain ⟨h1, h2, h3, h4⟩ := starLoop_good (s := c :: s)
              (fun s skip => enter (nesting + 1) skip (globLoop n (q :: after) s skip (nesting + 1))) hempty
              fun t _ _ => ⟨_, ih (q :: after) t (nesting + 1) hlen (by omega), if_neg (by omega)⟩
            refine ⟨fun _ => h1.trans (matches_star_iff.symm.trans (hmatch _).symm), fun hk => ⟨(h3 hk).1, fun t ht hm => ?_⟩, ?_, fun hm hk => ?_⟩
            · exact dead_star (h3 hk).2 t ht ((hmatch t).mp hm)
            · rw [hgroups, hg]
              exact h4
            · cases hk.symm.trans (h2 hm)
        · obtain ⟨acc, after, ht, hl, hturn⟩ := reads_one hp rest
          rw [ht] at hcap ⊢
          rw [hturn]
          rw [List.length_cons] at hl
          cases hc : acc c with
          | false =>
            refine ⟨fun _ => ?_, fun h => (nomatch h), Nat.zero_le _, fun _ _ => rfl⟩
            rw [matches_one_cons, hc]
            exact ⟨fun h => (nomatch h), fun h => (nomatch h.1)⟩
          | true =>
            rw [if_pos rfl, next]
            cases s with
            | nil =>
              refine ⟨fun _ => ?_, fun h => (nomatch h), Nat.zero_le _, fun _ _ => rfl⟩
              rw [matches_one_cons, hc, matches_empty_iff]
              exact (and_iff_right rfl).symm
            | cons c' s =>
              exact (ih after (c' :: s) nesting (by omega) hcap).one (List.cons_ne_nil _ _) hc

theorem tokens_length (p : List UInt8) : (tokens p).length ≤ p.length := by
  induction hn : p.length using Nat.strong_induction_on generalizing p with
  | _ n ih =>
    cases p with
    | nil =>
      rw [tokens]
      exact Nat.zero_le _
    | cons x rest =>
      by_cases hx : x = 42
      · subst hx
        have := ih rest.length (by rw [← hn]; exact Nat.lt_succ_self _) rest rfl
        rw [tokens, ← hn]
        exact Nat.succ_le_succ this
      · obtain ⟨acc, after, ht, hl, -⟩ := reads_one hx rest
        have := ih after.length (by omega) after rfl
        rw [ht, List.length_cons]
        omega

/-- `globMatch` decides the pattern relation, but for the empty subject, with one entry of the matcher for each star and suffix at most. -/
theorem globMatch_iff (pattern : List UInt8) (hcap : groups (tokens pattern) ≤ 1000) :
    (∀ s, s ≠ [] → (globMatch pattern s = true ↔ Matches (tokens pattern) s)) ∧ (globMatch pattern [] = true ↔ pattern = []) ∧
      ∀ s, (globMatchImpl pattern s false 0).calls ≤ 1 + pattern.length * s.length := by
  have hgood (s : List UInt8) := globLoop_good pattern.length pattern s 0 (Nat.le_refl _) (by omega)
  refine ⟨fun s hs => (hgood s).correct hs, ?_, fun s => ?_⟩
  · cases pattern with
    | nil => exact ⟨fun _ => rfl, fun _ => rfl⟩
    | cons p rest =>
      refine ⟨fun h => ?_, fun h => (nomatch h)⟩
      change (globLoop (rest.length + 1) (p :: rest) [] false 0).matched = true at h
      rw [globLoop] at h
      cases h
  · have hle : groups (tokens pattern) * s.length ≤ pattern.length * s.length :=
      Nat.mul_le_mul_right _ (Nat.le_trans (Wildcard.groups_le _) (tokens_length pattern))
    change (globLoop pattern.length pattern s false 0).calls + 1 ≤ _
    have := (hgood s).calls
    omega

/-- `a*[^b]` on `axc`. -/
theorem globMatch_iff_star : Matches (tokens [97, 42, 91, 94, 98, 93]) [97, 120, 99] :=
  ((globMatch_iff [97, 42, 91, 94, 98, 93] (by simp [tokens, items, classToken, groups, Token.isStar])).1 [97, 120, 99] (by simp)).mp
    (by decide)

end Glob

end Aki.Sqlo1
