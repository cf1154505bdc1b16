import Mathlib.Order.Filter.Finite
import Aki.FairRun
import Aki.IntentInv

namespace Aki.Intent

variable {τ κ : Type} [DecidableEq τ] [DecidableEq κ]

def Label.txn : Label τ κ → τ
  | .begin t | .coord t | .apply t _ => t

/-- Every step but the arrival of a new transaction. -/
def Fair : Label τ κ → Prop
  | .begin _ => False
  | _ => True

variable {c : Config τ κ} {s s' : State τ κ} {l : Label τ κ}

/-- A step of another transaction leaves a coordinator, its ops in flight and its answer alone. -/
theorem Step.other (h : Step c s l s') {t : τ} (ht : l.txn ≠ t) :
    (s'.txn t).pc = (s.txn t).pc ∧ (s'.txn t).pend = (s.txn t).pend ∧ (s'.txn t).reply = (s.txn t).reply := by
  cases h with
  | begin u hpc | coord u y hy =>
    have hu : t ≠ u := Ne.symm ht
    rw [setTxn_ne _ _ hu]; exact ⟨rfl, rfl, rfl⟩
  | apply u k o ho =>
    have hu : t ≠ u := Ne.symm ht
    rw [applied_txn_ne _ _ _ _ _ hu]; exact ⟨rfl, rfl, rfl⟩

theorem coord_enabled (c : Config τ κ) (s : State τ κ) (t : τ) :
    (step c s (.coord t)).isSome = ((s.txn t).coord (c.keys t) (fun k => (s.keyQ k).head t)).isSome := by
  simp [step]

theorem apply_enabled (c : Config τ κ) (s : State τ κ) (t : τ) (k : κ) :
    (step c s (.apply t k)).isSome = ((s.txn t).pend k).isSome := by
  simp [step]

theorem Txn.blocked {keys : List κ} (head : κ → Bool) {x : Txn κ} (hp : x.Phase keys) (hb : x.coord keys head = none)
    (hpend : ∀ k, x.pend k = none) : x.pc = .fresh ∨ x.pc = .finished ∨ (x.pc = .sleep ∧ x.sig = false) := by
  unfold Txn.coord at hb
  unfold Txn.Phase at hp
  cases hpc : x.pc with
  | fresh => exact Or.inl rfl
  | finished => exact Or.inr (Or.inl rfl)
  | sleep =>
    rw [hpc] at hb
    refine Or.inr (Or.inr ⟨rfl, ?_⟩)
    cases hs : x.sig with
    | false => rfl
    | true => simp [hs] at hb
  | begun | unlock | acquired => simp [hpc] at hb
  | check i | lock i ok =>
    rw [hpc] at hb
    dsimp only at hb
    split at hb <;> simp at hb
  | ack i ok =>
    rw [hpc] at hb hp
    obtain ⟨k, -, -, ⟨hl, -⟩ | ⟨-, hr⟩⟩ := hp
    · simp [hpend k] at hl
    · rw [Option.map_eq_none_iff.mp hb] at hr
      simp at hr
  | unlocking i =>
    rw [hpc] at hb
    dsimp only at hb
    split at hb
    · simp at hb
    · simp [hpend] at hb

theorem Inv.front_of_min (h : Inv c s) {t : τ} {k : κ} (ht : t ∈ (s.keyQ k).list)
    (hmin : ∀ u ∈ (s.keyQ k).list, c.ticket t ≤ c.ticket u) (hfree : ∀ u, (s.keyQ k).front = some u → u ≠ t → (s.keyQ k).locked u = false) :
    (s.keyQ k).front = some t := by
  have ho := (h.ok k).ordered
  unfold KeyList.front at hfree ⊢
  cases hl : (s.keyQ k).list with
  | nil => simp [hl] at ht
  | cons f rest =>
    rw [hl] at ho ht hmin hfree
    by_cases hft : f = t
    · rw [hft]; rfl
    · exact sorted_head c.unique (ho.sorted (hfree f rfl hft)) ht hmin

theorem Inv.enabled (h : Inv c s) {t : τ} (hstarted : (s.txn t).pc ≠ .fresh)
    (hunfinished : (s.txn t).pc ≠ .finished ∨ ∃ k, (s.txn t).pend k ≠ none) : ∃ l, Fair l ∧ (Intent.step c s l).isSome = true := by
  by_contra hno
  have hpend : ∀ u k, (s.txn u).pend k = none := by
    intro u k
    by_contra hp
    refine hno ⟨.apply u k, trivial, ?_⟩
    rw [apply_enabled]
    exact Option.isSome_iff_ne_none.mpr hp
  have hpc : ∀ u, (s.txn u).pc = .fresh ∨ (s.txn u).pc = .finished ∨ ((s.txn u).pc = .sleep ∧ (s.txn u).sig = false) := by
    intro u
    refine Txn.blocked (fun k => (s.keyQ k).head u) (h.phase u) ?_ (hpend u)
    rw [← Option.not_isSome_iff_eq_none, ← coord_enabled c s u]
    exact fun hs => hno ⟨.coord u, trivial, hs⟩
  have hasleep : ∀ u k, u ∈ (s.keyQ k).list → (s.txn u).pc = .sleep := by
    intro u k hu
    have hplaced := ((h.mem u k).mp hu).2
    unfold Txn.Placed at hplaced
    rcases hpc u with hf | hf | hf
    · simp [hf] at hplaced
    · simp [hf, hpend u k] at hplaced
    · exact hf.1
  have hfree : ∀ u k, (s.keyQ k).locked u = false := by
    intro u k
    rw [← Bool.not_eq_true]
    intro hl
    have hholds := h.holds u k hl
    unfold Txn.Holds at hholds
    rw [hasleep u k ((h.ok k).member u hl)] at hholds
    exact hholds
  have ht : (s.txn t).pc = .sleep := by
    rcases hpc t with hf | hf | hf
    · exact absurd hf hstarted
    · rcases hunfinished with hu | ⟨k, hk⟩
      · exact absurd hf hu
      · exact absurd (hpend t k) hk
    · exact hf.1
  -- the sleeper with the smallest ticket heads all its queues
  obtain ⟨m, hm, hmin⟩ := (InvImage.wf c.ticket Nat.lt_wfRel.wf).has_min {u | (s.txn u).pc = .sleep} ⟨t, ht⟩
  change (s.txn m).pc = .sleep at hm
  have hsig : (s.txn m).sig = false := by
    rcases hpc m with hf | hf | hf
    · rw [hf] at hm; simp at hm
    · rw [hf] at hm; simp at hm
    · exact hf.2
  obtain ⟨k, hk, hdown⟩ := h.awake m hm hsig
  have hmem : m ∈ (s.keyQ k).list := (h.mem m k).mpr ⟨hk, by simp [Txn.Placed, hm, hpend m k]⟩
  have hfront := h.front_of_min hmem (fun u hu => Nat.le_of_not_lt (hmin u (hasleep u k hu))) (fun u _ _ => hfree u k)
  rw [((h.ok k).head_iff m).mpr hfront] at hdown
  exact absurd hdown (by simp)

/-- `t` waits on `k`, and nothing queued there has a smaller ticket. -/
structure Least (c : Config τ κ) (t : τ) (k : κ) (s : State τ κ) : Prop where
  inv : Inv c s
  mem : t ∈ (s.keyQ k).list
  min : ∀ u ∈ (s.keyQ k).list, c.ticket t ≤ c.ticket u

/-- One op on the key brings the least intent to the front or leaves the locked front where it was. -/
theorem front_settles {ticket : τ → Nat} (hinj : Function.Injective ticket) {q : KeyList τ} (hq : q.Ok ticket) {t u : τ} {o : Op}
    (ht : t ∈ q.list) (ht' : t ∈ (applyIntentOp ticket u q o).1.list)
    (hmin : ∀ v ∈ (applyIntentOp ticket u q o).1.list, ticket t ≤ ticket v) :
    (applyIntentOp ticket u q o).1.front = some t ∨ ∃ f, f ≠ t ∧ q.front = some f ∧ (applyIntentOp ticket u q o).1.front = some f ∧
      ¬ (u = f ∧ (o = .unlock ∨ o = .release)) := by
  have ho := hq.ordered
  cases hl : q.list with
  | nil => simp [hl] at ht
  | cons f rest =>
    rw [hl] at ho ht
    have hf : q.front = some f := by simp [KeyList.front, hl]
    -- when the front is still `f` either it is `t` or it is another's
    have hsame : (applyIntentOp ticket u q o).1.front = some f → ¬ (u = f ∧ (o = .unlock ∨ o = .release)) →
        (applyIntentOp ticket u q o).1.front = some t ∨ ∃ g, g ≠ t ∧ some f = some g ∧
          (applyIntentOp ticket u q o).1.front = some g ∧ ¬ (u = g ∧ (o = .unlock ∨ o = .release)) := by
      intro hsf hno
      by_cases hft : f = t
      · exact Or.inl (hft ▸ hsf)
      · exact Or.inr ⟨f, hft, rfl, hsf, hno⟩
    rw [hf]
    cases o with
    | enqueue =>
      have hlist : (applyIntentOp ticket u q .enqueue).1.list = place ticket u q.locked (f :: rest) := by
        simp [applyIntentOp, enqueueIntent, hl]
      rw [KeyList.front, hlist] at hsame ⊢
      rw [hlist] at ht' hmin
      cases hlk : q.locked f with
      | true => exact hsame (by simp [place, hlk]) (by simp)
      | false =>
        refine Or.inl (sorted_head hinj ?_ ht' hmin)
        rw [place, hlk]
        exact insertByTicket_sorted u (ho.sorted hlk)
    | lock =>
      refine hsame ?_ (by simp)
      rw [KeyList.front, show (applyIntentOp ticket u q .lock).1.list = q.list from lockIntent_list u q, hl]
      rfl
    | unlock => exact Or.inl (sorted_head hinj (unlockIntent_sorted ticket u q) ht' hmin)
    | release =>
      have hlist : (applyIntentOp ticket u q .release).1.list = (f :: rest).erase u := hl ▸ releaseIntent_list u q
      rw [KeyList.front, hlist] at hsame ⊢
      rw [hlist] at ht' hmin
      by_cases hfu : f = u
      · subst hfu
        rw [List.erase_cons_head] at ht' hmin ⊢
        exact Or.inl (sorted_head hinj ho.1 ht' hmin)
      · exact hsame (erase_head rfl hfu) fun hu => hfu hu.1.symm

variable {t : τ} {k : κ}

theorem Least.front_step (h : Least c t k s) (hs : Step c s l s') (h' : Least c t k s') :
    (s'.keyQ k).front = some t ∨ ∃ f, f ≠ t ∧ (s.keyQ k).front = some f ∧ (s'.keyQ k).front = some f ∧
      ¬ (l = .apply f k ∧ ((s.txn f).pend k = some .unlock ∨ (s.txn f).pend k = some .release)) := by
  have hstay : (s'.keyQ k).front = (s.keyQ k).front → (∀ u, l ≠ .apply u k) → (s'.keyQ k).front = some t ∨
      ∃ f, f ≠ t ∧ (s.keyQ k).front = some f ∧ (s'.keyQ k).front = some f ∧
        ¬ (l = .apply f k ∧ ((s.txn f).pend k = some .unlock ∨ (s.txn f).pend k = some .release)) := by
    intro hf hl
    cases hq : (s.keyQ k).list with
    | nil => have := h.mem; simp [hq] at this
    | cons f rest =>
      have hfront : (s.keyQ k).front = some f := by simp [KeyList.front, hq]
      by_cases hft : f = t
      · exact Or.inl (by rw [hf, hfront, hft])
      · exact Or.inr ⟨f, hft, hfront, hf.trans hfront, fun hlf => hl f hlf.1⟩
  cases hs with
  | begin u hpc => exact hstay rfl (by simp)
  | coord u y hy => exact hstay rfl (by simp)
  | apply u k' o ho =>
    by_cases hkk : k = k'
    · subst hkk
      have ht' := h'.mem
      have hmin := h'.min
      rw [applied_keyQ_self] at ht' hmin ⊢
      rcases front_settles c.unique (h.inv.ok k) h.mem ht' hmin with hf | ⟨f, hft, hf, hf', hno⟩
      · exact Or.inl hf
      · refine Or.inr ⟨f, hft, hf, hf', fun hlf => hno ⟨?_, ?_⟩⟩
        · simpa using hlf.1
        · obtain rfl : u = f := by simpa using hlf.1
          rw [ho] at hlf
          simpa using hlf.2
    · exact hstay (by rw [applied_keyQ_ne _ _ _ _ _ hkk]) (by simpa using fun hk => absurd hk.symm hkk)

/-- Who stands before the least intent holds the lock. -/
theorem Least.front_locked (h : Least c t k s) {f : τ} (hf : (s.keyQ k).front = some f) (hft : f ≠ t) : (s.keyQ k).locked f = true := by
  by_contra hl
  have hfront := h.inv.front_of_min h.mem h.min fun u hu _ => by
    obtain rfl : f = u := Option.some.inj (hf.symm.trans hu)
    exact Bool.not_eq_true _ ▸ hl
  exact hft (Option.some.inj (hf.symm.trans hfront))

variable {τ κ : Type} [DecidableEq τ] [DecidableEq κ]

/-- What is left until a holder of locks has posted its unlocks or its releases. -/
def Txn.leaving (keys : List κ) (x : Txn κ) : Nat :=
  match x.pc with
  | .lock i _ => 3 * (keys.length - i) + 3
  | .ack i _ => 3 * (keys.length - i) + if x.reply.isNone then 2 else 1
  | .unlock | .acquired => 2
  | .unlocking _ | .finished => 1
  | _ => 0

/-- The step that takes the holder of `k` on. -/
def Txn.leave (keys : List κ) (t : τ) (k : κ) (x : Txn κ) : Label τ κ :=
  match x.pc with
  | .ack i _ => if x.reply.isNone then (keys[i]?).elim (.coord t) (.apply t) else .coord t
  | .unlocking _ | .finished => .apply t k
  | _ => .coord t

section Local

variable {keys : List κ} {head : κ → Bool} {x y : Txn κ} {t : τ} {k : κ}

omit [DecidableEq τ] in
theorem Txn.leaving_coord (hp : x.Phase keys) (hx : x.Holds k) (hs : x.Coord keys head y) :
    y.leaving keys < x.leaving keys ∨
      ((.coord t : Label τ κ) ≠ x.leave keys t k ∧ y.leaving keys = x.leaving keys ∧ y.leave keys t k = x.leave keys t k) := by
  unfold Txn.Holds at hx
  unfold Txn.Phase at hp
  unfold Txn.leaving Txn.leave
  cases hs with
  | acquire hpc | headTrue _ _ hpc | headFalse _ _ hpc | allHead _ hpc | wake hpc => simp [hpc] at hx
  | postLock i ok k' hpc hk =>
    rw [hpc] at hp
    simp [hpc, hp.2]
  | locked i hpc hk | failed i hpc hk => simp [hpc]
  | answer i ok b hpc hr =>
    rw [hpc] at hp
    obtain ⟨k', hk', -⟩ := hp
    obtain ⟨hlt, -⟩ := List.getElem?_eq_some_iff.mp hk'
    simp [hpc, hr]
    omega
  | postUnlock hpc | release hpc => simp [hpc]
  | unlocked i k' hpc hk hp' => simp [hpc]
  | retry i hpc hk =>
    rw [hpc] at hx hp
    rcases hp.1 k with hn | ⟨-, j, hij, hj⟩
    · rw [hx] at hn; simp at hn
    · have hi := List.getElem?_eq_none_iff.mp hk
      obtain ⟨hlt, -⟩ := List.getElem?_eq_some_iff.mp hj
      omega

omit [DecidableEq τ] in
theorem Txn.leaving_served (hp : x.Phase keys) {k' : κ} {o : Op} {a : Option Bool} (ho : x.pend k' = some o)
    (ha : a.isSome = true ↔ o = .lock) (hx : x.Holds k) (hno : ¬ (k' = k ∧ (o = .unlock ∨ o = .release))) (b : Bool) :
    ((x.served k' a).poke b).leaving keys < x.leaving keys ∨
      ((.apply t k' : Label τ κ) ≠ x.leave keys t k ∧ ((x.served k' a).poke b).leaving keys = x.leaving keys ∧
        ((x.served k' a).poke b).leave keys t k = x.leave keys t k) := by
  unfold Txn.Holds at hx
  unfold Txn.leaving Txn.leave
  obtain ⟨-, ⟨-, hpc⟩ | ⟨rfl, hr, i, ok, hpc, hk⟩ | ⟨rfl, i, hpc⟩ | ⟨rfl, hpc⟩⟩ := hp.pend ho
  · rcases hpc with hpc | hpc | ⟨i, hpc⟩ <;> simp [hpc] at hx
  · obtain ⟨v, rfl⟩ := Option.isSome_iff_exists.mp (ha.mpr rfl)
    simp [Txn.served, Txn.poke, hpc, hr]
  · have hkk : k' ≠ k := fun h => hno ⟨h, Or.inl rfl⟩
    simp [Txn.served, Txn.poke, hpc, hkk]
  · have hkk : k' ≠ k := fun h => hno ⟨h, Or.inr rfl⟩
    simp [Txn.served, Txn.poke, hpc, hkk]

end Local

variable {c : Config τ κ} {s s' : State τ κ} {l : Label τ κ} {t : τ} {k : κ}

theorem Inv.answer_enabled (h : Inv c s) {i : Nat} {ok : Bool} (hpc : (s.txn t).pc = .ack i ok) :
    (Intent.step c s (if (s.txn t).reply.isNone then ((c.keys t)[i]?).elim (.coord t) (.apply t) else .coord t)).isSome = true := by
  have hp := h.phase t
  unfold Txn.Phase at hp
  rw [hpc] at hp
  obtain ⟨k', hk', -, ⟨hl, hr⟩ | ⟨-, hr⟩⟩ := hp
  · simp only [hr, Option.isNone_none, if_true, hk', Option.elim_some]
    rw [apply_enabled, hl]
    rfl
  · obtain ⟨b, hb⟩ := Option.isSome_iff_exists.mp hr
    simp only [hb, Option.isNone_some, Bool.false_eq_true, if_false]
    rw [coord_enabled]
    simp [Txn.coord, hpc, hb]

theorem Inv.leave_enabled (h : Inv c s) (hx : (s.txn t).Holds k) :
    (Intent.step c s ((s.txn t).leave (c.keys t) t k)).isSome = true := by
  unfold Txn.Holds at hx
  unfold Txn.leave
  cases hpc : (s.txn t).pc with
  | fresh | begun | sleep | check i => simp [hpc] at hx
  | lock i ok =>
    dsimp only
    rw [coord_enabled]
    unfold Txn.coord
    rw [hpc]
    dsimp only
    split <;> rfl
  | ack i ok => exact h.answer_enabled hpc
  | unlock | acquired =>
    dsimp only
    rw [coord_enabled]
    simp [Txn.coord, hpc]
  | unlocking i =>
    rw [hpc] at hx
    dsimp only
    rw [apply_enabled, hx]
    rfl
  | finished =>
    rw [hpc] at hx
    dsimp only
    rw [apply_enabled, hx]
    rfl

theorem Txn.leave_txn (keys : List κ) (t : τ) (k : κ) (x : Txn κ) : (x.leave keys t k).txn = t ∧ Fair (x.leave keys t k) := by
  unfold Txn.leave
  split
  next i _ _ =>
    split
    · cases keys[i]? <;> exact ⟨rfl, trivial⟩
    · exact ⟨rfl, trivial⟩
  all_goals exact ⟨rfl, trivial⟩

/-- One step while the holder keeps its lock: the holder comes closer to leaving, or nothing changed for it. -/
theorem Inv.leaving_step (h : Inv c s) (hs : Step c s l s') (hx : (s.txn t).Holds k)
    (hno : ¬ (l = .apply t k ∧ ((s.txn t).pend k = some .unlock ∨ (s.txn t).pend k = some .release))) :
    (s'.txn t).leaving (c.keys t) < (s.txn t).leaving (c.keys t) ∨
      (l ≠ (s.txn t).leave (c.keys t) t k ∧ (s'.txn t).leaving (c.keys t) = (s.txn t).leaving (c.keys t) ∧
        (s'.txn t).leave (c.keys t) t k = (s.txn t).leave (c.keys t) t k) := by
  by_cases hlt : l.txn = t
  · cases hs with
    | begin u hpc =>
      obtain rfl : u = t := hlt
      unfold Txn.Holds at hx
      simp [hpc] at hx
    | coord u y hy =>
      obtain rfl : u = t := hlt
      rw [setTxn_self]
      exact Txn.leaving_coord (h.phase u) hx hy
    | apply u k' o ho =>
      obtain rfl : u = t := hlt
      rw [applied_txn_self]
      refine Txn.leaving_served (h.phase u) ho (applyIntentOp_answer o) hx (fun hk => hno ⟨by rw [hk.1], ?_⟩) _
      rw [← hk.1, ho]
      simpa using hk.2
  · obtain ⟨hpc, hpend, hr⟩ := hs.other hlt
    refine Or.inr ⟨fun hl => hlt (hl ▸ (Txn.leave_txn _ _ _ _).1), ?_, ?_⟩
    · simp only [Txn.leaving, hpc, hr]
    · simp only [Txn.leave, hpc, hr]

variable (r : FairRun (Intent.step c) (Fair : Label τ κ → Prop))

theorem least_front {i : Nat} (hleast : ∀ j, i ≤ j → Least c t k (r.st j)) :
    ∀ᶠ j in Filter.atTop, ((r.st j).keyQ k).front = some t := by
  obtain ⟨j, hij, hj⟩ := r.reaches i (P := Least c t k) (Q := fun s => (s.keyQ k).front = some t)
    (fun s => (s.keyQ k).front.elim 0 fun f => (s.txn f).leaving (c.keys f))
    (fun s => (s.keyQ k).front.elim (.coord t) fun f => (s.txn f).leave (c.keys f) f k) hleast
    (fun s hP hQ => by
      cases hf : (s.keyQ k).front with
      | none => have := hP.mem; simp [KeyList.front] at hf; simp [hf] at this
      | some f =>
        have hft : f ≠ t := fun h => hQ (hf.trans (by rw [h]))
        exact hP.inv.leave_enabled (hP.inv.holds f k (hP.front_locked hf hft)))
    (fun s hP hQ => by
      cases hf : (s.keyQ k).front with
      | none => trivial
      | some f => exact (Txn.leave_txn _ _ _ _).2)
    (fun s l s' hP hQ hs hP' => by
      rcases hP.front_step (step_cases hs) hP' with hf | ⟨f, hft, hf, hf', hno⟩
      · exact Or.inl hf
      · refine Or.inr ?_
        rw [hf, hf']
        exact hP.inv.leaving_step (step_cases hs) (hP.inv.holds f k (hP.front_locked hf hft)) hno)
  refine r.eventually_always (P := fun s => (s.keyQ k).front = some t) (i := j) (fun m hm l hf hs => ?_) hj
  rcases (hleast m (by omega)).front_step (step_cases hs) (hleast (m + 1) (by omega)) with hf' | ⟨f, hft, hf', -⟩
  · exact hf'
  · exact absurd (Option.some.inj (hf'.symm.trans hf)) hft

/-- What is left of the present round: a round that failed is undone first. -/
def Txn.acquiring (keys : List κ) (x : Txn κ) : Nat :=
  match x.pc with
  | .begun | .sleep => 4 * keys.length + 5
  | .check i => 3 * keys.length + 4 + (keys.length - i)
  | .lock i ok => (if ok then 0 else 6 * keys.length + 6) + 3 * (keys.length - i) + 3
  | .ack i ok => (if ok && x.reply ≠ some false then 0 else 6 * keys.length + 6) + 3 * (keys.length - i) +
      if x.reply.isNone then 2 else 1
  | .unlock => 6 * keys.length + 8
  | .unlocking i => 4 * keys.length + 6 + 2 * (keys.length - i) + if ((keys[i]?).bind x.pend).isNone then 0 else 1
  | _ => 0

def Txn.acquirer (keys : List κ) (t : τ) (x : Txn κ) : Label τ κ :=
  match x.pc with
  | .ack i _ => if x.reply.isNone then (keys[i]?).elim (.coord t) (.apply t) else .coord t
  | .unlocking i => if ((keys[i]?).bind x.pend).isNone then .coord t else (keys[i]?).elim (.coord t) (.apply t)
  | _ => .coord t

/-- Between `Begin` and the return of `Acquire`. -/
def Txn.Waiting (x : Txn κ) : Prop := x.pc ≠ .fresh ∧ x.pc ≠ .acquired ∧ x.pc ≠ .finished

structure Leads (c : Config τ κ) (t : τ) (s : State τ κ) : Prop where
  inv : Inv c s
  waiting : (s.txn t).Waiting
  front : ∀ k ∈ c.keys t, (s.keyQ k).front = some t

theorem Txn.acquirer_txn (keys : List κ) (t : τ) (x : Txn κ) : (x.acquirer keys t).txn = t ∧ Fair (x.acquirer keys t) := by
  unfold Txn.acquirer
  split
  next i _ _ =>
    split
    · cases keys[i]? <;> exact ⟨rfl, trivial⟩
    · exact ⟨rfl, trivial⟩
  next i _ =>
    split
    · exact ⟨rfl, trivial⟩
    · cases keys[i]? <;> exact ⟨rfl, trivial⟩
  next => exact ⟨rfl, trivial⟩

theorem Leads.head (h : Leads c t s) (hk : k ∈ c.keys t) : (s.keyQ k).head t = true :=
  ((h.inv.ok k).head_iff t).mpr (h.front k hk)

theorem Leads.enabled (h : Leads c t s) : (step c s ((s.txn t).acquirer (c.keys t) t)).isSome = true := by
  have hw := h.waiting
  unfold Txn.Waiting at hw
  unfold Txn.acquirer
  cases hpc : (s.txn t).pc with
  | fresh | acquired | finished => simp [hpc] at hw
  | begun | unlock =>
    dsimp only
    rw [coord_enabled]
    simp [Txn.coord, hpc]
  | sleep =>
    dsimp only
    rw [coord_enabled]
    have hsig : (s.txn t).sig = true := by
      rw [← Bool.not_eq_false]
      intro hs
      obtain ⟨k, hk, hdown⟩ := h.inv.awake t hpc hs
      rw [h.head hk] at hdown
      exact absurd hdown (by simp)
    simp [Txn.coord, hpc, hsig]
  | check i | lock i ok =>
    dsimp only
    rw [coord_enabled]
    unfold Txn.coord
    rw [hpc]
    dsimp only
    split <;> rfl
  | ack i ok => exact h.inv.answer_enabled hpc
  | unlocking i =>
    cases hk : (c.keys t)[i]? with
    | none =>
      simp only [hk, Option.bind_none, Option.isNone_none, if_true]
      rw [coord_enabled]
      simp [Txn.coord, hpc, hk]
    | some k =>
      cases hpk : (s.txn t).pend k with
      | none =>
        simp only [hk, Option.bind_some, hpk, Option.isNone_none, if_true]
        rw [coord_enabled]
        simp [Txn.coord, hpc, hk, hpk]
      | some o =>
        simp only [hk, Option.bind_some, hpk, Option.isNone_some, Bool.false_eq_true, if_false, Option.elim_some]
        rw [apply_enabled, hpk]
        rfl

theorem Txn.acquiring_coord {keys : List κ} {head : κ → Bool} {x y : Txn κ} (hp : x.Phase keys) (hhead : ∀ k ∈ keys, head k = true)
    (hs : x.Coord keys head y) (hx : x.pc ≠ .acquired) (hy : y.pc ≠ .acquired) :
    y.acquiring keys < x.acquiring keys := by
  unfold Txn.Phase at hp
  unfold Txn.acquiring
  cases hs with
  | acquire hpc | wake hpc => simp [hpc]; omega
  | headTrue i k hpc hk hh =>
    obtain ⟨hlt, -⟩ := List.getElem?_eq_some_iff.mp hk
    simp [hpc]
    omega
  | headFalse i k hpc hk hh =>
    rw [hhead k (List.mem_of_getElem? hk)] at hh
    exact absurd hh (by simp)
  | allHead i hpc hk => simp [hpc]; omega
  | postLock i ok k hpc hk =>
    rw [hpc] at hp
    simp [hpc, hp.2]
  | locked i hpc hk => simp at hy
  | failed i hpc hk => simp only [hpc, Bool.false_eq_true, if_false]; omega
  | answer i ok b hpc hr =>
    rw [hpc] at hp
    obtain ⟨k', hk', -⟩ := hp
    obtain ⟨hlt, -⟩ := List.getElem?_eq_some_iff.mp hk'
    cases b <;> cases ok <;> simp [hpc, hr] <;> omega
  | postUnlock hpc =>
    simp only [hpc]
    split <;> omega
  | unlocked i k hpc hk hpend =>
    obtain ⟨hlt, -⟩ := List.getElem?_eq_some_iff.mp hk
    simp only [hpc, hk, Option.bind_some, hpend, Option.isNone_none, if_true]
    split <;> omega
  | retry i hpc hk => simp [hpc]; omega
  | release hpc => exact absurd hpc hx

theorem Leads.acquiring_served (h : Leads c t s) {o : Op} (ho : (s.txn t).pend k = some o) (b : Bool) :
    (((s.txn t).served k (applyIntentOp c.ticket t (s.keyQ k) o).2.2).poke b).acquiring (c.keys t) < (s.txn t).acquiring (c.keys t) ∨
      ((.apply t k : Label τ κ) ≠ (s.txn t).acquirer (c.keys t) t ∧
        (((s.txn t).served k (applyIntentOp c.ticket t (s.keyQ k) o).2.2).poke b).acquiring (c.keys t) = (s.txn t).acquiring (c.keys t) ∧
        (((s.txn t).served k (applyIntentOp c.ticket t (s.keyQ k) o).2.2).poke b).acquirer (c.keys t) t =
          (s.txn t).acquirer (c.keys t) t) := by
  obtain ⟨hk, ⟨rfl, -⟩ | ⟨rfl, hr, i, ok, hpc, hi⟩ | ⟨rfl, i, hpc⟩ | ⟨-, hpc⟩⟩ := (h.inv.phase t).pend ho
  · -- it leads the queue already
    exact absurd (List.mem_of_mem_head? (h.front k hk)) (h.inv.enqueue_absent ho)
  · -- the front's lock is taken
    refine Or.inl ?_
    have hans : (applyIntentOp c.ticket t (s.keyQ k) .lock).2.2 = some true := by
      simp [applyIntentOp, lockIntent, h.front k hk]
    unfold Txn.acquiring
    cases ok <;> simp [hans, Txn.served, Txn.poke, hpc, hr]
  · have hans : (applyIntentOp c.ticket t (s.keyQ k) .unlock).2.2 = none := rfl
    rw [hans]
    unfold Txn.acquiring Txn.acquirer
    by_cases hik : (c.keys t)[i]? = some k
    · refine Or.inl ?_
      simp [Txn.served, Txn.poke, hpc, hik, ho]
    · refine Or.inr ?_
      have hother : ((c.keys t)[i]?).bind ((s.txn t).served k none).pend = ((c.keys t)[i]?).bind (s.txn t).pend := by
        cases hki : (c.keys t)[i]? with
        | none => rfl
        | some k' =>
          have hkk : k' ≠ k := fun he => hik (he ▸ hki)
          exact Function.update_of_ne hkk _ _
      have hpc' : (((s.txn t).served k none).poke b).pc = .unlocking i := hpc
      simp only [hpc', hpc]
      change _ ∧ (_ + if (((c.keys t)[i]?).bind ((s.txn t).served k none).pend).isNone = true then 0 else 1) = _ ∧
        (if (((c.keys t)[i]?).bind ((s.txn t).served k none).pend).isNone = true then _ else _) = _
      rw [hother]
      refine ⟨?_, rfl, rfl⟩
      split
      · simp
      · cases hki : (c.keys t)[i]? with
        | none => simp
        | some k' =>
          simp only [Option.elim_some, ne_eq, Label.apply.injEq, true_and]
          exact fun he => hik (he ▸ hki)
  · exact absurd hpc h.waiting.2.2

theorem Leads.acquiring_step (h : Leads c t s) (hs : Step c s l s') (h' : (s'.txn t).pc ≠ .acquired) :
    (s'.txn t).acquiring (c.keys t) < (s.txn t).acquiring (c.keys t) ∨
      (l ≠ (s.txn t).acquirer (c.keys t) t ∧ (s'.txn t).acquiring (c.keys t) = (s.txn t).acquiring (c.keys t) ∧
        (s'.txn t).acquirer (c.keys t) t = (s.txn t).acquirer (c.keys t) t) := by
  by_cases hlt : l.txn = t
  · cases hs with
    | begin u hpc =>
      obtain rfl : u = t := hlt
      exact absurd hpc h.waiting.1
    | coord u y hy =>
      obtain rfl : u = t := hlt
      rw [setTxn_self] at h' ⊢
      exact Or.inl <| Txn.acquiring_coord (h.inv.phase u) (fun k hk => h.head hk) hy h.waiting.2.1 h'
    | apply u k o ho =>
      obtain rfl : u = t := hlt
      rw [applied_txn_self]
      exact h.acquiring_served ho _
  · obtain ⟨hpc, hpend, hr⟩ := hs.other hlt
    refine Or.inr ⟨fun hl => hlt (hl ▸ (Txn.acquirer_txn _ _ _).1), ?_, ?_⟩
    · simp only [Txn.acquiring, hpc, hr, hpend]
    · simp only [Txn.acquirer, hpc, hr, hpend]

theorem leads_acquires {i : Nat} (hleads : ∀ j, i ≤ j → Leads c t (r.st j)) : ∃ j, i ≤ j ∧ ((r.st j).txn t).pc = .acquired :=
  r.reaches i (P := Leads c t) (Q := fun s => (s.txn t).pc = .acquired) (fun s => (s.txn t).acquiring (c.keys t))
    (fun s => (s.txn t).acquirer (c.keys t) t) hleads (fun s hP _ => hP.enabled) (fun s _ _ => (Txn.acquirer_txn _ _ _).2)
    fun s l s' hP _ hs _ => or_iff_not_imp_left.mpr fun hQ => hP.acquiring_step (step_cases hs) hQ

theorem Step.waiting (hs : Step c s l s') (h : (s.txn t).Waiting) (h' : (s'.txn t).pc ≠ .acquired) : (s'.txn t).Waiting := by
  by_cases hlt : l.txn = t
  · cases hs with
    | begin u hpc =>
      obtain rfl : u = t := hlt
      exact absurd hpc h.1
    | coord u y hy =>
      obtain rfl : u = t := hlt
      rw [setTxn_self] at h' ⊢
      cases hy with
      | release hpc => exact absurd hpc h.2.1
      | locked i hpc hk => exact absurd rfl h'
      | _ => simp [Txn.Waiting]
    | apply u k o ho => unfold Txn.Waiting; rw [applied_pc]; exact h
  · unfold Txn.Waiting
    rw [(hs.other hlt).1]
    exact h

theorem Inv.mem_step (h : Inv c s) (hs : Step c s l s') (hw : (s.txn t).Waiting) (hm : t ∈ (s.keyQ k).list) : t ∈ (s'.keyQ k).list := by
  cases hs with
  | begin | coord => exact hm
  | apply u k' o ho =>
    by_cases hkk : k = k'
    · subst hkk
      rw [applied_keyQ_self]
      by_cases hut : t = u
      · subst hut
        refine (applyIntentOp_mem_self (h.ok k) o).mpr (Or.inr ⟨?_, hm⟩)
        rintro rfl
        obtain ⟨-, ⟨h', -⟩ | ⟨h', -⟩ | ⟨h', -⟩ | ⟨-, hpc⟩⟩ := (h.phase t).pend ho
        · simp at h'
        · simp at h'
        · simp at h'
        · exact hw.2.2 hpc
      · exact (applyIntentOp_mem_ne _ _ _ hut).mpr hm
    · rw [applied_keyQ_ne _ _ _ _ _ hkk]; exact hm

theorem waiting_placed {i : Nat} (hinv : ∀ j, Inv c (r.st j)) (hw : ∀ j, i ≤ j → ((r.st j).txn t).Waiting) (hk : k ∈ c.keys t) :
    ∀ᶠ j in Filter.atTop, t ∈ ((r.st j).keyQ k).list := by
  obtain ⟨j, hij, hj⟩ := r.reaches i (P := fun s => Inv c s ∧ (s.txn t).Waiting) (Q := fun s => t ∈ (s.keyQ k).list) (fun _ => 0)
    (fun _ => .apply t k) (fun j hij => ⟨hinv j, hw j hij⟩)
    (fun s hP hQ => by
      rw [apply_enabled, Option.isSome_iff_ne_none]
      intro hn
      refine hQ ((hP.1.mem t k).mpr ⟨hk, ?_⟩)
      have hw := hP.2
      unfold Txn.Waiting at hw
      unfold Txn.Placed
      cases hpc : (s.txn t).pc <;> simp_all)
    (fun _ _ _ => trivial)
    (fun s l s' hP hQ hs _ => by
      by_cases hl : l = .apply t k
      · subst hl
        refine Or.inl ?_
        cases step_cases hs with
        | apply _ _ o ho =>
          rw [applied_keyQ_self]
          refine (applyIntentOp_mem_self (hP.1.ok k) o).mpr (Or.inl ?_)
          by_contra hne
          refine hQ ((hP.1.mem t k).mpr ⟨hk, ?_⟩)
          have hw := hP.2
          unfold Txn.Waiting at hw
          unfold Txn.Placed
          cases hpc : (s.txn t).pc <;> simp_all
      · exact Or.inr (Or.inr ⟨hl, rfl, rfl⟩))
  refine r.eventually_always (P := fun s => t ∈ (s.keyQ k).list) (i := j) (fun m hm l hmem hs => ?_) hj
  exact (hinv m).mem_step (step_cases hs) (hw m (by omega)) hmem

/-- Out of `Acquire`, and so on the way out of every queue. -/
def Txn.Returned (x : Txn κ) : Prop := x.pc = .acquired ∨ x.pc = .finished

theorem Step.finished (hs : Step c s l s') (h : (s.txn t).pc = .finished) :
    (s'.txn t).pc = .finished ∧ ∀ k, (s.txn t).pend k = none → (s'.txn t).pend k = none := by
  by_cases hlt : l.txn = t
  · cases hs with
    | begin u hpc =>
      obtain rfl : u = t := hlt
      rw [h] at hpc; simp at hpc
    | coord u y hy =>
      obtain rfl : u = t := hlt
      cases hy <;> simp_all
    | apply u k' o ho =>
      obtain rfl : u = t := hlt
      refine ⟨by rw [applied_pc]; exact h, fun k hk => ?_⟩
      rw [applied_txn_self]
      rcases (s.txn u).served_pend k' k (applyIntentOp c.ticket u (s.keyQ k') o).2.2 with hn | ⟨-, he⟩
      · exact hn
      · exact he.trans hk
  · obtain ⟨hpc, hpend, -⟩ := hs.other hlt
    rw [hpc, hpend]
    exact ⟨h, fun _ hk => hk⟩

theorem Step.returned (hs : Step c s l s') (h : (s.txn t).Returned) :
    (s'.txn t).Returned ∧ (l = .coord t → (s.txn t).pc = .acquired → (s'.txn t).pc = .finished) := by
  by_cases hlt : l.txn = t
  · cases hs with
    | begin u hpc =>
      obtain rfl : u = t := hlt
      unfold Txn.Returned at h
      rw [hpc] at h; simp at h
    | coord u y hy =>
      obtain rfl : u = t := hlt
      unfold Txn.Returned at h ⊢
      rw [setTxn_self]
      cases hy <;> simp_all
    | apply u k o ho =>
      unfold Txn.Returned at h ⊢
      rw [applied_pc]
      exact ⟨h, nofun⟩
  · refine ⟨?_, fun hl => absurd (hl ▸ rfl) hlt⟩
    unfold Txn.Returned at h ⊢
    rw [(hs.other hlt).1]
    exact h

theorem returned_finishes {i : Nat} (h : ((r.st i).txn t).Returned) : ∃ j, i ≤ j ∧ ((r.st j).txn t).pc = .finished := by
  refine r.reaches i (P := fun s => (s.txn t).Returned) (Q := fun s => (s.txn t).pc = .finished) (fun _ => 0) (fun _ => .coord t)
    (fun j hij => r.stays (P := fun s => (s.txn t).Returned) (fun m _ l hm hs => ((step_cases hs).returned hm).1) h hij) ?_
    (fun _ _ _ => trivial) ?_
  · intro s hP hQ
    rw [coord_enabled]
    simp [Txn.coord, hP.resolve_right hQ]
  · intro s l s' hP hQ hs _
    by_cases hl : l = .coord t
    · exact Or.inl (((step_cases hs).returned hP).2 hl (hP.resolve_right hQ))
    · exact Or.inr (Or.inr ⟨hl, rfl, rfl⟩)

theorem finished_leaves {i : Nat} (h : ((r.st i).txn t).pc = .finished) (k : κ) :
    ∃ j, i ≤ j ∧ ((r.st j).txn t).pc = .finished ∧ ((r.st j).txn t).pend k = none := by
  have hfin : ∀ j, i ≤ j → ((r.st j).txn t).pc = .finished := fun j hij =>
    r.stays (P := fun s => (s.txn t).pc = .finished) (fun m _ l hm hs => ((step_cases hs).finished hm).1) h hij
  obtain ⟨j, hij, hj⟩ := r.reaches i (P := fun s => (s.txn t).pc = .finished) (Q := fun s => (s.txn t).pend k = none) (fun _ => 0)
    (fun _ => .apply t k) hfin
    (fun s hP hQ => by rw [apply_enabled]; exact Option.isSome_iff_ne_none.mpr hQ)
    (fun _ _ _ => trivial)
    (fun s l s' hP hQ hs _ => by
      by_cases hl : l = .apply t k
      · subst hl
        refine Or.inl ?_
        cases step_cases hs with
        | apply _ _ o ho => rw [applied_txn_self]; exact Function.update_self _ _ _
      · exact Or.inr (Or.inr ⟨hl, rfl, rfl⟩))
  exact ⟨j, hij, hfin j hij, hj⟩

theorem returned_gone {i : Nat} (hinv : ∀ j, Inv c (r.st j)) (h : ((r.st i).txn t).Returned) :
    ∀ᶠ j in Filter.atTop, ∀ k, t ∉ ((r.st j).keyQ k).list := by
  obtain ⟨m, -, hm⟩ := returned_finishes r h
  have hkeys : ∀ᶠ j in Filter.atTop, ∀ k ∈ {k | k ∈ c.keys t}, t ∉ ((r.st j).keyQ k).list := by
    refine (Filter.eventually_all_finite (List.finite_toSet (c.keys t))).mpr fun k _ => ?_
    obtain ⟨j, -, hfin, hnone⟩ := finished_leaves r hm k
    have hpast := r.eventually_always (P := fun s => (s.txn t).pc = .finished ∧ (s.txn t).pend k = none) (i := j)
      (fun m _ l hm hs => ⟨((step_cases hs).finished hm.1).1, ((step_cases hs).finished hm.1).2 k hm.2⟩) ⟨hfin, hnone⟩
    refine hpast.mono fun j hj hmem => ?_
    have hplaced := (((hinv j).mem t k).mp hmem).2
    simp [Txn.Placed, hj.1, hj.2] at hplaced
  exact hkeys.mono fun j hj k hmem => hj k (((hinv j).mem t k).mp hmem).1 hmem

theorem eventually_acquires (h0 : r.st 0 = init) (t : τ) {i : Nat} (hw : ((r.st i).txn t).Waiting) :
    ∃ j, i ≤ j ∧ ((r.st j).txn t).pc = .acquired := by
  have hinv : ∀ j, Inv c (r.st j) := r.always (fun s l s' h hs => h.step hs) (h0 ▸ init_inv c)
  -- by induction on the ticket: the smaller ones get through and leave every queue
  induction hn : c.ticket t using Nat.strong_induction_on generalizing t i with
  | _ n ih =>
    subst hn
    by_contra hnever
    have hwait : ∀ j, i ≤ j → ((r.st j).txn t).Waiting := fun j hij =>
      r.stays (P := fun s => (s.txn t).Waiting) (fun m hm l hw hs => (step_cases hs).waiting hw fun ha => hnever ⟨m + 1, by omega, ha⟩) hw hij
    have hsmaller : ∀ᶠ j in Filter.atTop, ∀ u ∈ {u | c.ticket u < c.ticket t}, ∀ k, u ∉ ((r.st j).keyQ k).list := by
      have hfinite : {u | c.ticket u < c.ticket t}.Finite :=
        (Set.finite_lt_nat (c.ticket t)).preimage c.unique.injOn
      refine (Filter.eventually_all_finite hfinite).mpr fun u hu => ?_
      by_cases hfresh : ∀ j, ((r.st j).txn u).pc = .fresh
      · refine Filter.Eventually.of_forall fun j k hmem => ?_
        have hplaced := (((hinv j).mem u k).mp hmem).2
        simp [Txn.Placed, hfresh j] at hplaced
      · push Not at hfresh
        obtain ⟨j, hj⟩ := hfresh
        by_cases hret : ((r.st j).txn u).Returned
        · exact returned_gone r hinv hret
        · obtain ⟨m, -, hm⟩ := ih _ hu u ⟨hj, fun ha => hret (Or.inl ha), fun hf => hret (Or.inr hf)⟩ rfl
          exact returned_gone r hinv (Or.inl hm)
    have hfront : ∀ᶠ j in Filter.atTop, ∀ k ∈ {k | k ∈ c.keys t}, ((r.st j).keyQ k).front = some t := by
      refine (Filter.eventually_all_finite (List.finite_toSet (c.keys t))).mpr fun k hk => ?_
      obtain ⟨N, hN⟩ := Filter.eventually_atTop.mp (hsmaller.and (waiting_placed r hinv hwait hk))
      refine least_front r (i := N) fun j hj => ⟨hinv j, (hN j hj).2, fun u hu => ?_⟩
      by_contra hlt
      exact (hN j hj).1 u (Nat.lt_of_not_le hlt) k hu
    obtain ⟨N, hN⟩ := Filter.eventually_atTop.mp hfront
    obtain ⟨j, hj, ha⟩ := leads_acquires r (i := max i N) fun j hj =>
      ⟨hinv j, hwait j (le_trans (le_max_left _ _) hj), fun k hk => hN j (le_trans (le_max_right _ _) hj) k hk⟩
    exact hnever ⟨j, le_trans (le_max_left _ _) hj, ha⟩

/-- Whatever has begun and not left all its queues finds a step enabled, and under weak fairness every transaction that has
begun returns from `Acquire`. -/
theorem acquire_makes_progress (c : Config τ κ) :
    (∀ ls s, run c init ls = some s → ∀ t, (s.txn t).pc ≠ .fresh →
      ((s.txn t).pc ≠ .finished ∨ ∃ k, (s.txn t).pend k ≠ none) → ∃ l, Fair l ∧ (step c s l).isSome = true) ∧
    ∀ r : FairRun (step c) (Fair : Label τ κ → Prop), r.st 0 = init →
      ∀ i t, ((r.st i).txn t).Waiting → ∃ j, i ≤ j ∧ ((r.st j).txn t).pc = .acquired :=
  ⟨fun _ _ hr _ hs hu => (run_inv (init_inv c) hr).enabled hs hu, fun r h0 _ t hw => eventually_acquires r h0 t hw⟩

/-- Two transactions on one key: the second goes to sleep behind the first and is woken by its release. -/
def contended {τ : Type} (x y : τ) : List (Label τ Unit) :=
  [.begin x, .begin y, .apply x (), .apply y (), .coord y, .coord y, .coord x, .coord x, .coord x, .coord x, .apply x (), .coord x, .coord x,
    .coord x, .apply x (), .coord y, .coord y, .coord y, .coord y, .apply y (), .coord y, .coord y, .coord y, .apply y ()]

theorem sleeper_returns :
    ∃ r : FairRun (step oneKey) (Fair : Label (Fin 3) Unit → Prop), r.st 0 = init ∧ ((r.st 6).txn 1).pc = .sleep ∧
      (∃ l, Fair l ∧ (step oneKey (r.st 6) l).isSome = true) ∧ ∃ j, 6 ≤ j ∧ ((r.st j).txn 1).pc = .acquired := by
  have hrun : ((run oneKey init (contended 0 1)).map fun s =>
      decide (∀ t, (step oneKey s (.coord t)).isNone = true ∧ (step oneKey s (.apply t ())).isNone = true)) = some true := by
    decide +kernel
  obtain ⟨last, hlast, hend⟩ := Option.map_eq_some_iff.mp hrun
  have hquiet : ∀ l : Label (Fin 3) Unit, Fair l → step oneKey last l = none := by
    intro l hl
    cases l with
    | begin t => exact absurd hl not_false
    | coord t => exact Option.isNone_iff_eq_none.mp (of_decide_eq_true hend t).1
    | apply t k => exact Option.isNone_iff_eq_none.mp (of_decide_eq_true hend t).2
  have hsix : run oneKey init ((contended 0 1).take 6) = some ((FairRun.ofList init (contended 0 1) hlast hquiet).st 6) := rfl
  have hpc : (((FairRun.ofList init (contended 0 1) hlast hquiet).st 6).txn 1).pc = .sleep := rfl
  refine ⟨FairRun.ofList init (contended 0 1) hlast hquiet, rfl, hpc, ?_, ?_⟩
  · exact (acquire_makes_progress oneKey).1 ((contended 0 1).take 6) _ hsix 1 (by rw [hpc]; decide) (Or.inl (by rw [hpc]; decide))
  · exact (acquire_makes_progress oneKey).2 _ rfl 6 1 ⟨by rw [hpc]; decide, by rw [hpc]; decide, by rw [hpc]; decide⟩

end Aki.Intent
