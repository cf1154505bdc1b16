import Aki.HopQueue

namespace Aki.HopQueue

open SwapList

variable {P ν : Type} [DecidableEq P] [DecidableEq ν] {s s' t : State P ν}

/-- The word where the consumer stands: a producer may have moved it from parked to running. -/
def Consumer.WordOk (w : Word) : Consumer ν → Prop
  | .spin | .spinTail | .toRunning => w = .spinning
  | .recheck | .recheckTail | .unparkSelf | .parked => w ≠ .spinning
  | _ => w = .running

/-- A producer has claimed the wake and the consumer has not received its token. -/
def Consumer.Claimed (w : Word) : Consumer ν → Prop
  | .recheck | .recheckTail | .unparkSelf | .parked => w = .running
  | .unparkRecv => True
  | _ => False

/-- A producer whose swap found the stub owes a wake until it has made it. -/
def Producer.Owes : Producer ν → Prop
  | .swapped _ .stub => True
  | .wakeLoad | .wakeCas | .wakeSend => True
  | _ => False

structure WakeInv (s : State P ν) : Prop where
  word : s.cons.WordOk s.word
  claimed : (s.token = true ∨ ∃ p, s.prod p = .wakeSend) ↔ s.cons.Claimed s.word
  only : s.token = true → ∀ p, s.prod p ≠ .wakeSend
  once : ∀ p q, s.prod p = .wakeSend → s.prod q = .wakeSend → p = q
  empty : s.cons = .parked → s.word = .parked → s.cells = [.stub] ∨ ∃ p, (s.prod p).Owes

theorem initial_wakeInv : WakeInv (initial : State P ν) where
  word := rfl
  claimed := by simp [initial, Consumer.Claimed]
  only := by simp [initial]
  once := by simp [initial]
  empty := nofun

theorem WakeInv.move (h : WakeInv s) (hp : t.prod = s.prod) (ht : t.token = s.token) (hw : t.cons.WordOk t.word)
    (hc : t.cons.Claimed t.word ↔ s.cons.Claimed s.word) (he : t.cons = .parked → t.word = .parked → t.cells = [.stub]) : WakeInv t where
  word := hw
  claimed := by rw [hc, hp, ht]; exact h.claimed
  only := by rw [hp, ht]; exact h.only
  once := by rw [hp]; exact h.once
  empty := fun h₁ h₂ => Or.inl (he h₁ h₂)

/-- The consumer receives the token of the one claim. -/
theorem WakeInv.receive (h : WakeInv s) (htoken : s.token = true) (hw : s.word = .running) :
    WakeInv { s with token := false, cons := .popHead } where
  word := hw
  claimed := by
    refine ⟨?_, nofun⟩
    rintro (ht | ⟨p, hp⟩)
    · exact absurd ht (by simp)
    · exact absurd hp (h.only htoken p)
  only := nofun
  once := h.once
  empty := nofun

theorem WakeInv.stepConsumer (h : WakeInv s) (hi : Inv s) {choice : Bool} (hs : s.stepConsumer choice = some s') : WakeInv s' := by
  have hword := h.word
  unfold State.stepConsumer at hs
  cases hc : s.cons with
  | popHead =>
    rw [hc] at hs hword
    dsimp only at hs
    split at hs <;> cases hs <;> exact h.move rfl rfl hword (by rw [hc]; exact Iff.rfl) nofun
  | popNode x | popLast x =>
    rw [hc] at hs hword
    dsimp only at hs
    split at hs
    · cases hs
      cases x with
      | stub =>
        refine h.move rfl rfl h.word Iff.rfl ?_
        intro hp
        rw [show ((s.advance _).returns Ref.stub).cons = s.cons from rfl, hc] at hp
        exact absurd hp nofun
      | node b => exact h.move rfl rfl hword (by rw [hc]; exact Iff.rfl) nofun
    · cases hs
      exact h.move rfl rfl hword (by rw [hc]; exact Iff.rfl) nofun
  | popTail x =>
    rw [hc] at hs hword
    dsimp only at hs
    split at hs <;> cases hs <;> exact h.move rfl rfl hword (by rw [hc]; exact Iff.rfl) nofun
  | stubClear x | stubSwap x | stubLink x a =>
    rw [hc] at hs hword
    cases hs
    exact h.move rfl rfl hword (by rw [hc]; exact Iff.rfl) nofun
  | idle =>
    rw [hc] at hs hword
    dsimp only at hs
    split at hs
    · cases hs; exact h.move rfl rfl hword (by rw [hc]; exact Iff.rfl) nofun
    · cases hs; exact h.move rfl rfl rfl (by rw [hc]; exact Iff.rfl) nofun
  | spin =>
    rw [hc] at hs hword
    dsimp only at hs
    split at hs
    · split at hs <;> cases hs <;> exact h.move rfl rfl hword (by rw [hc]; exact Iff.rfl) nofun
    · cases hs
      refine h.move rfl rfl ?_ ?_ nofun
      · change Word.parked ≠ .spinning
        decide
      · rw [hc]
        exact ⟨fun hr : Word.parked = .running => absurd hr (by decide), False.elim⟩
  | spinTail =>
    rw [hc] at hs hword
    dsimp only at hs
    split at hs <;> cases hs <;> exact h.move rfl rfl hword (by rw [hc]; exact Iff.rfl) nofun
  | toRunning =>
    rw [hc] at hs
    cases hs
    exact h.move rfl rfl rfl (by rw [hc]; exact Iff.rfl) nofun
  | recheck =>
    rw [hc] at hs hword
    dsimp only at hs
    split at hs <;> cases hs <;> exact h.move rfl rfl hword (by rw [hc]; exact Iff.rfl) nofun
  | recheckTail =>
    have hk := hi.consumer
    rw [hc] at hs hword hk
    dsimp only at hs
    split at hs
    next ht =>
      cases hs
      refine h.move rfl rfl hword (by rw [hc]; exact Iff.rfl) fun _ _ => ?_
      -- nothing was swapped in before the recheck read the tail
      have hstub : s.head = .stub := by
        by_contra hne
        exact hk hne ht.1.symm
      have htail := hi.tail
      rw [ht.1] at htail
      rw [← hstub]
      exact eq_singleton hi.spine.nodup hi.head htail
    next => cases hs; exact h.move rfl rfl hword (by rw [hc]; exact Iff.rfl) nofun
  | unparkSelf =>
    rw [hc] at hs hword
    dsimp only at hs
    split at hs
    next hp =>
      cases hs
      refine h.move rfl rfl rfl ?_ nofun
      rw [hc, hp]
      exact ⟨False.elim, fun hr : Word.parked = .running => absurd hr (by decide)⟩
    next hp =>
      cases hs
      have hrun : s.word = .running := by
        cases hw : s.word with
        | running => rfl
        | spinning => exact absurd hw hword
        | parked => exact absurd hw hp
      refine h.move rfl rfl hrun ?_ nofun
      rw [hc]
      exact ⟨fun _ => hrun, fun _ => trivial⟩
  | unparkRecv =>
    rw [hc] at hs hword
    dsimp only at hs
    split at hs
    next ht => cases hs; exact h.receive ht hword
    next => cases hs
  | parked =>
    have hcl := h.claimed
    rw [hc] at hs hcl
    dsimp only at hs
    split at hs
    next ht => cases hs; exact h.receive ht (hcl.mp (Or.inl ht))
    next => cases hs

/-- While the word is parked no wake is claimed, and claiming it moves the word to running. -/
theorem parked_unclaimed {c : Consumer ν} (h : c.WordOk .parked) : ¬c.Claimed .parked ∧ c.Claimed .running ∧ c.WordOk .running := by
  cases c <;> simp_all [Consumer.WordOk, Consumer.Claimed]

theorem WakeInv.setProd (h : WakeInv s) {p : P} {pc : Producer ν} (hp : t.prod = Function.update s.prod p pc) (ht : t.token = s.token)
    (hw : t.word = s.word) (hc : t.cons = s.cons) (hold : s.prod p ≠ .wakeSend) (hnew : pc ≠ .wakeSend)
    (he : s.cons = .parked → s.word = .parked → (s.cells = [.stub] ∨ ∃ q, (s.prod q).Owes) →
      t.cells = [.stub] ∨ ∃ q, (t.prod q).Owes) : WakeInv t := by
  have hsend : ∀ q, t.prod q = .wakeSend ↔ s.prod q = .wakeSend := by
    intro q
    rw [hp]
    by_cases hq : q = p
    · rw [hq, Function.update_self]
      exact ⟨fun hx => absurd hx hnew, fun hx => absurd hx hold⟩
    · rw [Function.update_of_ne hq]
  refine ⟨by rw [hw, hc]; exact h.word, ?_, ?_, ?_, ?_⟩
  · simp only [hsend, ht, hw, hc]
    exact h.claimed
  · rw [ht]
    exact fun hx q hq => h.only hx q ((hsend q).mp hq)
  · exact fun q r hq hr => h.once q r ((hsend q).mp hq) ((hsend r).mp hr)
  · rw [hw, hc]
    exact fun h₁ h₂ => he h₁ h₂ (h.empty h₁ h₂)

theorem owes_update {prod : P → Producer ν} {p : P} {pc : Producer ν} (h : ∃ q, (prod q).Owes) (hp : (prod p).Owes → pc.Owes) :
    ∃ q, (Function.update prod p pc q).Owes := by
  obtain ⟨q, hq⟩ := h
  refine ⟨q, ?_⟩
  by_cases he : q = p
  · subst he
    rw [Function.update_self]
    exact hp hq
  · rw [Function.update_of_ne he]
    exact hq

theorem WakeInv.beginPush (h : WakeInv s) {p : P} {b : ν} (hs : s.beginPush p b = some s') : WakeInv s' := by
  unfold State.beginPush at hs
  split at hs
  next hp =>
    cases hs
    have hno : ¬(s.prod p).Owes := by rw [hp]; exact id
    refine h.setProd rfl rfl rfl rfl (by rw [hp]; exact nofun) nofun fun _ _ hor => ?_
    rcases hor with he | ho
    · exact Or.inl he
    · exact Or.inr (owes_update ho fun hx => absurd hx hno)
  next => cases hs

theorem WakeInv.stepProducer (h : WakeInv s) (hi : Inv s) {p : P} (hs : s.stepProducer p = some s') : WakeInv s' := by
  unfold State.stepProducer at hs
  split at hs
  next => cases hs
  next b hp =>
    cases hs
    have hno : ¬(s.prod p).Owes := by rw [hp]; exact id
    refine h.setProd rfl rfl rfl rfl (by rw [hp]; exact nofun) nofun fun _ _ hor => Or.inr ?_
    rcases hor with he | ho
    · -- the first batch of an empty queue finds the stub
      have ht := hi.tail
      rw [he] at ht
      have hstub : s.tail = .stub := (Option.some.inj ht).symm
      refine ⟨p, ?_⟩
      change (Function.update s.prod p (.swapped b s.tail) p).Owes
      rw [Function.update_self, hstub]
      trivial
    · exact owes_update ho fun hx => absurd hx hno
  next b prev hp =>
    cases hs
    refine h.setProd rfl rfl rfl rfl (by rw [hp]; exact nofun) (by split <;> simp) fun _ _ hor => ?_
    rcases hor with he | ho
    · exact Or.inl he
    · refine Or.inr (owes_update ho ?_)
      change (s.prod p).Owes → _
      rw [hp]
      cases prev with
      | stub => exact fun _ => trivial
      | node c => exact False.elim
  next hp =>
    cases hs
    refine h.setProd rfl rfl rfl rfl (by rw [hp]; exact nofun) (by split <;> simp) fun _ hw hor => ?_
    rcases hor with he | ho
    · exact Or.inl he
    · refine Or.inr (owes_update ho fun _ => ?_)
      rw [if_pos hw]
      trivial
  next hp =>
    split at hs
    next hw =>
      cases hs
      -- the word is parked, so no claim is outstanding yet
      have hwok := h.word
      rw [hw] at hwok
      obtain ⟨hnone, hclaim, hrun⟩ := parked_unclaimed hwok
      have hfree : ¬(s.token = true ∨ ∃ q, s.prod q = .wakeSend) := fun hx => hnone (hw ▸ h.claimed.mp hx)
      have hother : ∀ q, Function.update s.prod p .wakeSend q = .wakeSend → q = p := by
        intro q hq
        by_contra he
        rw [Function.update_of_ne he] at hq
        exact hfree (Or.inr ⟨q, hq⟩)
      refine ⟨hrun, ⟨fun _ => hclaim, fun _ => Or.inr ⟨p, Function.update_self ..⟩⟩, fun ht => absurd (Or.inl ht) hfree,
        fun q r hq hr => (hother q hq).trans (hother r hr).symm, nofun⟩
    next hw =>
      cases hs
      exact h.setProd rfl rfl rfl rfl (by rw [hp]; exact nofun) nofun fun _ hw' => absurd hw' hw
  next hp =>
    split at hs
    next => cases hs
    next ht =>
      cases hs
      have hclaim : s.cons.Claimed s.word := h.claimed.mp (Or.inr ⟨p, hp⟩)
      have hgone : ∀ q, Function.update s.prod p .idle q ≠ .wakeSend := by
        intro q hq
        by_cases he : q = p
        · rw [he, Function.update_self] at hq
          exact absurd hq nofun
        · rw [Function.update_of_ne he] at hq
          exact he (h.once q p hq hp)
      refine ⟨h.word, ⟨fun _ => hclaim, fun _ => Or.inl rfl⟩, fun _ => hgone, fun q _ hq => absurd hq (hgone q), fun hc hw => ?_⟩
      have hc' : s.cons = .parked := hc
      have hw' : s.word = .parked := hw
      rw [hc', hw'] at hclaim
      exact absurd (show Word.parked = .running from hclaim) (by decide)

theorem WakeInv.step (h : WakeInv s) (hi : Inv s) {l : Label P ν} (hs : step s l = some s') : WakeInv s' := by
  cases l with
  | push p b => exact h.beginPush hs
  | producer p => exact h.stepProducer hi hs
  | consumer choice => exact h.stepConsumer hi hs

theorem Reachable.wakeInv (h : Reachable s) : WakeInv s := by
  induction h with
  | initial => exact initial_wakeInv
  | step s s' l hr _ hs ih => exact ih.step hr.inv hs

/-- In every reachable state: the batches popped are the first ones in the order of the tail swaps, and the swaps of one producer are
in the order it pushed; the cells run from the head to the tail, each linked to the next or about to be, and the stub is among them at
most once; and where the consumer is blocked with no token sent and none owed, every batch swapped in has been popped. -/
theorem queue_fifo_no_lost_wake (h : Reachable s) :
    s.popped <+: s.swaps.map Prod.snd ∧
      (∀ p, s.swaps.filter (fun e => decide (e.1 = p)) <+: s.begun.filter (fun e => decide (e.1 = p))) ∧
      (s.cells.head? = some s.head ∧ s.cells.getLast? = some s.tail ∧
        ∀ a b, [a, b] <:+: s.cells → s.next a = some b ∨ (s.next a = none ∧ Pends s.prod s.cons a b)) ∧
      s.cells.count .stub ≤ 1 ∧
      (s.cons = .parked → s.token = false → (∀ p, ¬(s.prod p).Owes) → s.popped = s.swaps.map Prod.snd) := by
  have hi := h.inv
  have hw := h.wakeInv
  refine ⟨⟨_, hi.contents.symm⟩, fun p => ⟨_, (hi.order p).symm⟩, ⟨hi.head, hi.tail, hi.spine.linked⟩,
    List.nodup_iff_count_le_one.mp hi.spine.nodup _, fun hc ht hno => ?_⟩
  have hunclaimed : ¬s.cons.Claimed s.word := by
    intro hx
    rcases hw.claimed.mpr hx with hx | ⟨p, hp⟩
    · rw [ht] at hx
      exact absurd hx (by simp)
    · exact hno p (by rw [hp]; trivial)
  have hparked : s.word = .parked := by
    have hword := hw.word
    rw [hc] at hunclaimed hword
    cases hwd : s.word with
    | parked => rfl
    | running => exact absurd hwd hunclaimed
    | spinning => exact absurd hwd hword
  rcases hw.empty hc hparked with he | ⟨p, hp⟩
  · have hcon := hi.contents
    rw [he, show [Ref.stub].filterMap Ref.batch? = ([] : List ν) from rfl, List.append_nil] at hcon
    exact hcon.symm
  · exact absurd hp (hno p)

instance (s : State Bool ν) (b : ν) : Decidable (Free s b) := inferInstanceAs (Decidable (_ ∧ _))

/-- A step whose push, if it is one, is given a free batch. -/
def freeStep [∀ (s : State P ν) b, Decidable (Free s b)] (s : State P ν) (l : Label P ν) : Option (State P ν) :=
  match l with
  | .push p b => if Free s b then s.beginPush p b else none
  | l => step s l

theorem Reachable.freeStep [∀ (s : State P ν) b, Decidable (Free s b)] (h : Reachable s) {l : Label P ν}
    (hs : HopQueue.freeStep s l = some s') : Reachable s' := by
  cases l with
  | push p b =>
    obtain ⟨hfree, hs⟩ := Option.ite_none_right_eq_some.mp hs
    refine .step s s' (.push p b) h (fun p' b' he => ?_) hs
    cases he
    exact hfree
  | producer p =>
    refine .step s s' (.producer p) h (fun _ _ he => ?_) hs
    cases he
  | consumer choice =>
    refine .step s s' (.consumer choice) h (fun _ _ he => ?_) hs
    cases he

theorem Reachable.run [∀ (s : State P ν) b, Decidable (Free s b)] (h : Reachable s) (ls : List (Label P ν))
    (hs : ls.foldlM HopQueue.freeStep s = some s') : Reachable s' := by
  induction ls generalizing s with
  | nil => cases hs; exact h
  | cons l ls ih =>
    rw [List.foldlM_cons] at hs
    obtain ⟨t, ht, hs⟩ := Option.bind_eq_some_iff.mp hs
    exact ih (h.freeStep ht) hs

/-- Two producers push two batches each while the consumer pops, and then it puts the stub back and parks. -/
def popThenPark : List (Label Bool Nat) :=
  [.push true 1, .push false 2, .producer true, .producer false, .producer false, .push false 4, .consumer true, .consumer true,
    .producer true, .producer true, .consumer true, .consumer true, .consumer true, .producer false, .push true 3, .producer true,
    .producer false, .producer true] ++ List.replicate 18 (.consumer false)

theorem popThenPark_popped : ∃ s : State Bool Nat, Reachable s ∧ s.cons = .parked ∧ s.popped = s.swaps.map Prod.snd ∧
    s.popped = [1, 2, 4, 3] := by
  obtain ⟨s, hs, hend⟩ := (Option.any_eq_true (fun s : State Bool Nat =>
      decide (s.cons = .parked ∧ s.token = false ∧ s.popped = [1, 2, 4, 3] ∧ ∀ p, s.prod p = .idle))
    (popThenPark.foldlM freeStep initial)).mp (by decide +kernel)
  obtain ⟨hc, ht, hp, hidle⟩ := of_decide_eq_true hend
  have hr := Reachable.initial.run popThenPark hs
  refine ⟨s, hr, hc, (queue_fifo_no_lost_wake hr).2.2.2.2 hc ht fun p => ?_, hp⟩
  rw [hidle p]
  exact id

end Aki.HopQueue
