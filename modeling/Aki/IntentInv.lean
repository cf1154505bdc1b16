import Aki.Intent

namespace Aki.Intent

variable {τ κ : Type} [DecidableEq τ] [DecidableEq κ]

omit [DecidableEq τ] in

inductive Txn.Coord (keys : List κ) (head : κ → Bool) (x : Txn κ) : Txn κ → Prop
  | acquire (h : x.pc = .begun) : Coord keys head x { x with pc := .check 0 }
  | headTrue (i : Nat) (k : κ) (h : x.pc = .check i) (hk : keys[i]? = some k) (hh : head k = true) :
      Coord keys head x { x with pc := .check (i + 1) }
  | headFalse (i : Nat) (k : κ) (h : x.pc = .check i) (hk : keys[i]? = some k) (hh : head k = false) :
      Coord keys head x { x with pc := .sleep }
  | allHead (i : Nat) (h : x.pc = .check i) (hk : keys[i]? = none) : Coord keys head x { x with pc := .lock 0 true }
  | wake (h : x.pc = .sleep) (hs : x.sig = true) : Coord keys head x { x with pc := .check 0, sig := false }
  | postLock (i : Nat) (ok : Bool) (k : κ) (h : x.pc = .lock i ok) (hk : keys[i]? = some k) :
      Coord keys head x { x with pc := .ack i ok, pend := Function.update x.pend k (some .lock) }
  | locked (i : Nat) (h : x.pc = .lock i true) (hk : keys[i]? = none) : Coord keys head x { x with pc := .acquired }
  | failed (i : Nat) (h : x.pc = .lock i false) (hk : keys[i]? = none) : Coord keys head x { x with pc := .unlock }
  | answer (i : Nat) (ok b : Bool) (h : x.pc = .ack i ok) (hr : x.reply = some b) :
      Coord keys head x { x with pc := .lock (i + 1) (ok && b), reply := none }
  | postUnlock (h : x.pc = .unlock) : Coord keys head x { x with pc := .unlocking 0, pend := post keys .unlock }
  | unlocked (i : Nat) (k : κ) (h : x.pc = .unlocking i) (hk : keys[i]? = some k) (hp : x.pend k = none) :
      Coord keys head x { x with pc := .unlocking (i + 1) }
  | retry (i : Nat) (h : x.pc = .unlocking i) (hk : keys[i]? = none) : Coord keys head x { x with pc := .check 0 }
  | release (h : x.pc = .acquired) : Coord keys head x { x with pc := .finished, pend := post keys .release }

theorem Txn.coord_cases {keys : List κ} {head : κ → Bool} {x y : Txn κ} (h : x.coord keys head = some y) :
    x.Coord keys head y := by
  unfold Txn.coord at h
  split at h
  next => simp at h
  next hpc => cases h; exact .acquire hpc
  next i hpc =>
    split at h
    next hk => cases h; exact .allHead i hpc hk
    next k hk =>
      cases h
      cases hh : head k with
      | true => exact .headTrue i k hpc hk hh
      | false => exact .headFalse i k hpc hk hh
  next hpc =>
    split at h
    next hs => cases h; exact .wake hpc hs
    next => simp at h
  next i ok hpc =>
    split at h
    next hk =>
      cases h
      cases ok with
      | true => exact .locked i hpc hk
      | false => exact .failed i hpc hk
    next k hk => cases h; exact .postLock i ok k hpc hk
  next i ok hpc =>
    obtain ⟨b, hb, rfl⟩ := Option.map_eq_some_iff.mp h
    exact .answer i ok b hpc hb
  next hpc => cases h; exact .postUnlock hpc
  next i hpc =>
    split at h
    next hk => cases h; exact .retry i hpc hk
    next k hk =>
      split at h
      next hp => cases h; exact .unlocked i k hpc hk hp
      next => simp at h
  next hpc => cases h; exact .release hpc
  next => simp at h

inductive Step (c : Config τ κ) (s : State τ κ) : Label τ κ → State τ κ → Prop
  | begin (t : τ) (h : (s.txn t).pc = .fresh) :
      Step c s (.begin t) (s.setTxn t { s.txn t with pc := .begun, pend := post (c.keys t) .enqueue })
  | coord (t : τ) (y : Txn κ) (h : (s.txn t).Coord (c.keys t) (fun k => (s.keyQ k).head t) y) :
      Step c s (.coord t) (s.setTxn t y)
  | apply (t : τ) (k : κ) (o : Op) (h : (s.txn t).pend k = some o) :
      Step c s (.apply t k) (s.applied t k (applyIntentOp c.ticket t (s.keyQ k) o).1 (applyIntentOp c.ticket t (s.keyQ k) o).2.1
        (applyIntentOp c.ticket t (s.keyQ k) o).2.2)

theorem step_cases {c : Config τ κ} {s s' : State τ κ} {l : Label τ κ} (h : step c s l = some s') : Step c s l s' := by
  cases l with
  | begin t =>
    obtain ⟨x, hx, rfl⟩ := Option.map_eq_some_iff.mp h
    unfold Txn.begin at hx
    split at hx
    next hpc => cases hx; exact .begin t hpc
    next => simp at hx
  | coord t =>
    obtain ⟨x, hx, rfl⟩ := Option.map_eq_some_iff.mp h
    exact .coord t x (Txn.coord_cases hx)
  | apply t k =>
    obtain ⟨o, ho, rfl⟩ := Option.map_eq_some_iff.mp h
    exact .apply t k o ho

/-- The ops in flight and the answer waiting, at each place of the coordinator. -/
def Txn.Phase (keys : List κ) (x : Txn κ) : Prop :=
  match x.pc with
  | .fresh | .lock _ _ | .unlock | .acquired => (∀ k, x.pend k = none) ∧ x.reply = none
  | .begun | .sleep => (∀ k, x.pend k = none ∨ (x.pend k = some .enqueue ∧ k ∈ keys)) ∧ x.reply = none
  | .check i => (∀ k, x.pend k = none ∨ (x.pend k = some .enqueue ∧ ∃ j, i ≤ j ∧ keys[j]? = some k)) ∧ x.reply = none
  | .ack i _ => ∃ k, keys[i]? = some k ∧ (∀ k', k' ≠ k → x.pend k' = none) ∧
      ((x.pend k = some .lock ∧ x.reply = none) ∨ (x.pend k = none ∧ x.reply.isSome = true))
  | .unlocking i => (∀ k, x.pend k = none ∨ (x.pend k = some .unlock ∧ ∃ j, i ≤ j ∧ keys[j]? = some k)) ∧ x.reply = none
  | .finished => (∀ k, x.pend k = none ∨ (x.pend k = some .release ∧ k ∈ keys)) ∧ x.reply = none

/-- The intent on `k` has reached its owner and has not been released. -/
def Txn.Placed (x : Txn κ) (k : κ) : Prop :=
  match x.pc with
  | .fresh => False
  | .finished => x.pend k ≠ none
  | _ => x.pend k ≠ some .enqueue

/-- The places of the coordinator at which the intent on `k` may be locked. -/
def Txn.Holds (x : Txn κ) (k : κ) : Prop :=
  match x.pc with
  | .lock _ _ | .ack _ _ | .unlock | .acquired => True
  | .unlocking _ => x.pend k = some .unlock
  | .finished => x.pend k = some .release
  | _ => False

section Local

variable {keys : List κ} {head : κ → Bool} {x y : Txn κ}

theorem post_cases (keys : List κ) (o : Op) (k : κ) : post keys o k = none ∨ (post keys o k = some o ∧ k ∈ keys) := by
  unfold post
  split
  next h => exact Or.inr ⟨rfl, h⟩
  next => exact Or.inl rfl

theorem post_of_mem {o : Op} {k : κ} (h : k ∈ keys) : post keys o k = some o := if_pos h

theorem Txn.Phase.begin (h : x.Phase keys) (hpc : x.pc = .fresh) :
    ({ x with pc := .begun, pend := post keys .enqueue } : Txn κ).Phase keys := by
  unfold Txn.Phase at h
  rw [hpc] at h
  exact ⟨post_cases keys .enqueue, h.2⟩

theorem Txn.Phase.coord (h : x.Phase keys) (hplaced : ∀ k, head k = true → x.Placed k) (hs : x.Coord keys head y) :
    y.Phase keys := by
  unfold Txn.Phase at h
  cases hs with
  | acquire hpc =>
    rw [hpc] at h
    refine ⟨fun k => (h.1 k).imp id fun hk => ⟨hk.1, ?_⟩, h.2⟩
    obtain ⟨j, hj⟩ := List.getElem?_of_mem hk.2
    exact ⟨j, Nat.zero_le j, hj⟩
  | headTrue i k hpc hk hh =>
    rw [hpc] at h
    refine ⟨fun k' => (h.1 k').imp id fun ⟨ho, j, hij, hj⟩ => ⟨ho, j, ?_, hj⟩, h.2⟩
    -- the flag just read was up, so that intent's enqueue has been applied
    rcases Nat.lt_or_eq_of_le hij with hlt | rfl
    · exact hlt
    · obtain rfl : k = k' := Option.some.inj (hk.symm.trans hj)
      have := hplaced k hh
      unfold Txn.Placed at this
      rw [hpc] at this
      exact absurd ho this
  | headFalse i k hpc =>
    rw [hpc] at h
    exact ⟨fun k' => (h.1 k').imp id fun ⟨ho, j, _, hj⟩ => ⟨ho, List.mem_of_getElem? hj⟩, h.2⟩
  | allHead i hpc hk =>
    rw [hpc] at h
    refine ⟨fun k => (h.1 k).resolve_right ?_, h.2⟩
    rintro ⟨-, j, hij, hj⟩
    have hi := List.getElem?_eq_none_iff.mp hk
    obtain ⟨hlt, -⟩ := List.getElem?_eq_some_iff.mp hj
    omega
  | wake hpc =>
    rw [hpc] at h
    refine ⟨fun k => (h.1 k).imp id fun hk => ⟨hk.1, ?_⟩, h.2⟩
    obtain ⟨j, hj⟩ := List.getElem?_of_mem hk.2
    exact ⟨j, Nat.zero_le j, hj⟩
  | postLock i ok k hpc hk =>
    rw [hpc] at h
    refine ⟨k, hk, fun k' hne => ?_, Or.inl ⟨Function.update_self _ _ _, h.2⟩⟩
    exact (Function.update_of_ne hne _ _).trans (h.1 k')
  | locked i hpc | failed i hpc => rw [hpc] at h; exact h
  | answer i ok b hpc hr =>
    rw [hpc] at h
    obtain ⟨k, -, hne, hlock | hnone⟩ := h
    · rw [hr] at hlock; exact absurd hlock.2 (by simp)
    · refine ⟨fun k' => ?_, rfl⟩
      by_cases hk' : k' = k
      · subst hk'; exact hnone.1
      · exact hne k' hk'
  | postUnlock hpc =>
    rw [hpc] at h
    refine ⟨fun k => (post_cases keys .unlock k).imp id fun hk => ⟨hk.1, ?_⟩, h.2⟩
    obtain ⟨j, hj⟩ := List.getElem?_of_mem hk.2
    exact ⟨j, Nat.zero_le j, hj⟩
  | unlocked i k hpc hk hp =>
    rw [hpc] at h
    refine ⟨fun k' => (h.1 k').imp id fun ⟨ho, j, hij, hj⟩ => ⟨ho, j, ?_, hj⟩, h.2⟩
    rcases Nat.lt_or_eq_of_le hij with hlt | rfl
    · exact hlt
    · obtain rfl : k = k' := Option.some.inj (hk.symm.trans hj)
      exact absurd (hp.symm.trans ho) (by simp)
  | retry i hpc hk =>
    rw [hpc] at h
    refine ⟨fun k => Or.inl ((h.1 k).resolve_right ?_), h.2⟩
    rintro ⟨-, j, hij, hj⟩
    have hi := List.getElem?_eq_none_iff.mp hk
    obtain ⟨hlt, -⟩ := List.getElem?_eq_some_iff.mp hj
    omega
  | release hpc =>
    rw [hpc] at h
    exact ⟨post_cases keys .release, h.2⟩

theorem Txn.Coord.placed (h : x.Phase keys) (hs : x.Coord keys head y) {k : κ} (hk : k ∈ keys) : y.Placed k ↔ x.Placed k := by
  unfold Txn.Phase at h
  unfold Txn.Placed
  cases hs with
  | acquire hpc | headTrue _ _ hpc | headFalse _ _ hpc | allHead _ hpc | wake hpc | locked _ hpc | failed _ hpc | answer _ _ _ hpc
  | unlocked _ _ hpc | retry _ hpc => simp only [hpc]
  | postLock i ok k' hpc =>
    simp only [hpc] at h ⊢
    by_cases hkk : k = k'
    · simp [hkk, h.1]
    · simp [Function.update_of_ne hkk]
  | postUnlock hpc | release hpc =>
    simp only [hpc] at h ⊢
    simp [post_of_mem hk, h.1]

theorem Txn.Coord.holds (h : x.Phase keys) (hs : x.Coord keys head y) {k : κ} (hk : k ∈ keys) (hx : x.Holds k) : y.Holds k := by
  unfold Txn.Phase at h
  unfold Txn.Holds at hx ⊢
  cases hs with
  | acquire hpc | headTrue _ _ hpc | headFalse _ _ hpc | allHead _ hpc | wake hpc => simp [hpc] at hx
  | locked _ hpc | failed _ hpc | answer _ _ _ hpc | postLock _ _ _ hpc => trivial
  | unlocked i k' hpc hk' hp => simpa only [hpc] using hx
  | retry i hpc hk' =>
    simp only [hpc] at h hx
    rcases h.1 k with hn | ⟨-, j, hij, hj⟩
    · rw [hx] at hn; simp at hn
    · have hi := List.getElem?_eq_none_iff.mp hk'
      obtain ⟨hlt, -⟩ := List.getElem?_eq_some_iff.mp hj
      omega
  | postUnlock hpc | release hpc => exact post_of_mem hk

theorem Txn.Phase.pend (h : x.Phase keys) {k : κ} {o : Op} (ho : x.pend k = some o) :
    k ∈ keys ∧ ((o = .enqueue ∧ (x.pc = .begun ∨ x.pc = .sleep ∨ ∃ i, x.pc = .check i)) ∨
      (o = .lock ∧ x.reply = none ∧ ∃ i ok, x.pc = .ack i ok ∧ keys[i]? = some k) ∨
      (o = .unlock ∧ ∃ i, x.pc = .unlocking i) ∨ (o = .release ∧ x.pc = .finished)) := by
  unfold Txn.Phase at h
  cases hpc : x.pc with
  | fresh | lock | unlock | acquired => rw [hpc] at h; simp [h.1 k] at ho
  | begun | sleep =>
    rw [hpc] at h
    rcases h.1 k with hn | ⟨he, hk⟩
    · simp [hn] at ho
    · rw [he] at ho; cases ho; simp [hk]
  | check i =>
    rw [hpc] at h
    rcases h.1 k with hn | ⟨he, j, -, hj⟩
    · simp [hn] at ho
    · rw [he] at ho; cases ho; simp [List.mem_of_getElem? hj]
  | ack i ok =>
    rw [hpc] at h
    obtain ⟨k', hk', hne, hcase⟩ := h
    by_cases hkk : k = k'
    · subst hkk
      rcases hcase with ⟨hl, hr⟩ | ⟨hn, -⟩
      · rw [hl] at ho; cases ho; simp [hk', hr, List.mem_of_getElem? hk']
      · simp [hn] at ho
    · simp [hne k hkk] at ho
  | unlocking i =>
    rw [hpc] at h
    rcases h.1 k with hn | ⟨he, j, -, hj⟩
    · simp [hn] at ho
    · rw [he] at ho; cases ho; simp [List.mem_of_getElem? hj]
  | finished =>
    rw [hpc] at h
    rcases h.1 k with hn | ⟨he, hk⟩
    · simp [hn] at ho
    · rw [he] at ho; cases ho; simp [hk]

theorem Txn.served_pend (x : Txn κ) (k k' : κ) (a : Option Bool) :
    (x.served k a).pend k' = none ∨ (k' ≠ k ∧ (x.served k a).pend k' = x.pend k') := by
  by_cases hk : k' = k
  · exact Or.inl (by simp [Txn.served, hk])
  · exact Or.inr ⟨hk, Function.update_of_ne hk _ _⟩

theorem Txn.Phase.served (h : x.Phase keys) {k : κ} {o : Op} {a : Option Bool} (ho : x.pend k = some o)
    (ha : a.isSome = true ↔ o = .lock) : (x.served k a).Phase keys := by
  have hmono : ∀ {o' : Op} {P : κ → Prop}, (∀ k', x.pend k' = none ∨ (x.pend k' = some o' ∧ P k')) →
      ∀ k', (x.served k a).pend k' = none ∨ ((x.served k a).pend k' = some o' ∧ P k') := by
    intro o' P hall k'
    rcases x.served_pend k k' a with hn | ⟨-, he⟩
    · exact Or.inl hn
    · rw [he]; exact hall k'
  obtain ⟨hk, hcase⟩ := h.pend ho
  unfold Txn.Phase at h ⊢
  change match x.pc with
    | .fresh | .lock _ _ | .unlock | .acquired => _
    | .begun | .sleep => _
    | .check i => _
    | .ack i _ => _
    | .unlocking i => _
    | .finished => _
  rcases hcase with ⟨rfl, hpc⟩ | ⟨rfl, hr, i, ok, hpc, hi⟩ | ⟨rfl, i, hpc⟩ | ⟨rfl, hpc⟩
  · have ha' : a = none := by cases a <;> simp_all
    subst ha'
    rcases hpc with hpc | hpc | ⟨i, hpc⟩ <;> rw [hpc] at h ⊢ <;> exact ⟨hmono h.1, h.2⟩
  · obtain ⟨b, rfl⟩ := Option.isSome_iff_exists.mp (ha.mpr rfl)
    rw [hpc] at h ⊢
    obtain ⟨k', hk', hne, -⟩ := h
    obtain rfl : k = k' := Option.some.inj (hi.symm.trans hk')
    refine ⟨k, hk', fun k' hkk => ?_, Or.inr ⟨?_, rfl⟩⟩
    · exact (Function.update_of_ne hkk _ _).trans (hne k' hkk)
    · exact Function.update_self _ _ _
  · have ha' : a = none := by cases a <;> simp_all
    subst ha'
    rw [hpc] at h ⊢
    exact ⟨hmono h.1, h.2⟩
  · have ha' : a = none := by cases a <;> simp_all
    subst ha'
    rw [hpc] at h ⊢
    exact ⟨hmono h.1, h.2⟩

theorem Txn.poke_placed (x : Txn κ) (b : Bool) (k : κ) : (x.poke b).Placed k ↔ x.Placed k := Iff.rfl

theorem Txn.poke_holds (x : Txn κ) (b : Bool) (k : κ) : (x.poke b).Holds k ↔ x.Holds k := Iff.rfl

theorem Txn.served_placed_ne (x : Txn κ) {k k' : κ} (a : Option Bool) (h : k' ≠ k) :
    (x.served k a).Placed k' ↔ x.Placed k' := by
  simp only [Txn.Placed, Txn.served, Function.update_of_ne h]

theorem Txn.served_holds_ne (x : Txn κ) {k k' : κ} (a : Option Bool) (h : k' ≠ k) :
    (x.served k a).Holds k' ↔ x.Holds k' := by
  simp only [Txn.Holds, Txn.served, Function.update_of_ne h]

end Local

structure Inv (c : Config τ κ) (s : State τ κ) : Prop where
  ok : ∀ k, (s.keyQ k).Ok c.ticket
  mem : ∀ t k, t ∈ (s.keyQ k).list ↔ k ∈ c.keys t ∧ (s.txn t).Placed k
  phase : ∀ t, (s.txn t).Phase (c.keys t)
  holds : ∀ t k, (s.keyQ k).locked t = true → (s.txn t).Holds k
  /-- A coordinator blocked without a pending poke still misses a head. -/
  awake : ∀ t, (s.txn t).pc = .sleep → (s.txn t).sig = false → ∃ k ∈ c.keys t, (s.keyQ k).head t = false

theorem init_inv (c : Config τ κ) : Inv c init where
  ok := fun _ => KeyList.Ok.empty
  mem := fun t k => by simp [init, KeyList.empty, Txn.Placed, Txn.new]
  phase := fun t => ⟨fun _ => rfl, rfl⟩
  holds := fun t k h => by simp [init, KeyList.empty] at h
  awake := fun t h => by simp [init, Txn.new] at h

section Owner

variable {ticket : τ → Nat} {q : KeyList τ} {t u : τ}

theorem applyIntentOp_ok (h : q.Ok ticket) {o : Op} (ht : o = .enqueue → t ∉ q.list) : (applyIntentOp ticket t q o).1.Ok ticket := by
  cases o with
  | enqueue => exact h.enqueueIntent (ht rfl)
  | lock => exact h.lockIntent t
  | unlock => exact h.unlockIntent t
  | release => exact h.releaseIntent t

theorem applyIntentOp_mem_ne (ticket : τ → Nat) (q : KeyList τ) (o : Op) (hut : u ≠ t) :
    u ∈ (applyIntentOp ticket t q o).1.list ↔ u ∈ q.list := by
  cases o with
  | enqueue => simp [applyIntentOp, enqueueIntent_mem, hut]
  | lock => simp [applyIntentOp]
  | unlock => simp [applyIntentOp, unlockIntent_mem]
  | release => simp [applyIntentOp, releaseIntent_list, List.mem_erase_of_ne hut]

theorem applyIntentOp_mem_self (h : q.Ok ticket) (o : Op) :
    t ∈ (applyIntentOp ticket t q o).1.list ↔ o = .enqueue ∨ (o ≠ .release ∧ t ∈ q.list) := by
  cases o with
  | enqueue => simp [applyIntentOp, enqueueIntent_mem]
  | lock => simp [applyIntentOp]
  | unlock => simp [applyIntentOp, unlockIntent_mem]
  | release => simp [applyIntentOp, releaseIntent_list, h.nodup.mem_erase_iff]

theorem applyIntentOp_locked_ne (h : q.Ok ticket) {o : Op} (hut : u ≠ t) :
    (applyIntentOp ticket t q o).1.locked u = true ↔ q.locked u = true := by
  cases o with
  | enqueue => simp [applyIntentOp]
  | lock =>
    refine ⟨fun hl => ?_, lockIntent_keeps⟩
    rcases lockIntent_locked hl with hl | ⟨rfl, -⟩
    · exact hl
    · exact absurd rfl hut
  | unlock => simp [applyIntentOp, unlockIntent_locked ticket t u h.member, hut]
  | release => simp [applyIntentOp, releaseIntent_locked t u h.member, hut]

theorem applyIntentOp_locked_self (h : q.Ok ticket) {o : Op} (hl : (applyIntentOp ticket t q o).1.locked t = true) :
    o = .lock ∨ (o = .enqueue ∧ q.locked t = true) := by
  cases o with
  | enqueue => exact Or.inr ⟨rfl, by simpa [applyIntentOp] using hl⟩
  | lock => exact Or.inl rfl
  | unlock => simp [applyIntentOp, unlockIntent_locked ticket t t h.member] at hl
  | release => simp [applyIntentOp, releaseIntent_locked t t h.member] at hl

theorem applyIntentOp_pokes (o : Op) (hu : (applyIntentOp ticket t q o).1.head u = true) (h : q.head u = false) :
    u ∈ (applyIntentOp ticket t q o).2.1 := by
  cases o with
  | enqueue => exact publishHead_pokes _ hu h
  | lock =>
    have : (lockIntent t q).1.head = q.head := by unfold lockIntent; split <;> rfl
    rw [show (applyIntentOp ticket t q .lock).1.head u = (lockIntent t q).1.head u from rfl, this, h] at hu
    exact absurd hu (by simp)
  | unlock =>
    change u ∈ (unlockIntent ticket t q).2
    change (unlockIntent ticket t q).1.head u = true at hu
    unfold unlockIntent at hu ⊢
    split
    next hn => rw [if_pos hn, h] at hu; exact absurd hu (by simp)
    next hn => rw [if_neg hn] at hu; exact publishHead_pokes _ hu h
  | release =>
    change u ∈ (releaseIntent t q).2
    change (releaseIntent t q).1.head u = true at hu
    have hcut : Function.update q.head t false u = false := by
      by_cases hut : u = t
      · simp [hut]
      · rw [Function.update_of_ne hut]; exact h
    unfold releaseIntent at hu ⊢
    split
    next hn => rw [if_pos hn, h] at hu; exact absurd hu (by simp)
    next hn =>
      rw [if_neg hn] at hu
      dsimp only at hu ⊢
      split
      next hn' =>
        rw [if_pos hn'] at hu
        exact absurd (hcut.symm.trans hu) (by simp)
      next hn' => rw [if_neg hn'] at hu; exact publishHead_pokes _ hu hcut

theorem applyIntentOp_answer (o : Op) : (applyIntentOp ticket t q o).2.2.isSome = true ↔ o = .lock := by
  cases o <;> simp [applyIntentOp]

end Owner

variable {c : Config τ κ} {s s' : State τ κ}

@[simp] theorem setTxn_self (s : State τ κ) (t : τ) (y : Txn κ) : (s.setTxn t y).txn t = y := Function.update_self _ _ _

theorem setTxn_ne (s : State τ κ) {t u : τ} (y : Txn κ) (h : u ≠ t) : (s.setTxn t y).txn u = s.txn u := Function.update_of_ne h _ _

@[simp] theorem setTxn_keyQ (s : State τ κ) (t : τ) (y : Txn κ) : (s.setTxn t y).keyQ = s.keyQ := rfl

theorem Inv.setTxn (h : Inv c s) (t : τ) {y : Txn κ} (hphase : y.Phase (c.keys t))
    (hplaced : ∀ k ∈ c.keys t, (y.Placed k ↔ (s.txn t).Placed k))
    (hholds : ∀ k ∈ c.keys t, (s.txn t).Holds k → y.Holds k)
    (hawake : y.pc = .sleep → y.sig = false → ∃ k ∈ c.keys t, (s.keyQ k).head t = false) : Inv c (s.setTxn t y) where
  ok := h.ok
  mem := fun u k => by
    by_cases hu : u = t
    · subst hu
      rw [setTxn_self, setTxn_keyQ, h.mem]
      exact and_congr_right fun hk => (hplaced k hk).symm
    · rw [setTxn_ne _ _ hu]
      exact h.mem u k
  phase := fun u => by
    by_cases hu : u = t
    · subst hu
      rw [setTxn_self]
      exact hphase
    · rw [setTxn_ne _ _ hu]
      exact h.phase u
  holds := fun u k hl => by
    by_cases hu : u = t
    · subst hu
      rw [setTxn_self]
      exact hholds k ((h.mem u k).mp ((h.ok k).member u hl)).1 (h.holds u k hl)
    · rw [setTxn_ne _ _ hu]
      exact h.holds u k hl
  awake := fun u hpc hsig => by
    by_cases hu : u = t
    · subst hu
      rw [setTxn_self] at hpc hsig
      exact hawake hpc hsig
    · rw [setTxn_ne _ _ hu] at hpc hsig
      exact h.awake u hpc hsig

theorem Inv.head_placed (h : Inv c s) {t : τ} {k : κ} (hh : (s.keyQ k).head t = true) : (s.txn t).Placed k :=
  ((h.mem t k).mp (List.mem_of_mem_head? (((h.ok k).head_iff t).mp hh))).2

theorem Inv.begin (h : Inv c s) {t : τ} (hpc : (s.txn t).pc = .fresh) :
    Inv c (s.setTxn t { s.txn t with pc := .begun, pend := post (c.keys t) .enqueue }) := by
  refine h.setTxn t ((h.phase t).begin hpc) (fun k hk => ?_) (fun k hk hh => ?_) nofun
  · simp [Txn.Placed, hpc, post_of_mem hk]
  · simp [Txn.Holds, hpc] at hh

theorem Inv.coord (h : Inv c s) {t : τ} {y : Txn κ} (hy : (s.txn t).Coord (c.keys t) (fun k => (s.keyQ k).head t) y) :
    Inv c (s.setTxn t y) := by
  refine h.setTxn t ((h.phase t).coord (fun k hh => h.head_placed hh) hy) (fun k hk => hy.placed (h.phase t) hk)
    (fun k hk => hy.holds (h.phase t) hk) fun hpc _ => ?_
  -- it goes to sleep on a flag it read down
  cases hy with
  | headFalse i k _ hk hh => exact ⟨k, List.mem_of_getElem? hk, hh⟩
  | _ => simp at hpc

@[simp] theorem applied_pc (s : State τ κ) (t u : τ) (k : κ) (q : KeyList τ) (p : List τ) (a : Option Bool) :
    ((s.applied t k q p a).txn u).pc = (s.txn u).pc := by
  by_cases hu : u = t
  · subst hu; simp [State.applied, Txn.poke, Txn.served]
  · simp [State.applied, Txn.poke, Function.update_of_ne hu]

theorem applied_txn_ne (s : State τ κ) {t u : τ} (k : κ) (q : KeyList τ) (p : List τ) (a : Option Bool) (h : u ≠ t) :
    (s.applied t k q p a).txn u = (s.txn u).poke (decide (u ∈ p)) := by
  simp [State.applied, Function.update_of_ne h]

theorem applied_txn_self (s : State τ κ) (t : τ) (k : κ) (q : KeyList τ) (p : List τ) (a : Option Bool) :
    (s.applied t k q p a).txn t = ((s.txn t).served k a).poke (decide (t ∈ p)) := by
  simp [State.applied]

theorem applied_sig (s : State τ κ) (t u : τ) (k : κ) (q : KeyList τ) (p : List τ) (a : Option Bool) :
    ((s.applied t k q p a).txn u).sig = ((s.txn u).sig || decide (u ∈ p)) := by
  by_cases hu : u = t
  · subst hu; simp [State.applied, Txn.poke, Txn.served]
  · simp [State.applied, Txn.poke, Function.update_of_ne hu]

theorem applied_keyQ_ne (s : State τ κ) (t : τ) {k k' : κ} (q : KeyList τ) (p : List τ) (a : Option Bool) (h : k' ≠ k) :
    (s.applied t k q p a).keyQ k' = s.keyQ k' :=
  Function.update_of_ne h _ _

@[simp] theorem applied_keyQ_self (s : State τ κ) (t : τ) (k : κ) (q : KeyList τ) (p : List τ) (a : Option Bool) :
    (s.applied t k q p a).keyQ k = q :=
  Function.update_self _ _ _

theorem Inv.enqueue_absent (h : Inv c s) {t : τ} {k : κ} (hp : (s.txn t).pend k = some .enqueue) : t ∉ (s.keyQ k).list := by
  intro hm
  have hplaced := ((h.mem t k).mp hm).2
  obtain ⟨-, ⟨-, hpc⟩ | ⟨h', -⟩ | ⟨h', -⟩ | ⟨h', -⟩⟩ := (h.phase t).pend hp
  · unfold Txn.Placed at hplaced
    rcases hpc with hpc | hpc | ⟨i, hpc⟩ <;> rw [hpc] at hplaced <;> exact hplaced hp
  all_goals simp at h'

theorem Inv.apply (h : Inv c s) {t : τ} {k : κ} {o : Op} (ho : (s.txn t).pend k = some o) :
    Inv c (s.applied t k (applyIntentOp c.ticket t (s.keyQ k) o).1 (applyIntentOp c.ticket t (s.keyQ k) o).2.1
        (applyIntentOp c.ticket t (s.keyQ k) o).2.2) := by
  have hself := h.phase t
  obtain ⟨hk, hcase⟩ := hself.pend ho
  refine ⟨fun k' => ?_, fun u k' => ?_, fun u => ?_, fun u k' hl => ?_, fun u hpc hsig => ?_⟩
  · by_cases hkk : k' = k
    · subst hkk
      rw [applied_keyQ_self]
      exact applyIntentOp_ok (h.ok _) fun he => h.enqueue_absent (he ▸ ho)
    · rw [applied_keyQ_ne _ _ _ _ _ hkk]; exact h.ok k'
  · by_cases hut : u = t
    · subst hut
      rw [applied_txn_self]
      rw [Txn.poke_placed]
      by_cases hkk : k' = k
      · subst hkk
        rw [applied_keyQ_self, applyIntentOp_mem_self (h.ok k'), h.mem u k']
        unfold Txn.Placed
        rcases hcase with ⟨rfl, hpc⟩ | ⟨rfl, -, i, ok, hpc, -⟩ | ⟨rfl, i, hpc⟩ | ⟨rfl, hpc⟩
        · rcases hpc with hpc | hpc | ⟨i, hpc⟩ <;> simp [Txn.served, hpc, hk]
        · simp [Txn.served, hpc, hk, ho]
        · simp [Txn.served, hpc, hk, ho]
        · simp [Txn.served, hpc]
      · rw [applied_keyQ_ne _ _ _ _ _ hkk, Txn.served_placed_ne _ _ hkk]
        exact h.mem u k'
    · rw [applied_txn_ne _ _ _ _ _ hut]
      rw [Txn.poke_placed]
      by_cases hkk : k' = k
      · subst hkk
        rw [applied_keyQ_self, applyIntentOp_mem_ne _ _ _ hut]
        exact h.mem u k'
      · rw [applied_keyQ_ne _ _ _ _ _ hkk]; exact h.mem u k'
  · by_cases hut : u = t
    · subst hut
      rw [applied_txn_self]
      exact hself.served ho (applyIntentOp_answer o)
    · rw [applied_txn_ne _ _ _ _ _ hut]
      exact h.phase u
  · by_cases hut : u = t
    · subst hut
      rw [applied_txn_self]
      rw [Txn.poke_holds]
      by_cases hkk : k' = k
      · subst hkk
        rw [applied_keyQ_self] at hl
        rcases applyIntentOp_locked_self (h.ok k') hl with rfl | ⟨rfl, hlock⟩
        · rcases hcase with ⟨h', -⟩ | ⟨-, -, i, ok, hpc, -⟩ | ⟨h', -⟩ | ⟨h', -⟩ <;> try simp at h'
          simp [Txn.Holds, Txn.served, hpc]
        · exact absurd ((h.ok k').member u hlock) (h.enqueue_absent ho)
      · rw [applied_keyQ_ne _ _ _ _ _ hkk] at hl
        exact (Txn.served_holds_ne _ _ hkk).mpr (h.holds u k' hl)
    · rw [applied_txn_ne _ _ _ _ _ hut]
      rw [Txn.poke_holds]
      refine h.holds u k' ?_
      by_cases hkk : k' = k
      · subst hkk
        rw [applied_keyQ_self] at hl
        exact (applyIntentOp_locked_ne (h.ok k') hut).mp hl
      · rwa [applied_keyQ_ne _ _ _ _ _ hkk] at hl
  · rw [applied_pc] at hpc
    rw [applied_sig, Bool.or_eq_false_iff, decide_eq_false_iff_not] at hsig
    obtain ⟨k', hk', hf⟩ := h.awake u hpc hsig.1
    refine ⟨k', hk', ?_⟩
    by_cases hkk : k' = k
    · subst hkk
      rw [applied_keyQ_self, ← Bool.not_eq_true]
      exact fun hup => hsig.2 (applyIntentOp_pokes o hup hf)
    · rw [applied_keyQ_ne _ _ _ _ _ hkk]; exact hf

theorem Inv.step (h : Inv c s) {l : Label τ κ} (hs : Intent.step c s l = some s') : Inv c s' := by
  cases step_cases hs with
  | begin t hpc => exact h.begin hpc
  | coord t y hy => exact h.coord hy
  | apply t k o ho => exact h.apply ho

theorem run_inv {c : Config τ κ} {ls : List (Label τ κ)} {s s' : State τ κ} (h : Inv c s) (hr : run c s ls = some s') :
    Inv c s' := by
  induction ls generalizing s with
  | nil => cases hr; exact h
  | cons l ls ih =>
    unfold run at hr
    rw [List.foldlM_cons] at hr
    obtain ⟨m, hm, hr⟩ := Option.bind_eq_some_iff.mp hr
    exact ih (h.step hm) hr

variable {τ κ : Type} [DecidableEq τ] [DecidableEq κ]

/-- The intents whose lock was answered with true are locked. -/
def Txn.Gained (keys : List κ) (locked : κ → Bool) (x : Txn κ) : Prop :=
  match x.pc with
  | .lock i ok => ok = true → ∀ j k, j < i → keys[j]? = some k → locked k = true
  | .ack i ok => (ok = true → ∀ j k, j < i → keys[j]? = some k → locked k = true) ∧
      (x.reply = some true → ∀ k, keys[i]? = some k → locked k = true)
  | .acquired => ∀ k ∈ keys, locked k = true
  | _ => True

section Local

variable {keys : List κ} {head locked : κ → Bool} {x y : Txn κ}

omit [DecidableEq κ] in
theorem Txn.Gained.mono {locked' : κ → Bool} (h : x.Gained keys locked) (hl : ∀ k, locked k = true → locked' k = true) :
    x.Gained keys locked' := by
  unfold Txn.Gained at h ⊢
  cases hpc : x.pc with
  | lock i ok => rw [hpc] at h; exact fun hok j k hj hk => hl k (h hok j k hj hk)
  | ack i ok => rw [hpc] at h; exact ⟨fun hok j k hj hk => hl k (h.1 hok j k hj hk), fun hr k hk => hl k (h.2 hr k hk)⟩
  | acquired => rw [hpc] at h; exact fun k hk => hl k (h k hk)
  | _ => trivial

theorem Txn.Gained.coord (h : x.Gained keys locked) (hp : x.Phase keys) (hs : x.Coord keys head y) : y.Gained keys locked := by
  unfold Txn.Gained at h
  unfold Txn.Phase at hp
  cases hs with
  | allHead => exact fun _ j k hj => absurd hj (Nat.not_lt_zero j)
  | postLock i ok k hpc hk =>
    rw [hpc] at h hp
    refine ⟨h, fun hr => absurd (hp.2.symm.trans hr) (by simp)⟩
  | locked i hpc hk =>
    rw [hpc] at h
    intro k hkm
    obtain ⟨j, hj⟩ := List.getElem?_of_mem hkm
    have hi := List.getElem?_eq_none_iff.mp hk
    obtain ⟨hlt, -⟩ := List.getElem?_eq_some_iff.mp hj
    exact h rfl j k (by omega) hj
  | answer i ok b hpc hr =>
    rw [hpc] at h
    intro hok j k hj hk
    obtain ⟨rfl, rfl⟩ : ok = true ∧ b = true := by simpa using hok
    rcases Nat.lt_or_eq_of_le (Nat.le_of_lt_succ hj) with hlt | rfl
    · exact h.1 rfl j k hlt hk
    · exact h.2 hr k hk
  | _ => trivial

end Local

def Gains (c : Config τ κ) (s : State τ κ) : Prop := ∀ t, (s.txn t).Gained (c.keys t) (fun k => (s.keyQ k).locked t)

variable {c : Config τ κ} {s s' : State τ κ}

theorem Gains.apply (h : Gains c s) (hi : Inv c s) {t : τ} {k : κ} {o : Op} (ho : (s.txn t).pend k = some o) :
    Gains c (s.applied t k (applyIntentOp c.ticket t (s.keyQ k) o).1 (applyIntentOp c.ticket t (s.keyQ k) o).2.1
        (applyIntentOp c.ticket t (s.keyQ k) o).2.2) := by
  intro u
  by_cases hut : u = t
  · subst hut
    rw [applied_txn_self]
    change ((s.txn u).served k (applyIntentOp c.ticket u (s.keyQ k) o).2.2).Gained _ _
    unfold Txn.Gained
    change match (s.txn u).pc with
      | .lock i ok => _
      | .ack i ok => _
      | .acquired => _
      | _ => _
    obtain ⟨-, ⟨-, hpc⟩ | ⟨rfl, hr, i, ok, hpc, hk⟩ | ⟨-, i, hpc⟩ | ⟨-, hpc⟩⟩ := (hi.phase u).pend ho
    · rcases hpc with hpc | hpc | ⟨i, hpc⟩ <;> rw [hpc] <;> trivial
    · -- the lock's own answer: the other locks stand, and this one stands when the answer is true
      have hkeep : ∀ k', (s.keyQ k').locked u = true → ((s.applied u k (applyIntentOp c.ticket u (s.keyQ k) .lock).1
          (applyIntentOp c.ticket u (s.keyQ k) .lock).2.1 (applyIntentOp c.ticket u (s.keyQ k) .lock).2.2).keyQ k').locked u = true := by
        intro k' hl
        by_cases hkk : k' = k
        · subst hkk; rw [applied_keyQ_self]; exact lockIntent_keeps hl
        · rw [applied_keyQ_ne _ _ _ _ _ hkk]; exact hl
      have hg := h u
      unfold Txn.Gained at hg
      rw [hpc] at hg ⊢
      refine ⟨fun hok j k' hj hk' => hkeep k' (hg.1 hok j k' hj hk'), fun htrue k' hk' => ?_⟩
      obtain rfl : k = k' := Option.some.inj (hk.symm.trans hk')
      dsimp only
      rw [applied_keyQ_self]
      exact (lockIntent_true (by simpa [Txn.served, applyIntentOp] using htrue)).2
    · rw [hpc]; trivial
    · rw [hpc]; trivial
  · rw [applied_txn_ne _ _ _ _ _ hut]
    refine (h u).mono fun k' hl => ?_
    by_cases hkk : k' = k
    · subst hkk; rw [applied_keyQ_self]; exact (applyIntentOp_locked_ne (hi.ok k') hut).mpr hl
    · rw [applied_keyQ_ne _ _ _ _ _ hkk]; exact hl

theorem Gains.step (h : Gains c s) (hi : Inv c s) {l : Label τ κ} (hs : Intent.step c s l = some s') : Gains c s' := by
  cases step_cases hs with
  | begin t hpc =>
    intro u
    by_cases hut : u = t
    · subst hut
      rw [setTxn_self]
      trivial
    · rw [setTxn_ne _ _ hut]
      exact h u
  | coord t y hy =>
    intro u
    by_cases hut : u = t
    · subst hut
      rw [setTxn_self]
      exact (h u).coord (hi.phase u) hy
    · rw [setTxn_ne _ _ hut]
      exact h u
  | apply t k o ho => exact h.apply hi ho

/-- Every locked intent of the queue is its front. -/
def KeyList.Pinned (q : KeyList τ) : Prop := ∀ u, q.locked u = true → q.front = some u

/-- Re-sorting does not move the locked front of another transaction. -/
def SortSafe (ticket : τ → Nat) (t : τ) (q : KeyList τ) : Prop :=
  ∀ f ∈ q.list.head?, f ≠ t → q.locked f = true → ∀ u ∈ q.list, ticket f ≤ ticket u

instance (ticket : τ → Nat) (t : τ) (q : KeyList τ) : Decidable (SortSafe ticket t q) :=
  inferInstanceAs (Decidable (∀ f ∈ q.list.head?, f ≠ t → q.locked f = true → ∀ u ∈ q.list, ticket f ≤ ticket u))

section Owner

variable {ticket : τ → Nat} {q : KeyList τ} {t : τ}

omit [DecidableEq τ] in
theorem place_pinned (t : τ) {locked : τ → Bool} {l : List τ} {f : τ} (hf : l.head? = some f) (hl : locked f = true) :
    (place ticket t locked l).head? = some f := by
  cases l with
  | nil => simp at hf
  | cons g rest =>
    obtain rfl : g = f := by simpa using hf
    simp [place, hl]

omit [DecidableEq τ] in
theorem sorted_head (hu : Function.Injective ticket) {l : List τ} (hs : l.Pairwise (fun a b => ticket a ≤ ticket b)) {f : τ}
    (hf : f ∈ l) (hmin : ∀ u ∈ l, ticket f ≤ ticket u) : l.head? = some f := by
  cases l with
  | nil => simp at hf
  | cons g rest =>
    rcases List.mem_cons.mp hf with rfl | hr
    · rfl
    · have hg := (List.pairwise_cons.mp hs).1 f hr
      rw [hu (Nat.le_antisymm hg (hmin g (by simp)))]
      rfl

theorem erase_head {l : List τ} {f t : τ} (hf : l.head? = some f) (hne : f ≠ t) : (l.erase t).head? = some f := by
  cases l with
  | nil => simp at hf
  | cons g rest =>
    obtain rfl : g = f := by simpa using hf
    rw [List.erase_cons_tail (by simpa using hne)]
    rfl

theorem KeyList.Pinned.apply (h : q.Pinned) (hok : q.Ok ticket) (hu : Function.Injective ticket) {o : Op}
    (hfit : o = .unlock → SortSafe ticket t q) : (applyIntentOp ticket t q o).1.Pinned := by
  intro u hl
  cases o with
  | enqueue =>
    have hl' : q.locked u = true := by simpa [applyIntentOp] using hl
    simpa [applyIntentOp, enqueueIntent, KeyList.front] using place_pinned t (h u hl') hl'
  | lock =>
    rw [KeyList.front, show (applyIntentOp ticket t q .lock).1.list = q.list from lockIntent_list t q]
    rcases lockIntent_locked hl with hl | ⟨rfl, hf, -⟩
    · exact h u hl
    · exact hf
  | unlock =>
    obtain ⟨hut, hl'⟩ := (unlockIntent_locked ticket t u hok.member).mp hl
    refine sorted_head hu (unlockIntent_sorted ticket t q) ((unlockIntent_mem ticket t u q).mpr (hok.member u hl')) ?_
    exact fun v hv => hfit rfl u (h u hl') hut hl' v ((unlockIntent_mem ticket t v q).mp hv)
  | release =>
    obtain ⟨hut, hl'⟩ := (releaseIntent_locked t u hok.member).mp hl
    rw [KeyList.front, show (applyIntentOp ticket t q .release).1.list = q.list.erase t from releaseIntent_list t q]
    exact erase_head (h u hl') hut

end Owner

def Fit (c : Config τ κ) (s : State τ κ) : Label τ κ → Prop
  | .apply t k => (s.txn t).pend k = some .unlock → SortSafe c.ticket t (s.keyQ k)
  | _ => True

instance (c : Config τ κ) (s : State τ κ) (l : Label τ κ) : Decidable (Fit c s l) := by
  cases l with
  | begin | coord => exact .isTrue trivial
  | apply t k => exact inferInstanceAs (Decidable (_ → _))

def fitStep (c : Config τ κ) (s : State τ κ) (l : Label τ κ) : Option (State τ κ) := if Fit c s l then step c s l else none

def fitRun (c : Config τ κ) (ls : List (Label τ κ)) : Option (State τ κ) := ls.foldlM (fitStep c) init

structure Exclusive (c : Config τ κ) (s : State τ κ) : Prop where
  inv : Inv c s
  gains : Gains c s
  pinned : ∀ k, (s.keyQ k).Pinned

theorem init_exclusive (c : Config τ κ) : Exclusive c init where
  inv := init_inv c
  gains := fun _ => trivial
  pinned := fun k u hl => by simp [init, KeyList.empty] at hl

theorem Exclusive.step (h : Exclusive c s) {l : Label τ κ} (hs : fitStep c s l = some s') : Exclusive c s' := by
  unfold fitStep at hs
  split at hs
  next hfit =>
    refine ⟨h.inv.step hs, h.gains.step h.inv hs, fun k' => ?_⟩
    cases step_cases hs with
    | begin | coord => exact h.pinned k'
    | apply t k o ho =>
      by_cases hkk : k' = k
      · subst hkk
        rw [applied_keyQ_self]
        exact (h.pinned k').apply (h.inv.ok k') c.unique fun he => hfit (he ▸ ho)
      · rw [applied_keyQ_ne _ _ _ _ _ hkk]
        exact h.pinned k'
  next => simp at hs

theorem fitRun_exclusive {ls : List (Label τ κ)} (hr : fitRun c ls = some s) : Exclusive c s := by
  have hgen : ∀ (ls : List (Label τ κ)) (a : State τ κ), Exclusive c a → ls.foldlM (fitStep c) a = some s → Exclusive c s := by
    intro ls
    induction ls with
    | nil => intro a ha hr; cases hr; exact ha
    | cons l ls ih =>
      intro a ha hr
      rw [List.foldlM_cons] at hr
      obtain ⟨m, hm, hr⟩ := Option.bind_eq_some_iff.mp hr
      exact ih m (ha.step hm) hr
  exact hgen ls init (init_exclusive c) hr

theorem Exclusive.unique (h : Exclusive c s) {k : κ} {t u : τ} (ht : (s.keyQ k).locked t = true) (hu : (s.keyQ k).locked u = true) :
    t = u :=
  Option.some.inj ((h.pinned k t ht).symm.trans (h.pinned k u hu))

/-- While no unlock re-sorts a queue under another transaction's locked front, an intent is locked alone on its key
and two transactions past `Acquire` share no key. -/
theorem intents_exclude {ls : List (Label τ κ)} (hr : fitRun c ls = some s) :
    (∀ k t u, (s.keyQ k).locked t = true → (s.keyQ k).locked u = true → t = u) ∧
      ∀ t u, (s.txn t).pc = .acquired → (s.txn u).pc = .acquired → ∀ k ∈ c.keys t, k ∈ c.keys u → t = u := by
  have h := fitRun_exclusive hr
  refine ⟨fun k t u => h.unique, fun t u ht hu k hkt hku => ?_⟩
  have hgt := h.gains t
  have hgu := h.gains u
  unfold Txn.Gained at hgt hgu
  rw [ht] at hgt
  rw [hu] at hgu
  exact h.unique (hgt k hkt) (hgu k hku)

/-- Three transactions on one key, the first with the smallest ticket. -/
def oneKey : Config (Fin 3) Unit := ⟨fun t => t.val + 1, fun a b h => Fin.ext (by simpa using h), fun _ => 0, fun _ => [()]⟩

/-- One transaction begins, is enqueued and locks its only key; its answer waits. -/
def alone (t : Fin 3) : List (Label (Fin 3) Unit) :=
  [.begin t, .apply t (), .coord t, .coord t, .coord t, .coord t, .apply t ()]

/-- The second transaction is out of `Acquire` and the first is queued behind its lock. -/
def queuedBehind : List (Label (Fin 3) Unit) := List.append (alone 1) [.coord 1, .coord 1, .begin 0, .apply 0 ()]

theorem oneKey_locked_alone :
    ∃ s, fitRun oneKey queuedBehind = some s ∧ (s.keyQ ()).locked 1 = true ∧ (∀ u, (s.keyQ ()).locked u = true → u = 1) := by
  have hrun : ((fitRun oneKey queuedBehind).map fun s => (s.keyQ ()).locked 1) = some true := by decide +kernel
  obtain ⟨s, hs, hl⟩ := Option.map_eq_some_iff.mp hrun
  exact ⟨s, hs, hl, fun u hu => (intents_exclude hs).1 () u 1 hu hl⟩

/-- The third transaction is displaced by the second between its wait and its lock, and backs off; then the first goes on. -/
def displaced : List (Label (Fin 3) Unit) :=
  List.append [.begin 2, .apply 2 (), .coord 2, .coord 2, .coord 2] <| List.append queuedBehind
    [.coord 2, .apply 2 (), .coord 2, .coord 2, .coord 2, .apply 2 (),
      .coord 0, .coord 0, .coord 0, .coord 0, .apply 0 (), .coord 0, .coord 0]

/-- The back-off re-sorts the queue under the second's lock, and the first locks the key the second holds. -/
theorem both_hold_the_key :
    ∃ s, run oneKey init displaced = some s ∧ (s.txn 0).pc = .acquired ∧ (s.txn 1).pc = .acquired ∧
      (s.keyQ ()).locked 0 = true ∧ (s.keyQ ()).locked 1 = true := by
  have hrun : ((run oneKey init displaced).map fun s =>
      ([(s.txn 0).pc, (s.txn 1).pc], [(s.keyQ ()).locked 0, (s.keyQ ()).locked 1])) =
      some ([.acquired, .acquired], [true, true]) := by decide +kernel
  obtain ⟨s, hs, heq⟩ := Option.map_eq_some_iff.mp hrun
  simp only [Prod.mk.injEq, List.cons.injEq, and_true] at heq
  exact ⟨s, hs, heq.1.1, heq.1.2, heq.2.1, heq.2.2⟩

end Aki.Intent
