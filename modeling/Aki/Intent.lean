import Mathlib.Data.List.Sort
import Mathlib.Logic.Function.Basic

namespace Aki.Intent

variable {τ κ : Type} [DecidableEq τ] [DecidableEq κ]

/-- One key's intent queue on its owner, front first. An intent on the key is named by its transaction;
its `locked` and `head` fields are kept here. A key without a queue has the empty one. -/
structure KeyList (τ : Type) where
  list : List τ
  published : Option τ
  locked : τ → Bool
  head : τ → Bool

def KeyList.empty : KeyList τ := ⟨[], none, fun _ => false, fun _ => false⟩

def KeyList.front (q : KeyList τ) : Option τ := q.list.head?

/-- The queue with its head flags made to match its front, and the transactions poked. -/
def publishHead (q : KeyList τ) : KeyList τ × List τ :=
  if q.published = q.front then (q, [])
  else
    let cleared := match q.published with
      | some p => Function.update q.head p false
      | none => q.head
    let raised := match q.front with
      | some f => Function.update cleared f true
      | none => cleared
    ({ q with published := q.front, head := raised }, q.published.toList ++ q.front.toList)

/-- Before the first intent whose ticket is not smaller. -/
def insertByTicket (ticket : τ → Nat) (t : τ) (l : List τ) : List τ :=
  l.orderedInsert (fun a b => ticket a ≤ ticket b) t

/-- The place `enqueueIntent` gives an intent: a locked front is not displaced. -/
def place (ticket : τ → Nat) (t : τ) (locked : τ → Bool) : List τ → List τ
  | [] => [t]
  | f :: rest => if locked f then f :: insertByTicket ticket t rest else insertByTicket ticket t (f :: rest)

def enqueueIntent (ticket : τ → Nat) (t : τ) (q : KeyList τ) : KeyList τ × List τ :=
  publishHead { q with list := place ticket t q.locked q.list }

def lockIntent (t : τ) (q : KeyList τ) : KeyList τ × Bool :=
  if q.front = some t then ({ q with locked := Function.update q.locked t true }, true) else (q, false)

/-- The insertion sort of `sortList`, tickets being unique. -/
def sortList (ticket : τ → Nat) (l : List τ) : List τ :=
  l.foldl (fun sorted cur => insertByTicket ticket cur sorted) []

def unlockIntent (ticket : τ → Nat) (t : τ) (q : KeyList τ) : KeyList τ × List τ :=
  if q.list = [] then (q, [])
  else publishHead { q with locked := Function.update q.locked t false, list := sortList ticket q.list }

def releaseIntent (t : τ) (q : KeyList τ) : KeyList τ × List τ :=
  if q.list = [] then (q, [])
  else
    let published := if q.published = some t then none else q.published
    let cut : KeyList τ := ⟨q.list.erase t, published, Function.update q.locked t false, Function.update q.head t false⟩
    -- an emptied queue is dropped with what it published
    if cut.list = [] then ({ cut with published := none }, []) else publishHead cut

inductive Op where
  | enqueue
  | lock
  | unlock
  | release
  deriving DecidableEq, Repr

/-- One control message on the owner: the queue after it, the transactions poked, and the answer a lock sends back. -/
def applyIntentOp (ticket : τ → Nat) (t : τ) (q : KeyList τ) : Op → KeyList τ × List τ × Option Bool
  | .enqueue => ((enqueueIntent ticket t q).1, (enqueueIntent ticket t q).2, none)
  | .lock => ((lockIntent t q).1, [], some (lockIntent t q).2)
  | .unlock => ((unlockIntent ticket t q).1, (unlockIntent ticket t q).2, none)
  | .release => ((releaseIntent t q).1, (releaseIntent t q).2, none)

/-- Where a coordinator stands: before `Begin`, between `Begin` and `Acquire`, reading the `i`-th head flag, blocked
on its signal, about to post the `i`-th lock, waiting for its answer, about to unlock, waiting for the `i`-th unlock,
out of `Acquire`, and out of `Release`. -/
inductive Pc where
  | fresh
  | begun
  | check (i : Nat)
  | sleep
  | lock (i : Nat) (ok : Bool)
  | ack (i : Nat) (ok : Bool)
  | unlock
  | unlocking (i : Nat)
  | acquired
  | finished
  deriving DecidableEq, Repr

/-- One transaction: its coordinator, its signal, the op posted and not yet applied on each key, and the answer
of the last lock. -/
structure Txn (κ : Type) where
  pc : Pc
  sig : Bool
  pend : κ → Option Op
  reply : Option Bool

def Txn.new : Txn κ := ⟨.fresh, false, fun _ => none, none⟩

/-- One op for every intent. Its owners apply them one at a time. -/
def post (keys : List κ) (o : Op) : κ → Option Op := fun k => if k ∈ keys then some o else none

def Txn.begin (keys : List κ) (x : Txn κ) : Option (Txn κ) :=
  if x.pc = .fresh then some { x with pc := .begun, pend := post keys .enqueue } else none

/-- The next step of `Acquire` and of the `Release` after it; `none` while the coordinator is blocked. -/
def Txn.coord (keys : List κ) (head : κ → Bool) (x : Txn κ) : Option (Txn κ) :=
  match x.pc with
  | .fresh => none
  | .begun => some { x with pc := .check 0 }
  | .check i =>
    match keys[i]? with
    | none => some { x with pc := .lock 0 true }
    | some k => some { x with pc := if head k then .check (i + 1) else .sleep }
  | .sleep => if x.sig then some { x with pc := .check 0, sig := false } else none
  | .lock i ok =>
    match keys[i]? with
    | none => some { x with pc := if ok then .acquired else .unlock }
    | some k => some { x with pc := .ack i ok, pend := Function.update x.pend k (some .lock) }
  | .ack i ok => x.reply.map fun b => { x with pc := .lock (i + 1) (ok && b), reply := none }
  | .unlock => some { x with pc := .unlocking 0, pend := post keys .unlock }
  | .unlocking i =>
    match keys[i]? with
    | none => some { x with pc := .check 0 }
    | some k => if x.pend k = none then some { x with pc := .unlocking (i + 1) } else none
  | .acquired => some { x with pc := .finished, pend := post keys .release }
  | .finished => none

/-- The first-seen keys without their repeats. -/
def collapse : List κ → List κ
  | [] => []
  | k :: ks => k :: (collapse ks).filter (· ≠ k)

/-- The intents of `newTxn`: one a distinct key, in ascending shard order. -/
def newTxn (shardOf : κ → Nat) (keys : List κ) : List κ :=
  (collapse keys).insertionSort (fun a b => shardOf a ≤ shardOf b)

/-- The transactions of a run: their tickets, which are unique, and the keys each declares. -/
structure Config (τ κ : Type) where
  ticket : τ → Nat
  unique : Function.Injective ticket
  shardOf : κ → Nat
  declared : τ → List κ

def Config.keys (c : Config τ κ) (t : τ) : List κ := newTxn c.shardOf (c.declared t)

structure State (τ κ : Type) where
  txn : τ → Txn κ
  keyQ : κ → KeyList τ

def init : State τ κ := ⟨fun _ => Txn.new, fun _ => KeyList.empty⟩

/-- A transaction begins, its coordinator moves, or an owner applies the op posted for one of its intents. -/
inductive Label (τ κ : Type) where
  | begin (t : τ)
  | coord (t : τ)
  | apply (t : τ) (k : κ)
  deriving DecidableEq, Repr

def State.setTxn (s : State τ κ) (t : τ) (x : Txn κ) : State τ κ := { s with txn := Function.update s.txn t x }

/-- The op left the owner's inbox; a lock's answer is in its channel. -/
def Txn.served (x : Txn κ) (k : κ) (answer : Option Bool) : Txn κ :=
  { x with pend := Function.update x.pend k none, reply := answer.or x.reply }

/-- A poke that finds one pending is dropped. -/
def Txn.poke (x : Txn κ) (poked : Bool) : Txn κ := { x with sig := x.sig || poked }

def State.applied (s : State τ κ) (t : τ) (k : κ) (q : KeyList τ) (pokes : List τ) (answer : Option Bool) : State τ κ where
  txn := fun u => (Function.update s.txn t ((s.txn t).served k answer) u).poke (decide (u ∈ pokes))
  keyQ := Function.update s.keyQ k q

def step (c : Config τ κ) (s : State τ κ) : Label τ κ → Option (State τ κ)
  | .begin t => ((s.txn t).begin (c.keys t)).map (s.setTxn t)
  | .coord t => ((s.txn t).coord (c.keys t) (fun k => (s.keyQ k).head t)).map (s.setTxn t)
  | .apply t k => ((s.txn t).pend k).map fun o =>
      let (q, pokes, answer) := applyIntentOp c.ticket t (s.keyQ k) o
      s.applied t k q pokes answer

def run (c : Config τ κ) (s : State τ κ) (ls : List (Label τ κ)) : Option (State τ κ) := ls.foldlM (step c) s

variable {τ κ : Type} [DecidableEq τ] [DecidableEq κ]

/-- The queue behind its front is in ticket order, and so is the whole queue when the front is not locked. -/
def Ordered (ticket : τ → Nat) (locked : τ → Bool) : List τ → Prop
  | [] => True
  | f :: rest => rest.Pairwise (fun a b => ticket a ≤ ticket b) ∧ (locked f = false → ∀ u ∈ rest, ticket f ≤ ticket u)

section Order

variable {ticket : τ → Nat}

theorem insertByTicket_perm (t : τ) (l : List τ) : (insertByTicket ticket t l).Perm (t :: l) :=
  List.perm_orderedInsert _ t l

theorem insertByTicket_sorted (t : τ) {l : List τ} (h : l.Pairwise (fun a b => ticket a ≤ ticket b)) :
    (insertByTicket ticket t l).Pairwise (fun a b => ticket a ≤ ticket b) := by
  haveI : Std.Total (fun a b : τ => ticket a ≤ ticket b) := ⟨fun a b => Nat.le_total (ticket a) (ticket b)⟩
  haveI : IsTrans τ (fun a b : τ => ticket a ≤ ticket b) := ⟨fun _ _ _ => Nat.le_trans⟩
  exact h.orderedInsert t l

theorem sortList_aux (l acc : List τ) (h : acc.Pairwise (fun a b => ticket a ≤ ticket b)) :
    (l.foldl (fun sorted cur => insertByTicket ticket cur sorted) acc).Perm (l ++ acc) ∧
      (l.foldl (fun sorted cur => insertByTicket ticket cur sorted) acc).Pairwise (fun a b => ticket a ≤ ticket b) := by
  induction l generalizing acc with
  | nil => exact ⟨List.Perm.refl _, h⟩
  | cons x l ih =>
    obtain ⟨hp, hs⟩ := ih (insertByTicket ticket x acc) (insertByTicket_sorted x h)
    refine ⟨hp.trans ?_, hs⟩
    exact ((insertByTicket_perm x acc).append_left l).trans List.perm_middle

theorem sortList_perm (l : List τ) : (sortList ticket l).Perm l :=
  (sortList_aux l [] List.Pairwise.nil).1.trans (by rw [List.append_nil])

theorem sortList_sorted (l : List τ) : (sortList ticket l).Pairwise (fun a b => ticket a ≤ ticket b) :=
  (sortList_aux l [] List.Pairwise.nil).2

omit [DecidableEq τ] in
theorem Ordered.of_sorted {locked : τ → Bool} {l : List τ} (h : l.Pairwise (fun a b => ticket a ≤ ticket b)) :
    Ordered ticket locked l := by
  cases l with
  | nil => trivial
  | cons f rest => exact ⟨(List.pairwise_cons.mp h).2, fun _ => (List.pairwise_cons.mp h).1⟩

omit [DecidableEq τ] in
theorem Ordered.sorted {locked : τ → Bool} {f : τ} {rest : List τ} (h : Ordered ticket locked (f :: rest))
    (hf : locked f = false) : (f :: rest).Pairwise (fun a b => ticket a ≤ ticket b) :=
  List.pairwise_cons.mpr ⟨h.2 hf, h.1⟩

/-- Locking the front only loosens the order. -/
theorem Ordered.lock {locked : τ → Bool} {l : List τ} (h : Ordered ticket locked l) {t : τ} (ht : l.head? = some t) :
    Ordered ticket (Function.update locked t true) l := by
  cases l with
  | nil => trivial
  | cons f rest =>
    obtain rfl : f = t := by simpa using ht
    exact ⟨h.1, fun hf => by simp at hf⟩

theorem place_perm (t : τ) (locked : τ → Bool) (l : List τ) : (place ticket t locked l).Perm (t :: l) := by
  cases l with
  | nil => exact List.Perm.refl _
  | cons f rest =>
    rw [place]
    split
    · exact ((insertByTicket_perm t rest).cons f).trans (List.Perm.swap _ _ _)
    · exact insertByTicket_perm t _

theorem place_ordered (t : τ) {locked : τ → Bool} {l : List τ} (h : Ordered ticket locked l) :
    Ordered ticket locked (place ticket t locked l) := by
  cases l with
  | nil => exact ⟨List.Pairwise.nil, nofun⟩
  | cons f rest =>
    rw [place]
    split
    next hf => exact ⟨insertByTicket_sorted t h.1, fun h' => absurd hf (by simp [h'])⟩
    next hf => exact Ordered.of_sorted (insertByTicket_sorted t (h.sorted (by simpa using hf)))

theorem erase_ordered (t : τ) {locked : τ → Bool} {l : List τ} (h : Ordered ticket locked l) :
    Ordered ticket (Function.update locked t false) (l.erase t) := by
  cases l with
  | nil => trivial
  | cons f rest =>
    by_cases hf : f = t
    · subst hf
      rw [List.erase_cons_head]
      exact Ordered.of_sorted h.1
    · rw [List.erase_cons_tail (by simpa using hf)]
      refine ⟨h.1.sublist List.erase_sublist, fun hl u hu => ?_⟩
      rw [Function.update_of_ne hf] at hl
      exact h.2 hl u (List.mem_of_mem_erase hu)

end Order

/-- The published intent is the one whose flag reads true. -/
def KeyList.Flagged (q : KeyList τ) : Prop := ∀ u, q.head u = true ↔ q.published = some u

@[simp] theorem publishHead_list (q : KeyList τ) : (publishHead q).1.list = q.list := by
  unfold publishHead
  split <;> rfl

@[simp] theorem publishHead_locked (q : KeyList τ) : (publishHead q).1.locked = q.locked := by
  unfold publishHead
  split <;> rfl

@[simp] theorem publishHead_published (q : KeyList τ) : (publishHead q).1.published = q.front := by
  unfold publishHead
  split
  next h => exact h
  next => rfl

theorem publishHead_flagged {q : KeyList τ} (h : q.Flagged) : (publishHead q).1.Flagged := by
  intro u
  unfold publishHead
  split
  · exact h u
  next hne =>
    have hu := h u
    dsimp only
    cases hp : q.published with
    | none =>
      rw [hp] at hu
      cases hf : q.front with
      | none => simpa using hu
      | some f =>
        by_cases huf : u = f
        · simp [huf]
        · simpa [Function.update_of_ne huf, Ne.symm huf] using hu
    | some p =>
      rw [hp] at hu
      cases hf : q.front with
      | none =>
        by_cases hup : u = p
        · simp [hup]
        · simpa [Function.update_of_ne hup, Ne.symm hup] using hu
      | some f =>
        by_cases huf : u = f
        · simp [huf]
        · by_cases hup : u = p
          · subst hup
            simp [Function.update_of_ne huf, Ne.symm huf]
          · simpa [Function.update_of_ne huf, Function.update_of_ne hup, Ne.symm huf, Ne.symm hup] using hu

/-- A flag goes up only with a poke. -/
theorem publishHead_pokes (q : KeyList τ) {u : τ} (hu : (publishHead q).1.head u = true) (h : q.head u = false) :
    u ∈ (publishHead q).2 := by
  unfold publishHead at hu ⊢
  split at hu
  · rw [h] at hu; exact absurd hu (by simp)
  next hne =>
    rw [if_neg hne]
    dsimp only at hu ⊢
    cases hf : q.front with
    | none =>
      rw [hf] at hu
      cases hp : q.published with
      | none => rw [hp] at hu; simp [h] at hu
      | some p =>
        rw [hp] at hu
        by_cases hup : u = p <;> simp [hup, Function.update_of_ne] at hu
        simp [Function.update_of_ne hup, h] at hu
    | some f =>
      rw [hf] at hu
      by_cases huf : u = f
      · simp [huf]
      · dsimp only at hu
        rw [Function.update_of_ne huf] at hu
        cases hp : q.published with
        | none => rw [hp] at hu; simp [h] at hu
        | some p =>
          rw [hp] at hu
          by_cases hup : u = p
          · simp [hup]
          · simp [Function.update_of_ne hup, h] at hu

structure KeyList.Ok (ticket : τ → Nat) (q : KeyList τ) : Prop where
  nodup : q.list.Nodup
  published : q.published = q.front
  flagged : q.Flagged
  ordered : Ordered ticket q.locked q.list
  member : ∀ u, q.locked u = true → u ∈ q.list

namespace KeyList.Ok

variable {ticket : τ → Nat} {q : KeyList τ}

theorem empty : (KeyList.empty : KeyList τ).Ok ticket where
  nodup := List.nodup_nil
  published := rfl
  flagged := fun u => by simp [KeyList.empty]
  ordered := trivial
  member := fun u h => by simp [KeyList.empty] at h

omit [DecidableEq τ] in
theorem head_iff (h : q.Ok ticket) (u : τ) : q.head u = true ↔ q.front = some u := h.published ▸ h.flagged u

theorem publish {q : KeyList τ} (hn : q.list.Nodup) (hf : q.Flagged) (ho : Ordered ticket q.locked q.list)
    (hm : ∀ u, q.locked u = true → u ∈ q.list) : (publishHead q).1.Ok ticket where
  nodup := by simpa using hn
  published := by simp [KeyList.front]
  flagged := publishHead_flagged hf
  ordered := by simpa using ho
  member := by simpa using hm

theorem enqueueIntent (h : q.Ok ticket) {t : τ} (ht : t ∉ q.list) : (enqueueIntent ticket t q).1.Ok ticket := by
  refine publish ?_ h.flagged (place_ordered t h.ordered) fun u hu => ?_
  · exact (place_perm t q.locked q.list).nodup_iff.mpr (List.nodup_cons.mpr ⟨ht, h.nodup⟩)
  · exact (place_perm t q.locked q.list).mem_iff.mpr (List.mem_cons_of_mem _ (h.member u hu))

theorem lockIntent (h : q.Ok ticket) (t : τ) : (lockIntent t q).1.Ok ticket := by
  unfold Intent.lockIntent
  split
  next hf =>
    refine ⟨h.nodup, h.published, h.flagged, h.ordered.lock hf, fun u hu => ?_⟩
    by_cases hut : u = t
    · subst hut; exact List.mem_of_mem_head? hf
    · exact h.member u (by simpa [Function.update_of_ne hut] using hu)
  next => exact h

theorem unlockIntent (h : q.Ok ticket) (t : τ) : (unlockIntent ticket t q).1.Ok ticket := by
  unfold Intent.unlockIntent
  split
  next => exact h
  next =>
    refine publish ((sortList_perm q.list).nodup_iff.mpr h.nodup) h.flagged (Ordered.of_sorted (sortList_sorted q.list))
      fun u hu => (sortList_perm q.list).mem_iff.mpr (h.member u ?_)
    by_cases hut : u = t
    · subst hut; simp at hu
    · simpa [Function.update_of_ne hut] using hu

theorem releaseIntent (h : q.Ok ticket) (t : τ) : (releaseIntent t q).1.Ok ticket := by
  unfold Intent.releaseIntent
  split
  · exact h
  next hne =>
    have hflag : ∀ u, Function.update q.head t false u = true ↔
        (if q.published = some t then none else q.published) = some u := by
      intro u
      by_cases hut : u = t
      · subst hut
        split <;> simp_all
      · rw [Function.update_of_ne hut, h.flagged u]
        split
        next hp => simp [hp, Ne.symm hut]
        next => rfl
    have hm : ∀ u, Function.update q.locked t false u = true → u ∈ q.list.erase t := by
      intro u hu
      by_cases hut : u = t
      · subst hut; simp at hu
      · exact (List.mem_erase_of_ne hut).mpr (h.member u (by simpa [Function.update_of_ne hut] using hu))
    dsimp only
    split
    next hnil =>
      refine ⟨by simp [hnil], by simp [KeyList.front, hnil], fun u => ?_, by simp [hnil, Ordered], hm⟩
      -- the flag of the only intent was cleared
      have hone : ∀ v ∈ q.list, v = t := by
        intro v hv
        by_contra hvt
        have hv' : v ∈ q.list.erase t := (List.mem_erase_of_ne hvt).mpr hv
        rw [hnil] at hv'
        simp at hv'
      constructor
      · intro hu
        by_cases hut : u = t
        · subst hut; simp at hu
        · have hu' : q.front = some u := (h.head_iff u).mp (by simpa [Function.update_of_ne hut] using hu)
          exact absurd (hone u (List.mem_of_mem_head? hu')) hut
      · exact nofun
    next => exact publish (h.nodup.erase t) hflag (erase_ordered t h.ordered) hm

end KeyList.Ok

theorem enqueueIntent_mem (ticket : τ → Nat) (t u : τ) (q : KeyList τ) :
    u ∈ (enqueueIntent ticket t q).1.list ↔ u = t ∨ u ∈ q.list := by
  simp [enqueueIntent, (place_perm t q.locked q.list).mem_iff]

@[simp] theorem enqueueIntent_locked (ticket : τ → Nat) (t : τ) (q : KeyList τ) :
    (enqueueIntent ticket t q).1.locked = q.locked := by
  simp [enqueueIntent]

@[simp] theorem lockIntent_list (t : τ) (q : KeyList τ) : (lockIntent t q).1.list = q.list := by
  unfold lockIntent
  split <;> rfl

theorem lockIntent_locked {t u : τ} {q : KeyList τ} (h : (lockIntent t q).1.locked u = true) :
    q.locked u = true ∨ (u = t ∧ q.front = some t ∧ (lockIntent t q).2 = true) := by
  unfold lockIntent at h ⊢
  split
  next hf =>
    rw [if_pos hf] at h
    by_cases hut : u = t
    · exact Or.inr ⟨hut, hf, rfl⟩
    · exact Or.inl (by simpa [Function.update_of_ne hut] using h)
  next hf => rw [if_neg hf] at h; exact Or.inl h

theorem lockIntent_true {t : τ} {q : KeyList τ} (h : (lockIntent t q).2 = true) :
    q.front = some t ∧ (lockIntent t q).1.locked t = true := by
  unfold lockIntent at h ⊢
  split at h
  next hf => simp [hf]
  next => simp at h

theorem lockIntent_keeps {t u : τ} {q : KeyList τ} (h : q.locked u = true) : (lockIntent t q).1.locked u = true := by
  unfold lockIntent
  split
  next =>
    by_cases hut : u = t
    · simp [hut]
    · simpa [Function.update_of_ne hut] using h
  next => exact h

theorem unlockIntent_mem (ticket : τ → Nat) (t u : τ) (q : KeyList τ) :
    u ∈ (unlockIntent ticket t q).1.list ↔ u ∈ q.list := by
  unfold unlockIntent
  split
  · rfl
  · simp [(sortList_perm q.list).mem_iff]

theorem unlockIntent_sorted (ticket : τ → Nat) (t : τ) (q : KeyList τ) :
    (unlockIntent ticket t q).1.list.Pairwise (fun a b => ticket a ≤ ticket b) := by
  unfold unlockIntent
  split
  next h => rw [h]; exact List.Pairwise.nil
  next => simpa using sortList_sorted q.list

theorem unlockIntent_locked (ticket : τ → Nat) (t u : τ) {q : KeyList τ} (hm : ∀ u, q.locked u = true → u ∈ q.list) :
    (unlockIntent ticket t q).1.locked u = true ↔ u ≠ t ∧ q.locked u = true := by
  unfold unlockIntent
  split
  next h =>
    have hu : q.locked u ≠ true := fun hu => by simpa [h] using hm u hu
    simp [hu]
  next =>
    rw [publishHead_locked]
    by_cases hut : u = t
    · simp [hut]
    · simp [Function.update_of_ne hut, hut]

theorem releaseIntent_list (t : τ) (q : KeyList τ) : (releaseIntent t q).1.list = q.list.erase t := by
  unfold releaseIntent
  split
  next h => simp [h]
  next =>
    dsimp only
    split <;> simp

theorem releaseIntent_locked (t u : τ) {q : KeyList τ} (hm : ∀ u, q.locked u = true → u ∈ q.list) :
    (releaseIntent t q).1.locked u = true ↔ u ≠ t ∧ q.locked u = true := by
  unfold releaseIntent
  split
  next h =>
    have hu : q.locked u ≠ true := fun hu => by simpa [h] using hm u hu
    simp [hu]
  next =>
    dsimp only
    have hupd : Function.update q.locked t false u = true ↔ u ≠ t ∧ q.locked u = true := by
      by_cases hut : u = t
      · simp [hut]
      · simp [Function.update_of_ne hut, hut]
    split
    · exact hupd
    · rw [publishHead_locked]; exact hupd

end Aki.Intent
