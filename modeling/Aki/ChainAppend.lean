import Aki.LeaseFold

namespace Aki.Obs1

/-- One object of the chain: the writer its header names and the batch. -/
structure ChainObject where
  writer : Nat
  batch : ChainBatch
deriving DecidableEq

/-- Where an appender's call stands: about to read the next position, or about to write it. -/
inductive Phase
  | idle
  | following
  | probing (batch : ChainBatch)
  | putting (batch : ChainBatch) (contended : Bool)
  | rechecking (batch : ChainBatch) (contended : Bool)
deriving DecidableEq

def Phase.landing : Phase → Option ChainBatch
  | .idle => none
  | .following => none
  | .probing b => some b
  | .putting b _ => some b
  | .rechecking b _ => some b

/-- One node's view of the chain. `applied` is what its applier took, with the positions. -/
structure Appender where
  incarnation : Nat
  start : Nat
  tail : Nat
  nextBatch : Nat
  applied : List (Nat × ChainObject)
  phase : Phase

/-- The bucket's chain objects, the PUTs whose outcome nobody knows yet, and the appenders by writer id. `handed` are the
batches given to Append so far and `returned` the positions it reported. -/
structure ChainWorld where
  store : Nat → Option ChainObject
  flights : List (Nat × ChainObject)
  nodes : Nat → Option Appender
  handed : List ChainObject
  returned : List (ChainObject × Nat)

def emptyChain : ChainWorld := ⟨fun _ => none, [], fun _ => none, [], []⟩

/-- The top of the append loop: once the batch has met a rival, it reads before it writes. -/
def attempt (batch : ChainBatch) (contended : Bool) : Phase := if contended then .probing batch else .putting batch contended

/-- The writer, incarnation and batch id of the object are those of the batch being landed. -/
def ours (writer : Nat) (want : ChainBatch) (o : ChainObject) : Bool :=
  decide (want.batchID ≠ 0) && decide (o.writer = writer) && decide (o.batch.incarnation = want.incarnation) &&
    decide (o.batch.batchID = want.batchID)

/-- The object of the next position goes to the applier; an applier that refuses it stops the call. -/
def Appender.applyFetched (a : Appender) (o : ChainObject) (accepts : Bool) : Option Appender :=
  if accepts then some { a with tail := a.tail + 1, applied := a.applied ++ [(a.tail + 1, o)] } else none

inductive PutOutcome
  | ok
  | precondition
  | ambiguous
  | fault
deriving DecidableEq

namespace ChainWorld

def setNode (w : ChainWorld) (writer : Nat) (a : Appender) : ChainWorld := { w with nodes := Function.update w.nodes writer (some a) }

def setPhase (w : ChainWorld) (writer : Nat) (a : Appender) (phase : Phase) : ChainWorld := w.setNode writer { a with phase := phase }

/-- A new node, at the position a checkpoint summarized or at the chain's start. -/
def join (w : ChainWorld) (writer incarnation start : Nat) : ChainWorld :=
  if writer = 0 ∨ (w.nodes writer).isSome ∨ ((List.range start).all fun q => (w.store (q + 1)).isSome) = false then w
  else w.setNode writer ⟨incarnation, start, start, 1, [], .idle⟩

def append (w : ChainWorld) (writer : Nat) (records : List ChainRecord) : ChainWorld :=
  match w.nodes writer with
  | none => w
  | some a =>
    if a.phase ≠ .idle then w
    else
      let batch : ChainBatch := ⟨a.nextBatch, a.incarnation, records⟩
      { w.setNode writer { a with nextBatch := a.nextBatch + 1, phase := attempt batch false } with
        handed := w.handed ++ [⟨writer, batch⟩] }

def follow (w : ChainWorld) (writer : Nat) : ChainWorld :=
  match w.nodes writer with
  | none => w
  | some a => if a.phase ≠ .idle then w else w.setPhase writer a .following

def succeed (w : ChainWorld) (writer : Nat) (a : Appender) (want : ChainBatch) : ChainWorld :=
  { w.setPhase writer a .idle with returned := w.returned ++ [(⟨writer, want⟩, a.tail)] }

/-- An object found at the position the batch was for. -/
def fetched (w : ChainWorld) (writer : Nat) (a : Appender) (want : ChainBatch) (o : ChainObject) (accepts : Bool) : ChainWorld :=
  match a.applyFetched o accepts with
  | none => w.setPhase writer a .idle
  | some a' => if ours writer want o then w.succeed writer a' want else w.setPhase writer a' (attempt want true)

/-- The read the call is about to make; `fault` is any error other than not found. -/
def get (w : ChainWorld) (writer : Nat) (fault accepts : Bool) : ChainWorld :=
  match w.nodes writer with
  | none => w
  | some a =>
    match a.phase with
    | .following =>
      if fault then w.setPhase writer a .idle
      else
        match w.store (a.tail + 1) with
        | none => w.setPhase writer a .idle
        | some o =>
          match a.applyFetched o accepts with
          | none => w.setPhase writer a .idle
          | some a' => w.setNode writer a'
    | .probing batch =>
      if fault then w.setPhase writer a .idle
      else
        match w.store (a.tail + 1) with
        | none => w.setPhase writer a (.putting batch true)
        | some o => w.fetched writer a batch o accepts
    | .rechecking batch contended =>
      if fault then w.setPhase writer a .idle
      else
        match w.store (a.tail + 1) with
        | none => w.setPhase writer a (attempt batch contended)
        | some o => w.fetched writer a batch o accepts
    | _ => w

/-- The create-if-absent the call is about to make. A conflict is re-read just as an ambiguous outcome is. -/
def put (w : ChainWorld) (writer : Nat) (outcome : PutOutcome) (accepts : Bool) : ChainWorld :=
  match w.nodes writer with
  | none => w
  | some a =>
    match a.phase with
    | .putting batch contended =>
      let o : ChainObject := ⟨writer, batch⟩
      match outcome with
      | .ok =>
        if (w.store (a.tail + 1)).isSome then w
        else
          let w := { w with store := Function.update w.store (a.tail + 1) (some o) }
          match a.applyFetched o accepts with
          | none => w.setPhase writer a .idle
          | some a' => w.succeed writer a' batch
      | .precondition => if (w.store (a.tail + 1)).isSome then w.setPhase writer a (.rechecking batch true) else w
      | .ambiguous => { w.setPhase writer a (.rechecking batch contended) with flights := w.flights ++ [(a.tail + 1, o)] }
      | .fault => { w.setPhase writer a .idle with flights := w.flights ++ [(a.tail + 1, o)] }
    | _ => w

/-- A PUT of unknown outcome takes its effect, if its key is still free. -/
def land (w : ChainWorld) (k : Nat) : ChainWorld :=
  match w.flights[k]? with
  | none => w
  | some (q, o) =>
    { w with
      flights := w.flights.eraseIdx k
      store := if (w.store q).isSome then w.store else Function.update w.store q (some o) }

end ChainWorld

inductive ChainOp
  | join (writer incarnation start : Nat)
  | append (writer : Nat) (records : List ChainRecord)
  | follow (writer : Nat)
  | get (writer : Nat) (fault accepts : Bool)
  | put (writer : Nat) (outcome : PutOutcome) (accepts : Bool)
  | land (k : Nat)

def ChainWorld.step (w : ChainWorld) : ChainOp → ChainWorld
  | .join writer incarnation start => w.join writer incarnation start
  | .append writer records => w.append writer records
  | .follow writer => w.follow writer
  | .get writer fault accepts => w.get writer fault accepts
  | .put writer outcome accepts => w.put writer outcome accepts
  | .land k => w.land k

/-- The applier took the positions behind the tail one by one, each as the bucket has it. -/
structure Sees (store : Nat → Option ChainObject) (a : Appender) : Prop where
  bound : a.start ≤ a.tail
  dense : a.applied.map Prod.fst = List.range' (a.start + 1) (a.tail - a.start)
  objects : ∀ q o, (q, o) ∈ a.applied → store q = some o
  filled : ∀ q, 1 ≤ q → q ≤ a.tail → (store q).isSome = true

/-- The one position a batch can still be stored at, or is. -/
structure Spot (w : ChainWorld) (o : ChainObject) (c : Nat) : Prop where
  stored : ∀ p, w.store p = some o → p = c
  flown : ∀ q, (q, o) ∈ w.flights → w.store q = none → q = c
  landing : ∀ a, w.nodes o.writer = some a → a.phase.landing = some o.batch → a.tail + 1 = c

structure ChainInv (w : ChainWorld) : Prop where
  written : ∀ q o, w.store q = some o → o ∈ w.handed
  flown : ∀ q o, (q, o) ∈ w.flights → o ∈ w.handed ∧ ∀ p, 1 ≤ p → p < q → (w.store p).isSome = true
  known : ∀ o ∈ w.handed, (w.nodes o.writer).isSome = true
  unique : ∀ o ∈ w.handed, ∀ o' ∈ w.handed, o.writer = o'.writer → o.batch.batchID = o'.batch.batchID → o = o'
  numbered : ∀ wr a, w.nodes wr = some a → 1 ≤ a.nextBatch ∧ ∀ o ∈ w.handed, o.writer = wr → o.batch.batchID < a.nextBatch
  landing : ∀ wr a b, w.nodes wr = some a → a.phase.landing = some b → ⟨wr, b⟩ ∈ w.handed ∧ b.batchID ≠ 0
  spot : ∀ o, ∃ c, Spot w o c
  sees : ∀ wr a, w.nodes wr = some a → Sees w.store a
  dense : ∀ q, (w.store q).isSome = true → ∀ p, 1 ≤ p → p < q → (w.store p).isSome = true
  returns : ∀ o p, (o, p) ∈ w.returned → w.store p = some o

theorem emptyChain_inv : ChainInv emptyChain where
  written := fun _ _ h => nomatch h
  flown := fun _ _ h => nomatch h
  known := fun _ h => nomatch h
  unique := fun _ h => nomatch h
  numbered := fun _ _ h => nomatch h
  landing := fun _ _ _ h => nomatch h
  spot := fun _ => ⟨0, fun _ h => (nomatch h), fun _ h => (nomatch h), fun _ h => (nomatch h)⟩
  sees := fun _ _ h => nomatch h
  dense := fun _ h => nomatch h
  returns := fun _ _ h => nomatch h

/-- How an appender may move over an unchanged bucket: the batch stays, and the tail passes a position only when another's
object stands there. -/
structure Moves (w : ChainWorld) (wr : Nat) (a a' : Appender) : Prop where
  nextBatch : a'.nextBatch = a.nextBatch
  sees : Sees w.store a'
  landing : ∀ b, a'.phase.landing = some b → a.phase.landing = some b ∧
    (a'.tail = a.tail ∨ (a'.tail = a.tail + 1 ∧ ∃ o, w.store (a.tail + 1) = some o ∧ o ≠ ⟨wr, b⟩))

namespace ChainInv

variable {w : ChainWorld} (h : ChainInv w)
include h

theorem setNode {wr : Nat} {a a' : Appender} (ha : w.nodes wr = some a) (hm : Moves w wr a a') : ChainInv (w.setNode wr a') := by
  have hnode {wr' : Nat} {x : Appender} (hx : (w.setNode wr a').nodes wr' = some x) :
      (wr' = wr ∧ x = a') ∨ (wr' ≠ wr ∧ w.nodes wr' = some x) := by
    by_cases hne : wr' = wr
    · subst hne
      simp only [ChainWorld.setNode, Function.update_self, Option.some.injEq] at hx
      exact .inl ⟨rfl, hx.symm⟩
    · simp only [ChainWorld.setNode, Function.update_of_ne hne] at hx
      exact .inr ⟨hne, hx⟩
  refine ⟨h.written, h.flown, fun o ho => ?_, h.unique, fun wr' x hx => ?_, fun wr' x b hx hb => ?_, fun o => ?_, fun wr' x hx => ?_,
    h.dense, h.returns⟩
  · by_cases hne : o.writer = wr
    · simp [ChainWorld.setNode, hne]
    · simpa [ChainWorld.setNode, Function.update_of_ne hne] using h.known o ho
  · rcases hnode hx with ⟨rfl, rfl⟩ | ⟨-, hx⟩
    · rw [hm.nextBatch]
      exact h.numbered _ a ha
    · exact h.numbered wr' x hx
  · rcases hnode hx with ⟨rfl, rfl⟩ | ⟨-, hx⟩
    · exact h.landing _ a b ha (hm.landing b hb).1
    · exact h.landing wr' x b hx hb
  · obtain ⟨c, hc⟩ := h.spot o
    by_cases hb : o.writer = wr ∧ a'.phase.landing = some o.batch
    · obtain ⟨rfl, hb⟩ := hb
      obtain ⟨hold, htail⟩ := hm.landing _ hb
      have hspot := hc.landing a ha hold
      rcases htail with htail | ⟨htail, o', ho', hne⟩
      · refine ⟨c, hc.stored, hc.flown, fun x hx hxb => ?_⟩
        rcases hnode hx with ⟨-, rfl⟩ | ⟨hne, -⟩
        · rw [htail]
          exact hspot
        · exact absurd rfl hne
      · -- another's object closed the position, so the batch is stored nowhere and no PUT of it can land
        rw [hspot] at ho'
        refine ⟨c + 1, fun p hp => ?_, fun q hq hfree => ?_, fun x hx hxb => ?_⟩
        · have hp' : w.store p = some o := hp
          rw [hc.stored p hp', ho'] at hp'
          exact absurd (Option.some.inj hp') hne
        · have hfree' : w.store q = none := hfree
          rw [hc.flown q hq hfree', ho'] at hfree'
          simp at hfree'
        · rcases hnode hx with ⟨-, rfl⟩ | ⟨hne, -⟩
          · omega
          · exact absurd rfl hne
    · refine ⟨c, hc.stored, hc.flown, fun x hx hxb => ?_⟩
      rcases hnode hx with ⟨heq, rfl⟩ | ⟨-, hx⟩
      · exact absurd ⟨heq, hxb⟩ hb
      · exact hc.landing x hx hxb
  · rcases hnode hx with ⟨rfl, rfl⟩ | ⟨-, hx⟩
    · exact hm.sees
    · exact h.sees wr' x hx

theorem setPhase {wr : Nat} {a : Appender} (ha : w.nodes wr = some a) {ph : Phase}
    (hph : ∀ b, ph.landing = some b → a.phase.landing = some b) : ChainInv (w.setPhase wr a ph) :=
  have hs := h.sees wr a ha
  h.setNode ha ⟨rfl, ⟨hs.bound, hs.dense, hs.objects, hs.filled⟩, fun b hb => ⟨hph b hb, .inl rfl⟩⟩

theorem fill {q : Nat} {o : ChainObject} (hfree : w.store q = none) (ho : o ∈ w.handed)
    (hq : ∀ c, Spot w o c → q = c) (hbelow : ∀ p, 1 ≤ p → p < q → (w.store p).isSome = true) :
    ChainInv { w with store := Function.update w.store q (some o) } := by
  have hkeep {p : Nat} {x : ChainObject} (hp : w.store p = some x) : Function.update w.store q (some o) p = some x := by
    rw [Function.update_of_ne fun he => by rw [he, hfree] at hp; simp at hp]
    exact hp
  have hsome {p : Nat} (hp : (w.store p).isSome = true) : (Function.update w.store q (some o) p).isSome = true := by
    obtain ⟨x, hx⟩ := Option.isSome_iff_exists.mp hp
    rw [hkeep hx]
    rfl
  have hback {p : Nat} {x : ChainObject} (hp : Function.update w.store q (some o) p = some x) : (p = q ∧ x = o) ∨ w.store p = some x := by
    by_cases he : p = q
    · subst he
      rw [Function.update_self] at hp
      exact .inl ⟨rfl, (Option.some.inj hp).symm⟩
    · rw [Function.update_of_ne he] at hp
      exact .inr hp
  refine ⟨fun p x hp => ?_, fun p x hp => ⟨(h.flown p x hp).1, fun p' h1 h2 => hsome ((h.flown p x hp).2 p' h1 h2)⟩, h.known, h.unique,
    h.numbered, h.landing, fun x => ?_, fun wr a ha => ?_, fun p hp p' h1 h2 => ?_, fun x p hp => hkeep (h.returns x p hp)⟩
  · rcases hback hp with ⟨-, rfl⟩ | hp
    · exact ho
    · exact h.written p x hp
  · obtain ⟨c, hc⟩ := h.spot x
    refine ⟨c, fun p hp => ?_, fun p hp hfree' => ?_, hc.landing⟩
    · rcases hback hp with ⟨rfl, rfl⟩ | hp
      · exact hq c hc
      · exact hc.stored p hp
    · refine hc.flown p hp ?_
      by_cases he : p = q
      · rw [he]
        exact hfree
      · dsimp only at hfree'
        rwa [Function.update_of_ne he] at hfree'
  · have hs := h.sees wr a ha
    exact ⟨hs.bound, hs.dense, fun p x hp => hkeep (hs.objects p x hp), fun p h1 h2 => hsome (hs.filled p h1 h2)⟩
  · by_cases he : p = q
    · rw [he] at h2
      exact hsome (hbelow p' h1 h2)
    · dsimp only at hp
      rw [Function.update_of_ne he] at hp
      exact hsome (h.dense p hp p' h1 h2)

theorem fly {wr : Nat} {a : Appender} (ha : w.nodes wr = some a) {b : ChainBatch} (hb : a.phase.landing = some b) :
    ChainInv { w with flights := w.flights ++ [(a.tail + 1, ⟨wr, b⟩)] } := by
  have hs := h.sees wr a ha
  refine ⟨h.written, fun q o hq => ?_, h.known, h.unique, h.numbered, h.landing, fun o => ?_, h.sees, h.dense, h.returns⟩
  · rcases List.mem_append.mp hq with hq | hq
    · exact h.flown q o hq
    · obtain ⟨rfl, rfl⟩ := Prod.mk.inj (List.mem_singleton.mp hq)
      exact ⟨(h.landing wr a b ha hb).1, fun p h1 h2 => hs.filled p h1 (by omega)⟩
  · obtain ⟨c, hc⟩ := h.spot o
    refine ⟨c, hc.stored, fun q hq hfree => ?_, hc.landing⟩
    rcases List.mem_append.mp hq with hq | hq
    · exact hc.flown q hq hfree
    · obtain ⟨rfl, rfl⟩ := Prod.mk.inj (List.mem_singleton.mp hq)
      exact hc.landing a ha hb

theorem unfly (k : Nat) : ChainInv { w with flights := w.flights.eraseIdx k } := by
  refine ⟨h.written, fun q o hq => h.flown q o (List.mem_of_mem_eraseIdx hq), h.known, h.unique, h.numbered, h.landing, fun o => ?_, h.sees,
    h.dense, h.returns⟩
  obtain ⟨c, hc⟩ := h.spot o
  exact ⟨c, hc.stored, fun q hq hfree => hc.flown q (List.mem_of_mem_eraseIdx hq) hfree, hc.landing⟩

theorem land (k : Nat) : ChainInv (w.land k) := by
  unfold ChainWorld.land
  cases hk : w.flights[k]? with
  | none => exact h
  | some x =>
    obtain ⟨q, o⟩ := x
    dsimp only
    split
    · exact h.unfly k
    · next hfree =>
      have hmem := List.mem_of_getElem? hk
      obtain ⟨h1, h2⟩ := h.flown q o hmem
      have hfree : w.store q = none := by simpa using hfree
      exact (h.fill hfree h1 (fun c hc => hc.flown q hmem hfree) h2).unfly k

theorem returned {o : ChainObject} {p : Nat} (hp : w.store p = some o) : ChainInv { w with returned := w.returned ++ [(o, p)] } := by
  refine ⟨h.written, h.flown, h.known, h.unique, h.numbered, h.landing, fun x => ?_, h.sees, h.dense, fun x q hq => ?_⟩
  · obtain ⟨c, hc⟩ := h.spot x
    exact ⟨c, hc.stored, hc.flown, hc.landing⟩
  · rcases List.mem_append.mp hq with hq | hq
    · exact h.returns x q hq
    · obtain ⟨rfl, rfl⟩ := Prod.mk.inj (List.mem_singleton.mp hq)
      exact hp

theorem applyFetched {wr : Nat} {a a' : Appender} (ha : w.nodes wr = some a) {o : ChainObject} (ho : w.store (a.tail + 1) = some o)
    {accepts : Bool} (hf : a.applyFetched o accepts = some a') :
    Sees w.store a' ∧ a'.tail = a.tail + 1 ∧ a'.nextBatch = a.nextBatch ∧ a'.phase = a.phase := by
  have hs := h.sees wr a ha
  unfold Appender.applyFetched at hf
  split at hf
  · cases hf
    refine ⟨⟨Nat.le_succ_of_le hs.bound, ?_, fun q x hq => ?_, fun q h1 h2 => ?_⟩, rfl, rfl, rfl⟩
    · have hlen : a.tail + 1 - a.start = a.tail - a.start + 1 := by have := hs.bound; omega
      have hlast : a.start + 1 + (a.tail - a.start) = a.tail + 1 := by have := hs.bound; omega
      dsimp only
      rw [List.map_append, hs.dense, hlen, List.range'_concat]
      simp [hlast]
    · rcases List.mem_append.mp hq with hq | hq
      · exact hs.objects q x hq
      · obtain ⟨rfl, rfl⟩ := Prod.mk.inj (List.mem_singleton.mp hq)
        exact ho
    · by_cases he : q = a.tail + 1
      · rw [he, ho]
        rfl
      · exact hs.filled q h1 (by dsimp only at h2; omega)
  · simp at hf

theorem fetched {wr : Nat} {a : Appender} (ha : w.nodes wr = some a) {want : ChainBatch} (hb : a.phase.landing = some want)
    {o : ChainObject} (ho : w.store (a.tail + 1) = some o) (accepts : Bool) : ChainInv (w.fetched wr a want o accepts) := by
  obtain ⟨hhanded, hid⟩ := h.landing wr a want ha hb
  unfold ChainWorld.fetched
  cases hf : a.applyFetched o accepts with
  | none => exact h.setPhase ha fun _ hb => nomatch hb
  | some a' =>
    obtain ⟨h1, h2, h3, -⟩ := h.applyFetched ha ho hf
    dsimp only
    split
    · next hours =>
      -- the writer's batch ids are unique, so the object found is the batch itself
      simp only [ours, Bool.and_eq_true, decide_eq_true_eq] at hours
      have heq : o = ⟨wr, want⟩ := h.unique o (h.written _ o ho) _ hhanded hours.1.1.2 hours.2
      have hnode : ChainInv (w.setPhase wr a' .idle) :=
        h.setNode ha ⟨h3, ⟨h1.bound, h1.dense, h1.objects, h1.filled⟩, fun _ hb => nomatch hb⟩
      refine hnode.returned ?_
      rw [h2, ← heq]
      exact ho
    · next hours =>
      refine h.setNode ha ⟨h3, ⟨h1.bound, h1.dense, h1.objects, h1.filled⟩, fun b hb' => ?_⟩
      obtain rfl : want = b := by simpa [attempt, Phase.landing] using hb'
      refine ⟨hb, .inr ⟨h2, o, ho, ?_⟩⟩
      rintro rfl
      simp [ours, hid] at hours

theorem join (wr incarnation start : Nat) : ChainInv (w.join wr incarnation start) := by
  unfold ChainWorld.join
  split
  · exact h
  · next hno =>
    simp only [not_or, Bool.not_eq_false, List.all_eq_true, List.mem_range] at hno
    obtain ⟨-, hnone, hstart⟩ := hno
    have hnone : w.nodes wr = none := by simpa using hnone
    have hnode {wr' : Nat} {x : Appender} (hx : (w.setNode wr ⟨incarnation, start, start, 1, [], .idle⟩).nodes wr' = some x) :
        (wr' = wr ∧ x = ⟨incarnation, start, start, 1, [], .idle⟩) ∨ w.nodes wr' = some x := by
      by_cases hne : wr' = wr
      · subst hne
        simp only [ChainWorld.setNode, Function.update_self, Option.some.injEq] at hx
        exact .inl ⟨rfl, hx.symm⟩
      · simp only [ChainWorld.setNode, Function.update_of_ne hne] at hx
        exact .inr hx
    refine ⟨h.written, h.flown, fun o ho => ?_, h.unique, fun wr' x hx => ?_, fun wr' x b hx hb => ?_, fun o => ?_, fun wr' x hx => ?_,
      h.dense, h.returns⟩
    · by_cases hne : o.writer = wr
      · simp [ChainWorld.setNode, hne]
      · simpa [ChainWorld.setNode, Function.update_of_ne hne] using h.known o ho
    · rcases hnode hx with ⟨rfl, rfl⟩ | hx
      · refine ⟨Nat.le_refl _, fun o ho hw => ?_⟩
        have := h.known o ho
        rw [hw, hnone] at this
        simp at this
      · exact h.numbered wr' x hx
    · rcases hnode hx with ⟨rfl, rfl⟩ | hx
      · simp [Phase.landing] at hb
      · exact h.landing wr' x b hx hb
    · obtain ⟨c, hc⟩ := h.spot o
      refine ⟨c, hc.stored, hc.flown, fun x hx hb => ?_⟩
      rcases hnode hx with ⟨-, rfl⟩ | hx
      · simp [Phase.landing] at hb
      · exact hc.landing x hx hb
    · rcases hnode hx with ⟨rfl, rfl⟩ | hx
      · refine ⟨Nat.le_refl _, by simp, fun _ _ hq => (nomatch hq), fun q h1 h2 => ?_⟩
        have := hstart (q - 1) (by dsimp only at h2; omega)
        rwa [Nat.sub_add_cancel h1] at this
      · exact h.sees wr' x hx

theorem append (wr : Nat) (records : List ChainRecord) : ChainInv (w.append wr records) := by
  unfold ChainWorld.append
  cases ha : w.nodes wr with
  | none => exact h
  | some a =>
    dsimp only
    split
    · exact h
    · next hidle =>
      have hidle : a.phase = .idle := by simpa using hidle
      obtain ⟨hpos, hold⟩ := h.numbered wr a ha
      have hs := h.sees wr a ha
      generalize hbatch : (⟨a.nextBatch, a.incarnation, records⟩ : ChainBatch) = batch
      have hid : batch.batchID = a.nextBatch := by rw [← hbatch]
      have hfresh : (⟨wr, batch⟩ : ChainObject) ∉ w.handed := fun hm => by
        have := hold _ hm rfl
        dsimp only at this
        omega
      have hnode {wr' : Nat} {x : Appender} (hx : Function.update w.nodes wr
          (some { a with nextBatch := a.nextBatch + 1, phase := attempt batch false }) wr' = some x) :
          (wr' = wr ∧ x = { a with nextBatch := a.nextBatch + 1, phase := attempt batch false }) ∨ (wr' ≠ wr ∧ w.nodes wr' = some x) := by
        by_cases hne : wr' = wr
        · subst hne
          rw [Function.update_self] at hx
          exact .inl ⟨rfl, (Option.some.inj hx).symm⟩
        · rw [Function.update_of_ne hne] at hx
          exact .inr ⟨hne, hx⟩
      have hmem {o : ChainObject} (ho : o ∈ w.handed ++ [⟨wr, batch⟩]) : o ∈ w.handed ∨ o = ⟨wr, batch⟩ := by
        simpa using ho
      refine ⟨fun q o hq => List.mem_append_left _ (h.written q o hq),
        fun q o hq => ⟨List.mem_append_left _ (h.flown q o hq).1, (h.flown q o hq).2⟩, fun o ho => ?_, fun o ho o' ho' hw hid' => ?_,
        fun wr' x hx => ?_, fun wr' x b hx hb => ?_, fun o => ?_, fun wr' x hx => ?_, h.dense, h.returns⟩
      · by_cases hne : o.writer = wr
        · simp [ChainWorld.setNode, hne]
        · rcases hmem ho with ho | rfl
          · simpa [ChainWorld.setNode, Function.update_of_ne hne] using h.known o ho
          · exact absurd rfl hne
      · rcases hmem ho with ho | rfl <;> rcases hmem ho' with ho' | rfl
        · exact h.unique o ho o' ho' hw hid'
        · have := hold o ho hw
          dsimp only at hid'
          omega
        · have := hold o' ho' hw.symm
          dsimp only at hid'
          omega
        · rfl
      · rcases hnode hx with ⟨rfl, rfl⟩ | ⟨hne, hx⟩
        · refine ⟨by dsimp only; omega, fun o ho hw => ?_⟩
          rcases hmem ho with ho | rfl
          · have := hold o ho hw
            dsimp only
            omega
          · dsimp only
            omega
        · refine ⟨(h.numbered wr' x hx).1, fun o ho hw => ?_⟩
          rcases hmem ho with ho | rfl
          · exact (h.numbered wr' x hx).2 o ho hw
          · exact absurd hw.symm hne
      · rcases hnode hx with ⟨rfl, rfl⟩ | ⟨-, hx⟩
        · obtain rfl : batch = b := by simpa [attempt, Phase.landing] using hb
          exact ⟨List.mem_append_right _ (List.mem_singleton_self _), by omega⟩
        · exact ⟨List.mem_append_left _ (h.landing wr' x b hx hb).1, (h.landing wr' x b hx hb).2⟩
      · -- nothing of the new batch is stored or under way
        by_cases heq : o = ⟨wr, batch⟩
        · subst heq
          refine ⟨a.tail + 1, fun p hp => absurd (h.written p _ hp) hfresh, fun q hq _ => absurd (h.flown q _ hq).1 hfresh, fun x hx hb => ?_⟩
          rcases hnode hx with ⟨-, rfl⟩ | ⟨hne, -⟩
          · rfl
          · exact absurd rfl hne
        · obtain ⟨c, hc⟩ := h.spot o
          refine ⟨c, hc.stored, hc.flown, fun x hx hb => ?_⟩
          rcases hnode hx with ⟨hw, rfl⟩ | ⟨-, hx⟩
          · have hb' : batch = o.batch := by simpa [attempt, Phase.landing] using hb
            exact absurd (by rw [hb', ← hw]) heq
          · exact hc.landing x hx hb
      · rcases hnode hx with ⟨rfl, rfl⟩ | ⟨-, hx⟩
        · exact ⟨hs.bound, hs.dense, hs.objects, hs.filled⟩
        · exact h.sees wr' x hx

theorem follow (wr : Nat) : ChainInv (w.follow wr) := by
  unfold ChainWorld.follow
  cases ha : w.nodes wr with
  | none => exact h
  | some a =>
    dsimp only
    split
    · exact h
    · exact h.setPhase ha fun _ hb => nomatch hb

theorem get (wr : Nat) (fault accepts : Bool) : ChainInv (w.get wr fault accepts) := by
  unfold ChainWorld.get
  cases ha : w.nodes wr with
  | none => exact h
  | some a =>
    have hstop : ChainInv (w.setPhase wr a .idle) := h.setPhase ha fun _ hb => nomatch hb
    dsimp only
    cases hp : a.phase with
    | idle => exact h
    | following =>
      dsimp only
      split
      · exact hstop
      · cases ho : w.store (a.tail + 1) with
        | none => exact hstop
        | some o =>
          dsimp only
          cases hf : a.applyFetched o accepts with
          | none => exact hstop
          | some a' =>
            obtain ⟨h1, -, h3, h4⟩ := h.applyFetched ha ho hf
            exact h.setNode ha ⟨h3, h1, fun b hb => by rw [h4, hp] at hb; simp [Phase.landing] at hb⟩
    | probing batch =>
      dsimp only
      split
      · exact hstop
      · cases ho : w.store (a.tail + 1) with
        | none => exact h.setPhase ha fun b hb => by rw [hp]; exact hb
        | some o => exact h.fetched ha (by rw [hp]; rfl) ho accepts
    | putting batch contended => exact h
    | rechecking batch contended =>
      dsimp only
      split
      · exact hstop
      · cases ho : w.store (a.tail + 1) with
        | none =>
          refine h.setPhase ha fun b hb => ?_
          rw [hp]
          cases contended <;> exact hb
        | some o => exact h.fetched ha (by rw [hp]; rfl) ho accepts

theorem put (wr : Nat) (outcome : PutOutcome) (accepts : Bool) : ChainInv (w.put wr outcome accepts) := by
  unfold ChainWorld.put
  cases ha : w.nodes wr with
  | none => exact h
  | some a =>
    dsimp only
    cases hp : a.phase with
    | idle => exact h
    | following => exact h
    | probing batch => exact h
    | rechecking batch contended => exact h
    | putting batch contended =>
      have hb : a.phase.landing = some batch := by rw [hp]; rfl
      have hs := h.sees wr a ha
      cases outcome with
      | ok =>
        dsimp only
        split
        · exact h
        · next hfree =>
          have hfree : w.store (a.tail + 1) = none := by simpa using hfree
          have hfill := h.fill hfree (h.landing wr a batch ha hb).1 (fun c hc => hc.landing a ha hb)
            fun p h1 h2 => hs.filled p h1 (by omega)
          cases hf : a.applyFetched ⟨wr, batch⟩ accepts with
          | none => exact hfill.setPhase ha fun _ hb => nomatch hb
          | some a' =>
            have ho : Function.update w.store (a.tail + 1) (some ⟨wr, batch⟩) (a.tail + 1) = some ⟨wr, batch⟩ := Function.update_self ..
            obtain ⟨h1, h2, h3, -⟩ := hfill.applyFetched ha ho hf
            have hnode := hfill.setNode ha (show Moves _ wr a { a' with phase := .idle } from
              ⟨h3, ⟨h1.bound, h1.dense, h1.objects, h1.filled⟩, fun _ hb => nomatch hb⟩)
            exact hnode.returned (by rw [h2]; exact ho)
      | precondition =>
        dsimp only
        split
        · exact h.setPhase ha fun b hb' => by rw [hb]; exact hb'
        · exact h
      | ambiguous => exact (h.fly ha hb).setPhase ha fun b hb' => by rw [hb]; exact hb'
      | fault => exact (h.fly ha hb).setPhase ha fun _ hb' => nomatch hb'

theorem step (op : ChainOp) : ChainInv (w.step op) := by
  cases op with
  | join writer incarnation start => exact h.join writer incarnation start
  | append writer records => exact h.append writer records
  | follow writer => exact h.follow writer
  | get writer fault accepts => exact h.get writer fault accepts
  | put writer outcome accepts => exact h.put writer outcome accepts
  | land k => exact h.land k

theorem run (ops : List ChainOp) : ChainInv (ops.foldl ChainWorld.step w) := by
  induction ops generalizing w with
  | nil => exact h
  | cons op ops ih => exact ih (h.step op)

end ChainInv

theorem Sees.objects_extend {store : Nat → Option ChainObject} {a b : Appender} (ha : Sees store a) (hb : Sees store b)
    (hstart : a.start = b.start) (hle : a.tail ≤ b.tail) : a.applied <+: b.applied := by
  have hlen {x : Appender} (hx : Sees store x) : x.applied.length = x.tail - x.start := by
    rw [← List.length_map Prod.fst, hx.dense, List.length_range']
  have hat {x : Appender} (hx : Sees store x) {k : Nat} (hk : k < x.applied.length) :
      some x.applied[k] = (store (x.start + 1 + k)).map fun o => (x.start + 1 + k, o) := by
    have hfst : x.applied[k].1 = x.start + 1 + k := by
      have h1 : (x.applied.map Prod.fst)[k]? = some x.applied[k].1 := by simp [hk]
      rw [hx.dense, List.getElem?_range' (by rw [← hlen hx]; exact hk)] at h1
      have := Option.some.inj h1
      omega
    have hobj : store x.applied[k].1 = some x.applied[k].2 := hx.objects _ _ (List.getElem_mem hk)
    rw [hfst] at hobj
    rw [hobj, ← hfst]
    rfl
  have hle' : a.applied.length ≤ b.applied.length := by
    rw [hlen ha, hlen hb, hstart]
    omega
  refine List.prefix_iff_getElem?.mpr fun k hk => ?_
  rw [List.getElem?_eq_getElem (Nat.lt_of_lt_of_le hk hle'), hat hb (Nat.lt_of_lt_of_le hk hle'), ← hstart, ← hat ha hk]

/-- Over every interleaving of joins, appends, follows and PUTs of unknown outcome: each applier has taken the positions
behind its tail one by one as the bucket has them, no batch is stored twice, and a reported position holds the batch. -/
theorem chain_append_agrees (ops : List ChainOp) :
    let w := ops.foldl ChainWorld.step emptyChain
    (∀ wr a, w.nodes wr = some a → a.applied.map Prod.fst = List.range' (a.start + 1) (a.tail - a.start) ∧
      ∀ q o, (q, o) ∈ a.applied → w.store q = some o) ∧
    (∀ wr wr' a b, w.nodes wr = some a → w.nodes wr' = some b →
      (∀ q o o', (q, o) ∈ a.applied → (q, o') ∈ b.applied → o = o') ∧
      (a.start = b.start → a.applied <+: b.applied ∨ b.applied <+: a.applied)) ∧
    (∀ q o, w.store q = some o → o ∈ w.handed ∧ (∀ p, w.store p = some o → p = q) ∧ ∀ p, 1 ≤ p → p < q → (w.store p).isSome = true) ∧
    (∀ o ∈ w.handed, ∀ o' ∈ w.handed, o.writer = o'.writer → o.batch.batchID = o'.batch.batchID → o = o') ∧
    ∀ o p, (o, p) ∈ w.returned → w.store p = some o := by
  intro w
  have h : ChainInv w := emptyChain_inv.run ops
  refine ⟨fun wr a ha => ⟨(h.sees wr a ha).dense, (h.sees wr a ha).objects⟩, fun wr wr' a b ha hb => ⟨fun q o o' hq hq' => ?_, fun hstart => ?_⟩,
    fun q o hq => ⟨h.written q o hq, fun p hp => ?_, h.dense q (by rw [hq]; rfl)⟩, h.unique, h.returns⟩
  · have h1 := (h.sees wr a ha).objects q o hq
    have h2 := (h.sees wr' b hb).objects q o' hq'
    rw [h1] at h2
    exact Option.some.inj h2
  · rcases Nat.le_total a.tail b.tail with hle | hle
    · exact .inl ((h.sees wr a ha).objects_extend (h.sees wr' b hb) hstart hle)
    · exact .inr ((h.sees wr' b hb).objects_extend (h.sees wr a ha) hstart.symm hle)
  · obtain ⟨c, hc⟩ := h.spot o
    rw [hc.stored p hp, hc.stored q hq]

end Aki.Obs1
