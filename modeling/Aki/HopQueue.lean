import Aki.SwapList

namespace Aki.HopQueue

/-- A cell of the intrusive list: the stub of the queue, or a producer's batch. -/
inductive Ref (ν : Type) where
  | stub
  | node (b : ν)
  deriving DecidableEq, Repr

/-- The consumer states a waker keeps in its word. -/
inductive Word where
  | running
  | spinning
  | parked
  deriving DecidableEq, Repr

/-- Where a producer stands between two atomic operations: in `push`, then in `wake` when the push found the stub. -/
inductive Producer (ν : Type) where
  | idle
  | cleared (b : ν)
  | swapped (b : ν) (prev : Ref ν)
  | wakeLoad
  | wakeCas
  | wakeSend
  deriving DecidableEq, Repr

/-- Where the consumer stands: in `pop`, in the push of the stub inside it, or in a turn of its idle loop. -/
inductive Consumer (ν : Type) where
  | popHead
  | popNode (h : Ref ν)
  | popTail (h : Ref ν)
  | stubClear (h : Ref ν)
  | stubSwap (h : Ref ν)
  | stubLink (h prev : Ref ν)
  | popLast (h : Ref ν)
  | idle
  | spin
  | spinTail
  | toRunning
  | recheck
  | recheckTail
  | unparkSelf
  | unparkRecv
  | parked
  deriving DecidableEq, Repr

/-- The shared words of the queue and its waker, the channel's token, and the threads. Not in the program are the cells from the
head to the tail, the pushes in the order they began and in the order of their tail swaps, and the batches popped. -/
structure State (P ν : Type) where
  next : Ref ν → Option (Ref ν)
  tail : Ref ν
  head : Ref ν
  word : Word
  token : Bool
  prod : P → Producer ν
  cons : Consumer ν
  cells : List (Ref ν)
  begun : List (P × ν)
  swaps : List (P × ν)
  popped : List ν

inductive Label (P ν : Type) where
  | push (p : P) (b : ν)
  | producer (p : P)
  | consumer (choice : Bool)
  deriving DecidableEq, Repr

variable {P ν : Type} [DecidableEq P] [DecidableEq ν]

def initial : State P ν :=
  ⟨fun _ => none, .stub, .stub, .running, false, fun _ => .idle, .popHead, [.stub], [], [], []⟩

namespace State

def setProd (s : State P ν) (p : P) (pc : Producer ν) : State P ν := { s with prod := Function.update s.prod p pc }

def setNext (s : State P ν) (a : Ref ν) (b : Option (Ref ν)) : State P ν := { s with next := Function.update s.next a b }

def swapIn (s : State P ν) (a : Ref ν) : State P ν := { s with tail := a, cells := s.cells ++ [a] }

def advance (s : State P ν) (a : Ref ν) : State P ν := { s with head := a, cells := s.cells.tail }

/-- `pop` returns a cell, which is never the stub. -/
def returns (s : State P ν) : Ref ν → State P ν
  | .stub => s
  | .node b => { s with popped := s.popped ++ [b], cons := .popHead }

/-- A push begins with a batch that is not queued and that no other producer is about to queue. -/
def beginPush (s : State P ν) (p : P) (b : ν) : Option (State P ν) :=
  match s.prod p with
  | .idle => some ({ s.setNext (.node b) none with begun := s.begun ++ [(p, b)] }.setProd p (.cleared b))
  | _ => none

def stepProducer (s : State P ν) (p : P) : Option (State P ν) :=
  match s.prod p with
  | .idle => none
  | .cleared b => some ({ s.swapIn (.node b) with swaps := s.swaps ++ [(p, b)] }.setProd p (.swapped b s.tail))
  | .swapped b prev => some ((s.setNext prev (some (.node b))).setProd p (if prev = .stub then .wakeLoad else .idle))
  | .wakeLoad => some (s.setProd p (if s.word = .parked then .wakeCas else .idle))
  | .wakeCas => if s.word = .parked then some ({ s with word := .running }.setProd p .wakeSend) else some (s.setProd p .idle)
  | .wakeSend => if s.token then none else some ({ s with token := true }.setProd p .idle)

/-- One atomic operation of the consumer. The choice is whether it pops again after an empty pop, whether the spin goes on, and after
the recheck whether the consumer is to stop. -/
def stepConsumer (s : State P ν) (choice : Bool) : Option (State P ν) :=
  match s.cons with
  | .popHead =>
    match s.head, s.next s.head with
    | .stub, none => some { s with cons := .idle }
    | .stub, some a => some { s.advance a with cons := .popNode a }
    | .node b, some a => some ((s.advance a).returns (.node b))
    | .node b, none => some { s with cons := .popTail (.node b) }
  | .popNode h =>
    match s.next h with
    | some a => some ((s.advance a).returns h)
    | none => some { s with cons := .popTail h }
  | .popTail h => if s.tail = h then some { s with cons := .stubClear h } else some { s with cons := .idle }
  | .stubClear h => some { s.setNext .stub none with cons := .stubSwap h }
  | .stubSwap h => some { s.swapIn .stub with cons := .stubLink h s.tail }
  | .stubLink h prev => some { s.setNext prev (some .stub) with cons := .popLast h }
  | .popLast h =>
    match s.next h with
    | some a => some ((s.advance a).returns h)
    | none => some { s with cons := .idle }
  | .idle => if choice then some { s with cons := .popHead } else some { s with word := .spinning, cons := .spin }
  | .spin =>
    if choice then
      match s.next s.head with
      | some _ => some { s with cons := .toRunning }
      | none => some { s with cons := .spinTail }
    else some { s with word := .parked, cons := .recheck }
  | .spinTail => if s.tail = s.head then some { s with cons := .spin } else some { s with cons := .toRunning }
  | .toRunning => some { s with word := .running, cons := .popHead }
  | .recheck =>
    match s.next s.head with
    | some _ => some { s with cons := .unparkSelf }
    | none => some { s with cons := .recheckTail }
  | .recheckTail => if s.tail = s.head ∧ choice = false then some { s with cons := .parked } else some { s with cons := .unparkSelf }
  | .unparkSelf =>
    if s.word = .parked then some { s with word := .running, cons := .popHead } else some { s with cons := .unparkRecv }
  | .unparkRecv => if s.token then some { s with token := false, cons := .popHead } else none
  | .parked => if s.token then some { s with token := false, cons := .popHead } else none

end State

/-- A batch is free while it is not queued and no producer is about to queue it. -/
def Free (s : State P ν) (b : ν) : Prop := Ref.node b ∉ s.cells ∧ ∀ p, s.prod p ≠ .cleared b

def step (s : State P ν) : Label P ν → Option (State P ν)
  | .push p b => s.beginPush p b
  | .producer p => s.stepProducer p
  | .consumer choice => s.stepConsumer choice

/-- The states of all interleavings in which every push is given a free batch. -/
inductive Reachable : State P ν → Prop
  | initial : Reachable initial
  | step (s s' : State P ν) (l : Label P ν) (h : Reachable s) (hfree : ∀ p b, l = .push p b → Free s b) (hs : step s l = some s') :
      Reachable s'

open SwapList

variable {P ν : Type} [DecidableEq P] [DecidableEq ν] {s s' : State P ν}

def Ref.batch? : Ref ν → Option ν
  | .stub => none
  | .node b => some b

/-- A link still to be made, by a producer past its swap or by the consumer that puts the stub back in. -/
inductive Pends (prod : P → Producer ν) (cons : Consumer ν) : Ref ν → Ref ν → Prop
  | producer (p : P) (b : ν) (prev : Ref ν) (h : prod p = .swapped b prev) : Pends prod cons prev (.node b)
  | stub (h prev : Ref ν) (hc : cons = .stubLink h prev) : Pends prod cons prev .stub

/-- What the consumer knows where it stands, of the two ends, the cells and the link of the stub. Past a pop that found nothing the
head is the stub or not the last cell. -/
def Consumer.Knows (head tail : Ref ν) (cells : List (Ref ν)) (stubNext : Option (Ref ν)) : Consumer ν → Prop
  | .popHead => True
  | .popNode h => head = h ∧ h ≠ .stub ∧ .stub ∉ cells
  | .popTail h => head = h ∧ h ≠ .stub
  | .stubClear h => head = h ∧ h ≠ .stub ∧ .stub ∉ cells
  | .stubSwap h => head = h ∧ h ≠ .stub ∧ .stub ∉ cells ∧ stubNext = none
  | .stubLink h _ => head = h ∧ h ≠ .stub ∧ .stub ∈ cells
  | .popLast h => head = h ∧ h ≠ .stub ∧ .stub ∈ cells
  | _ => head ≠ .stub → head ≠ tail

/-- The push a producer has begun and not swapped in. -/
def Producer.begun (p : P) : Producer ν → List (P × ν)
  | .cleared b => [(p, b)]
  | _ => []

structure Inv (s : State P ν) : Prop where
  head : s.cells.head? = some s.head
  tail : s.cells.getLast? = some s.tail
  spine : Spine s.next s.cells (Pends s.prod s.cons)
  linkers : ∀ p q b a a', s.prod p = .swapped b a → s.prod q = .swapped b a' → p = q
  cleared : ∀ p b, s.prod p = .cleared b → .node b ∉ s.cells ∧ s.next (.node b) = none
  clearedOnce : ∀ p q b, s.prod p = .cleared b → s.prod q = .cleared b → p = q
  consumer : s.cons.Knows s.head s.tail s.cells (s.next .stub)
  contents : s.swaps.map Prod.snd = s.popped ++ s.cells.filterMap Ref.batch?
  order : ∀ p, s.begun.filter (fun e => decide (e.1 = p)) = s.swaps.filter (fun e => decide (e.1 = p)) ++ (s.prod p).begun p

theorem initial_inv : Inv (initial : State P ν) where
  head := rfl
  tail := rfl
  spine := by
    refine ⟨by simp [initial], by simp [initial], fun a b hab => ?_, fun a b hab => ?_⟩
    · have := hab.length_le
      simp [initial] at this
    · cases hab with
      | producer p b prev h => simp [initial] at h
      | stub h prev hc => simp [initial] at hc
  linkers := by simp [initial]
  cleared := by simp [initial]
  clearedOnce := by simp [initial]
  consumer := trivial
  contents := rfl
  order := fun _ => rfl

/-- The pending links do not change when the consumer moves outside the link of the stub. -/
theorem pends_iff {prod : P → Producer ν} {c c' : Consumer ν} (hold : ∀ h a, c ≠ .stubLink h a) (hnew : ∀ h a, c' ≠ .stubLink h a)
    (a b : Ref ν) : Pends prod c' a b ↔ Pends prod c a b := by
  constructor
  · intro h
    cases h with
    | producer p b prev h => exact .producer p b _ h
    | stub h prev hc => exact absurd hc (hnew _ _)
  · intro h
    cases h with
    | producer p b prev h => exact .producer p b _ h
    | stub h prev hc => exact absurd hc (hold _ _)

theorem Inv.control (h : Inv s) (c : Consumer ν) (w : Word) (t : Bool) (hold : ∀ h a, s.cons ≠ .stubLink h a)
    (hnew : ∀ h a, c ≠ .stubLink h a) (hok : c.Knows s.head s.tail s.cells (s.next .stub)) : Inv { s with word := w, token := t, cons := c } where
  head := h.head
  tail := h.tail
  spine := h.spine.congr (pends_iff hold hnew)
  linkers := h.linkers
  cleared := h.cleared
  clearedOnce := h.clearedOnce
  consumer := hok
  contents := h.contents
  order := h.order

theorem Inv.cells_cons (h : Inv s) : s.cells = s.head :: s.cells.tail := by
  obtain ⟨xs, hxs⟩ := List.head?_eq_some_iff.mp h.head
  rw [hxs, List.tail_cons]

theorem Inv.advance (h : Inv s) {a : Ref ν} (hn : s.next s.head = some a) (hold : ∀ h a, s.cons ≠ .stubLink h a) (c : Consumer ν)
    (hnew : ∀ h a, c ≠ .stubLink h a) (out : List ν) (hout : s.head.batch?.toList = out)
    (hok : c.Knows a s.tail s.cells.tail (s.next .stub)) : Inv { s.advance a with popped := s.popped ++ out, cons := c } := by
  have hcells := h.cells_cons
  have hspine := h.spine
  rw [hcells] at hspine
  obtain ⟨hhead, hrest⟩ := hspine.advance hn
  refine ⟨hhead, ?_, ?_, h.linkers, fun p b hb => ?_, h.clearedOnce, hok, ?_, h.order⟩
  · have ht := h.tail
    rw [hcells] at ht
    change s.cells.tail.getLast? = some s.tail
    cases htl : s.cells.tail with
    | nil => rw [htl] at hhead; simp at hhead
    | cons y ys =>
      rw [htl, List.getLast?_cons_cons] at ht
      exact ht
  · exact hrest.congr (pends_iff hold hnew)
  · obtain ⟨hm, hnone⟩ := h.cleared p b hb
    exact ⟨fun hmem => hm (List.mem_of_mem_tail hmem), hnone⟩
  · have hc := h.contents
    rw [hcells, List.filterMap_cons] at hc
    change s.swaps.map Prod.snd = (s.popped ++ out) ++ s.cells.tail.filterMap Ref.batch?
    rw [hc, ← hout, List.append_assoc]
    cases s.head.batch? <;> rfl

theorem Inv.returns (h : Inv s) {a : Ref ν} {b : ν} (hh : s.head = .node b) (hn : s.next (.node b) = some a)
    (hold : ∀ h a, s.cons ≠ .stubLink h a) : Inv ((s.advance a).returns (.node b)) := by
  refine h.advance (by rw [hh]; exact hn) hold .popHead nofun [b] ?_ trivial
  rw [hh]
  rfl

theorem Inv.stub_out (h : Inv s) (hh : s.head = .stub) : Ref.stub ∉ s.cells.tail := by
  have hnd := h.spine.nodup
  rw [h.cells_cons, hh] at hnd
  exact (List.nodup_cons.mp hnd).1

theorem Inv.tail_ne {c : Ref ν} (h : Inv s) (hc : c ∉ s.cells) : s.head ≠ c := by
  rintro rfl
  exact hc (List.mem_of_head? h.head)

theorem not_linking {c : Consumer ν} (hc : s.cons = c) (hn : ∀ h a, c ≠ .stubLink h a) (h : Ref ν) (a : Ref ν) : s.cons ≠ .stubLink h a :=
  hc ▸ hn h a

theorem Inv.stubClear (h : Inv s) {x : Ref ν} (hc : s.cons = .stubClear x) :
    Inv { s.setNext .stub none with cons := .stubSwap x } := by
  have hok := h.consumer
  have hold := not_linking hc nofun
  rw [hc] at hok
  obtain ⟨hh, hx, hstub⟩ := hok
  refine ⟨h.head, h.tail, (h.spine.outside hstub none).congr (pends_iff hold nofun), h.linkers, fun p b hb => ?_, h.clearedOnce,
    ⟨hh, hx, hstub, by simp [State.setNext]⟩, h.contents, h.order⟩
  obtain ⟨hm, hnone⟩ := h.cleared p b hb
  exact ⟨hm, by simpa [State.setNext] using hnone⟩

theorem Inv.stubSwap (h : Inv s) {x : Ref ν} (hc : s.cons = .stubSwap x) :
    Inv { s.swapIn .stub with cons := .stubLink x s.tail } := by
  have hok := h.consumer
  rw [hc] at hok
  obtain ⟨hh, hx, hstub, hnone⟩ := hok
  refine ⟨?_, ?_, h.spine.swapIn h.tail hstub hnone fun a b => ?_, h.linkers, fun p b hb => ?_, h.clearedOnce,
    ⟨hh, hx, List.mem_append_right _ (by simp)⟩, ?_, h.order⟩
  · change (s.cells ++ [Ref.stub]).head? = some s.head
    rw [h.cells_cons]
    rfl
  · exact List.getLast?_concat
  · constructor
    · intro hp
      cases hp with
      | producer p b prev hp => exact Or.inl (.producer p b _ hp)
      | stub h' prev hp => cases hp; exact Or.inr ⟨rfl, rfl⟩
    · rintro (hp | ⟨rfl, rfl⟩)
      · cases hp with
        | producer p b prev hp => exact .producer p b _ hp
        | stub h' prev hp => rw [hc] at hp; exact absurd hp nofun
      · exact .stub x _ rfl
  · obtain ⟨hm, hn⟩ := h.cleared p b hb
    refine ⟨fun hmem => ?_, hn⟩
    rcases List.mem_append.mp hmem with hmem | hmem
    · exact hm hmem
    · simp at hmem
  · have hcon := h.contents
    change s.swaps.map Prod.snd = s.popped ++ (s.cells ++ [Ref.stub]).filterMap Ref.batch?
    rw [hcon, List.filterMap_append]
    simp [Ref.batch?]

theorem Inv.stubLink (h : Inv s) {x prev : Ref ν} (hc : s.cons = .stubLink x prev) :
    Inv { s.setNext prev (some .stub) with cons := .popLast x } := by
  have hok := h.consumer
  rw [hc] at hok
  obtain ⟨hh, hx, hstub⟩ := hok
  have hpend : Pends s.prod s.cons prev .stub := .stub x prev hc
  refine ⟨h.head, h.tail, h.spine.link hpend fun a b => ?_, h.linkers, fun p b hb => ?_, h.clearedOnce, ⟨hh, hx, hstub⟩, h.contents,
    h.order⟩
  · constructor
    · intro hp
      cases hp with
      | producer p b prev hp => exact ⟨.producer p b _ hp, fun he => absurd he.2 (by simp)⟩
      | stub h' prev hp => exact absurd hp (by simp)
    · rintro ⟨hp, hne⟩
      cases hp with
      | producer p b prev hp => exact .producer p b _ hp
      | stub h' prev' hp =>
        rw [hc] at hp
        exact absurd ⟨(Consumer.stubLink.inj hp).2.symm, rfl⟩ hne
  · obtain ⟨hm, hn⟩ := h.cleared p b hb
    refine ⟨hm, (Function.update_of_ne ?_ _ _).trans hn⟩
    rintro rfl
    exact hm (pair_mem (h.spine.pends _ _ hpend).1).1

theorem Inv.stepConsumer (h : Inv s) {choice : Bool} (hs : s.stepConsumer choice = some s') : Inv s' := by
  have hok := h.consumer
  unfold State.stepConsumer at hs
  cases hc : s.cons with
  | popHead =>
    have hold := not_linking hc nofun
    rw [hc] at hs
    dsimp only at hs
    split at hs
    next hh hn =>
      cases hs
      exact h.control .idle s.word s.token hold nofun fun hne => absurd hh hne
    next a hh hn =>
      cases hs
      have hout := h.stub_out hh
      have hcells := h.spine
      rw [h.cells_cons] at hcells
      obtain ⟨hhead, -⟩ := hcells.advance hn
      have hadv := h.advance hn hold (.popNode a) nofun [] (by rw [hh]; rfl)
        ⟨rfl, fun he => hout (he ▸ List.mem_of_head? hhead), hout⟩
      rw [List.append_nil] at hadv
      exact hadv
    next b a hh hn =>
      cases hs
      exact h.returns hh (hh ▸ hn) hold
    next b hh hn =>
      cases hs
      exact h.control (.popTail (.node b)) s.word s.token hold nofun ⟨hh, nofun⟩
  | popNode x =>
    have hold := not_linking hc nofun
    rw [hc] at hok
    obtain ⟨hh, hx, hstub⟩ := hok
    rw [hc] at hs
    dsimp only at hs
    cases x with
    | stub => exact absurd rfl hx
    | node b =>
      split at hs
      next a hn => cases hs; exact h.returns hh hn hold
      next => cases hs; exact h.control (.popTail (.node b)) s.word s.token hold nofun ⟨hh, nofun⟩
  | popTail x =>
    have hold := not_linking hc nofun
    rw [hc] at hok
    obtain ⟨hh, hx⟩ := hok
    rw [hc] at hs
    dsimp only at hs
    split at hs
    next ht =>
      cases hs
      refine h.control (.stubClear x) s.word s.token hold nofun ⟨hh, hx, ?_⟩
      have hone := eq_singleton h.spine.nodup (hh ▸ h.head) (ht ▸ h.tail)
      change Ref.stub ∉ s.cells
      rw [hone]
      simpa [eq_comm] using hx
    next ht =>
      cases hs
      refine h.control .idle s.word s.token hold nofun fun _ => ?_
      rw [hh]
      exact fun he => ht he.symm
  | stubClear x =>
    rw [hc] at hs
    cases hs
    exact h.stubClear hc
  | stubSwap x =>
    rw [hc] at hs
    cases hs
    exact h.stubSwap hc
  | stubLink x prev =>
    rw [hc] at hs
    cases hs
    exact h.stubLink hc
  | popLast x =>
    have hold := not_linking hc nofun
    rw [hc] at hok
    obtain ⟨hh, hx, hstub⟩ := hok
    rw [hc] at hs
    dsimp only at hs
    cases x with
    | stub => exact absurd rfl hx
    | node b =>
      split at hs
      next a hn => cases hs; exact h.returns hh hn hold
      next =>
        cases hs
        refine h.control .idle s.word s.token hold nofun fun _ he => ?_
        change s.head = s.tail at he
        have hone := eq_singleton h.spine.nodup h.head (he ▸ h.tail)
        rw [hone, hh] at hstub
        simp at hstub
  | idle =>
    have hold := not_linking hc nofun
    rw [hc] at hok
    rw [hc] at hs
    dsimp only at hs
    split at hs
    · cases hs; exact h.control .popHead s.word s.token hold nofun trivial
    · cases hs; exact h.control .spin .spinning s.token hold nofun hok
  | spin =>
    have hold := not_linking hc nofun
    rw [hc] at hok
    rw [hc] at hs
    dsimp only at hs
    split at hs
    · split at hs
      · cases hs; exact h.control .toRunning s.word s.token hold nofun hok
      · cases hs; exact h.control .spinTail s.word s.token hold nofun hok
    · cases hs; exact h.control .recheck .parked s.token hold nofun hok
  | spinTail =>
    have hold := not_linking hc nofun
    rw [hc] at hok
    rw [hc] at hs
    dsimp only at hs
    split at hs
    · cases hs; exact h.control .spin s.word s.token hold nofun hok
    · cases hs; exact h.control .toRunning s.word s.token hold nofun hok
  | toRunning =>
    have hold := not_linking hc nofun
    rw [hc] at hs
    cases hs
    exact h.control .popHead .running s.token hold nofun trivial
  | recheck =>
    have hold := not_linking hc nofun
    rw [hc] at hok
    rw [hc] at hs
    dsimp only at hs
    split at hs
    · cases hs; exact h.control .unparkSelf s.word s.token hold nofun hok
    · cases hs; exact h.control .recheckTail s.word s.token hold nofun hok
  | recheckTail =>
    have hold := not_linking hc nofun
    rw [hc] at hok
    rw [hc] at hs
    dsimp only at hs
    split at hs
    · cases hs; exact h.control .parked s.word s.token hold nofun hok
    · cases hs; exact h.control .unparkSelf s.word s.token hold nofun hok
  | unparkSelf =>
    have hold := not_linking hc nofun
    rw [hc] at hok
    rw [hc] at hs
    dsimp only at hs
    split at hs
    · cases hs; exact h.control .popHead .running s.token hold nofun trivial
    · cases hs; exact h.control .unparkRecv s.word s.token hold nofun hok
  | unparkRecv =>
    have hold := not_linking hc nofun
    rw [hc] at hs
    dsimp only at hs
    split at hs
    · cases hs; exact h.control .popHead s.word false hold nofun trivial
    · cases hs
  | parked =>
    have hold := not_linking hc nofun
    rw [hc] at hs
    dsimp only at hs
    split at hs
    · cases hs; exact h.control .popHead s.word false hold nofun trivial
    · cases hs

theorem setProd_self (s : State P ν) (p : P) (pc : Producer ν) : (s.setProd p pc).prod p = pc := Function.update_self ..

theorem setProd_ne (s : State P ν) {p q : P} (pc : Producer ν) (h : q ≠ p) : (s.setProd p pc).prod q = s.prod q :=
  Function.update_of_ne h ..

/-- The pending links when one producer moves and is not past its swap on either side. -/
theorem pends_update {prod : P → Producer ν} {c : Consumer ν} {p : P} {pc : Producer ν} (hold : ∀ b a, prod p ≠ .swapped b a)
    (hnew : ∀ b a, pc ≠ .swapped b a) (a b : Ref ν) : Pends (Function.update prod p pc) c a b ↔ Pends prod c a b := by
  constructor
  · intro h
    cases h with
    | producer q b prev h =>
      by_cases hq : q = p
      · rw [hq, Function.update_self] at h
        exact absurd h (hnew _ _)
      · rw [Function.update_of_ne hq] at h
        exact .producer q b _ h
    | stub h prev hc => exact .stub h _ hc
  · intro h
    cases h with
    | producer q b prev h =>
      refine .producer q b _ ?_
      rw [Function.update_of_ne (fun hq => hold _ _ (hq ▸ h))]
      exact h
    | stub h prev hc => exact .stub h _ hc

theorem Inv.setProd (h : Inv s) {p : P} {pc : Producer ν} (w : Word) (t : Bool) (hold : ∀ b a, s.prod p ≠ .swapped b a)
    (hold' : ∀ b, s.prod p ≠ .cleared b) (hnew : ∀ b a, pc ≠ .swapped b a) (hnew' : ∀ b, pc ≠ .cleared b) :
    Inv ({ s with word := w, token := t }.setProd p pc) := by
  have hkeep : ∀ q b a, (s.setProd p pc).prod q = .swapped b a → s.prod q = .swapped b a := by
    intro q b a hq
    by_cases he : q = p
    · rw [he, setProd_self] at hq
      exact absurd hq (hnew _ _)
    · rwa [setProd_ne s pc he] at hq
  have hkeep' : ∀ q b, (s.setProd p pc).prod q = .cleared b → s.prod q = .cleared b := by
    intro q b hq
    by_cases he : q = p
    · rw [he, setProd_self] at hq
      exact absurd hq (hnew' _)
    · rwa [setProd_ne s pc he] at hq
  refine ⟨h.head, h.tail, h.spine.congr (pends_update hold hnew), fun q r b a a' hq hr => h.linkers q r b a a' (hkeep _ _ _ hq) (hkeep _ _ _ hr),
    fun q b hq => h.cleared q b (hkeep' _ _ hq), fun q r b hq hr => h.clearedOnce q r b (hkeep' _ _ hq) (hkeep' _ _ hr),
    h.consumer, h.contents, fun q => ?_⟩
  · change s.begun.filter _ = s.swaps.filter _ ++ ((s.setProd p pc).prod q).begun q
    rw [h.order q]
    congr 1
    by_cases he : q = p
    · subst he
      rw [setProd_self]
      cases hp : s.prod q <;> cases hpc : pc <;> first | rfl | exact absurd hp (hold' _) | exact absurd hpc (hnew' _)
    · rw [setProd_ne s pc he]

theorem Inv.beginPush (h : Inv s) {p : P} {b : ν} (hfree : Free s b) (hs : s.beginPush p b = some s') : Inv s' := by
  unfold State.beginPush at hs
  split at hs
  next hp =>
    cases hs
    have hold : ∀ b a, s.prod p ≠ .swapped b a := by rw [hp]; exact nofun
    have hswapped : ∀ q c a, (s.setProd p (.cleared b)).prod q = .swapped c a → s.prod q = .swapped c a := by
      intro q c a hq
      by_cases he : q = p
      · rw [he, setProd_self] at hq
        exact absurd hq nofun
      · rwa [setProd_ne s _ he] at hq
    have hclear : ∀ q c, (s.setProd p (.cleared b)).prod q = .cleared c → (q = p ∧ c = b) ∨ (q ≠ p ∧ s.prod q = .cleared c) := by
      intro q c hq
      by_cases he : q = p
      · rw [he, setProd_self] at hq
        exact Or.inl ⟨he, (Producer.cleared.inj hq).symm⟩
      · rw [setProd_ne s _ he] at hq
        exact Or.inr ⟨he, hq⟩
    refine ⟨h.head, h.tail, (h.spine.outside hfree.1 none).congr (pends_update hold nofun), fun q r c a a' hq hr => ?_, fun q c hq => ?_,
      fun q r c hq hr => ?_, ?_, h.contents, fun q => ?_⟩
    · exact h.linkers q r c a a' (hswapped _ _ _ hq) (hswapped _ _ _ hr)
    · rcases hclear q c hq with ⟨-, rfl⟩ | ⟨-, hq⟩
      · exact ⟨hfree.1, Function.update_self ..⟩
      · obtain ⟨hm, hn⟩ := h.cleared q c hq
        have hne : Ref.node c ≠ .node b := fun he => hfree.2 q (by rw [← Ref.node.inj he]; exact hq)
        exact ⟨hm, (Function.update_of_ne hne _ _).trans hn⟩
    · rcases hclear q c hq with ⟨hqp, hcb⟩ | ⟨-, hq'⟩
      · rcases hclear r c hr with ⟨hrp, -⟩ | ⟨-, hr'⟩
        · exact hqp.trans hrp.symm
        · exact absurd (hcb ▸ hr') (hfree.2 r)
      · rcases hclear r c hr with ⟨-, hcb⟩ | ⟨-, hr'⟩
        · exact absurd (hcb ▸ hq') (hfree.2 q)
        · exact h.clearedOnce q r c hq' hr'
    · have hstub : (s.setNext (.node b) none).next .stub = s.next .stub := by simp [State.setNext]
      change s.cons.Knows s.head s.tail s.cells ((s.setNext (.node b) none).next .stub)
      rw [hstub]
      exact h.consumer
    · change (s.begun ++ [(p, b)]).filter _ = s.swaps.filter _ ++ ((s.setProd p (.cleared b)).prod q).begun q
      rw [List.filter_append, h.order q]
      by_cases he : q = p
      · subst he
        rw [setProd_self, hp]
        simp [Producer.begun]
      · rw [setProd_ne s _ he]
        simp [Ne.symm he]
  next => cases hs

theorem Knows.swapIn {head tail : Ref ν} {cells : List (Ref ν)} {n : Option (Ref ν)} {c : Consumer ν} {b : ν}
    (h : c.Knows head tail cells n) (hh : head ≠ .node b) : c.Knows head (.node b) (cells ++ [.node b]) n := by
  have hout : Ref.stub ∉ cells → Ref.stub ∉ cells ++ [Ref.node b] := fun hs hm => by
    rcases List.mem_append.mp hm with hm | hm
    · exact hs hm
    · simp at hm
  cases c with
  | popHead => trivial
  | popNode x => exact ⟨h.1, h.2.1, hout h.2.2⟩
  | popTail x => exact h
  | stubClear x => exact ⟨h.1, h.2.1, hout h.2.2⟩
  | stubSwap x => exact ⟨h.1, h.2.1, hout h.2.2.1, h.2.2.2⟩
  | stubLink x a => exact ⟨h.1, h.2.1, List.mem_append_left _ h.2.2⟩
  | popLast x => exact ⟨h.1, h.2.1, List.mem_append_left _ h.2.2⟩
  | idle | spin | spinTail | toRunning | recheck | recheckTail | unparkSelf | unparkRecv | parked => exact fun _ => hh

theorem Inv.swap (h : Inv s) {p : P} {b : ν} (hp : s.prod p = .cleared b) :
    Inv ({ s.swapIn (.node b) with swaps := s.swaps ++ [(p, b)] }.setProd p (.swapped b s.tail)) := by
  obtain ⟨hm, hn⟩ := h.cleared p b hp
  have hother : ∀ {q : P}, q ≠ p → Function.update s.prod p (.swapped b s.tail) q = s.prod q := fun hq => Function.update_of_ne hq ..
  -- a batch that is linked in stands in the list, the one swapped in now does not
  have hfresh : ∀ q a, s.prod q ≠ .swapped b a := fun q a hq =>
    hm (pair_mem (h.spine.pends _ _ (.producer q b a hq)).1).2
  refine ⟨?_, List.getLast?_concat, h.spine.swapIn h.tail hm hn fun x y => ?_, fun q r c a a' hq hr => ?_, fun q c hq => ?_,
    fun q r c hq hr => ?_, Knows.swapIn h.consumer (h.tail_ne hm), ?_, fun q => ?_⟩
  · change (s.cells ++ [Ref.node b]).head? = some s.head
    rw [h.cells_cons]
    rfl
  · constructor
    · intro hp'
      cases hp' with
      | producer q c prev hq =>
        by_cases he : q = p
        · have hq' : Function.update s.prod p (.swapped b s.tail) q = .swapped c x := hq
          rw [he, Function.update_self] at hq'
          have hinj := Producer.swapped.inj hq'
          exact Or.inr ⟨hinj.2.symm, by rw [hinj.1]⟩
        · exact Or.inl (.producer q c _ ((hother he).symm.trans hq))
      | stub x prev hc => exact Or.inl (.stub x _ hc)
    · rintro (hp' | ⟨rfl, rfl⟩)
      · cases hp' with
        | producer q c prev hq =>
          have he : q ≠ p := fun he => by rw [he, hp] at hq; exact absurd hq nofun
          exact .producer q c _ ((hother he).trans hq)
        | stub x prev hc => exact .stub x _ hc
      · exact .producer p b _ (Function.update_self ..)
  · have hq' : Function.update s.prod p (.swapped b s.tail) q = .swapped c a := hq
    have hr' : Function.update s.prod p (.swapped b s.tail) r = .swapped c a' := hr
    by_cases he : q = p
    · by_cases he' : r = p
      · exact he.trans he'.symm
      · rw [he, Function.update_self] at hq'
        rw [hother he', ← (Producer.swapped.inj hq').1] at hr'
        exact absurd hr' (hfresh r _)
    · by_cases he' : r = p
      · rw [he', Function.update_self] at hr'
        rw [hother he, ← (Producer.swapped.inj hr').1] at hq'
        exact absurd hq' (hfresh q _)
      · rw [hother he] at hq'
        rw [hother he'] at hr'
        exact h.linkers q r c a a' hq' hr'
  · have hq' : Function.update s.prod p (.swapped b s.tail) q = .cleared c := hq
    have he : q ≠ p := fun he => by rw [he, Function.update_self] at hq'; exact absurd hq' nofun
    rw [hother he] at hq'
    obtain ⟨hmc, hnc⟩ := h.cleared q c hq'
    refine ⟨fun hmem => ?_, hnc⟩
    rcases List.mem_append.mp hmem with hmem | hmem
    · exact hmc hmem
    · have hcb : c = b := by simpa using hmem
      exact he (h.clearedOnce q p b (hcb ▸ hq') hp)
  · have hq' : Function.update s.prod p (.swapped b s.tail) q = .cleared c := hq
    have hr' : Function.update s.prod p (.swapped b s.tail) r = .cleared c := hr
    have he : q ≠ p := fun he => by rw [he, Function.update_self] at hq'; exact absurd hq' nofun
    have he' : r ≠ p := fun he => by rw [he, Function.update_self] at hr'; exact absurd hr' nofun
    exact h.clearedOnce q r c ((hother he).symm.trans hq') ((hother he').symm.trans hr')
  · change (s.swaps ++ [(p, b)]).map Prod.snd = s.popped ++ (s.cells ++ [Ref.node b]).filterMap Ref.batch?
    rw [List.map_append, h.contents, List.filterMap_append, ← List.append_assoc]
    rfl
  · change s.begun.filter _ = (s.swaps ++ [(p, b)]).filter _ ++ (Function.update s.prod p (.swapped b s.tail) q).begun q
    rw [List.filter_append, h.order q]
    by_cases he : q = p
    · rw [he, Function.update_self, hp]
      simp [Producer.begun]
    · rw [hother he]
      simp [Ne.symm he]

theorem Inv.link (h : Inv s) {p : P} {b : ν} {prev : Ref ν} (hp : s.prod p = .swapped b prev) (pc : Producer ν)
    (hpc : ∀ c a, pc ≠ .swapped c a) (hpc' : ∀ c, pc ≠ .cleared c) : Inv ((s.setNext prev (some (.node b))).setProd p pc) := by
  have hpend : Pends s.prod s.cons prev (.node b) := .producer p b prev hp
  obtain ⟨hpair, hnone⟩ := h.spine.pends _ _ hpend
  have hother : ∀ {q : P}, q ≠ p → Function.update s.prod p pc q = s.prod q := fun hq => Function.update_of_ne hq ..
  have hswapped : ∀ q c a, Function.update s.prod p pc q = .swapped c a → q ≠ p ∧ s.prod q = .swapped c a := by
    intro q c a hq
    have he : q ≠ p := fun he => by rw [he, Function.update_self] at hq; exact hpc _ _ hq
    exact ⟨he, (hother he).symm.trans hq⟩
  have hclear : ∀ q c, Function.update s.prod p pc q = .cleared c → s.prod q = .cleared c := by
    intro q c hq
    have he : q ≠ p := fun he => by rw [he, Function.update_self] at hq; exact hpc' _ hq
    exact (hother he).symm.trans hq
  refine ⟨h.head, h.tail, h.spine.link hpend fun x y => ?_, fun q r c a a' hq hr => ?_, fun q c hq => ?_, fun q r c hq hr => ?_, ?_,
    h.contents, fun q => ?_⟩
  · constructor
    · intro hp'
      cases hp' with
      | producer q c prev' hq =>
        obtain ⟨he, hq'⟩ := hswapped q c _ hq
        refine ⟨.producer q c _ hq', fun hxy => he ?_⟩
        have hcb : c = b := Ref.node.inj hxy.2
        exact h.linkers q p b _ _ (hcb ▸ hq') hp
      | stub x prev' hc => exact ⟨.stub x _ hc, fun hxy => absurd hxy.2 nofun⟩
    · rintro ⟨hp', hne⟩
      cases hp' with
      | producer q c prev' hq =>
        have he : q ≠ p := fun he => by
          rw [he, hp] at hq
          exact hne ⟨(Producer.swapped.inj hq).2.symm, by rw [(Producer.swapped.inj hq).1]⟩
        exact .producer q c _ ((hother he).trans hq)
      | stub x prev' hc => exact .stub x _ hc
  · exact h.linkers q r c a a' (hswapped q c a hq).2 (hswapped r c a' hr).2
  · obtain ⟨hmc, hnc⟩ := h.cleared q c (hclear q c hq)
    refine ⟨hmc, (Function.update_of_ne ?_ _ _).trans hnc⟩
    rintro rfl
    exact hmc (pair_mem hpair).1
  · exact h.clearedOnce q r c (hclear q c hq) (hclear r c hr)
  · -- the consumer looks at the stub's link only while the stub is out
    have hk := h.consumer
    change s.cons.Knows s.head s.tail s.cells (Function.update s.next prev (some (.node b)) .stub)
    cases hc : s.cons with
    | stubSwap x =>
      rw [hc] at hk
      refine ⟨hk.1, hk.2.1, hk.2.2.1, (Function.update_of_ne ?_ _ _).trans hk.2.2.2⟩
      rintro rfl
      exact hk.2.2.1 (pair_mem hpair).1
    | _ => rw [hc] at hk; exact hk
  · change s.begun.filter _ = s.swaps.filter _ ++ (Function.update s.prod p pc q).begun q
    rw [h.order q]
    congr 1
    by_cases he : q = p
    · rw [he, Function.update_self, hp]
      cases hpcc : pc <;> first | rfl | exact absurd hpcc (hpc' _)
    · rw [hother he]

theorem Inv.stepProducer (h : Inv s) {p : P} (hs : s.stepProducer p = some s') : Inv s' := by
  unfold State.stepProducer at hs
  split at hs
  next => cases hs
  next b hp => cases hs; exact h.swap hp
  next b prev hp =>
    cases hs
    refine h.link hp _ (fun c a => ?_) (fun c => ?_)
    · split <;> simp
    · split <;> simp
  next hp =>
    cases hs
    refine h.setProd s.word s.token (by rw [hp]; simp) (by rw [hp]; simp) (fun c a => ?_) (fun c => ?_)
    · split <;> simp
    · split <;> simp
  next hp =>
    split at hs
    · cases hs; exact h.setProd .running s.token (by rw [hp]; simp) (by rw [hp]; simp) nofun nofun
    · cases hs; exact h.setProd s.word s.token (by rw [hp]; simp) (by rw [hp]; simp) nofun nofun
  next hp =>
    split at hs
    · cases hs
    · cases hs; exact h.setProd s.word true (by rw [hp]; simp) (by rw [hp]; simp) nofun nofun

theorem Inv.step (h : Inv s) {l : Label P ν} (hfree : ∀ p b, l = .push p b → Free s b) (hs : step s l = some s') : Inv s' := by
  cases l with
  | push p b => exact h.beginPush (hfree p b rfl) hs
  | producer p => exact h.stepProducer hs
  | consumer choice => exact h.stepConsumer hs

theorem Reachable.inv (h : Reachable s) : Inv s := by
  induction h with
  | initial => exact initial_inv
  | step s s' l _ hfree hs ih => exact ih.step hfree hs

end Aki.HopQueue
