import Mathlib.Logic.Function.Basic
import Aki.LeaseFold

namespace Aki.Obs1

/-- What a root says about the chain: the checkpoint it names, none when the sequence is 0. -/
structure Root where
  ckptDD : Nat
  ckptSeq : Nat
deriving DecidableEq

def rootOlder (have' next : Root) : Bool :=
  if have'.ckptDD ≠ next.ckptDD then decide (have'.ckptDD < next.ckptDD) else decide (have'.ckptSeq < next.ckptSeq)

/-- How far a checkpoint write has come: what it summarizes, and for the last step the root it read and that root's version. -/
inductive CkptPhase
  | idle
  | snapped (seq : Nat)
  | stored (seq : Nat)
  | announced (seq : Nat)
  | read (seq version : Nat) (root : Root)
deriving DecidableEq

/-- A node's checkpointer, its checkpoint write and its trim sweep. -/
structure TrimNode where
  applied : Nat
  newest : Nat
  second : Nat
  floor : Nat
  phase : CkptPhase
  sweep : Option (Nat × Nat)
deriving DecidableEq

/-- The bucket and the nodes. A chain object is the list of the checkpoints its records name; the roots are all that were
ever put, the newest last, so their number is the version a conditional put is checked against. -/
structure TrimWorld where
  dd : Nat
  chain : List (List Nat)
  chainObj : Nat → Bool
  ckptObj : Nat → Bool
  root : Root
  version : Nat
  nodes : Nat → TrimNode

def startTrim (dd : Nat) : TrimWorld := ⟨dd, [], fun _ => false, fun _ => false, ⟨0, 0⟩, 1, fun _ => ⟨0, 0, 0, 0, .idle, none⟩⟩

namespace TrimNode

/-- The two newest checkpoint positions after one record. -/
def noteCkpt (n : TrimNode) (seq : Nat) : TrimNode := if n.newest < seq then { n with second := n.newest, newest := seq } else n

def applyChain (n : TrimNode) (ckpts : List Nat) : TrimNode := { ckpts.foldl noteCkpt n with applied := n.applied + 1 }

/-- A booted node: primed from the checkpoint its root names, or at the start of the chain. -/
def booted (seq : Nat) : TrimNode := ⟨seq, seq, 0, seq, .idle, none⟩

def trimmable (n : TrimNode) : Nat × Nat :=
  if n.second = 0 then (0, 0) else if n.second ≤ n.floor then (0, 0) else (n.floor, n.second)

def trimmed (n : TrimNode) (floor : Nat) : TrimNode := if n.floor < floor then { n with floor := floor } else n

end TrimNode

/-- The outcome of a conditional put: it landed, it did not, or the wire was cut with the object there or not. -/
inductive WriteOutcome
  | landed
  | refused
  | cut (there : Bool)
deriving DecidableEq

inductive TrimStep
  | append
  | boot (n : Nat)
  | apply (n : Nat)
  | snapshot (n : Nat)
  | putCkpt (n : Nat) (out : WriteOutcome)
  | announce (n : Nat)
  | readRoot (n : Nat)
  | swapRoot (n : Nat) (out : WriteOutcome)
  | stop (n : Nat)
  | trim (n : Nat)
  | delete (n : Nat) (chainKey ckptKey : Bool)
  | trimmed (n : Nat)
deriving DecidableEq

def TrimWorld.setNode (w : TrimWorld) (n : Nat) (x : TrimNode) : TrimWorld := { w with nodes := Function.update w.nodes n x }

def TrimWorld.setPhase (w : TrimWorld) (n : Nat) (p : CkptPhase) : TrimWorld := w.setNode n { w.nodes n with phase := p }

def TrimWorld.push (w : TrimWorld) (ckpts : List Nat) : TrimWorld :=
  { w with chain := w.chain ++ [ckpts], chainObj := Function.update w.chainObj (w.chain.length + 1) true }

def TrimWorld.addCkpt (w : TrimWorld) (seq : Nat) : TrimWorld := { w with ckptObj := Function.update w.ckptObj seq true }

/-- The checkpoint object's put. One that is already there is as good, and so is one found after a cut wire. -/
def TrimWorld.putCkpt (w : TrimWorld) (n seq : Nat) : WriteOutcome → Option TrimWorld
  | .landed => if w.ckptObj seq then none else some ((w.addCkpt seq).setPhase n (.stored seq))
  | .refused => if w.ckptObj seq then some (w.setPhase n (.stored seq)) else some (w.setPhase n .idle)
  | .cut there =>
    let w := if there then w.addCkpt seq else w
    some (w.setPhase n (if w.ckptObj seq then .stored seq else .idle))

/-- The conditional put of a newer root: it lands only over the version that was read, and whoever lost reads again. -/
def TrimWorld.swapRoot (w : TrimWorld) (n seq version : Nat) (out : WriteOutcome) : Option TrimWorld :=
  let next : Root := ⟨w.dd, seq⟩
  match out with
  | .landed => if version = w.version then some ({ w with root := next, version := w.version + 1 }.setPhase n .idle) else none
  | .refused => some (w.setPhase n (.announced seq))
  | .cut there =>
    if there then
      if version = w.version then some ({ w with root := next, version := w.version + 1 }.setPhase n (.announced seq)) else none
    else some (w.setPhase n (.announced seq))

def TrimWorld.step (w : TrimWorld) : TrimStep → Option TrimWorld
  | .append => some (w.push [])
  | .boot n =>
    if w.root.ckptSeq = 0 then some (w.setNode n (.booted 0))
    else if w.root.ckptDD = w.dd ∧ w.ckptObj w.root.ckptSeq then some (w.setNode n (.booted w.root.ckptSeq)) else none
  | .apply n =>
    match w.chain[(w.nodes n).applied]? with
    | none => none
    | some ckpts =>
      if w.chainObj ((w.nodes n).applied + 1) then some (w.setNode n ((w.nodes n).applyChain ckpts)) else none
  | .snapshot n =>
    if (w.nodes n).phase = .idle ∧ (w.nodes n).applied ≠ 0 then some (w.setPhase n (.snapped (w.nodes n).applied)) else none
  | .putCkpt n out =>
    match (w.nodes n).phase with
    | .snapped seq => w.putCkpt n seq out
    | _ => none
  | .announce n =>
    match (w.nodes n).phase with
    | .stored seq => some ((w.push [seq]).setPhase n (.announced seq))
    | _ => none
  | .readRoot n =>
    match (w.nodes n).phase with
    | .announced seq =>
      if rootOlder w.root ⟨w.dd, seq⟩ then some (w.setPhase n (.read seq w.version w.root)) else some (w.setPhase n .idle)
    | _ => none
  | .swapRoot n out =>
    match (w.nodes n).phase with
    | .read seq version _ => w.swapRoot n seq version out
    | _ => none
  | .stop n => some (w.setPhase n .idle)
  | .trim n =>
    let r := (w.nodes n).trimmable
    if (w.nodes n).sweep = none then some (w.setNode n { w.nodes n with sweep := some (max 1 r.1, r.2) }) else none
  | .delete n chainKey ckptKey =>
    match (w.nodes n).sweep with
    | none => none
    | some (seq, floor) =>
      if seq < floor then
        some ({ w with
          chainObj := if chainKey then Function.update w.chainObj seq false else w.chainObj
          ckptObj := if ckptKey then Function.update w.ckptObj seq false else w.ckptObj }.setNode n
            { w.nodes n with sweep := some (seq + 1, floor) })
      else none
  | .trimmed n =>
    match (w.nodes n).sweep with
    | none => none
    | some (_, floor) => some (w.setNode n { (w.nodes n).trimmed floor with sweep := none })

def TrimWorld.run (w : TrimWorld) (steps : List TrimStep) : Option TrimWorld := steps.foldlM step w

/-- A reader that loads the root now can boot: without a checkpoint the chain is whole, with one the checkpoint is there and
so is every chain object after it. -/
def TrimWorld.Bootable (w : TrimWorld) : Prop :=
  if w.root.ckptSeq = 0 then ∀ seq, 1 ≤ seq → seq ≤ w.chain.length → w.chainObj seq = true
  else w.ckptObj w.root.ckptSeq = true ∧ ∀ seq, w.root.ckptSeq < seq → seq ≤ w.chain.length → w.chainObj seq = true

/-- A sweep deletes only below the checkpoint the root names at that moment. -/
def TrimWorld.rooted (w : TrimWorld) : TrimStep → Bool
  | .delete n _ _ => (w.nodes n).sweep.all fun p => decide (p.1 < w.root.ckptSeq)
  | _ => true

inductive TrimReach (dd : Nat) : TrimWorld → Prop
  | start : TrimReach dd (startTrim dd)
  | next {w w' : TrimWorld} (s : TrimStep) : TrimReach dd w → w.rooted s = true → w.step s = some w' → TrimReach dd w'

namespace TrimWorld

/-- A checkpoint object that was stored is still there, unless the root has moved past it. -/
def Safe (w : TrimWorld) (seq : Nat) : Prop := w.ckptObj seq = true ∨ seq < w.root.ckptSeq

def PhaseOk (w : TrimWorld) : CkptPhase → Prop
  | .idle => True
  | .snapped seq => seq ≠ 0
  | .stored seq => seq ≠ 0 ∧ w.Safe seq
  | .announced seq => seq ≠ 0 ∧ w.Safe seq
  | .read seq version root => seq ≠ 0 ∧ w.Safe seq ∧ version ≤ w.version ∧ (version = w.version → root = w.root) ∧
      rootOlder root ⟨w.dd, seq⟩ = true

/-- The root's checkpoint and the chain from it on are there, and no write loses its object while it could still win. -/
structure TrimInv (w : TrimWorld) : Prop where
  domain : w.root.ckptSeq ≠ 0 → w.root.ckptDD = w.dd
  ckpt : w.root.ckptSeq ≠ 0 → w.ckptObj w.root.ckptSeq = true
  chain : ∀ seq, 1 ≤ seq → w.root.ckptSeq ≤ seq → seq ≤ w.chain.length → w.chainObj seq = true
  phases : ∀ n, w.PhaseOk (w.nodes n).phase

variable {w w' : TrimWorld}

theorem TrimInv.boots (h : TrimInv w) : w.Bootable := by
  unfold Bootable
  split
  · next h0 => exact fun seq h1 hle => h.chain seq h1 (by omega) hle
  · next h0 => exact ⟨h.ckpt h0, fun seq hlt hle => h.chain seq (by omega) (by omega) hle⟩

/-- Storing objects, moving the root on and deleting below it leave every write what it relies on. -/
theorem PhaseOk.mono {p : CkptPhase} (h : w.PhaseOk p) (hdd : w'.dd = w.dd) (hsafe : ∀ seq, w.Safe seq → w'.Safe seq)
    (hroot : w'.version = w.version ∧ w'.root = w.root ∨ w.version < w'.version) : w'.PhaseOk p := by
  cases p with
  | idle => trivial
  | snapped seq => exact h
  | stored seq => exact ⟨h.1, hsafe seq h.2⟩
  | announced seq => exact ⟨h.1, hsafe seq h.2⟩
  | read seq version root =>
    obtain ⟨h0, hs, hv, heq, hold⟩ := h
    refine ⟨h0, hsafe seq hs, ?_, fun hver => ?_, by rw [hdd]; exact hold⟩
    · rcases hroot with ⟨h1, -⟩ | h1 <;> omega
    · rcases hroot with ⟨h1, h2⟩ | h1
      · rw [h2]
        exact heq (by omega)
      · omega

theorem TrimInv.setNode (h : TrimInv w) (n : Nat) {x : TrimNode} (hx : w.PhaseOk x.phase) : TrimInv (w.setNode n x) where
  domain := h.domain
  ckpt := h.ckpt
  chain := h.chain
  phases k := by
    refine PhaseOk.mono (w := w) ?_ rfl (fun _ hs => hs) (.inl ⟨rfl, rfl⟩)
    by_cases hk : k = n
    · subst hk
      simpa [TrimWorld.setNode] using hx
    · simpa [TrimWorld.setNode, Function.update_of_ne hk] using h.phases k

theorem TrimInv.push (h : TrimInv w) (ckpts : List Nat) : TrimInv (w.push ckpts) where
  domain := h.domain
  ckpt := h.ckpt
  chain seq h1 hle hlen := by
    simp only [TrimWorld.push, List.length_append, List.length_singleton] at hlen ⊢
    by_cases hs : seq = w.chain.length + 1
    · subst hs
      rw [Function.update_self]
    · rw [Function.update_of_ne hs]
      exact h.chain seq h1 hle (by omega)
  phases k := h.phases k

theorem safe_addCkpt {seq : Nat} (h : w.Safe seq) (c : Nat) : (w.addCkpt c).Safe seq := by
  rcases h with h | h
  · left
    by_cases hs : seq = c
    · simp [addCkpt, hs]
    · simpa [addCkpt, Function.update_of_ne hs] using h
  · exact .inr h

theorem TrimInv.addCkpt (h : TrimInv w) (c : Nat) : TrimInv (w.addCkpt c) where
  domain := h.domain
  ckpt h0 := by
    by_cases hs : w.root.ckptSeq = c
    · simp [TrimWorld.addCkpt, hs]
    · simpa [TrimWorld.addCkpt, Function.update_of_ne hs] using h.ckpt h0
  chain := h.chain
  phases k := (h.phases k).mono rfl (fun _ hs => safe_addCkpt hs c) (.inl ⟨rfl, rfl⟩)

theorem TrimInv.putCkpt (h : TrimInv w) {n seq : Nat} (hseq : seq ≠ 0) {out : WriteOutcome} (hs : w.putCkpt n seq out = some w') :
    TrimInv w' := by
  have hthere : ∀ {v : TrimWorld}, TrimInv v → v.ckptObj seq = true → TrimInv (v.setPhase n (.stored seq)) :=
    fun hv hc => hv.setNode n ⟨hseq, .inl hc⟩
  cases out with
  | landed =>
    simp only [TrimWorld.putCkpt] at hs
    split at hs
    · cases hs
    · cases hs
      exact hthere (h.addCkpt seq) (by simp [TrimWorld.addCkpt])
  | refused =>
    simp only [TrimWorld.putCkpt] at hs
    split at hs
    · next hc =>
      cases hs
      exact hthere h hc
    · cases hs
      exact h.setNode n trivial
  | cut there =>
    simp only [TrimWorld.putCkpt] at hs
    cases hs
    have hv : TrimInv (if there then w.addCkpt seq else w) := by
      split
      · exact h.addCkpt seq
      · exact h
    generalize (if there then w.addCkpt seq else w) = v at hv
    split
    · next hc => exact hthere hv hc
    · exact hv.setNode n trivial

/-- A root that lands over the one that was read moves forward to an object that is there. -/
theorem TrimInv.advance (h : TrimInv w) {seq version : Nat} {root : Root} (hp : w.PhaseOk (.read seq version root))
    (hv : version = w.version) : TrimInv { w with root := ⟨w.dd, seq⟩, version := w.version + 1 } := by
  obtain ⟨h0, hs, -, heq, hold⟩ := hp
  obtain rfl := heq hv
  have hlt : w.root.ckptSeq < seq := by
    by_cases hr : w.root.ckptSeq = 0
    · omega
    · simpa [rootOlder, h.domain hr] using hold
  refine ⟨fun _ => rfl, fun _ => ?_, fun s h1 hle hlen => h.chain s h1 (by simp only at hle; omega) hlen, fun k => ?_⟩
  · rcases hs with hs | hs
    · exact hs
    · omega
  · refine (h.phases k).mono rfl (fun s hs => ?_) (.inr (Nat.lt_succ_self _))
    rcases hs with hs | hs
    · exact .inl hs
    · exact .inr (Nat.lt_trans hs hlt)

theorem TrimInv.swapRoot (h : TrimInv w) {n seq version : Nat} {root : Root} (hp : w.PhaseOk (.read seq version root))
    {out : WriteOutcome} (hs : w.swapRoot n seq version out = some w') : TrimInv w' := by
  have hback : TrimInv (w.setPhase n (.announced seq)) := h.setNode n ⟨hp.1, hp.2.1⟩
  cases out with
  | landed =>
    simp only [TrimWorld.swapRoot] at hs
    split at hs
    · next hv =>
      cases hs
      exact (h.advance hp hv).setNode n trivial
    · cases hs
  | refused =>
    cases hs
    exact hback
  | cut there =>
    simp only [TrimWorld.swapRoot] at hs
    split at hs
    · split at hs
      · next hv =>
        cases hs
        have ha := h.advance hp hv
        refine ha.setNode n ⟨hp.1, .inl ?_⟩
        have hobj := ha.ckpt hp.1
        exact hobj
      · cases hs
    · cases hs
      exact hback

theorem TrimInv.delete (h : TrimInv w) {seq : Nat} (hlt : seq < w.root.ckptSeq) (chainKey ckptKey : Bool) :
    TrimInv { w with
      chainObj := if chainKey then Function.update w.chainObj seq false else w.chainObj
      ckptObj := if ckptKey then Function.update w.ckptObj seq false else w.ckptObj } := by
  refine ⟨h.domain, fun h0 => ?_, fun s h1 hle hlen => ?_, fun k => ?_⟩
  · have hne : w.root.ckptSeq ≠ seq := by omega
    cases ckptKey
    · exact h.ckpt h0
    · simpa [Function.update_of_ne hne] using h.ckpt h0
  · have hne : s ≠ seq := by
      simp only at hle
      omega
    cases chainKey
    · exact h.chain s h1 hle hlen
    · simpa [Function.update_of_ne hne] using h.chain s h1 hle hlen
  · refine (h.phases k).mono rfl (fun s hs => ?_) (.inl ⟨rfl, rfl⟩)
    rcases hs with hs | hs
    · by_cases hss : s = seq
      · exact .inr (hss ▸ hlt)
      · left
        cases ckptKey
        · exact hs
        · simpa [Function.update_of_ne hss] using hs
    · exact .inr hs

theorem TrimInv.step (h : TrimInv w) {s : TrimStep} (hr : w.rooted s = true) (hs : w.step s = some w') : TrimInv w' := by
  cases s with
  | append =>
    cases hs
    exact h.push []
  | boot n =>
    simp only [TrimWorld.step] at hs
    split at hs
    · cases hs
      exact h.setNode n trivial
    · split at hs
      · cases hs
        exact h.setNode n trivial
      · cases hs
  | apply n =>
    simp only [TrimWorld.step] at hs
    split at hs
    · cases hs
    next ckpts _ =>
    split at hs
    · cases hs
      refine h.setNode n ?_
      have hphase : ∀ (l : List Nat) (x : TrimNode), (l.foldl TrimNode.noteCkpt x).phase = x.phase := by
        intro l
        induction l with
        | nil => exact fun x => rfl
        | cons c l ih =>
          intro x
          rw [List.foldl_cons, ih, TrimNode.noteCkpt]
          split <;> rfl
      have hp := h.phases n
      rwa [← hphase ckpts] at hp
    · cases hs
  | snapshot n =>
    simp only [TrimWorld.step] at hs
    split at hs
    · next hn =>
      cases hs
      exact h.setNode n hn.2
    · cases hs
  | putCkpt n out =>
    simp only [TrimWorld.step] at hs
    split at hs
    · next seq hp =>
      have hok := h.phases n
      rw [hp] at hok
      exact h.putCkpt hok hs
    · cases hs
  | announce n =>
    simp only [TrimWorld.step] at hs
    split at hs
    · next seq hp =>
      cases hs
      have hok := h.phases n
      rw [hp] at hok
      exact (h.push [seq]).setNode n hok
    · cases hs
  | readRoot n =>
    simp only [TrimWorld.step] at hs
    split at hs
    · next seq hp =>
      have hok := h.phases n
      rw [hp] at hok
      split at hs
      · next hold =>
        cases hs
        exact h.setNode n ⟨hok.1, hok.2, Nat.le_refl _, fun _ => rfl, hold⟩
      · cases hs
        exact h.setNode n trivial
    · cases hs
  | swapRoot n out =>
    simp only [TrimWorld.step] at hs
    split at hs
    · next seq version root hp =>
      have hok := h.phases n
      rw [hp] at hok
      exact h.swapRoot hok hs
    · cases hs
  | stop n =>
    cases hs
    exact h.setNode n trivial
  | trim n =>
    simp only [TrimWorld.step] at hs
    split at hs
    · cases hs
      exact h.setNode n (h.phases n)
    · cases hs
  | delete n chainKey ckptKey =>
    simp only [TrimWorld.step] at hs
    split at hs
    · cases hs
    next seq floor hsweep =>
    split at hs
    · cases hs
      have hlt : seq < w.root.ckptSeq := by simpa [rooted, hsweep] using hr
      have hd := h.delete hlt chainKey ckptKey
      exact hd.setNode n (hd.phases n)
    · cases hs
  | trimmed n =>
    simp only [TrimWorld.step] at hs
    split at hs
    · cases hs
    next x floor _ =>
    cases hs
    refine h.setNode n ?_
    have hp := h.phases n
    unfold TrimNode.trimmed
    split <;> exact hp

end TrimWorld

theorem TrimReach.inv {dd : Nat} {w : TrimWorld} (h : TrimReach dd w) : w.TrimInv := by
  induction h with
  | start =>
    refine ⟨fun h => absurd rfl h, fun h => absurd rfl h, fun seq h1 _ hle => ?_, fun _ => trivial⟩
    exact absurd (Nat.le_trans h1 hle) (by simp [startTrim])
  | next s _ hr hs ih => exact ih.step hr hs

theorem TrimReach.of_run {dd : Nat} (steps : List TrimStep) {w w' : TrimWorld} (h : TrimReach dd w)
    (hr : steps.foldlM (fun w s => if w.rooted s then w.step s else none) w = some w') : TrimReach dd w' := by
  induction steps generalizing w with
  | nil =>
    cases hr
    exact h
  | cons s steps ih =>
    rw [List.foldlM_cons] at hr
    obtain ⟨v, h1, h2⟩ := Option.bind_eq_some_iff.mp hr
    split at h1
    · next hs => exact ih (h.next s hs h1) h2
    · cases h1

/-- As long as every sweep stays below the root, a reader can boot at any moment. -/
theorem TrimReach.bootable {dd : Nat} {w : TrimWorld} (h : TrimReach dd w) : w.Bootable := h.inv.boots

/-- A node checkpoints what it has applied and advances the root. -/
def fullCkpt (n : Nat) : List TrimStep := [.snapshot n, .putCkpt n .landed, .announce n, .readRoot n, .swapRoot n .landed]

/-- Three checkpoints with their roots, then the first one's position is swept. -/
def rootedSweep : List TrimStep :=
  [.append, .apply 0] ++ fullCkpt 0 ++ [.apply 0] ++ fullCkpt 0 ++ [.apply 0] ++ fullCkpt 0 ++ [.apply 0, .trim 0, .delete 0 true true]

theorem swept_below_root_bootable :
    ∃ w, (startTrim 0).run rootedSweep = some w ∧ w.root.ckptSeq = 3 ∧ w.chainObj 1 = false ∧ w.Bootable := by
  refine ⟨_, rfl, by decide +kernel, by decide +kernel, TrimReach.bootable (TrimReach.of_run rootedSweep (@TrimReach.start 0) ?_)⟩
  rfl

def haltedCkpt (n : Nat) : List TrimStep := [.snapshot n, .putCkpt n .landed, .announce n, .stop n]

/-- The root names the checkpoint at 1; two more are announced and their writers stop before the root. The second of them
lets the node sweep below the first, and the checkpoint the root names is gone. -/
theorem halted_writers_strand_reader :
    ((startTrim 0).run ([.append, .apply 0] ++ fullCkpt 0 ++ [.apply 0] ++ haltedCkpt 0 ++ [.apply 0] ++ haltedCkpt 0 ++
      [.apply 0, .trim 0, .delete 0 true true])).map (fun w => (w.root.ckptSeq, w.ckptObj 1)) = some (1, false) := by
  decide +kernel

end Aki.Obs1
