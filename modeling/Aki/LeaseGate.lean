import Mathlib.Algebra.Order.Ring.Int
import Aki.LeaseFold

namespace Aki.Obs1

/-- A node's belief about its own deadlines. Instants and durations are in nanoseconds. -/
structure LeaseGuard where
  ttl : Int
  skew : Int
  deadline : Std.ExtTreeMap Nat Int

namespace LeaseGuard

def renewed (g : LeaseGuard) (group : Nat) (t : Int) : LeaseGuard := { g with deadline := g.deadline.insert group (t + g.ttl) }

def drop (g : LeaseGuard) (group : Nat) : LeaseGuard := { g with deadline := g.deadline.erase group }

/-- A group the guard never saw renewed is suspended by definition. -/
def suspended (g : LeaseGuard) (group : Nat) (now : Int) : Bool := g.deadline[group]?.all fun d => decide (d - g.skew ≤ now)

/-- The earliest moment any tracked group suspends. -/
def horizon (g : LeaseGuard) : Option Int := (g.deadline.toList.map Prod.snd).min?.map fun d => d - g.skew

end LeaseGuard

def minInt64 : Int := -2 ^ 63

def milli : Int := 1000000

/-- The serving gate: the guard, its horizon cached in milliseconds, and the groups a foreign grant took. -/
structure LeaseGate where
  guard : LeaseGuard
  horizonMs : Int
  demotedN : Nat
  demoted : Std.ExtTreeMap Nat (List UInt8)

def newLeaseGate (ttl skew : Int) : LeaseGate := ⟨⟨ttl, skew, ∅⟩, minInt64, 0, ∅⟩

namespace LeaseGate

/-- The read half of `recalcHorizon`; the store comes after it, and no lock is held across the two. -/
def readHorizon (g : LeaseGate) : Int := g.guard.horizon.elim minInt64 fun h => h / milli

def gated (g : LeaseGate) (nowMs : Int) : Bool := decide (g.horizonMs ≤ nowMs) || decide (0 < g.demotedN)

def suspended (g : LeaseGate) (group : Nat) (nowMs : Int) : Bool := g.guard.suspended group (nowMs * milli)

def demotedTo (g : LeaseGate) (group : Nat) : Option (List UInt8) := if g.demotedN = 0 then none else g.demoted[group]?

end LeaseGate

/-- What a gate method does under one lock or in one atomic access, and the return of the two that give a group up. -/
inductive GateStep
  | drop (group : Nat)
  | mark (group : Nat) (endpoint : List UInt8)
  | unmark (group : Nat)
  | renew (groups : List Nat)
  | read
  | store
  | released (group : Nat)
  | demoted (group : Nat)
deriving DecidableEq

inductive GateOp
  | renewed (group : Nat)
  | onAppended (groups : List Nat)
  | demote (group : Nat) (endpoint : List UInt8)
  | release (group : Nat)
  | regrant (group : Nat)
deriving DecidableEq

def GateOp.isRelease : GateOp → Bool
  | .release _ => true
  | _ => false

/-- The methods of the gate; every one ends in `recalcHorizon`. -/
def GateOp.steps : GateOp → List GateStep
  | .renewed group => [.renew [group], .read, .store]
  | .onAppended groups => [.renew groups, .read, .store]
  | .demote group endpoint => [.drop group, .mark group endpoint, .read, .store, .demoted group]
  | .release group => [.drop group, .read, .store, .released group]
  | .regrant group => [.unmark group, .renew [group], .read, .store]

/-- The manager's belief: the groups it holds and at which epoch. -/
structure LeaseManager where
  self : Nat
  held : Std.ExtTreeMap Nat Nat

namespace LeaseManager

/-- The address the member table has for a node, empty without a row. -/
def endpoint (f : LeaseFold) (node : Nat) : List UInt8 := ((f.memberTable.find? fun m => decide (m.node = node)).map Member.resp).getD []

def settle (f : LeaseFold) (a : LeaseManager × List GateOp) (h : Nat × Nat) : LeaseManager × List GateOp :=
  match f.holder h.1 with
  | some (node, cur) =>
    if node = a.1.self then
      if cur = h.2 then a else ({ a.1 with held := a.1.held.insert h.1 cur }, a.2 ++ [.regrant h.1])
    else ({ a.1 with held := a.1.held.erase h.1 }, a.2 ++ [.demote h.1 (endpoint f node)])
  | none => ({ a.1 with held := a.1.held.erase h.1 }, a.2 ++ [.release h.1])

def reconcile (m : LeaseManager) (f : LeaseFold) : LeaseManager × List GateOp := m.held.toList.foldl (settle f) (m, [])

/-- The append of a grant, and the fold's verdict after it. -/
def grant (m : LeaseManager) (group : Nat) (before after : LeaseFold) (appended : Bool) : LeaseManager × List GateOp :=
  if appended then
    let (m, ops) := m.reconcile after
    if after.holder group = some (m.self, before.nextEpoch group) then
      ({ m with held := m.held.insert group (before.nextEpoch group) }, ops ++ [.regrant group])
    else (m, ops)
  else (m, [])

def adopt (m : LeaseManager) (group epoch : Nat) : LeaseManager × List GateOp :=
  ({ m with held := m.held.insert group epoch }, [.regrant group])

def acquire (m : LeaseManager) (group : Nat) (before after : LeaseFold) (appended : Bool) : LeaseManager × List GateOp :=
  if group ∈ m.held then (m, [])
  else
    match before.holder group with
    | some (node, epoch) => if node = m.self then m.adopt group epoch else (m, [])
    | none => m.grant group before after appended

/-- A stale foreign holder does not stop the grant. -/
def takeover (m : LeaseManager) (group : Nat) (before after : LeaseFold) (appended : Bool) : LeaseManager × List GateOp :=
  if group ∈ m.held then (m, [])
  else
    match before.holder group with
    | some (node, epoch) => if node = m.self then m.adopt group epoch else m.grant group before after appended
    | none => m.grant group before after appended

/-- A warm restart adopts every lease the fold still shows as ours. -/
def rejoin (m : LeaseManager) (after : LeaseFold) (appended : Bool) : LeaseManager × List GateOp :=
  if appended then
    after.leases.foldl (fun a l =>
      if l.node = a.1.self ∧ l.group ∉ a.1.held then
        ({ a.1 with held := a.1.held.insert l.group l.epoch }, a.2 ++ [.regrant l.group])
      else a) (m.reconcile after)
  else (m, [])

/-- The gate stops serving first; a failed append leaves the group held. -/
def release (m : LeaseManager) (group : Nat) (after : LeaseFold) (appended : Bool) : LeaseManager × List GateOp :=
  if group ∈ m.held then
    if appended then
      let (m, ops) := { m with held := m.held.erase group }.reconcile after
      (m, .release group :: ops)
    else (m, [.release group])
  else (m, [])

def handoff (m : LeaseManager) (group : Nat) (after : LeaseFold) (flushed appended : Bool) : LeaseManager × List GateOp :=
  if group ∈ m.held then
    if flushed then m.release group after appended else (m, [.release group])
  else (m, [])

def heartbeat (m : LeaseManager) (after : LeaseFold) (appended : Bool) : LeaseManager × List GateOp :=
  if appended then
    let (m, ops) := m.reconcile after
    (m, ops ++ m.held.toList.map fun h => .renewed h.1)
  else (m, [])

end LeaseManager

/-- Calls on the manager, with the fold before and after the append and whether the append landed. -/
inductive LeaseEvent
  | acquire (group : Nat) (before after : LeaseFold) (appended : Bool)
  | takeover (group : Nat) (before after : LeaseFold) (appended : Bool)
  | rejoin (after : LeaseFold) (appended : Bool)
  | release (group : Nat) (after : LeaseFold) (appended : Bool)
  | handoff (group : Nat) (after : LeaseFold) (flushed appended : Bool)
  | heartbeat (after : LeaseFold) (appended : Bool)
  | reconcile (after : LeaseFold)

def LeaseManager.event (m : LeaseManager) : LeaseEvent → LeaseManager × List GateOp
  | .acquire group before after appended => m.acquire group before after appended
  | .takeover group before after appended => m.takeover group before after appended
  | .rejoin after appended => m.rejoin after appended
  | .release group after appended => m.release group after appended
  | .handoff group after flushed appended => m.handoff group after flushed appended
  | .heartbeat after appended => m.heartbeat after appended
  | .reconcile after => m.reconcile after

/-- The gate, the horizon the manager's goroutine and the committer's (`true`) read last, and since when each group given up and not
granted back stands so. -/
structure GateWorld where
  gate : LeaseGate
  seen : Bool → Int
  closed : Std.ExtTreeMap Nat Int

namespace GateWorld

/-- A group given up again stays closed since the first time. -/
def close (w : GateWorld) (group : Nat) (t : Int) : GateWorld := { w with closed := w.closed.insert group (w.closed[group]?.getD t) }

def step (w : GateWorld) (hook : Bool) (t : Int) : GateStep → GateWorld
  | .drop group => { w with gate := { w.gate with guard := w.gate.guard.drop group } }
  | .mark group endpoint =>
    let demoted := w.gate.demoted.insert group endpoint
    { w with gate := { w.gate with demoted := demoted, demotedN := demoted.size } }
  | .unmark group =>
    let demoted := w.gate.demoted.erase group
    { w with gate := { w.gate with demoted := demoted, demotedN := demoted.size }, closed := w.closed.erase group }
  | .renew groups => { w with gate := { w.gate with guard := groups.foldl (fun gd gr => gd.renewed gr t) w.gate.guard } }
  | .read => { w with seen := Function.update w.seen hook w.gate.readHorizon }
  | .store => { w with gate := { w.gate with horizonMs := w.seen hook } }
  | .released group => w.close group t
  | .demoted group => w.close group t

/-- Every write to a group given up is refused, at every instant from then on. -/
def Shut (w : GateWorld) : Prop :=
  ∀ (group : Nat) (t : Int), w.closed[group]? = some t → ∀ nowMs, minInt64 ≤ nowMs → t ≤ nowMs * milli →
    w.gate.gated nowMs = true ∧ (w.gate.suspended group nowMs = true ∨ (w.gate.demotedTo group).isSome = true)

/-- A renewal touches no group that stands released and, with nothing demoted, comes while none stands given up; a regrant that clears
the last demotion leaves none given up; and a release that returns with nothing demoted leaves no group tracked. -/
def careful (w : GateWorld) : GateStep → Bool
  | .renew groups =>
    groups.all (fun g => !w.closed.contains g || w.gate.demoted.contains g) && (!w.gate.demoted.isEmpty || w.closed.isEmpty)
  | .unmark group => !(w.gate.demoted.erase group).isEmpty || (w.closed.erase group).isEmpty
  | .released _ => !w.gate.demoted.isEmpty || w.gate.guard.deadline.isEmpty
  | _ => true

end GateWorld

/-- The manager, the gate calls of its last event that are still to come, and what each goroutine has left of its call. -/
structure GateRun where
  manager : LeaseManager
  world : GateWorld
  ops : List GateOp
  todo : Bool → List GateStep

def newGateRun (ttl skew : Int) (self : Nat) : GateRun :=
  ⟨⟨self, ∅⟩, ⟨newLeaseGate ttl skew, fun _ => 0, ∅⟩, [], fun _ => []⟩

/-- The manager takes its next event or gate call, the committer's hook is called, or one of the two goroutines goes on. -/
inductive GateAct
  | event (e : LeaseEvent)
  | call
  | appended (groups : List Nat)
  | go (hook : Bool)

namespace GateRun

def act (r : GateRun) (t : Int) : GateAct → Option GateRun
  | .event e =>
    if r.ops = [] ∧ r.todo false = [] then some { r with manager := (r.manager.event e).1, ops := (r.manager.event e).2 } else none
  | .call =>
    match r.ops with
    | op :: ops => if r.todo false = [] then some { r with ops := ops, todo := Function.update r.todo false op.steps } else none
    | [] => none
  | .appended groups =>
    if r.todo true = [] then some { r with todo := Function.update r.todo true (GateOp.onAppended groups).steps } else none
  | .go hook =>
    match r.todo hook with
    | st :: rest => some { r with world := r.world.step hook t st, todo := Function.update r.todo hook rest }
    | [] => none

def releasing (r : GateRun) : Bool :=
  match (r.todo false).getLast? with
  | some (.released _) => true
  | _ => false

/-- No hook call overlaps a release, and every step is careful. -/
def careful (r : GateRun) : GateAct → Bool
  | .event _ => true
  | .call => !(r.ops.head?.any GateOp.isRelease) || (r.todo true).isEmpty
  | .appended _ => !r.releasing
  | .go hook => (r.todo hook).head?.all r.world.careful

def run (r : GateRun) (acts : List (Int × GateAct)) : Option GateRun := acts.foldlM (fun r a => r.act a.1 a.2) r

def carefulRun (r : GateRun) (acts : List (Int × GateAct)) : Option GateRun :=
  acts.foldlM (fun r a => if r.careful a.2 then r.act a.1 a.2 else none) r

end GateRun

/-- Interleavings of the manager's calls and the committer's hook whose every step is careful. -/
inductive GateReach (ttl skew : Int) (self : Nat) : GateRun → Prop
  | start : GateReach ttl skew self (newGateRun ttl skew self)
  | next {r r' : GateRun} (t : Int) (a : GateAct) : GateReach ttl skew self r → r.careful a = true → r.act t a = some r' →
      GateReach ttl skew self r'

theorem LeaseGuard.foldl_renewed_of_notMem (groups : List Nat) (t : Int) (g : LeaseGuard) {group : Nat} (hg : group ∉ groups) :
    (groups.foldl (fun gd gr => gd.renewed gr t) g).deadline[group]? = g.deadline[group]? := by
  induction groups generalizing g with
  | nil => rfl
  | cons a groups ih =>
    rw [List.mem_cons, not_or] at hg
    rw [List.foldl_cons, ih _ hg.2, renewed, Std.ExtTreeMap.getElem?_insert, if_neg]
    rw [Nat.compare_eq_eq]
    exact fun h => hg.1 h.symm

/-- What stands when nothing is demoted and a group stands given up: no group is tracked, and no other horizon than that of an empty
guard is cached or about to be. -/
structure GateInv (w : GateWorld) (todo : Bool → List GateStep) : Prop where
  count : w.gate.demotedN = w.gate.demoted.size
  untracked : ∀ group ∈ w.closed, w.gate.guard.deadline[group]? = none ∨ group ∈ w.gate.demoted
  quiet : w.gate.demoted = ∅ → w.closed ≠ ∅ → w.gate.guard.deadline = ∅ ∧ w.gate.horizonMs = minInt64 ∧
    ∀ b, (todo b).head? = some .store → w.seen b = minInt64

theorem readHorizon_of_empty {g : LeaseGate} (h : g.guard.deadline = ∅) : g.readHorizon = minInt64 := by
  rw [LeaseGate.readHorizon, LeaseGuard.horizon, h]
  rfl

section Steps

variable {w : GateWorld} {todo : Bool → List GateStep} {b : Bool} {rest : List GateStep} {st : GateStep}

/-- A step of either goroutine keeps the invariant. A store is always preceded by its own read; a demotion returns with its mark set and
a release with the group untracked, and on an empty guard with the empty horizon stored and no hook call under way. -/
theorem GateInv.step (h : GateInv w todo) (t : Int) (hc : w.careful st = true) (hst : rest.head? = some .store → st = .read)
    (hdem : ∀ group, st = .demoted group → group ∈ w.gate.demoted)
    (hrel : ∀ group, st = .released group → w.gate.guard.deadline[group]? = none ∧
      (w.gate.guard.deadline = ∅ → w.gate.horizonMs = minInt64) ∧ ∀ x, (Function.update todo b rest x).head? ≠ some .store)
    (hhead : (todo b).head? = some st) : GateInv (w.step b t st) (Function.update todo b rest) := by
  have hpend : (∀ x, (todo x).head? = some .store → w.seen x = minInt64) → st ≠ .read →
      ∀ x, (Function.update todo b rest x).head? = some .store → w.seen x = minInt64 := by
    intro hs hne x hx
    by_cases hxb : x = b
    · subst hxb
      rw [Function.update_self] at hx
      exact absurd (hst hx) hne
    · rw [Function.update_of_ne hxb] at hx
      exact hs x hx
  cases st with
  | drop group =>
    refine ⟨h.count, fun g hg => ?_, fun hd hcl => ?_⟩
    · rcases h.untracked g hg with hn | hm
      · left
        change (w.gate.guard.deadline.erase group)[g]? = none
        rw [Std.ExtTreeMap.getElem?_erase, hn, ite_self]
      · exact .inr hm
    · obtain ⟨h₁, h₂, h₃⟩ := h.quiet hd hcl
      refine ⟨?_, h₂, hpend h₃ (by simp)⟩
      change w.gate.guard.deadline.erase group = ∅
      rw [h₁]
      simp
  | mark group endpoint =>
    refine ⟨rfl, fun g hg => ?_, fun hd => ?_⟩
    · rcases h.untracked g hg with hn | hm
      · exact .inl hn
      · exact .inr (Std.ExtTreeMap.mem_insert.mpr (.inr hm))
    · have : group ∈ w.gate.demoted.insert group endpoint := by simp
      rw [show w.gate.demoted.insert group endpoint = ∅ from hd] at this
      exact absurd this Std.ExtTreeMap.not_mem_empty
  | unmark group =>
    refine ⟨rfl, fun g hg => ?_, fun hd hcl => ?_⟩
    · obtain ⟨hne, hg⟩ := Std.ExtTreeMap.mem_erase.mp hg
      rcases h.untracked g hg with hn | hm
      · exact .inl hn
      · exact .inr (Std.ExtTreeMap.mem_erase.mpr ⟨hne, hm⟩)
    · rw [GateWorld.careful, Bool.or_eq_true, Std.ExtTreeMap.isEmpty_iff.mpr (show w.gate.demoted.erase group = ∅ from hd)] at hc
      exact absurd (Std.ExtTreeMap.isEmpty_iff.mp (hc.resolve_left (by simp))) hcl
  | renew groups =>
    rw [GateWorld.careful, Bool.and_eq_true, List.all_eq_true] at hc
    refine ⟨h.count, fun g hg => ?_, fun hd hcl => ?_⟩
    · by_cases hin : g ∈ groups
      · have hg' := hc.1 g hin
        rw [Bool.or_eq_true, Bool.not_eq_true', Std.ExtTreeMap.contains_iff_mem] at hg'
        refine .inr (hg'.resolve_left fun hf => ?_)
        rw [Std.ExtTreeMap.contains_iff_mem.mpr (show g ∈ w.closed from hg)] at hf
        cases hf
      · rcases h.untracked g hg with hn | hm
        · exact .inl ((LeaseGuard.foldl_renewed_of_notMem groups t w.gate.guard hin).trans hn)
        · exact .inr hm
    · have hc2 := hc.2
      rw [Std.ExtTreeMap.isEmpty_iff.mpr (show w.gate.demoted = ∅ from hd)] at hc2
      exact absurd (Std.ExtTreeMap.isEmpty_iff.mp hc2) hcl
  | read =>
    refine ⟨h.count, h.untracked, fun hd hcl => ?_⟩
    obtain ⟨h₁, h₂, h₃⟩ := h.quiet hd hcl
    refine ⟨h₁, h₂, fun x hx => ?_⟩
    by_cases hxb : x = b
    · subst hxb
      exact (Function.update_self ..).trans (readHorizon_of_empty h₁)
    · rw [Function.update_of_ne hxb] at hx
      exact (Function.update_of_ne hxb _ _).trans (h₃ x hx)
  | store =>
    refine ⟨h.count, h.untracked, fun hd hcl => ?_⟩
    obtain ⟨h₁, -, h₃⟩ := h.quiet hd hcl
    exact ⟨h₁, h₃ b hhead, hpend h₃ (by simp)⟩
  | released group =>
    obtain ⟨hun, hmin, hnone⟩ := hrel group rfl
    refine ⟨h.count, fun g hg => ?_, fun hd _ => ?_⟩
    · rcases Std.ExtTreeMap.mem_insert.mp hg with heq | hg
      · rw [Nat.compare_eq_eq] at heq
        exact .inl (heq ▸ hun)
      · exact h.untracked g hg
    · rw [GateWorld.careful, Std.ExtTreeMap.isEmpty_iff.mpr (show w.gate.demoted = ∅ from hd)] at hc
      have hemp := Std.ExtTreeMap.isEmpty_iff.mp hc
      exact ⟨hemp, hmin hemp, fun x hx => absurd hx (hnone x)⟩
  | demoted group =>
    refine ⟨h.count, fun g hg => ?_, fun hd => ?_⟩
    · rcases Std.ExtTreeMap.mem_insert.mp hg with heq | hg
      · rw [Nat.compare_eq_eq] at heq
        exact .inr (heq ▸ hdem group rfl)
      · exact h.untracked g hg
    · have := hdem group rfl
      rw [show w.gate.demoted = ∅ from hd] at this
      exact absurd this Std.ExtTreeMap.not_mem_empty

theorem GateInv.shut (h : GateInv w todo) : w.Shut := by
  intro group t hcl nowMs hmin _
  have hin : group ∈ w.closed := by
    rw [Std.ExtTreeMap.mem_iff_isSome_getElem?, hcl]
    rfl
  have hpos : w.gate.demoted ≠ ∅ → 0 < w.gate.demotedN := by
    intro hne
    rw [h.count]
    by_contra h0
    have hemp : w.gate.demoted.isEmpty = true := by
      rw [Std.ExtTreeMap.isEmpty_eq_size_beq_zero]
      simpa using h0
    exact hne (Std.ExtTreeMap.isEmpty_iff.mp hemp)
  constructor
  · rw [LeaseGate.gated, Bool.or_eq_true, decide_eq_true_eq, decide_eq_true_eq]
    by_cases hd : w.gate.demoted = ∅
    · left
      have hne : w.closed ≠ ∅ := fun he => by simp [he] at hin
      rw [(h.quiet hd hne).2.1]
      exact hmin
    · exact .inr (hpos hd)
  · rcases h.untracked group hin with hn | hm
    · left
      rw [LeaseGate.suspended, LeaseGuard.suspended, hn]
      rfl
    · right
      have hne : w.gate.demoted ≠ ∅ := by
        intro he
        rw [he] at hm
        exact absurd hm Std.ExtTreeMap.not_mem_empty
      rw [LeaseGate.demotedTo, if_neg (Nat.pos_iff_ne_zero.mp (hpos hne))]
      exact Std.ExtTreeMap.mem_iff_isSome_getElem?.mp hm

end Steps

/-- How far the manager's gate call has come, and what it has done by then. -/
inductive Under (w : GateWorld) (hook : List GateStep) : List GateStep → Prop
  | idle : Under w hook []
  | unmark (group : Nat) : Under w hook [.unmark group, .renew [group], .read, .store]
  | renew (groups : List Nat) : Under w hook [.renew groups, .read, .store]
  | read : Under w hook [.read, .store]
  | store : Under w hook [.store]
  | drop (group : Nat) (hh : hook = []) : Under w hook [.drop group, .read, .store, .released group]
  | dropped (group : Nat) (hh : hook = []) (hd : w.gate.guard.deadline[group]? = none) : Under w hook [.read, .store, .released group]
  | storing (group : Nat) (hh : hook = []) (hd : w.gate.guard.deadline[group]? = none) (hs : w.seen false = w.gate.readHorizon) :
      Under w hook [.store, .released group]
  | released (group : Nat) (hh : hook = []) (hd : w.gate.guard.deadline[group]? = none) (hs : w.gate.horizonMs = w.gate.readHorizon) :
      Under w hook [.released group]
  | demote (group : Nat) (endpoint : List UInt8) : Under w hook [.drop group, .mark group endpoint, .read, .store, .demoted group]
  | mark (group : Nat) (endpoint : List UInt8) : Under w hook [.mark group endpoint, .read, .store, .demoted group]
  | marked (group : Nat) (hm : group ∈ w.gate.demoted) : Under w hook [.read, .store, .demoted group]
  | demoting (group : Nat) (hm : group ∈ w.gate.demoted) : Under w hook [.store, .demoted group]
  | demoted (group : Nat) (hm : group ∈ w.gate.demoted) : Under w hook [.demoted group]

/-- While a hook call is under way the manager is in no release, and the hook moves no demotion. -/
theorem Under.hooked {w w' : GateWorld} {hook hook' l : List GateStep} (h : Under w hook l)
    (hno : ∀ group, l.getLast? = some (.released group) → hook ≠ []) (hdem : w'.gate.demoted = w.gate.demoted) : Under w' hook' l := by
  cases h with
  | idle => exact .idle
  | unmark group => exact .unmark group
  | renew groups => exact .renew groups
  | read => exact .read
  | store => exact .store
  | drop group hh | dropped group hh | storing group hh | released group hh => exact absurd hh (hno group rfl)
  | demote group endpoint => exact .demote group endpoint
  | mark group endpoint => exact .mark group endpoint
  | marked group hm => exact .marked group (hdem ▸ hm)
  | demoting group hm => exact .demoting group (hdem ▸ hm)
  | demoted group hm => exact .demoted group (hdem ▸ hm)

def Hooked (l : List GateStep) : Prop := (∃ groups, l = [.renew groups, .read, .store]) ∨ l = [.read, .store] ∨ l = [.store] ∨ l = []

structure RunInv (r : GateRun) : Prop where
  gate : GateInv r.world r.todo
  manager : Under r.world (r.todo true) (r.todo false)
  hook : Hooked (r.todo true)

theorem GateInv.begin {w : GateWorld} {todo : Bool → List GateStep} (h : GateInv w todo) (b : Bool) (op : GateOp) :
    GateInv w (Function.update todo b op.steps) := by
  refine ⟨h.count, h.untracked, fun hd hcl => ?_⟩
  obtain ⟨h₁, h₂, h₃⟩ := h.quiet hd hcl
  refine ⟨h₁, h₂, fun x hx => ?_⟩
  by_cases hxb : x = b
  · subst hxb
    rw [Function.update_self] at hx
    cases op <;> cases hx
  · rw [Function.update_of_ne hxb] at hx
    exact h₃ x hx

namespace RunInv

variable {r : GateRun}

theorem call (h : RunInv r) {op : GateOp} (hc : GateOp.isRelease op = true → r.todo true = [])
    (ops : List GateOp) : RunInv { r with ops := ops, todo := Function.update r.todo false op.steps } := by
  refine ⟨h.gate.begin false op, ?_, h.hook⟩
  change Under r.world (r.todo true) op.steps
  cases op with
  | renewed group => exact .renew [group]
  | onAppended groups => exact .renew groups
  | demote group endpoint => exact .demote group endpoint
  | release group => exact .drop group (hc rfl)
  | regrant group => exact .unmark group

theorem appended (h : RunInv r) (hc : r.releasing = false) (groups : List Nat) :
    RunInv { r with todo := Function.update r.todo true (GateOp.onAppended groups).steps } := by
  refine ⟨h.gate.begin true _, h.manager.hooked (fun group hg => ?_) rfl, Or.inl ⟨groups, rfl⟩⟩
  rw [GateRun.releasing, hg] at hc
  cases hc

theorem goHook (h : RunInv r) (t : Int) {st : GateStep} {rest : List GateStep} (htodo : r.todo true = st :: rest)
    (hc : r.world.careful st = true) :
    RunInv { r with world := r.world.step true t st, todo := Function.update r.todo true rest } := by
  have hhead : (r.todo true).head? = some st := by rw [htodo]; rfl
  have hne : ∀ group, (r.todo false).getLast? = some (.released group) → r.todo true ≠ [] := fun _ _ => by rw [htodo]; simp
  rcases h.hook with ⟨groups, hh⟩ | hh | hh | hh
  · rw [htodo] at hh
    obtain ⟨rfl, rfl⟩ := List.cons.inj hh
    exact ⟨h.gate.step t hc (by simp) (by simp) (by simp) hhead, h.manager.hooked hne rfl, Or.inr (Or.inl rfl)⟩
  · rw [htodo] at hh
    obtain ⟨rfl, rfl⟩ := List.cons.inj hh
    exact ⟨h.gate.step t hc (by simp) (by simp) (by simp) hhead, h.manager.hooked hne rfl, Or.inr (Or.inr (Or.inl rfl))⟩
  · rw [htodo] at hh
    obtain ⟨rfl, rfl⟩ := List.cons.inj hh
    exact ⟨h.gate.step t hc (by simp) (by simp) (by simp) hhead, h.manager.hooked hne rfl, Or.inr (Or.inr (Or.inr rfl))⟩
  · rw [htodo] at hh
    cases hh

theorem goManager (h : RunInv r) (t : Int) {st : GateStep} {rest : List GateStep} (htodo : r.todo false = st :: rest)
    (hc : r.world.careful st = true) :
    RunInv { r with world := r.world.step false t st, todo := Function.update r.todo false rest } := by
  have hhead : (r.todo false).head? = some st := by rw [htodo]; rfl
  have hmgr := h.manager
  rw [htodo] at hmgr
  have hkeep : ∀ {rest' : List GateStep}, (rest'.head? = some .store → st = .read) → (∀ g, st ≠ .demoted g) → (∀ g, st ≠ .released g) →
      GateInv (r.world.step false t st) (Function.update r.todo false rest') :=
    fun h₁ h₂ h₃ => h.gate.step t hc h₁ (fun g hg => absurd hg (h₂ g)) (fun g hg => absurd hg (h₃ g)) hhead
  cases hmgr with
  | unmark group => exact ⟨hkeep (by simp) (by simp) (by simp), .renew [group], h.hook⟩
  | renew groups => exact ⟨hkeep (by simp) (by simp) (by simp), .read, h.hook⟩
  | read => exact ⟨hkeep (by simp) (by simp) (by simp), .store, h.hook⟩
  | store => exact ⟨hkeep (by simp) (by simp) (by simp), .idle, h.hook⟩
  | drop group hh =>
    refine ⟨hkeep (by simp) (by simp) (by simp), .dropped group hh ?_, h.hook⟩
    change (r.world.gate.guard.deadline.erase group)[group]? = none
    simp
  | dropped group hh hd => exact ⟨hkeep (by simp) (by simp) (by simp), .storing group hh hd rfl, h.hook⟩
  | storing group hh hd hs => exact ⟨hkeep (by simp) (by simp) (by simp), .released group hh hd hs, h.hook⟩
  | released group hh hd hs =>
    refine ⟨h.gate.step t hc (by simp) (by simp) (fun g hg => ?_) hhead, .idle, h.hook⟩
    obtain rfl := GateStep.released.inj hg
    refine ⟨hd, fun he => hs.trans (readHorizon_of_empty he), fun x hx => ?_⟩
    cases x with
    | false => simp at hx
    | true =>
      rw [Function.update_of_ne (by simp), hh] at hx
      cases hx
  | demote group endpoint => exact ⟨hkeep (by simp) (by simp) (by simp), .mark group endpoint, h.hook⟩
  | mark group endpoint =>
    exact ⟨hkeep (by simp) (by simp) (by simp), .marked group (Std.ExtTreeMap.mem_insert.mpr (.inl (by simp))), h.hook⟩
  | marked group hm => exact ⟨hkeep (by simp) (by simp) (by simp), .demoting group hm, h.hook⟩
  | demoting group hm => exact ⟨hkeep (by simp) (by simp) (by simp), .demoted group hm, h.hook⟩
  | demoted group hm =>
    refine ⟨h.gate.step t hc (by simp) (fun g hg => ?_) (by simp) hhead, .idle, h.hook⟩
    obtain rfl := GateStep.demoted.inj hg
    exact hm

theorem act (h : RunInv r) {t : Int} {a : GateAct} {r' : GateRun} (hc : r.careful a = true) (hr : r.act t a = some r') : RunInv r' := by
  cases a with
  | event e =>
    rw [GateRun.act] at hr
    split at hr
    · cases hr
      exact ⟨h.gate, h.manager, h.hook⟩
    · cases hr
  | call =>
    rw [GateRun.act] at hr
    split at hr
    next op ops hops =>
      split at hr
      · cases hr
        refine h.call (fun ho => ?_) ops
        rw [GateRun.careful, hops, List.head?_cons, Option.any_some, ho, Bool.not_true, Bool.false_or] at hc
        exact List.isEmpty_iff.mp hc
      · cases hr
    · cases hr
  | appended groups =>
    rw [GateRun.act] at hr
    split at hr
    · cases hr
      exact h.appended (by simpa [GateRun.careful] using hc) groups
    · cases hr
  | go hook =>
    rw [GateRun.act] at hr
    split at hr
    next st rest htodo =>
      cases hr
      rw [GateRun.careful, htodo, List.head?_cons, Option.all_some] at hc
      cases hook with
      | false => exact h.goManager t htodo hc
      | true => exact h.goHook t htodo hc
    · cases hr

end RunInv

namespace GateReach

variable {ttl skew : Int} {self : Nat} {r : GateRun}

theorem inv (h : GateReach ttl skew self r) : RunInv r := by
  induction h with
  | start => exact ⟨⟨rfl, fun g hg => by simp [newGateRun] at hg, fun _ hcl => absurd rfl hcl⟩, .idle, Or.inr (Or.inr (Or.inr rfl))⟩
  | next t a _ hc hr ih => exact ih.act hc hr

/-- In an interleaving of careful steps every write to a group given up is refused until it is granted back. -/
theorem given_up_group_shut (h : GateReach ttl skew self r) : r.world.Shut := h.inv.gate.shut

theorem of_run (h : GateReach ttl skew self r) {acts : List (Int × GateAct)} {r' : GateRun}
    (hr : r.carefulRun acts = some r') : GateReach ttl skew self r' := by
  induction acts generalizing r with
  | nil =>
    cases hr
    exact h
  | cons a acts ih =>
    obtain ⟨mid, hmid, hrest⟩ := Option.bind_eq_some_iff.mp hr
    dsimp only at hmid
    split at hmid
    next hc => exact ih (h.next a.1 a.2 hc hmid) hrest
    · cases hmid

end GateReach

/-- A fold that shows the node 1 as the holder of the groups 1 and 2. -/
def bothHeld : LeaseFold :=
  { newLeaseFold with groups := (Std.ExtTreeMap.empty.insert 1 ⟨1, 1, false, ⟨0, 1⟩⟩).insert 2 ⟨1, 1, false, ⟨0, 1⟩⟩ }

def oneReleased : LeaseFold :=
  { newLeaseFold with groups := (Std.ExtTreeMap.empty.insert 1 ⟨1, 1, true, ⟨0, 2⟩⟩).insert 2 ⟨1, 1, false, ⟨0, 1⟩⟩ }

/-- An event of the manager with its one gate call, `n` steps long. -/
def whole (t : Int) (e : LeaseEvent) (n : Nat) : List (Int × GateAct) := (t, .event e) :: (t, .call) :: List.replicate n (t, .go false)

/-- Group 1 is acquired, renewed by a batch while the manager is idle, and released. -/
def lastReleased : List (Int × GateAct) :=
  whole 0 (.acquire 1 bothHeld bothHeld true) 4 ++ (2000000, .appended [1]) :: List.replicate 3 (2000000, .go true) ++
    whole 5000000 (.release 1 oneReleased true) 4

theorem released_last_group_shut :
    ∃ r, (newGateRun 3000000000 500000000 1).carefulRun lastReleased = some r ∧ r.world.closed[1]? = some 5000000 ∧ r.world.Shut := by
  have hrun : ((newGateRun 3000000000 500000000 1).carefulRun lastReleased).map (fun r => r.world.closed[1]?) = some (some 5000000) := by
    decide +kernel
  obtain ⟨r, hr, hc⟩ := Option.map_eq_some_iff.mp hrun
  exact ⟨r, hr, hc, GateReach.given_up_group_shut (GateReach.start.of_run hr)⟩

/-- Group 1 is released while group 2 is held. -/
def otherHeld : List (Int × GateAct) :=
  whole 0 (.acquire 1 bothHeld bothHeld true) 4 ++ whole 0 (.acquire 2 bothHeld bothHeld true) 4 ++
    whole 5000000 (.release 1 oneReleased true) 4

/-- The handoff of group 1 fails in its flush, and the next heartbeat renews it. -/
def failedHandoff : List (Int × GateAct) :=
  whole 0 (.acquire 1 bothHeld bothHeld true) 4 ++ whole 5000000 (.handoff 1 bothHeld false false) 4 ++
    whole 6000000 (.heartbeat bothHeld true) 3

/-- The hook reads the horizon before the release and stores it behind it. -/
def lateStore : List (Int × GateAct) :=
  whole 0 (.acquire 1 bothHeld bothHeld true) 4 ++ (2000000, .appended [1]) :: List.replicate 2 (2000000, .go true) ++
    whole 5000000 (.release 1 oneReleased true) 4 ++ [(6000000, .go true)]

/-- In all three runs group 1 stands given up since 5 ms. With another group held, or with a late store, no write is looked at; after
the failed handoff a write to it is let through. -/
theorem released_group_admitted :
    ((newGateRun 3000000000 500000000 1).run otherHeld).map (fun r => (r.world.closed[1]?, r.world.gate.gated 5)) =
        some (some 5000000, false) ∧
      ((newGateRun 3000000000 500000000 1).run failedHandoff).map
          (fun r => (r.world.closed[1]?, r.world.gate.suspended 1 6, r.world.gate.demotedTo 1)) = some (some 5000000, false, none) ∧
      ((newGateRun 3000000000 500000000 1).run lateStore).map (fun r => (r.world.closed[1]?, r.world.gate.gated 6)) =
        some (some 5000000, false) := by
  decide +kernel

end Aki.Obs1
