import Mathlib.Data.List.Sort
import Mathlib.Tactic.Ring

namespace Aki.Obs1

/-- A position of a log domain's chain. -/
structure ChainPos where
  dd : Nat
  seq : Nat
deriving DecidableEq

/-- One group's frames of a WAL object, as the commit record repeats them from the footer. -/
structure CommitSection where
  group : Nat
  epoch : Nat
  offset : Nat
  storedLen : Nat
  nframes : Nat
  firstSeq : Nat
  lastSeq : Nat
deriving DecidableEq

structure CommitRecord where
  walNode : Nat
  walSeq : Nat
  walSize : Nat
  sections : List CommitSection
deriving DecidableEq

structure GrantRecord where
  group : Nat
  node : Nat
  epoch : Nat
deriving DecidableEq

structure ReleaseRecord where
  group : Nat
  epoch : Nat
deriving DecidableEq

structure Member where
  node : Nat
  incarnation : Nat
  resp : List UInt8
  mesh : List UInt8
  weight : Nat
  version : List UInt8
deriving DecidableEq

inductive MemberOp
  | join
  | leave
  | other (op : Nat)
deriving DecidableEq

inductive ChainRecord
  | grant (r : GrantRecord)
  | release (r : ReleaseRecord)
  | heartbeat
  | commit (r : CommitRecord)
  | member (op : MemberOp) (m : Member)
  | checkpoint (pos : ChainPos)
deriving DecidableEq

structure ChainBatch where
  batchID : Nat
  incarnation : Nat
  records : List ChainRecord
deriving DecidableEq

/-- The outcome of the fence for each section of one commit record. -/
structure CommitVerdict where
  pos : ChainPos
  writer : Nat
  commit : CommitRecord
  live : List Bool
deriving DecidableEq

structure FoldStats where
  grantsRejected : Nat
  releasesRejected : Nat
  sectionsDead : Nat
  membersStale : Nat
  commitsIncStale : Nat
deriving DecidableEq

structure GroupLease where
  node : Nat
  epoch : Nat
  released : Bool
  renew : ChainPos
deriving DecidableEq

structure LeaseEntry where
  group : Nat
  node : Nat
  epoch : Nat
  deadlineMS : Nat
deriving DecidableEq

structure Checkpoint where
  through : ChainPos
  members : List Member
  leases : List LeaseEntry
deriving DecidableEq

/-- A table has more rows than the encoder takes. -/
def Checkpoint.overfull (c : Checkpoint) : Bool := decide (65535 < c.members.length) || decide (65535 < c.leases.length)

/-- The lease table as a fold over one domain's chain. -/
structure LeaseFold where
  dd : Nat
  haveDD : Bool
  next : Nat
  groups : Std.ExtTreeMap Nat GroupLease
  members : Std.ExtTreeMap Nat Member
  grants : Std.ExtTreeMap Nat (Std.ExtTreeMap Nat ChainPos)
  ckpt : ChainPos
  primed : Bool
  stats : FoldStats

/-- What a record made of the table: a grant or a release that folded, or the verdict the commit sink hears. -/
inductive FoldEvent
  | granted (pos : ChainPos) (r : GrantRecord)
  | released (pos : ChainPos) (r : ReleaseRecord)
  | verdict (v : CommitVerdict)
deriving DecidableEq

def newLeaseFold : LeaseFold := ⟨0, false, 0, ∅, ∅, ∅, ⟨0, 0⟩, false, ⟨0, 0, 0, 0, 0⟩⟩

/-- The event is a verdict with a live section of the group and epoch, by this writer. -/
def FoldEvent.LiveIn (ev : FoldEvent) (group epoch writer : Nat) : Prop :=
  ∃ v s, ev = .verdict v ∧ (s, true) ∈ v.commit.sections.zip v.live ∧ s.group = group ∧ s.epoch = epoch ∧ v.writer = writer

/-- What an event says about the live sections of any later one: their epochs are no lower, one epoch has one writer, and
neither a release of the epoch nor a grant of a later one came before. -/
def FoldEvent.Fences (a b : FoldEvent) : Prop :=
  ∀ group epoch writer, b.LiveIn group epoch writer →
    (∀ epoch' writer', a.LiveIn group epoch' writer' → epoch' ≤ epoch ∧ (epoch' = epoch → writer' = writer)) ∧
    (∀ pos r, a = .released pos r → r.group = group → r.epoch ≠ epoch) ∧
    ∀ pos r, a = .granted pos r → r.group = group → r.epoch ≤ epoch

namespace LeaseFold

def primeMember (members : Std.ExtTreeMap Nat Member) (m : Member) : Option (Std.ExtTreeMap Nat Member) :=
  if m.node = 0 then none else some (members.insert m.node m)

/-- A released group's row travels with node 0. -/
def primeLease (through : ChainPos) (groups : Std.ExtTreeMap Nat GroupLease) (l : LeaseEntry) : Std.ExtTreeMap Nat GroupLease :=
  groups.insert l.group ⟨l.node, l.epoch, decide (l.node = 0), through⟩

def prime (f : LeaseFold) (c : Checkpoint) : Option LeaseFold :=
  if f.next ≠ 0 ∨ f.primed then none
  else
    (c.members.foldlM primeMember f.members).map fun members =>
      { f with
        members := members
        groups := c.leases.foldl (primeLease c.through) f.groups
        dd := c.through.dd
        haveDD := true
        next := c.through.seq + 1
        primed := true }

/-- The epoch a grant of the group must carry, in 32 bits. -/
def nextEpoch (f : LeaseFold) (group : Nat) : Nat :=
  match f.groups[group]? with
  | some g => (g.epoch + 1) % 2 ^ 32
  | none => 1

def grantFolds (f : LeaseFold) (rec : GrantRecord) : Bool := decide (rec.node ≠ 0 ∧ rec.epoch = f.nextEpoch rec.group)

def applyGrant (f : LeaseFold) (pos : ChainPos) (rec : GrantRecord) : LeaseFold :=
  if f.grantFolds rec then
    { f with
      groups := f.groups.insert rec.group ⟨rec.node, rec.epoch, false, pos⟩
      grants := f.grants.insert rec.group ((f.grants[rec.group]?.getD ∅).insert rec.epoch pos) }
  else { f with stats := { f.stats with grantsRejected := f.stats.grantsRejected + 1 } }

def releaseFolds (f : LeaseFold) (writer : Nat) (rec : ReleaseRecord) : Bool :=
  f.groups[rec.group]?.any fun g => !g.released && decide (g.epoch = rec.epoch) && decide (g.node = writer)

def applyRelease (f : LeaseFold) (pos : ChainPos) (writer : Nat) (rec : ReleaseRecord) : LeaseFold :=
  match f.groups[rec.group]? with
  | none => { f with stats := { f.stats with releasesRejected := f.stats.releasesRejected + 1 } }
  | some g =>
    if f.releaseFolds writer rec then
      { f with groups := f.groups.insert rec.group { g with released := true, renew := pos } }
    else { f with stats := { f.stats with releasesRejected := f.stats.releasesRejected + 1 } }

/-- A commit or a heartbeat renews all that its writer holds. -/
def renewHeld (f : LeaseFold) (pos : ChainPos) (writer : Nat) : LeaseFold :=
  { f with groups := f.groups.map fun _ g => if g.node = writer ∧ g.released = false then { g with renew := pos } else g }

/-- A member row of another incarnation makes all the writer's sections stale; a writer without a row is not checked. -/
def incOK (f : LeaseFold) (writer inc : Nat) : Bool := f.members[writer]?.all fun m => decide (m.incarnation = inc)

def sectionLive (f : LeaseFold) (writer inc : Nat) (s : CommitSection) : Bool :=
  f.incOK writer inc &&
    f.groups[s.group]?.any fun g => !g.released && decide (g.epoch = s.epoch) && decide (g.node = writer)

def commitVerdict (f : LeaseFold) (pos : ChainPos) (writer inc : Nat) (rec : CommitRecord) : CommitVerdict :=
  ⟨pos, writer, rec, rec.sections.map (f.sectionLive writer inc)⟩

def applyCommit (f : LeaseFold) (pos : ChainPos) (writer inc : Nat) (rec : CommitRecord) : LeaseFold :=
  { f with
    stats :=
      { f.stats with
        commitsIncStale := f.stats.commitsIncStale + if f.incOK writer inc then 0 else 1
        sectionsDead := f.stats.sectionsDead + (rec.sections.countP fun s => !f.sectionLive writer inc s) } }.renewHeld
    pos writer

def memberStale (f : LeaseFold) : LeaseFold := { f with stats := { f.stats with membersStale := f.stats.membersStale + 1 } }

/-- A delayed join must not downgrade a rejoined node, a delayed leave must not remove it. -/
def applyMember (f : LeaseFold) (op : MemberOp) (m : Member) : LeaseFold :=
  let older := f.members[m.node]?.any fun o => decide (m.incarnation < o.incarnation)
  match op with
  | .join => if m.node = 0 ∨ older then f.memberStale else { f with members := f.members.insert m.node m }
  | .leave =>
    if f.members[m.node]? = none ∨ older then f.memberStale else { f with members := f.members.erase m.node }
  | .other _ => f.memberStale

def applyRecord (pos : ChainPos) (writer inc : Nat) (f : LeaseFold) : ChainRecord → LeaseFold × List FoldEvent
  | .grant r => (f.applyGrant pos r, if f.grantFolds r then [.granted pos r] else [])
  | .release r => (f.applyRelease pos writer r, if f.releaseFolds writer r then [.released pos r] else [])
  | .heartbeat => (f.renewHeld pos writer, [])
  | .commit r => (f.applyCommit pos writer inc r, [.verdict (f.commitVerdict pos writer inc r)])
  | .member op m => (f.applyMember op m, [])
  | .checkpoint p => (if f.ckpt.seq < p.seq then { f with ckpt := p } else f, [])

def applyRecords (pos : ChainPos) (writer inc : Nat) : LeaseFold → List ChainRecord → LeaseFold × List FoldEvent
  | f, [] => (f, [])
  | f, r :: rs =>
    let (f, evs) := f.applyRecord pos writer inc r
    let (f, evs') := applyRecords pos writer inc f rs
    (f, evs ++ evs')

/-- The domain of the first batch is the fold's own, and a fold that was not primed starts at position 1. -/
def begin (f : LeaseFold) (pos : ChainPos) : LeaseFold :=
  let f := if f.haveDD then f else { f with dd := pos.dd, haveDD := true, next := 1 }
  if f.next = 0 then { f with next := 1 } else f

/-- `none` is an error: another domain, a gap or a replay. -/
def applyChain (f : LeaseFold) (pos : ChainPos) (writer : Nat) (batch : ChainBatch) : Option (LeaseFold × List FoldEvent) :=
  let f := f.begin pos
  if pos.dd ≠ f.dd ∨ pos.seq ≠ f.next then none
  else
    let (f, evs) := applyRecords pos writer batch.incarnation f batch.records
    some ({ f with next := pos.seq + 1 }, evs)

/-- The chain's objects from position `seq` on, each with the writer its header names. -/
def applyObjects (dd : Nat) : Nat → LeaseFold → List (Nat × ChainBatch) → Option (LeaseFold × List FoldEvent)
  | _, f, [] => some (f, [])
  | seq, f, (writer, batch) :: rest =>
    match f.applyChain ⟨dd, seq⟩ writer batch with
    | none => none
    | some (f, evs) => (applyObjects dd (seq + 1) f rest).map fun r => (r.1, evs ++ r.2)

def holder (f : LeaseFold) (group : Nat) : Option (Nat × Nat) :=
  match f.groups[group]? with
  | some g => if g.released then none else some (g.node, g.epoch)
  | none => none

def heldBy (f : LeaseFold) (node : Nat) : List Nat :=
  (f.groups.toList.filter fun p => decide (p.2.node = node) && !p.2.released).map Prod.fst

def memberTable (f : LeaseFold) : List Member := f.members.toList.map Prod.snd

def leases (f : LeaseFold) : List LeaseEntry :=
  f.groups.toList.map fun p => ⟨p.1, if p.2.released then 0 else p.2.node, p.2.epoch, 0⟩

def applied (f : LeaseFold) : ChainPos := if f.next = 0 then ⟨0, 0⟩ else ⟨f.dd, f.next - 1⟩

/-- The fold's tables through its applied position, the held rows stamped with the observer's deadlines. -/
def snapshot (f : LeaseFold) (deadlineMS : Nat → Nat) : Checkpoint :=
  ⟨f.applied, f.memberTable, f.leases.map fun l => if l.node = 0 then l else { l with deadlineMS := deadlineMS l.group }⟩

/-- The checkpoint a node writes; before the first batch there is nothing to write. -/
def writeCheckpoint (f : LeaseFold) (deadlineMS : Nat → Nat) : Option Checkpoint :=
  if (f.snapshot deadlineMS).through.seq = 0 ∨ (f.snapshot deadlineMS).overfull then none else some (f.snapshot deadlineMS)

/-- A group's epoch, and its holder unless the lease was released. -/
def lease (f : LeaseFold) (group : Nat) : Option (Nat × Option Nat) :=
  f.groups[group]?.map fun g => (g.epoch, if g.released then none else some g.node)

theorem nextEpoch_eq (f : LeaseFold) (group : Nat) : f.nextEpoch group = ((f.lease group).map fun v => (v.1 + 1) % 2 ^ 32).getD 1 := by
  unfold nextEpoch lease
  cases f.groups[group]? <;> rfl

theorem any_lease (f : LeaseFold) (group epoch node : Nat) :
    (f.groups[group]?.any fun g => !g.released && decide (g.epoch = epoch) && decide (g.node = node)) =
      decide (f.lease group = some (epoch, some node)) := by
  unfold lease
  cases f.groups[group]? with
  | none => simp
  | some g => cases hr : g.released <;> simp [hr]

theorem releaseFolds_eq (f : LeaseFold) (writer : Nat) (r : ReleaseRecord) :
    f.releaseFolds writer r = decide (f.lease r.group = some (r.epoch, some writer)) := f.any_lease ..

theorem sectionLive_eq (f : LeaseFold) (writer inc : Nat) (s : CommitSection) :
    f.sectionLive writer inc s = (f.incOK writer inc && decide (f.lease s.group = some (s.epoch, some writer))) := by
  rw [sectionLive, any_lease]

theorem holder_eq (f : LeaseFold) (group : Nat) : f.holder group = (f.lease group).bind fun v => v.2.map fun n => (n, v.1) := by
  unfold holder lease
  cases f.groups[group]? with
  | none => rfl
  | some g => cases hr : g.released <;> simp [hr]

theorem lease_applyGrant (f : LeaseFold) (pos : ChainPos) (r : GrantRecord) (id : Nat) :
    (f.applyGrant pos r).lease id = if f.grantFolds r = true ∧ r.group = id then some (r.epoch, some r.node) else f.lease id := by
  unfold applyGrant
  split
  · next h =>
    simp only [lease, Std.ExtTreeMap.getElem?_insert, Nat.compare_eq_eq, h, true_and]
    split <;> rfl
  · next h => simp [lease, h]

theorem lease_applyRelease (f : LeaseFold) (pos : ChainPos) (writer : Nat) (r : ReleaseRecord) (id : Nat) :
    (f.applyRelease pos writer r).lease id =
      if f.releaseFolds writer r = true ∧ r.group = id then some (r.epoch, none) else f.lease id := by
  unfold applyRelease
  cases hg : f.groups[r.group]? with
  | none => simp [releaseFolds, hg, lease]
  | some g =>
    dsimp only
    split
    · next h =>
      have he : g.epoch = r.epoch := by
        simp only [releaseFolds, hg, Option.any_some, Bool.and_eq_true, decide_eq_true_eq] at h
        exact h.1.2
      simp only [lease, Std.ExtTreeMap.getElem?_insert, Nat.compare_eq_eq, h, true_and]
      split <;> simp [he]
    · next h => simp [lease, h]

theorem lease_renewHeld (f : LeaseFold) (pos : ChainPos) (writer id : Nat) : (f.renewHeld pos writer).lease id = f.lease id := by
  simp only [lease, renewHeld, Std.ExtTreeMap.getElem?_map, Option.map_map]
  cases f.groups[id]? with
  | none => rfl
  | some g =>
    simp only [Option.map_some, Function.comp]
    split <;> rfl

theorem lease_applyMember (f : LeaseFold) (op : MemberOp) (m : Member) (id : Nat) : (f.applyMember op m).lease id = f.lease id := by
  cases op <;> simp only [applyMember] <;> (try split) <;> rfl

theorem lease_applyRecord (f : LeaseFold) (pos : ChainPos) (writer inc : Nat) (r : ChainRecord) (id : Nat) :
    (f.applyRecord pos writer inc r).1.lease id =
      match r with
      | .grant g => if f.grantFolds g = true ∧ g.group = id then some (g.epoch, some g.node) else f.lease id
      | .release g => if f.releaseFolds writer g = true ∧ g.group = id then some (g.epoch, none) else f.lease id
      | _ => f.lease id := by
  cases r with
  | grant g => exact f.lease_applyGrant pos g id
  | release g => exact f.lease_applyRelease pos writer g id
  | heartbeat => exact f.lease_renewHeld pos writer id
  | commit c => exact lease_renewHeld _ pos writer id
  | member op m => exact f.lease_applyMember op m id
  | checkpoint p =>
    simp only [applyRecord]
    split <;> rfl

/-- The table has reached the epoch, and at that very epoch its holder is one of those allowed. -/
def Reached (f : LeaseFold) (group epoch : Nat) (ok : Option Nat → Prop) : Prop :=
  ∃ e h, f.lease group = some (e, h) ∧ epoch ≤ e ∧ (e = epoch → ok h)

def Behind (f : LeaseFold) (ev : FoldEvent) : Prop :=
  (∀ group epoch writer, ev.LiveIn group epoch writer → f.Reached group epoch fun h => h = none ∨ h = some writer) ∧
  (∀ pos r, ev = .released pos r → f.Reached r.group r.epoch fun h => h = none) ∧
  ∀ pos r, ev = .granted pos r → f.Reached r.group r.epoch fun _ => True

/-- What a record does to the table when no grant wraps around: epochs grow, and within one epoch a holder can only go. -/
def Advances (f f' : LeaseFold) : Prop :=
  ∀ group e h, f.lease group = some (e, h) → ∃ e' h', f'.lease group = some (e', h') ∧ e ≤ e' ∧ (e' = e → h' = h ∨ h' = none)

theorem Advances.of_lease {f f' : LeaseFold} (h : ∀ id, f'.lease id = f.lease id) : Advances f f' :=
  fun group e hd hl => ⟨e, hd, (h group).trans hl, Nat.le_refl _, fun _ => .inl rfl⟩

theorem Reached.advance {f f' : LeaseFold} {group epoch : Nat} {ok : Option Nat → Prop} (h : f.Reached group epoch ok)
    (hok : ok none) (ha : Advances f f') : f'.Reached group epoch ok := by
  obtain ⟨e, hd, h1, h2, h3⟩ := h
  obtain ⟨e', hd', h4, h5, h6⟩ := ha group e hd h1
  refine ⟨e', hd', h4, Nat.le_trans h2 h5, fun he => ?_⟩
  rcases h6 (by omega) with rfl | rfl
  · exact h3 (by omega)
  · exact hok

theorem Behind.advance {f f' : LeaseFold} {ev : FoldEvent} (h : f.Behind ev) (ha : Advances f f') : f'.Behind ev :=
  ⟨fun group epoch writer hl => (h.1 group epoch writer hl).advance (.inl rfl) ha,
    fun pos r he => (h.2.1 pos r he).advance rfl ha, fun pos r he => (h.2.2 pos r he).advance trivial ha⟩

def Epochs (f : LeaseFold) : Prop := ∀ group e h, f.lease group = some (e, h) → e < 2 ^ 32

theorem grantFolds_iff {f : LeaseFold} {r : GrantRecord} : f.grantFolds r = true ↔ r.node ≠ 0 ∧ r.epoch = f.nextEpoch r.group := by
  simp [grantFolds]

theorem Epochs.applyRecord {f : LeaseFold} (h : f.Epochs) (pos : ChainPos) (writer inc : Nat) (r : ChainRecord) :
    (f.applyRecord pos writer inc r).1.Epochs := by
  intro group e hd hl
  rw [lease_applyRecord] at hl
  cases r with
  | grant g =>
    dsimp only at hl
    split at hl
    · next hg =>
      cases hl
      rw [(grantFolds_iff.mp hg.1).2, nextEpoch_eq]
      cases f.lease g.group with
      | none => decide
      | some v => exact Nat.mod_lt _ (by decide)
    · exact h group e hd hl
  | release g =>
    dsimp only at hl
    split at hl
    · next hg =>
      cases hl
      have := hg.1
      rw [releaseFolds_eq, decide_eq_true_eq] at this
      exact h _ _ _ this
    · exact h group e hd hl
  | heartbeat => exact h group e hd hl
  | commit c => exact h group e hd hl
  | member op m => exact h group e hd hl
  | checkpoint p => exact h group e hd hl

theorem advances_applyRecord {f : LeaseFold} (hE : f.Epochs) (pos : ChainPos) (writer inc : Nat) {r : ChainRecord}
    (hwrap : ∀ p g, FoldEvent.granted p g ∈ (f.applyRecord pos writer inc r).2 → g.epoch ≠ 0) :
    Advances f (f.applyRecord pos writer inc r).1 := by
  cases r with
  | grant g =>
    intro group e hd hl
    rw [lease_applyRecord]
    dsimp only
    split
    · next hg =>
      obtain ⟨hf, rfl⟩ := hg
      have hne : g.epoch ≠ 0 := hwrap pos g (by simp [applyRecord, hf])
      have hep := (grantFolds_iff.mp hf).2
      rw [nextEpoch_eq, hl] at hep
      have hlt := hE _ _ _ hl
      simp only [Option.map_some, Option.getD_some] at hep
      exact ⟨_, _, rfl, by omega, fun h => by omega⟩
    · exact ⟨e, hd, hl, Nat.le_refl _, fun _ => .inl rfl⟩
  | release g =>
    intro group e hd hl
    rw [lease_applyRecord]
    dsimp only
    split
    · next hg =>
      obtain ⟨hf, rfl⟩ := hg
      rw [releaseFolds_eq, decide_eq_true_eq, hl] at hf
      cases hf
      exact ⟨_, _, rfl, Nat.le_refl _, fun _ => .inr rfl⟩
    · exact ⟨e, hd, hl, Nat.le_refl _, fun _ => .inl rfl⟩
  | heartbeat => exact .of_lease fun id => f.lease_applyRecord ..
  | commit c => exact .of_lease fun id => f.lease_applyRecord ..
  | member op m => exact .of_lease fun id => f.lease_applyRecord ..
  | checkpoint p => exact .of_lease fun id => f.lease_applyRecord ..

theorem liveIn_commitVerdict {f : LeaseFold} {pos : ChainPos} {writer inc : Nat} {r : CommitRecord} {group epoch w : Nat}
    (h : (FoldEvent.verdict (f.commitVerdict pos writer inc r)).LiveIn group epoch w) :
    w = writer ∧ f.lease group = some (epoch, some writer) := by
  obtain ⟨v, s, hv, hs, rfl, rfl, rfl⟩ := h
  cases hv
  refine ⟨rfl, ?_⟩
  simp only [commitVerdict] at hs
  rw [← List.map_prod_left_eq_zip, List.mem_map] at hs
  obtain ⟨s', -, heq⟩ := hs
  obtain ⟨rfl, hlive⟩ := Prod.mk.inj heq
  rw [sectionLive_eq, Bool.and_eq_true, decide_eq_true_eq] at hlive
  exact hlive.2

/-- A live section stands at the table's epoch, so it is past every event behind the table. -/
theorem Behind.fences {f : LeaseFold} {a : FoldEvent} (h : f.Behind a) {b : FoldEvent}
    (hb : ∀ group epoch writer, b.LiveIn group epoch writer → f.lease group = some (epoch, some writer)) : a.Fences b := by
  intro group epoch writer hl
  have hlease := hb group epoch writer hl
  refine ⟨fun epoch' writer' hl' => ?_, fun pos r he hg heq => ?_, fun pos r he hg => ?_⟩
  · obtain ⟨e, hd, h1, h2, h3⟩ := h.1 group epoch' writer' hl'
    rw [hlease] at h1
    cases h1
    refine ⟨h2, fun he => ?_⟩
    rcases h3 he.symm with h | h
    · simp at h
    · exact (Option.some.inj h).symm
  · obtain ⟨e, hd, h1, -, h3⟩ := h.2.1 pos r he
    rw [hg, hlease] at h1
    cases h1
    simpa using h3 heq.symm
  · obtain ⟨e, hd, h1, h2, -⟩ := h.2.2 pos r he
    rw [hg, hlease] at h1
    cases h1
    exact h2

theorem behind_applyRecord (f : LeaseFold) (pos : ChainPos) (writer inc : Nat) (r : ChainRecord) :
    ∀ ev ∈ (f.applyRecord pos writer inc r).2, (f.applyRecord pos writer inc r).1.Behind ev := by
  intro ev hev
  cases r with
  | grant g =>
    simp only [LeaseFold.applyRecord] at hev
    split at hev
    · next hf =>
      obtain rfl := List.mem_singleton.mp hev
      refine ⟨fun _ _ _ ⟨_, _, h, _⟩ => (nomatch h), fun _ _ h => (nomatch h), fun pos' r h => ?_⟩
      cases h
      exact ⟨g.epoch, some g.node, by rw [lease_applyRecord]; exact if_pos ⟨hf, rfl⟩, Nat.le_refl _, fun _ => trivial⟩
    · simp at hev
  | release g =>
    simp only [LeaseFold.applyRecord] at hev
    split at hev
    · next hf =>
      obtain rfl := List.mem_singleton.mp hev
      refine ⟨fun _ _ _ ⟨_, _, h, _⟩ => (nomatch h), fun pos' r h => ?_, fun _ _ h => (nomatch h)⟩
      cases h
      exact ⟨g.epoch, none, by rw [lease_applyRecord]; exact if_pos ⟨hf, rfl⟩, Nat.le_refl _, fun _ => rfl⟩
    · simp at hev
  | heartbeat => simp [LeaseFold.applyRecord] at hev
  | commit c =>
    obtain rfl := List.mem_singleton.mp hev
    refine ⟨fun group epoch w hl => ?_, fun _ _ h => (nomatch h), fun _ _ h => (nomatch h)⟩
    obtain ⟨rfl, hlease⟩ := liveIn_commitVerdict hl
    exact ⟨epoch, some w, by rw [lease_applyRecord]; exact hlease, Nat.le_refl _, fun _ => .inr rfl⟩
  | member op m => simp [LeaseFold.applyRecord] at hev
  | checkpoint p => simp [LeaseFold.applyRecord] at hev

theorem liveIn_applyRecord {f : LeaseFold} {pos : ChainPos} {writer inc : Nat} {r : ChainRecord} {ev : FoldEvent}
    (hev : ev ∈ (f.applyRecord pos writer inc r).2) {group epoch w : Nat} (hl : ev.LiveIn group epoch w) :
    f.lease group = some (epoch, some w) ∧ (f.applyRecord pos writer inc r).1.lease group = some (epoch, some w) := by
  obtain ⟨v, s, rfl, hs⟩ := hl
  cases r with
  | grant g =>
    simp only [LeaseFold.applyRecord] at hev
    split at hev <;> simp at hev
  | release g =>
    simp only [LeaseFold.applyRecord] at hev
    split at hev <;> simp at hev
  | heartbeat => simp [LeaseFold.applyRecord] at hev
  | commit c =>
    obtain rfl := FoldEvent.verdict.inj (List.mem_singleton.mp hev)
    obtain ⟨h1, h2⟩ := liveIn_commitVerdict ⟨_, s, rfl, hs⟩
    rw [h1]
    exact ⟨h2, (f.lease_applyRecord ..).trans h2⟩
  | member op m => simp [LeaseFold.applyRecord] at hev
  | checkpoint p => simp [LeaseFold.applyRecord] at hev

theorem applyRecord_events (f : LeaseFold) (pos : ChainPos) (writer inc : Nat) (r : ChainRecord) :
    (f.applyRecord pos writer inc r).2 = [] ∨ ∃ ev, (f.applyRecord pos writer inc r).2 = [ev] := by
  cases r with
  | grant g =>
    simp only [LeaseFold.applyRecord]
    split
    · exact .inr ⟨_, rfl⟩
    · exact .inl rfl
  | release g =>
    simp only [LeaseFold.applyRecord]
    split
    · exact .inr ⟨_, rfl⟩
    · exact .inl rfl
  | heartbeat => exact .inl rfl
  | commit c => exact .inr ⟨_, rfl⟩
  | member op m => exact .inl rfl
  | checkpoint p => exact .inl rfl

/-- What holds of the events so far and the table they left. -/
structure Fenced (f : LeaseFold) (log : List FoldEvent) : Prop where
  epochs : f.Epochs
  behind : ∀ ev ∈ log, f.Behind ev
  ordered : log.Pairwise FoldEvent.Fences
  own : ∀ ev ∈ log, ev.Fences ev

theorem Fenced.applyRecord {f : LeaseFold} {log : List FoldEvent} (h : Fenced f log) (pos : ChainPos) (writer inc : Nat)
    {r : ChainRecord} (hwrap : ∀ p g, FoldEvent.granted p g ∈ (f.applyRecord pos writer inc r).2 → g.epoch ≠ 0) :
    Fenced (f.applyRecord pos writer inc r).1 (log ++ (f.applyRecord pos writer inc r).2) := by
  have ha := advances_applyRecord h.epochs pos writer inc hwrap
  have hnew := f.behind_applyRecord pos writer inc r
  refine ⟨h.epochs.applyRecord pos writer inc r, fun ev hev => ?_, ?_, fun ev hev => ?_⟩
  · rcases List.mem_append.mp hev with hev | hev
    · exact (h.behind ev hev).advance ha
    · exact hnew ev hev
  · refine List.pairwise_append.mpr ⟨h.ordered, ?_, fun a hmem b hb => ?_⟩
    · rcases f.applyRecord_events pos writer inc r with he | ⟨ev, he⟩ <;> rw [he]
      · exact .nil
      · exact List.pairwise_singleton _ _
    · exact (h.behind a hmem).fences fun group epoch w hl => (liveIn_applyRecord hb hl).1
  · rcases List.mem_append.mp hev with hev | hev
    · exact h.own ev hev
    · exact (hnew ev hev).fences fun group epoch w hl => (liveIn_applyRecord hev hl).2

theorem Fenced.applyRecords {pos : ChainPos} {writer inc : Nat} (rs : List ChainRecord) {f : LeaseFold} {log : List FoldEvent}
    (h : Fenced f log) (hwrap : ∀ p g, FoldEvent.granted p g ∈ (applyRecords pos writer inc f rs).2 → g.epoch ≠ 0) :
    Fenced (applyRecords pos writer inc f rs).1 (log ++ (applyRecords pos writer inc f rs).2) := by
  induction rs generalizing f log with
  | nil => simpa [LeaseFold.applyRecords] using h
  | cons r rs ih =>
    rw [LeaseFold.applyRecords] at hwrap ⊢
    have h1 := h.applyRecord pos writer inc (r := r) fun p g hg => hwrap p g (List.mem_append_left _ hg)
    have h2 := ih h1 fun p g hg => hwrap p g (List.mem_append_right _ hg)
    rwa [List.append_assoc] at h2

theorem Fenced.congr {f f' : LeaseFold} {log : List FoldEvent} (h : Fenced f log) (hg : f'.groups = f.groups) : Fenced f' log := by
  have hl : ∀ id, f'.lease id = f.lease id := fun id => by rw [lease, lease, hg]
  exact ⟨fun group e hd he => h.epochs group e hd (by rw [← hl]; exact he),
    fun ev hev => (h.behind ev hev).advance (.of_lease hl), h.ordered, h.own⟩

theorem begin_groups (f : LeaseFold) (pos : ChainPos) : (f.begin pos).groups = f.groups := by
  unfold LeaseFold.begin
  split <;> (dsimp only; split <;> rfl)

theorem applyChain_some {f f' : LeaseFold} {pos : ChainPos} {writer : Nat} {batch : ChainBatch} {evs : List FoldEvent}
    (h : f.applyChain pos writer batch = some (f', evs)) :
    pos.dd = (f.begin pos).dd ∧ pos.seq = (f.begin pos).next ∧
      f' = { (applyRecords pos writer batch.incarnation (f.begin pos) batch.records).1 with next := pos.seq + 1 } ∧
      evs = (applyRecords pos writer batch.incarnation (f.begin pos) batch.records).2 := by
  unfold LeaseFold.applyChain at h
  dsimp only at h
  split at h
  · simp at h
  · next hno =>
    simp only [not_or, Decidable.not_not] at hno
    obtain ⟨rfl, rfl⟩ := Prod.mk.inj (Option.some.inj h)
    exact ⟨hno.1, hno.2, rfl, rfl⟩

theorem Fenced.applyChain {f f' : LeaseFold} {log evs : List FoldEvent} (h : Fenced f log) {pos : ChainPos} {writer : Nat}
    {batch : ChainBatch} (hc : f.applyChain pos writer batch = some (f', evs))
    (hwrap : ∀ p g, FoldEvent.granted p g ∈ evs → g.epoch ≠ 0) : Fenced f' (log ++ evs) := by
  obtain ⟨-, -, rfl, rfl⟩ := applyChain_some hc
  exact ((h.congr (f.begin_groups pos)).applyRecords batch.records hwrap).congr rfl

theorem Fenced.applyObjects {dd : Nat} (chain : List (Nat × ChainBatch)) {seq : Nat} {f f' : LeaseFold} {log evs : List FoldEvent}
    (h : Fenced f log) (hc : applyObjects dd seq f chain = some (f', evs))
    (hwrap : ∀ p g, FoldEvent.granted p g ∈ evs → g.epoch ≠ 0) : Fenced f' (log ++ evs) := by
  induction chain generalizing seq f log evs with
  | nil =>
    obtain ⟨rfl, rfl⟩ := Prod.mk.inj (Option.some.inj hc)
    simpa using h
  | cons o rest ih =>
    obtain ⟨writer, batch⟩ := o
    rw [LeaseFold.applyObjects] at hc
    split at hc
    · simp at hc
    · next g evs' hstep =>
      obtain ⟨⟨g', evs''⟩, hrest, heq⟩ := Option.map_eq_some_iff.mp hc
      obtain ⟨rfl, rfl⟩ := Prod.mk.inj heq
      have h1 := h.applyChain hstep fun p r hr => hwrap p r (List.mem_append_left _ hr)
      have h2 := ih h1 hrest fun p r hr => hwrap p r (List.mem_append_right _ hr)
      rwa [List.append_assoc] at h2

theorem newLeaseFold_fenced : Fenced newLeaseFold [] :=
  ⟨fun group e hd h => by simp [lease, newLeaseFold] at h, fun ev hev => by simp at hev, .nil, fun ev hev => by simp at hev⟩

end LeaseFold

end Aki.Obs1
