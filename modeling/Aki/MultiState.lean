import Mathlib.Data.List.Nodup
import Mathlib.Logic.Function.Basic
import Aki.Resp

namespace Aki.Multi

def upper (verb : Bytes) : Bytes := verb.map fun ch => if 97 ≤ ch ∧ ch ≤ 122 then ch - 32 else ch

def tokenIs (arg word : Bytes) : Bool := decide (upper arg = word)

def maxVerb : Nat := 32

/-- The part of a table row that queueing and the key union read. -/
structure Entry where
  name : String
  minArgs : Nat
  maxArgs : Option Nat
  keyed : Bool
  keyAt : Nat
  fan : Bool
  paired : Bool
  fanOnly : Bool
  crossKeys : Option (List Bytes → Option (List Bytes))

abbrev Table := Bytes → Option Entry

def lookupEntry (table : Table) (verb : Bytes) : Option Entry :=
  if verb.length > maxVerb then none else table (upper verb)

def everyOther : List Bytes → List Bytes
  | key :: _ :: rest => key :: everyOther rest
  | _ => []

def commandKeys (e : Entry) (tail : List Bytes) : List Bytes :=
  match e.crossKeys.bind (· tail) with
  | some keys => keys
  | none =>
    if e.fan && e.keyed && (e.fanOnly || decide (tail.length > 1)) then
      if e.paired then everyOther tail else tail
    else if e.keyAt > 0 then (tail.drop e.keyAt).take 1
    else if e.keyed then tail.take 1
    else []

/-- One watched key's baseline: a fingerprint of its serialized value, and whether it was there. -/
structure WatchEntry (F : Type) where
  key : Bytes
  fp : F
  present : Bool

structure QueuedCmd where
  e : Entry
  args : List Bytes

structure TxnState (F : Type) where
  inMulti : Bool
  dirty : Bool
  queued : List QueuedCmd
  watch : List (WatchEntry F)

inductive Reply where
  | status (s : String)
  | error (msg : String)
deriving DecidableEq

variable {F : Type}

def TxnState.idle : TxnState F := ⟨false, false, [], []⟩

def isOpen (ts : Option (TxnState F)) : Bool := ts.elim false TxnState.inMulti

def doMulti (ts : Option (TxnState F)) (args : List Bytes) : Option (TxnState F) × Reply :=
  if args.length ≠ 1 then (ts, .error "ERR wrong number of arguments for 'multi' command")
  else if isOpen ts then (ts, .error "ERR MULTI calls can not be nested")
  else (some { ts.getD .idle with inMulti := true, dirty := false, queued := [] }, .status "OK")

def queueCmd (table : Table) (ts : TxnState F) (args : List Bytes) : TxnState F × Reply :=
  match lookupEntry table (args.headD []) with
  | none =>
    ({ ts with dirty := true },
      .error ("ERR unknown command '" ++ String.ofList ((args.headD []).map fun b => Char.ofNat b.toNat) ++ "'"))
  | some e =>
    let n := args.length - 1
    if n < e.minArgs || e.maxArgs.elim false (fun m => decide (n > m)) then
      ({ ts with dirty := true }, .error ("ERR wrong number of arguments for '" ++ e.name ++ "' command"))
    else ({ ts with queued := ts.queued ++ [⟨e, args⟩] }, .status "QUEUED")

def doDiscard (ts : Option (TxnState F)) (args : List Bytes) : Option (TxnState F) × Reply :=
  if args.length ≠ 1 then (ts, .error "ERR wrong number of arguments for 'discard' command")
  else if isOpen ts then (none, .status "OK")
  else (ts, .error "ERR DISCARD without MULTI")

def doUnwatch (ts : Option (TxnState F)) (args : List Bytes) : Option (TxnState F) × Reply :=
  if args.length ≠ 1 then (ts, .error "ERR wrong number of arguments for 'unwatch' command")
  else (ts.bind fun ts => if ts.inMulti then some { ts with watch := [] } else none, .status "OK")

/-- A key watched again takes the new baseline in its old place. -/
def appendWatch : List (WatchEntry F) → WatchEntry F → List (WatchEntry F)
  | [], w => [w]
  | v :: watch, w => if v.key = w.key then w :: watch else v :: appendWatch watch w

/-- The keys a `WATCH` is about to read, or why it reads none. -/
def startWatch (ts : Option (TxnState F)) (args : List Bytes) : Option (TxnState F) × Except Reply (List Bytes) :=
  if args.length < 2 then (ts, .error (.error "ERR wrong number of arguments for 'watch' command"))
  else if isOpen ts then (ts, .error (.error "ERR WATCH inside MULTI is not allowed"))
  else (some (ts.getD .idle), .ok args.tail)

/-- What `EXEC` hands its coordinator: the queue, the baselines and the keys to hold. -/
structure ExecPlan (F : Type) where
  queued : List QueuedCmd
  watch : List (WatchEntry F)
  union : List Bytes

def doExec (ts : Option (TxnState F)) (args : List Bytes) : Option (TxnState F) × Except Reply (ExecPlan F) :=
  if args.length ≠ 1 then (ts, .error (.error "ERR wrong number of arguments for 'exec' command"))
  else match ts with
    | none => (ts, .error (.error "ERR EXEC without MULTI"))
    | some t =>
      if !t.inMulti then (ts, .error (.error "ERR EXEC without MULTI"))
      else if t.dirty then (none, .error (.error "EXECABORT Transaction discarded because of previous errors."))
      else (none, .ok ⟨t.queued, t.watch,
        t.queued.flatMap (fun q => commandKeys q.e q.args.tail) ++ t.watch.map WatchEntry.key⟩)

section Fingerprint

variable {P : Type} (fnv : P → F) (zero : F)

/-- A key's fingerprint and presence, from the payload its owner serializes. -/
def fingerprintOf (payload : Option P) : F × Bool :=
  match payload with
  | none => (zero, false)
  | some p => (fnv p, true)

theorem fingerprintOf_injective (hinj : Function.Injective fnv) {p q : Option P}
    (h : fingerprintOf fnv zero p = fingerprintOf fnv zero q) : p = q := by
  cases p <;> cases q <;> simp_all [fingerprintOf, hinj.eq_iff]

end Fingerprint

theorem appendWatch_find (watch : List (WatchEntry F)) (w : WatchEntry F) (k : Bytes) :
    (appendWatch watch w).find? (·.key = k) = if w.key = k then some w else watch.find? (·.key = k) := by
  induction watch with
  | nil => by_cases hk : w.key = k <;> simp [appendWatch, hk]
  | cons v rest ih =>
    unfold appendWatch
    split
    · next h => by_cases hk : w.key = k <;> simp [hk, h]
    · next h =>
      by_cases hv : v.key = k
      · have hk : ¬ w.key = k := fun he => h (hv.trans he.symm)
        simp [hv, hk]
      · simp [hv, ih]

theorem appendWatch_keys (watch : List (WatchEntry F)) (w : WatchEntry F) (k : Bytes) :
    k ∈ (appendWatch watch w).map WatchEntry.key ↔ k = w.key ∨ k ∈ watch.map WatchEntry.key := by
  induction watch with
  | nil => simp [appendWatch]
  | cons v rest ih =>
    unfold appendWatch
    split
    · next h => simp [h]
    · simp only [List.map_cons, List.mem_cons, ih]
      tauto

theorem appendWatch_nodup {watch : List (WatchEntry F)} (h : (watch.map WatchEntry.key).Nodup) (w : WatchEntry F) :
    ((appendWatch watch w).map WatchEntry.key).Nodup := by
  induction watch with
  | nil => simp [appendWatch]
  | cons v rest ih =>
    rw [List.map_cons, List.nodup_cons] at h
    unfold appendWatch
    split
    · next he => rw [List.map_cons, List.nodup_cons, ← he]; exact h
    · next he =>
      rw [List.map_cons, List.nodup_cons, appendWatch_keys]
      exact ⟨fun hv => hv.elim he h.1, ih h.2⟩

/-- What the connections share: the table, what running a command line does to the keys, and the fingerprint. -/
structure Server (F P : Type) where
  table : Table
  run : List Bytes → (Bytes → Option P) → Bytes → Option P
  fnv : P → F
  zero : F

/-- A key read by a `WATCH`: the state read, and the step that read it. -/
structure Mark (P : Type) where
  key : Bytes
  state : Option P
  tick : Nat

/-- A watched key as the barrier shows it, and the last step that changed it. -/
structure Recheck (P : Type) where
  key : Bytes
  state : Option P
  changed : Nat

/-- A connection on its reader. `pending` holds the lines sent and not run yet, whether in a node still open or published;
`marks` is a ghost: the keys watched since the last `EXEC`, `DISCARD`, `UNWATCH` or `RESET`, latest first. -/
structure Conn (F P : Type) where
  tx : Option (TxnState F)
  reading : List Bytes
  pending : List (List Bytes)
  answers : List Reply
  marks : List (Mark P)

inductive Phase where
  | armed
  | held
  | released
deriving DecidableEq

inductive Outcome where
  | ran
  | aborted
deriving DecidableEq

/-- An `EXEC` on its coordinator. `marks` and `checked` are ghosts. -/
structure Exec (F P : Type) where
  plan : ExecPlan F
  phase : Phase
  left : List (WatchEntry F)
  todo : List QueuedCmd
  outcome : Option Outcome
  marks : List (Mark P)
  checked : List (Recheck P)

/-- `changedAt` is a ghost: the last step that changed the key. -/
structure State (F P : Type) where
  store : Bytes → Option P
  clock : Nat
  changedAt : Bytes → Nat
  conns : Nat → Conn F P
  execs : List (Exec F P)

inductive Event where
  | line (c : Nat) (args : List Bytes)
  | read (c : Nat)
  | owner (c i : Nat)
  | expire (key : Bytes)
  | acquire (i : Nat)
  | check (i : Nat)
  | exec (i : Nat)
  | release (i : Nat)

def kwMulti : Bytes := [77, 85, 76, 84, 73]

def kwExec : Bytes := [69, 88, 69, 67]

def kwDiscard : Bytes := [68, 73, 83, 67, 65, 82, 68]

def kwWatch : Bytes := [87, 65, 84, 67, 72]

def kwUnwatch : Bytes := [85, 78, 87, 65, 84, 67, 72]

def kwReset : Bytes := [82, 69, 83, 69, 84]

section Machine

variable {F P : Type} [DecidableEq F] [DecidableEq P]

def Conn.start : Conn F P := ⟨none, [], [], [], []⟩

def Conn.answer (c : Conn F P) (r : Option (TxnState F) × Reply) : Conn F P :=
  { c with tx := r.1, answers := c.answers ++ [r.2] }

/-- One command line at the reader: the transaction verbs, then the queue of an open `MULTI`, then the pipeline. -/
def Conn.line (srv : Server F P) (c : Conn F P) (args : List Bytes) : Conn F P × Option (Exec F P) :=
  let verb := args.headD []
  -- The reader waits on an owner while a WATCH reads its keys.
  if c.reading ≠ [] then (c, none)
  else if tokenIs verb kwMulti then (c.answer (doMulti c.tx args), none)
  else if tokenIs verb kwExec then
    let ended := args.length = 1 ∧ isOpen c.tx
    let marks := if ended then [] else c.marks
    match doExec c.tx args with
    | (tx, .error r) => ({ c.answer (tx, r) with marks := marks }, none)
    | (tx, .ok plan) => ({ c with tx := tx, marks := marks }, some ⟨plan, .armed, plan.watch, plan.queued, none, c.marks, []⟩)
  else if tokenIs verb kwDiscard then
    ({ c.answer (doDiscard c.tx args) with marks := if args.length = 1 ∧ isOpen c.tx then [] else c.marks }, none)
  else if tokenIs verb kwWatch then
    match startWatch c.tx args with
    | (tx, .error r) => (c.answer (tx, r), none)
    | (tx, .ok keys) => ({ c with tx := tx, reading := keys }, none)
  else if tokenIs verb kwUnwatch then
    ({ c.answer (doUnwatch c.tx args) with marks := if args.length = 1 then [] else c.marks }, none)
  else if tokenIs verb kwReset ∧ c.tx.isSome then ({ c.answer (none, .status "RESET") with marks := [] }, none)
  else match c.tx with
    | none => ({ c with pending := c.pending ++ [args] }, none)
    | some ts =>
      if ts.inMulti then
        let r := queueCmd srv.table ts args
        (c.answer (some r.1, r.2), none)
      else ({ c with pending := c.pending ++ [args] }, none)

/-- The next key of a `WATCH`, read on its owner past whatever is pending. -/
def Conn.read (srv : Server F P) (c : Conn F P) (store : Bytes → Option P) (clock : Nat) : Conn F P :=
  match c.reading with
  | [] => c
  | key :: rest =>
    let ts := c.tx.getD .idle
    let r := fingerprintOf srv.fnv srv.zero (store key)
    { c with
      tx := some { ts with watch := appendWatch ts.watch ⟨key, r.1, r.2⟩ }
      reading := rest
      answers := if rest = [] then c.answers ++ [.status "OK"] else c.answers
      marks := ⟨key, store key, clock⟩ :: c.marks }

/-- One baseline compared under the barrier; past the last one the queue runs. -/
def Exec.check (srv : Server F P) (x : Exec F P) (store : Bytes → Option P) (changedAt : Bytes → Nat) : Exec F P :=
  if x.phase ≠ .held ∨ x.outcome.isSome then x
  else match x.left with
    | [] => { x with outcome := some .ran }
    | w :: rest =>
      let y := { x with checked := ⟨w.key, store w.key, changedAt w.key⟩ :: x.checked }
      if fingerprintOf srv.fnv srv.zero (store w.key) = (w.fp, w.present) then { y with left := rest }
      else { y with outcome := some .aborted }

def Exec.holds (x : Exec F P) (key : Bytes) : Bool := decide (x.phase = .held) && x.plan.union.contains key

namespace State

variable (srv : Server F P) (s : State F P)

def start (store : Bytes → Option P) : State F P := ⟨store, 1, fun _ => 0, fun _ => .start, []⟩

/-- The state after a step, with the keys it changed noted. -/
def next (store : Bytes → Option P) (conns : Nat → Conn F P) (execs : List (Exec F P)) : State F P :=
  ⟨store, s.clock + 1, fun k => if store k = s.store k then s.changedAt k else s.clock, conns, execs⟩

def stay : State F P := s.next s.store s.conns s.execs

def held (key : Bytes) : Bool := s.execs.any (·.holds key)

def step : Event → State F P
  | .line c args =>
    let r := (s.conns c).line srv args
    s.next s.store (Function.update s.conns c r.1) (s.execs ++ r.2.toList)
  | .read c => s.next s.store (Function.update s.conns c ((s.conns c).read srv s.store s.clock)) s.execs
  | .owner c i =>
    match (s.conns c).pending[i]? with
    | none => s.stay
    | some args =>
      -- An argument that is a held key defers the command.
      if args.tail.any s.held then s.stay
      else s.next (srv.run args s.store)
        (Function.update s.conns c { s.conns c with pending := (s.conns c).pending.eraseIdx i }) s.execs
  | .expire key => s.next (Function.update s.store key none) s.conns s.execs
  | .acquire i =>
    match s.execs[i]? with
    | none => s.stay
    | some x =>
      if x.phase = .armed ∧ ¬ x.plan.union.any s.held then s.next s.store s.conns (s.execs.set i { x with phase := .held })
      else s.stay
  | .check i =>
    match s.execs[i]? with
    | none => s.stay
    | some x => s.next s.store s.conns (s.execs.set i (x.check srv s.store s.changedAt))
  | .exec i =>
    match s.execs[i]? with
    | none => s.stay
    | some x =>
      match x.phase, x.outcome, x.todo with
      | .held, some .ran, q :: rest => s.next (srv.run q.args s.store) s.conns (s.execs.set i { x with todo := rest })
      | _, _, _ => s.stay
  | .release i =>
    match s.execs[i]? with
    | none => s.stay
    | some x =>
      if x.phase = .held ∧ (x.outcome = some .aborted ∨ x.outcome = some .ran ∧ x.todo = []) then
        s.next s.store s.conns (s.execs.set i { x with phase := .released })
      else s.stay

def run (store : Bytes → Option P) (evs : List Event) : State F P := evs.foldl (step srv) (start store)

end State

def lastMark (marks : List (Mark P)) (key : Bytes) : Option (Mark P) := marks.find? (·.key = key)

/-- Each watched key has one baseline: what its last `WATCH` read. -/
structure Tracks (srv : Server F P) (watch : List (WatchEntry F)) (marks : List (Mark P)) : Prop where
  distinct : (watch.map WatchEntry.key).Nodup
  baseline : ∀ k, (watch.find? (·.key = k)).map (fun w => (w.fp, w.present)) =
    (lastMark marks k).map fun m => fingerprintOf srv.fnv srv.zero m.state

/-- A key nothing changed since its mark is as the mark says. -/
structure MarkOk (s : State F P) (m : Mark P) : Prop where
  past : m.tick < s.clock
  state : s.changedAt m.key ≤ m.tick → s.store m.key = m.state

def watchOf (tx : Option (TxnState F)) : List (WatchEntry F) := tx.elim [] TxnState.watch

structure ConnOk (srv : Server F P) (s : State F P) (c : Conn F P) : Prop where
  tracks : Tracks srv (watchOf c.tx) c.marks
  marks : ∀ m ∈ c.marks, MarkOk s m

structure ExecOk (srv : Server F P) (s : State F P) (x : Exec F P) : Prop where
  tracks : Tracks srv x.plan.watch x.marks
  marks : ∀ m ∈ x.marks, MarkOk s m
  passed : ∃ done, x.plan.watch = done ++ x.left ∧
    ∀ w ∈ done, ∃ r ∈ x.checked, r.key = w.key ∧ fingerprintOf srv.fnv srv.zero r.state = (w.fp, w.present)
  ran : x.outcome = some .ran → x.left = []
  aborted : x.outcome = some .aborted →
    ∃ w ∈ x.plan.watch, ∃ r ∈ x.checked, r.key = w.key ∧ fingerprintOf srv.fnv srv.zero r.state ≠ (w.fp, w.present)
  checked : ∀ r ∈ x.checked, ∀ m ∈ x.marks, m.key = r.key → r.changed ≤ m.tick → r.state = m.state

structure Inv (srv : Server F P) (s : State F P) : Prop where
  conns : ∀ c, ConnOk srv s (s.conns c)
  execs : ∀ x ∈ s.execs, ExecOk srv s x

variable {srv : Server F P} {s : State F P}

theorem tracks_nil : Tracks srv [] [] := ⟨List.nodup_nil, fun _ => rfl⟩

theorem MarkOk.next {m : Mark P} (h : MarkOk s m) (store : Bytes → Option P) (conns : Nat → Conn F P)
    (execs : List (Exec F P)) : MarkOk (s.next store conns execs) m := by
  refine ⟨Nat.lt_succ_of_lt h.past, fun hc => ?_⟩
  by_cases hs : store m.key = s.store m.key
  · exact hs.trans (h.state (by simpa [State.next, hs] using hc))
  · have := h.past
    simp [State.next, hs] at hc
    omega

theorem ExecOk.next {x : Exec F P} (h : ExecOk srv s x) (store : Bytes → Option P) (conns : Nat → Conn F P)
    (execs : List (Exec F P)) : ExecOk srv (s.next store conns execs) x :=
  { h with marks := fun m hm => (h.marks m hm).next store conns execs }

theorem ExecOk.moved {x : Exec F P} (h : ExecOk srv s x) (phase : Phase) (todo : List QueuedCmd) :
    ExecOk srv s { x with phase := phase, todo := todo } :=
  ⟨h.tracks, h.marks, h.passed, h.ran, h.aborted, h.checked⟩

theorem ConnOk.next {c : Conn F P} (h : ConnOk srv s c) (store : Bytes → Option P) (conns : Nat → Conn F P)
    (execs : List (Exec F P)) : ConnOk srv (s.next store conns execs) c :=
  ⟨h.tracks, fun m hm => (h.marks m hm).next store conns execs⟩

/-- The parts of the invariant that a step rebuilds: one connection, and the coordinators. -/
theorem Inv.next (h : Inv srv s) {store : Bytes → Option P} {conns : Nat → Conn F P} {execs : List (Exec F P)}
    (hc : ∀ c, conns c = s.conns c ∨ ConnOk srv (s.next store conns execs) (conns c))
    (hx : ∀ x ∈ execs, x ∈ s.execs ∨ ExecOk srv (s.next store conns execs) x) : Inv srv (s.next store conns execs) where
  conns c := (hc c).elim (fun he => by
    change ConnOk srv _ (conns c)
    rw [he]
    exact (h.conns c).next store conns execs) id
  execs x hm := (hx x hm).elim (fun ho => (h.execs x ho).next store conns execs) id

theorem Inv.stay (h : Inv srv s) : Inv srv s.stay := h.next (fun _ => .inl rfl) fun _ hx => .inl hx

theorem Inv.setExec (h : Inv srv s) {store : Bytes → Option P} {x : Exec F P} (i : Nat)
    (hx : ExecOk srv (s.next store s.conns (s.execs.set i x)) x) : Inv srv (s.next store s.conns (s.execs.set i x)) := by
  refine h.next (fun _ => .inl rfl) fun y hy => ?_
  rcases List.mem_or_eq_of_mem_set hy with ho | rfl
  · exact .inl ho
  · exact .inr hx

theorem Inv.setConn (h : Inv srv s) {store : Bytes → Option P} {conn : Conn F P} {execs : List (Exec F P)} (c : Nat)
    (hc : ConnOk srv (s.next store (Function.update s.conns c conn) execs) conn)
    (hx : ∀ x ∈ execs, x ∈ s.execs ∨ ExecOk srv (s.next store (Function.update s.conns c conn) execs) x) :
    Inv srv (s.next store (Function.update s.conns c conn) execs) := by
  refine h.next (fun d => ?_) hx
  by_cases hd : d = c
  · rw [hd, Function.update_self]
    exact .inr hc
  · exact .inl (Function.update_of_ne hd _ _)

theorem doMulti_watch (ts : Option (TxnState F)) (args : List Bytes) : watchOf (doMulti ts args).1 = watchOf ts := by
  unfold doMulti
  split
  · rfl
  · split
    · rfl
    · cases ts <;> rfl

theorem queueCmd_watch (table : Table) (ts : TxnState F) (args : List Bytes) :
    (queueCmd table ts args).1.watch = ts.watch := by
  unfold queueCmd
  split
  · rfl
  · dsimp only
    split <;> rfl

theorem doDiscard_watch (ts : Option (TxnState F)) (args : List Bytes) :
    watchOf (doDiscard ts args).1 = if args.length = 1 ∧ isOpen ts then [] else watchOf ts := by
  unfold doDiscard
  by_cases hl : args.length = 1 <;> by_cases ho : isOpen ts <;> simp [hl, ho, watchOf]

theorem doUnwatch_watch (ts : Option (TxnState F)) (args : List Bytes) :
    watchOf (doUnwatch ts args).1 = if args.length = 1 then [] else watchOf ts := by
  unfold doUnwatch
  by_cases hl : args.length = 1
  · cases ts with
    | none => simp [hl, watchOf]
    | some t => by_cases hm : t.inMulti <;> simp [hl, hm, watchOf]
  · simp [hl]

theorem startWatch_watch (ts : Option (TxnState F)) (args : List Bytes) : watchOf (startWatch ts args).1 = watchOf ts := by
  unfold startWatch
  split
  · rfl
  · split
    · rfl
    · cases ts <;> rfl

theorem doExec_cases (ts : Option (TxnState F)) (args : List Bytes) :
    (∃ tx r, doExec ts args = (tx, .error r) ∧
      watchOf tx = if args.length = 1 ∧ isOpen ts then [] else watchOf ts) ∨
    (args.length = 1 ∧ isOpen ts = true) ∧ ∃ plan, doExec ts args = (none, .ok plan) ∧ plan.watch = watchOf ts := by
  unfold doExec
  split
  · next hl => exact .inl ⟨_, _, rfl, by rw [if_neg fun h => hl h.1]⟩
  next hl =>
  have hl := not_not.mp hl
  cases ts with
  | none => exact .inl ⟨_, _, rfl, by simp [watchOf]⟩
  | some t =>
    dsimp only
    split
    · next hm => exact .inl ⟨_, _, rfl, by simp_all [isOpen]⟩
    · next hm =>
      have hm : t.inMulti = true := by simpa using hm
      split
      · exact .inl ⟨_, _, rfl, by simp [isOpen, hm, hl, watchOf]⟩
      · exact .inr ⟨⟨hl, hm⟩, _, rfl, rfl⟩

/-- What a line leaves: the baselines and their marks, or none of either; and an `EXEC` takes the baselines with it. -/
theorem line_cases (c : Conn F P) (args : List Bytes) :
    (watchOf (c.line srv args).1.tx = watchOf c.tx ∧ (c.line srv args).1.marks = c.marks ∨
      watchOf (c.line srv args).1.tx = [] ∧ (c.line srv args).1.marks = []) ∧
    ∀ x ∈ (c.line srv args).2, x.plan.watch = watchOf c.tx ∧ x.marks = c.marks ∧ x.left = x.plan.watch ∧
      x.outcome = none ∧ x.checked = [] := by
  have hclear (p : Prop) [Decidable p] (w : List (WatchEntry F)) (hw : w = if p then [] else watchOf c.tx) :
      w = watchOf c.tx ∧ (if p then [] else c.marks) = c.marks ∨ w = [] ∧ (if p then [] else c.marks) = [] := by
    by_cases hp : p
    · exact .inr ⟨by simpa [hp] using hw, if_pos hp⟩
    · exact .inl ⟨by simpa [hp] using hw, if_neg hp⟩
  unfold Conn.line
  dsimp only
  split
  · exact ⟨.inl ⟨rfl, rfl⟩, nofun⟩
  split
  · exact ⟨.inl ⟨doMulti_watch _ _, rfl⟩, nofun⟩
  split
  · rcases doExec_cases c.tx args with ⟨tx, r, he, hw⟩ | ⟨hend, plan, he, hw⟩
    · rw [he]
      exact ⟨hclear _ _ hw, nofun⟩
    · rw [he]
      refine ⟨.inr ⟨rfl, if_pos hend⟩, fun x hx => ?_⟩
      cases hx
      exact ⟨hw, rfl, rfl, rfl, rfl⟩
  split
  · exact ⟨hclear _ _ (doDiscard_watch _ _), nofun⟩
  split
  · have hw := startWatch_watch c.tx args
    generalize startWatch c.tx args = r at hw
    obtain ⟨tx, _ | _⟩ := r <;> exact ⟨.inl ⟨hw, rfl⟩, nofun⟩
  split
  · exact ⟨hclear _ _ (doUnwatch_watch _ _), nofun⟩
  split
  · exact ⟨.inr ⟨rfl, rfl⟩, nofun⟩
  cases c.tx with
  | none => exact ⟨.inl ⟨rfl, rfl⟩, nofun⟩
  | some ts =>
    dsimp only
    split
    · exact ⟨.inl ⟨queueCmd_watch _ _ _, rfl⟩, nofun⟩
    · exact ⟨.inl ⟨rfl, rfl⟩, nofun⟩

theorem Tracks.read {watch : List (WatchEntry F)} {marks : List (Mark P)} (h : Tracks srv watch marks) (key : Bytes)
    (state : Option P) (tick : Nat) :
    Tracks srv (appendWatch watch ⟨key, (fingerprintOf srv.fnv srv.zero state).1, (fingerprintOf srv.fnv srv.zero state).2⟩)
      (⟨key, state, tick⟩ :: marks) := by
  refine ⟨appendWatch_nodup h.distinct _, fun k => ?_⟩
  rw [appendWatch_find]
  by_cases hk : key = k
  · simp [hk, lastMark]
  · simp only [hk, if_false, lastMark, List.find?_cons, decide_false]
    exact h.baseline k

theorem ExecOk.check {x : Exec F P} (h : ExecOk srv s x) : ExecOk srv s (x.check srv s.store s.changedAt) := by
  unfold Exec.check
  split
  · exact h
  next hgo =>
  have hnone : x.outcome = none := by
    cases ho : x.outcome with
    | none => rfl
    | some o => exact absurd (.inr (by rw [ho]; rfl)) hgo
  cases hl : x.left with
  | nil =>
    have hp := h.passed
    rw [hl] at hp
    exact ⟨h.tracks, h.marks, hp, fun _ => rfl, nofun, h.checked⟩
  | cons w rest =>
    obtain ⟨done, hd, hdone⟩ := h.passed
    rw [hl] at hd
    have hold : ∀ v ∈ done, ∃ r ∈ ⟨w.key, s.store w.key, s.changedAt w.key⟩ :: x.checked, r.key = v.key ∧
        fingerprintOf srv.fnv srv.zero r.state = (v.fp, v.present) := fun v hv =>
      let ⟨r, hr, he⟩ := hdone v hv
      ⟨r, List.mem_cons_of_mem _ hr, he⟩
    have hchecked : ∀ r ∈ ⟨w.key, s.store w.key, s.changedAt w.key⟩ :: x.checked, ∀ m ∈ x.marks, m.key = r.key →
        r.changed ≤ m.tick → r.state = m.state := by
      intro r hr m hm hk hc
      rcases List.mem_cons.mp hr with rfl | hr
      · have := (h.marks m hm).state
        rw [hk] at this
        exact this hc
      · exact h.checked r hr m hm hk hc
    dsimp only
    split
    · next hpass =>
      refine ⟨h.tracks, h.marks, ⟨done ++ [w], by simp [hd], fun v hv => ?_⟩, ?_, ?_, hchecked⟩
      · rcases List.mem_append.mp hv with hv | hv
        · exact hold v hv
        · rw [List.mem_singleton.mp hv]
          exact ⟨_, List.mem_cons_self, rfl, hpass⟩
      · intro ho
        rw [hnone] at ho
        cases ho
      · intro ho
        rw [hnone] at ho
        cases ho
    · next hfail =>
      refine ⟨h.tracks, h.marks, ⟨done, hd, hold⟩, nofun, fun _ => ?_, hchecked⟩
      exact ⟨w, by rw [hd]; simp, _, List.mem_cons_self, rfl, hfail⟩

theorem Inv.line (h : Inv srv s) (c : Nat) (args : List Bytes) : Inv srv (s.step srv (.line c args)) := by
  obtain ⟨hline, hexec⟩ := @line_cases F P _ _ srv (s.conns c) args
  have hc := h.conns c
  refine h.setConn c ?_ fun x hx => ?_
  · rcases hline with ⟨hw, hm⟩ | ⟨hw, hm⟩
    · exact ConnOk.next ⟨hw ▸ hm ▸ hc.tracks, hm ▸ hc.marks⟩ _ _ _
    · exact ⟨by rw [hw, hm]; exact tracks_nil, by rw [hm]; exact nofun⟩
  · rcases List.mem_append.mp hx with ho | hn
    · exact .inl ho
    · obtain ⟨hw, hm, hleft, hout, hchk⟩ := hexec x (Option.mem_toList.mp hn)
      refine .inr (ExecOk.next ⟨?_, ?_, ⟨[], by simp [hleft], nofun⟩, ?_, ?_, ?_⟩ _ _ _)
      · rw [hw, hm]
        exact hc.tracks
      · rw [hm]
        exact hc.marks
      · rw [hout]
        exact nofun
      · rw [hout]
        exact nofun
      · rw [hchk]
        exact nofun

theorem Inv.read (h : Inv srv s) (c : Nat) : Inv srv (s.step srv (.read c)) := by
  have hc := h.conns c
  refine h.setConn c ?_ fun x hx => .inl hx
  unfold Conn.read
  cases hr : (s.conns c).reading with
  | nil => exact hc.next _ _ _
  | cons key rest =>
    have hw : ((s.conns c).tx.getD .idle).watch = watchOf (s.conns c).tx := by cases (s.conns c).tx <;> rfl
    refine ⟨?_, fun m hm => ?_⟩
    · change Tracks srv (appendWatch ((s.conns c).tx.getD .idle).watch _) _
      rw [hw]
      exact hc.tracks.read key (s.store key) s.clock
    · rcases List.mem_cons.mp hm with rfl | hm
      · exact ⟨Nat.lt_succ_self _, fun _ => rfl⟩
      · exact (hc.marks m hm).next _ _ _

theorem Inv.step (h : Inv srv s) (ev : Event) : Inv srv (s.step srv ev) := by
  have hget {i : Nat} {x : Exec F P} (hx : s.execs[i]? = some x) : ExecOk srv s x :=
    h.execs x (List.mem_of_getElem? hx)
  cases ev with
  | line c args => exact h.line c args
  | read c => exact h.read c
  | owner c i =>
    simp only [State.step]
    split
    · exact h.stay
    · split
      · exact h.stay
      · have hc := h.conns c
        exact h.setConn c ⟨hc.tracks, fun m hm => (hc.marks m hm).next _ _ _⟩ fun x hx => .inl hx
  | expire key => exact h.next (fun _ => .inl rfl) fun _ hx => .inl hx
  | acquire i =>
    simp only [State.step]
    split
    · exact h.stay
    · next x hx =>
      split
      · exact h.setExec i (((hget hx).moved _ _).next _ _ _)
      · exact h.stay
  | check i =>
    simp only [State.step]
    split
    · exact h.stay
    · next x hx => exact h.setExec i ((hget hx).check.next _ _ _)
  | exec i =>
    simp only [State.step]
    split
    · exact h.stay
    · next x hx =>
      split
      · exact h.setExec i (((hget hx).moved _ _).next _ _ _)
      · exact h.stay
  | release i =>
    simp only [State.step]
    split
    · exact h.stay
    · next x hx =>
      split
      · exact h.setExec i (((hget hx).moved _ _).next _ _ _)
      · exact h.stay

theorem start_inv (store : Bytes → Option P) : Inv srv (.start store) :=
  ⟨fun _ => ⟨tracks_nil, nofun⟩, nofun⟩

theorem run_inv (srv : Server F P) (store : Bytes → Option P) (evs : List Event) : Inv srv (.run srv store evs) := by
  suffices hs : ∀ s : State F P, Inv srv s → Inv srv (evs.foldl (State.step srv) s) from hs _ (start_inv store)
  induction evs with
  | nil => exact fun _ h => h
  | cons ev rest ih => exact fun s h => ih _ (h.step ev)

theorem Tracks.mark {watch : List (WatchEntry F)} {marks : List (Mark P)} (h : Tracks srv watch marks)
    {w : WatchEntry F} (hw : w ∈ watch) :
    ∃ m, lastMark marks w.key = some m ∧ (w.fp, w.present) = fingerprintOf srv.fnv srv.zero m.state := by
  have hfind : watch.find? (·.key = w.key) = some w := by
    obtain ⟨v, hv⟩ : ∃ v, watch.find? (·.key = w.key) = some v :=
      Option.isSome_iff_exists.mp (List.find?_isSome.mpr ⟨w, hw, by simp⟩)
    have hkey : v.key = w.key := by simpa using List.find?_some hv
    rw [hv, List.inj_on_of_nodup_map h.distinct (List.mem_of_find?_eq_some hv) hw hkey]
  have := h.baseline w.key
  rw [hfind] at this
  cases hm : lastMark marks w.key with
  | none => simp [hm] at this
  | some m => exact ⟨m, rfl, by simpa [hm] using this⟩

theorem Tracks.entry {watch : List (WatchEntry F)} {marks : List (Mark P)} (h : Tracks srv watch marks)
    {k : Bytes} {m : Mark P} (hm : lastMark marks k = some m) :
    ∃ w ∈ watch, w.key = k ∧ (w.fp, w.present) = fingerprintOf srv.fnv srv.zero m.state := by
  have := h.baseline k
  rw [hm] at this
  cases hw : watch.find? (·.key = k) with
  | none => simp [hw] at this
  | some w => exact ⟨w, List.mem_of_find?_eq_some hw, by simpa using List.find?_some hw, by simpa [hw] using this⟩

theorem lastMark_mem {marks : List (Mark P)} {k : Bytes} {m : Mark P} (h : lastMark marks k = some m) :
    m ∈ marks ∧ m.key = k :=
  ⟨List.mem_of_find?_eq_some h, by simpa using List.find?_some h⟩

/-- Everything but the expiry of the key, a queued command and a barrier coming down. -/
def Event.spares (key : Bytes) : Event → Bool
  | .expire k => decide (k ≠ key)
  | .exec _ | .release _ => false
  | _ => true

theorem any_holds_set {execs : List (Exec F P)} {i : Nat} {x x' : Exec F P} {k : Bytes} (hi : execs[i]? = some x)
    (hx : x.holds k = true → x'.holds k = true) (h : execs.any (·.holds k) = true) : (execs.set i x').any (·.holds k) = true := by
  obtain ⟨hlt, rfl⟩ := List.getElem?_eq_some_iff.mp hi
  rw [List.any_eq_true] at h ⊢
  obtain ⟨y, hy, hk⟩ := h
  obtain ⟨j, hj, rfl⟩ := List.mem_iff_getElem.mp hy
  by_cases hij : i = j
  · subst hij
    exact ⟨x', List.mem_set hlt x', hx hk⟩
  · refine ⟨execs[j], List.mem_iff_getElem?.mpr ⟨j, ?_⟩, hk⟩
    rw [List.getElem?_set_ne hij]
    exact List.getElem?_eq_getElem hj

/-- A line that runs past a barrier names no held key, so where commands change only what they name it leaves the key alone. -/
theorem step_spares (hnamed : ∀ args store k, k ∉ args.tail → srv.run args store k = store k) {k : Bytes} (h : s.held k = true)
    {ev : Event} (hev : ev.spares k = true) : (s.step srv ev).held k = true ∧ (s.step srv ev).store k = s.store k := by
  cases ev with
  | line c args => exact ⟨by rw [State.step, State.held, State.next, List.any_append, ← State.held, h, Bool.true_or], rfl⟩
  | read c => exact ⟨h, rfl⟩
  | owner c i =>
    unfold State.step
    dsimp only
    split
    · exact ⟨h, rfl⟩
    · split
      · exact ⟨h, rfl⟩
      next args _ hany => exact ⟨h, hnamed args s.store k fun hk => hany (List.any_eq_true.mpr ⟨k, hk, h⟩)⟩
  | expire key => exact ⟨h, Function.update_of_ne (of_decide_eq_true hev).symm _ _⟩
  | acquire i =>
    unfold State.step
    dsimp only
    split
    · exact ⟨h, rfl⟩
    next x hx =>
      split
      next hacq =>
        refine ⟨any_holds_set hx (fun hk => ?_) h, rfl⟩
        rw [Exec.holds, hacq.1] at hk
        cases hk
      next => exact ⟨h, rfl⟩
  | check i =>
    unfold State.step
    dsimp only
    split
    · exact ⟨h, rfl⟩
    next x hx =>
      refine ⟨any_holds_set hx (fun hk => ?_) h, rfl⟩
      unfold Exec.check
      split
      · exact hk
      · split
        · exact hk
        · dsimp only
          split <;> exact hk
  | exec i => cases hev
  | release i => cases hev

theorem run_spares (hnamed : ∀ args store k, k ∉ args.tail → srv.run args store k = store k) {k : Bytes} (h : s.held k = true)
    (evs : List Event) (hev : ∀ ev ∈ evs, ev.spares k = true) : (evs.foldl (State.step srv) s).store k = s.store k := by
  induction evs generalizing s with
  | nil => rfl
  | cons ev evs ih =>
    obtain ⟨hheld, hsame⟩ := step_spares hnamed h (hev ev List.mem_cons_self)
    exact (ih hheld fun e he => hev e (List.mem_cons_of_mem _ he)).trans hsame

/-- An `EXEC` that ran its queue found every watched key, under its barrier, as the key's last `WATCH` read it; and one whose
watched keys nothing changed since their last `WATCH` is not aborted. Where commands change only keys they name, nothing but its
expiry and a queue changes a key while a barrier holds it. -/
theorem exec_watch (hinj : Function.Injective srv.fnv) (store : Bytes → Option P) (evs : List Event) :
    (∀ x ∈ (State.run srv store evs).execs,
      (x.outcome = some .ran → ∀ k m, lastMark x.marks k = some m → ∃ r ∈ x.checked, r.key = k ∧ r.state = m.state) ∧
      ((∀ r ∈ x.checked, ∀ m, lastMark x.marks r.key = some m → r.changed ≤ m.tick) → x.outcome ≠ some .aborted)) ∧
    ((∀ args st k, k ∉ args.tail → srv.run args st k = st k) → ∀ k, (State.run srv store evs).held k = true → ∀ later : List Event,
      (∀ ev ∈ later, ev.spares k = true) → (State.run srv store (evs ++ later)).store k = (State.run srv store evs).store k) := by
  refine ⟨fun x hx => ?_, fun hnamed k hk later hev => ?_⟩
  rotate_left
  · rw [State.run, List.foldl_append]
    exact run_spares hnamed hk later hev
  have h := (run_inv srv store evs).execs x hx
  refine ⟨fun hran k m hm => ?_, fun hsame habort => ?_⟩
  · obtain ⟨w, hw, hk, hfp⟩ := h.tracks.entry hm
    obtain ⟨done, hd, hdone⟩ := h.passed
    rw [h.ran hran, List.append_nil] at hd
    obtain ⟨r, hr, hrk, hrf⟩ := hdone w (hd ▸ hw)
    exact ⟨r, hr, hrk.trans hk, fingerprintOf_injective srv.fnv srv.zero hinj (hrf.trans hfp)⟩
  · obtain ⟨w, hw, r, hr, hk, hne⟩ := h.aborted habort
    obtain ⟨m, hm, hfp⟩ := h.tracks.mark hw
    have hm' : lastMark x.marks r.key = some m := hk ▸ hm
    obtain ⟨hmem, hmk⟩ := lastMark_mem hm'
    rw [hfp, h.checked r hr m hmem hmk (hsame r hr m hm')] at hne
    exact hne rfl

end Machine

def kwSet : Bytes := [83, 69, 84]

def kwGet : Bytes := [71, 69, 84]

/-- A server of plain `SET` and `GET`, where the fingerprint is the value itself. -/
def plainServer : Server Bytes Bytes where
  table verb :=
    if verb = kwSet then some ⟨"set", 2, none, true, 0, false, false, false, none⟩
    else if verb = kwGet then some ⟨"get", 1, some 1, true, 0, false, false, false, none⟩
    else none
  run args store :=
    match args with
    | [verb, key, value] => if verb = kwSet then Function.update store key (some value) else store
    | _ => store
  fnv := id
  zero := []

def watchThenExec : List Event :=
  [.line 0 [kwWatch, [107]], .read 0, .line 0 [kwMulti], .line 0 [kwGet, [107]], .line 0 [kwExec],
    .acquire 0, .check 0, .check 0]

theorem plainServer_named (args : List Bytes) (st : Bytes → Option Bytes) (k : Bytes) (hk : k ∉ args.tail) :
    plainServer.run args st k = st k := by
  unfold plainServer
  dsimp only
  split
  · split
    · exact Function.update_of_ne (fun he => hk (by simp [he])) _ _
    · rfl
  · rfl

/-- A `SET` of the watched key comes in while the barrier holds it, and waits. -/
theorem watched_key_runs :
    (State.run plainServer (fun _ => none) watchThenExec).execs.map (·.outcome) = [some .ran] ∧
    (∀ x ∈ (State.run plainServer (fun _ => none) watchThenExec).execs,
      (x.outcome = some .ran → ∀ k m, lastMark x.marks k = some m → ∃ r ∈ x.checked, r.key = k ∧ r.state = m.state) ∧
      ((∀ r ∈ x.checked, ∀ m, lastMark x.marks r.key = some m → r.changed ≤ m.tick) → x.outcome ≠ some .aborted)) ∧
    (State.run plainServer (fun _ => none) (watchThenExec ++ [.line 1 [kwSet, [107], [49]], .owner 1 0])).store [107] =
      (State.run plainServer (fun _ => none) watchThenExec).store [107] := by
  obtain ⟨hruns, hheld⟩ := @exec_watch Bytes Bytes _ _ plainServer Function.injective_id (fun _ => none) watchThenExec
  exact ⟨by decide +kernel, hruns, hheld plainServer_named [107] (by decide +kernel) _ (by decide +kernel)⟩

/-- A second `WATCH` of the key forgives the change before it. -/
def watchedTwice : List Event :=
  [.line 0 [kwWatch, [107]], .read 0, .line 1 [kwSet, [107], [49]], .owner 1 0, .line 0 [kwWatch, [107]], .read 0,
    .line 0 [kwMulti], .line 0 [kwExec], .acquire 0, .check 0, .check 0]

/-- A `SET` sent before the `WATCH` and run after it. -/
def setAhead : List Event :=
  [.line 0 [kwSet, [107], [49]], .line 0 [kwWatch, [107]], .read 0, .owner 0 0, .line 0 [kwMulti], .line 0 [kwExec],
    .acquire 0, .check 0]

theorem watchedTwice_runs :
    (∃ x ∈ (State.run plainServer (fun _ => none) watchedTwice).execs, x.outcome = some .ran ∧
      ∃ m ∈ x.marks, m.key = [107] ∧ ∀ r ∈ x.checked, r.key = m.key → r.state ≠ m.state) ∧
    ∃ x ∈ (State.run plainServer (fun _ => none) setAhead).execs, x.outcome = some .aborted := by
  decide +kernel

end Aki.Multi
