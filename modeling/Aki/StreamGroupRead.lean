import Aki.Pel
import Aki.Resp

namespace Aki

/-- `eqFold` against an upper-case keyword. -/
def eqFold (b keyword : Bytes) : Bool :=
  decide (b.map (fun c => if 97 ≤ c ∧ c ≤ 122 then c - 32 else c) = keyword)

def kwGroup : Bytes := [71, 82, 79, 85, 80]

def kwCount : Bytes := [67, 79, 85, 78, 84]

def kwBlock : Bytes := [66, 76, 79, 67, 75]

def kwNoack : Bytes := [78, 79, 65, 67, 75]

def kwStreams : Bytes := [83, 84, 82, 69, 65, 77, 83]

def isDigit (c : UInt8) : Bool := decide (48 ≤ c) && decide (c ≤ 57)

def digitsVal (b : Bytes) : Nat := b.foldl (fun v c => v * 10 + (c.toNat - 48)) 0

/-- Decimal digits with no range check: the value wraps at 64 bits. -/
def parseUint (b : Bytes) : Option Nat := if b ≠ [] ∧ b.all isDigit then some (digitsVal b % 2 ^ 64) else none

/-- A signed 64-bit decimal, checked for range. -/
def parseBlockMs (b : Bytes) : Option Int :=
  match b with
  | 45 :: ds => if ds ≠ [] ∧ ds.all isDigit ∧ digitsVal ds ≤ 2 ^ 63 then some (-(digitsVal ds : Int)) else none
  | 43 :: ds => if ds ≠ [] ∧ ds.all isDigit ∧ digitsVal ds < 2 ^ 63 then some (digitsVal ds) else none
  | ds => if ds ≠ [] ∧ ds.all isDigit ∧ digitsVal ds < 2 ^ 63 then some (digitsVal ds) else none

/-- A word read as a two's-complement `int`. -/
def toInt64 (n : Nat) : Int := if n < 2 ^ 63 then n else (n : Int) - 2 ^ 64

def streamId (ms seq : Nat) : StreamId := ⟨ms % 2 ^ 64, seq % 2 ^ 64, Nat.mod_lt _ (by decide), Nat.mod_lt _ (by decide)⟩

/-- An explicit ID: `ms` or `ms-seq`, split at the first dash. -/
def parseStreamId (arg : Bytes) : Option StreamId :=
  match parseUint (arg.takeWhile fun c => c ≠ 45) with
  | none => none
  | some ms =>
    if arg.contains 45 then (parseUint ((arg.dropWhile fun c => c ≠ 45).drop 1)).map fun seq => streamId ms seq
    else some (streamId ms 0)

def isGreaterToken (arg : Bytes) : Bool := decide (arg = [62])

structure GroupReadOpts where
  count : Int
  noack : Bool
  block : Bool
  blockMs : Int
deriving DecidableEq

structure GroupRead where
  grp : Bytes
  con : Bytes
  opts : GroupReadOpts
  keys : List (Bytes × Bytes)
deriving DecidableEq

/-- The errors of a group read, with the key and the group a missing group names. -/
inductive ReadError
  | missingGroup
  | notInteger
  | timeoutNotInteger
  | timeoutNegative
  | unbalanced
  | syntaxError
  | wrongType
  | noGroup (key name : Bytes)
  | invalidID
deriving DecidableEq

def ReadError.text : ReadError → String
  | .missingGroup => "Missing GROUP keyword or consumer/group name in XREADGROUP with the GROUP option"
  | .notInteger => "ERR value is not an integer or out of range"
  | .timeoutNotInteger => "ERR timeout is not an integer or out of range"
  | .timeoutNegative => "ERR timeout is negative"
  | .unbalanced => "ERR Unbalanced XREADGROUP list of streams: for each stream key an ID or '>' must be specified."
  | .syntaxError => "ERR syntax error"
  | .wrongType => "WRONGTYPE Operation against a key holding the wrong kind of value"
  | .noGroup key name => "NOGROUP No such key '" ++ String.ofList (key.map fun b => Char.ofNat b.toNat) ++
      "' or consumer group '" ++ String.ofList (name.map fun b => Char.ofNat b.toNat) ++ "' in XREADGROUP with GROUP option"
  | .invalidID => "ERR Invalid stream ID specified as stream command argument"

/-- The option clauses up to `STREAMS`; a clause that needs a value and has none is no clause. -/
def parseClauses (grp con : Bytes) (opts : GroupReadOpts) : List Bytes → Except ReadError GroupRead
  | [] => .error .syntaxError
  | [arg] =>
    if eqFold arg kwNoack then .error .syntaxError
    else if eqFold arg kwStreams then .error .unbalanced
    else .error .syntaxError
  | arg :: val :: rest =>
    if eqFold arg kwCount then
      match parseUint val with
      | none => .error .notInteger
      | some n => parseClauses grp con { opts with count := if toInt64 n = 0 then -1 else toInt64 n } rest
    else if eqFold arg kwBlock then
      match parseBlockMs val with
      | none => .error .timeoutNotInteger
      | some ms => if ms < 0 then .error .timeoutNegative else parseClauses grp con { opts with block := true, blockMs := ms } rest
    else if eqFold arg kwNoack then parseClauses grp con { opts with noack := true } (val :: rest)
    else if eqFold arg kwStreams then
      let tail := val :: rest
      if tail.length % 2 ≠ 0 then .error .unbalanced
      else .ok ⟨grp, con, opts, (tail.take (tail.length / 2)).zip (tail.drop (tail.length / 2))⟩
    else .error .syntaxError
termination_by args => args.length

def parseGroupRead (args : List Bytes) : Except ReadError GroupRead :=
  match args with
  | g :: grp :: con :: rest =>
    if eqFold g kwGroup then parseClauses grp con ⟨-1, false, false, 0⟩ rest else .error .missingGroup
  | _ => .error .missingGroup

structure StreamEntry where
  id : StreamId
  fields : List (Bytes × Bytes)
deriving DecidableEq

structure StreamConsumer where
  name : Bytes
  ord : Nat
  pelCount : Nat
  seenTime : Int
  activeTime : Int
deriving DecidableEq

/-- A consumer group, its consumers by name; `ords` is how many ordinals it has handed out. -/
structure StreamGroup where
  lastDeliveredID : StreamId
  entriesRead : Nat
  readValid : Bool
  pelCount : Nat
  consumers : Bytes → Option StreamConsumer
  ords : Nat
  pel : Option GroupPEL

/-- A stream as its live entries in ID order, with its groups by name. -/
structure KeyStream where
  entries : List StreamEntry
  lastID : StreamId
  expireAt : Int
  groups : Bytes → Option StreamGroup

inductive KeySlot
  | absent
  | other
  | stream (s : KeyStream)

inductive GroupEffect
  | consumerSet (key grp : Bytes) (con : StreamConsumer)
  | pelSet (key grp : Bytes) (entry : PelEntry)
  | groupSet (key grp : Bytes) (lastID : StreamId) (entriesRead : Nat) (readValid : Bool)
deriving DecidableEq

structure StreamShard where
  keys : Bytes → KeySlot
  log : List GroupEffect

structure DeliveredEntry where
  id : StreamId
  fields : Option (List (Bytes × Bytes))
deriving DecidableEq

namespace KeyStream

/-- The live entries past an ID, at most `count` of them when it is positive. -/
def readAfter (s : KeyStream) (after : StreamId) (count : Int) : List StreamEntry :=
  if s.lastID ≤ after then []
  else
    let es := s.entries.filter fun e => decide (after < e.id)
    if 0 < count then es.take count.toNat else es

def entryAt (s : KeyStream) (id : StreamId) : Option (List (Bytes × Bytes)) :=
  (s.entries.find? fun e => decide (e.id = id)).map StreamEntry.fields

def setGroup (s : KeyStream) (name : Bytes) (grp : StreamGroup) : KeyStream :=
  { s with groups := Function.update s.groups name (some grp) }

def expired (s : KeyStream) (now : Int) : Bool := decide (s.expireAt ≠ 0) && decide (s.expireAt ≤ now)

end KeyStream

def StreamGroup.consumer (grp : StreamGroup) (name : Bytes) : Option StreamConsumer := grp.consumers name

def StreamGroup.modifyConsumer (grp : StreamGroup) (name : Bytes) (f : StreamConsumer → StreamConsumer) : StreamGroup :=
  { grp with consumers := Function.update grp.consumers name ((grp.consumers name).map f) }

def StreamGroup.ensureConsumer (grp : StreamGroup) (name : Bytes) (now : Int) : StreamGroup :=
  if (grp.consumer name).isSome then grp
  else
    { grp with
      consumers := Function.update grp.consumers name (some ⟨name, grp.ords % 2 ^ 32, 0, now, -1⟩)
      ords := grp.ords + 1 }

/-- The read's consumer, created on first sight and stamped as seen. -/
def StreamGroup.see (grp : StreamGroup) (name : Bytes) (now : Int) : StreamGroup :=
  (grp.ensureConsumer name now).modifyConsumer name fun c => { c with seenTime := now }

/-- One delivered entry becomes pending on the consumer. -/
def StreamGroup.deliverOne (ord : Nat) (name : Bytes) (now : Int) (grp : StreamGroup) (e : StreamEntry) : StreamGroup :=
  { grp.modifyConsumer name fun c => { c with pelCount := (c.pelCount + 1) % 2 ^ 32 } with
    pel := some ((grp.pel.getD newPEL).insert e.id now ord)
    pelCount := (grp.pelCount + 1) % 2 ^ 32 }

def StreamGroup.deliverNew (grp : StreamGroup) (name : Bytes) (ord : Nat) (noack : Bool) (now : Int) (es : List StreamEntry) : StreamGroup :=
  match es.getLast? with
  | none => grp
  | some last =>
    let grp' :=
      if noack then grp
      else (es.foldl (deliverOne ord name now) grp).modifyConsumer name fun c => { c with activeTime := now }
    { grp' with lastDeliveredID := last.id, entriesRead := (grp.entriesRead + es.length) % 2 ^ 64 }

/-- `history`: the consumer's pending entries from an ID on, each with its live fields. -/
def StreamGroup.history (grp : StreamGroup) (s : KeyStream) (ord : Nat) (start : StreamId) (count : Int) : List DeliveredEntry :=
  match grp.pel with
  | none => []
  | some pel =>
    (pel.walkFrom start (fun pe out =>
      if pe.consumerOrd ≠ ord then (out, true)
      else
        let out := out ++ [⟨pe.id, s.entryAt pe.id⟩]
        (out, decide (count ≤ 0) || decide ((out.length : Int) < count))) []).getD []

/-- `logGroupDelivery`: what one `>` read leaves on the record log. -/
def StreamGroup.deliveryEffects (grp : StreamGroup) (key grpName name : Bytes) (noack newCon : Bool) (es : List StreamEntry) :
    List GroupEffect :=
  (if newCon || (!noack && !es.isEmpty) then (grp.consumer name).toList.map (GroupEffect.consumerSet key grpName) else []) ++
  (if noack then []
    else es.filterMap fun e => (grp.pel.bind fun p => (p.find e.id).map p.slab).map (GroupEffect.pelSet key grpName)) ++
  if es.isEmpty then [] else [.groupSet key grpName grp.lastDeliveredID grp.entriesRead grp.readValid]

structure GroupResult where
  key : Bytes
  entries : List DeliveredEntry
deriving DecidableEq

def StreamShard.setKey (st : StreamShard) (key : Bytes) (slot : KeySlot) : StreamShard :=
  { st with keys := Function.update st.keys key slot }

/-- `lookup`: an expired stream is dropped on the way. -/
def StreamShard.lookup (st : StreamShard) (key : Bytes) (now : Int) : StreamShard × Except ReadError (Option KeyStream) :=
  match st.keys key with
  | .absent => (st, .ok none)
  | .other => (st, .error .wrongType)
  | .stream s => if s.expired now then (st.setKey key .absent, .ok none) else (st, .ok (some s))

/-- One stream of the read: the result to frame, none for a `>` read of nothing. -/
def StreamShard.readKey (now : Int) (rd : GroupRead) (st : StreamShard) (key id : Bytes) :
    StreamShard × Except ReadError (Option GroupResult) :=
  match st.lookup key now with
  | (st, .error e) => (st, .error e)
  | (st, .ok none) => (st, .error (.noGroup key rd.grp))
  | (st, .ok (some s)) =>
    match s.groups rd.grp with
    | none => (st, .error (.noGroup key rd.grp))
    | some grp =>
      let newCon := (grp.consumer rd.con).isNone
      let grp' := grp.see rd.con now
      let ord := ((grp'.consumer rd.con).map StreamConsumer.ord).getD 0
      if isGreaterToken id then
        let es := s.readAfter grp'.lastDeliveredID rd.opts.count
        let grp'' := grp'.deliverNew rd.con ord rd.opts.noack now es
        let st' := st.setKey key (.stream (s.setGroup rd.grp grp''))
        ({ st' with log := st'.log ++ grp''.deliveryEffects key rd.grp rd.con rd.opts.noack newCon es },
          .ok (if es.isEmpty then none else some ⟨key, es.map fun e => ⟨e.id, some e.fields⟩⟩))
      else
        -- the consumer is made and stamped before the ID is read
        let st' := st.setKey key (.stream (s.setGroup rd.grp grp'))
        match parseStreamId id with
        | none => (st', .error .invalidID)
        | some start => (st', .ok (some ⟨key, grp'.history s ord start rd.opts.count⟩))

/-- The streams in the order they are named, to the first error. -/
def StreamShard.readKeys (now : Int) (rd : GroupRead) (st : StreamShard) :
    List (Bytes × Bytes) → StreamShard × Except ReadError (List GroupResult)
  | [] => (st, .ok [])
  | p :: ps =>
    match st.readKey now rd p.1 p.2 with
    | (st, .error e) => (st, .error e)
    | (st, .ok r) =>
      match readKeys now rd st ps with
      | (st, .error e) => (st, .error e)
      | (st, .ok rs) => (st, .ok (r.toList ++ rs))

inductive ReadReply
  | err (e : ReadError)
  | park
  | null
  | results (rs : List GroupResult)
deriving DecidableEq

def xreadgroup (now : Int) (st : StreamShard) (args : List Bytes) : StreamShard × ReadReply :=
  match parseGroupRead args with
  | .error e => (st, .err e)
  | .ok rd =>
    match st.readKeys now rd rd.keys with
    | (st, .error e) => (st, .err e)
    | (st, .ok []) => (st, if rd.opts.block then .park else .null)
    | (st, .ok (r :: rs)) => (st, .results (r :: rs))

namespace StreamGroup

/-- Nothing a read does to a group goes back: the cursor, the consumer table and the stamps of `now`. -/
structure Le (now : Int) (grp grp' : StreamGroup) : Prop where
  cursor : grp.lastDeliveredID ≤ grp'.lastDeliveredID
  known : ∀ name, (grp.consumer name).isSome = true → (grp'.consumer name).isSome = true
  stamped : ∀ name, (grp.consumer name).map StreamConsumer.seenTime = some now →
    (grp'.consumer name).map StreamConsumer.seenTime = some now

theorem Le.refl (now : Int) (grp : StreamGroup) : Le now grp grp := ⟨le_refl _, fun _ h => h, fun _ h => h⟩

theorem Le.trans {now : Int} {a b c : StreamGroup} (h : Le now a b) (h' : Le now b c) : Le now a c :=
  ⟨h.cursor.trans h'.cursor, fun name hn => h'.known name (h.known name hn), fun name hn => h'.stamped name (h.stamped name hn)⟩

theorem consumer_modifyConsumer (grp : StreamGroup) (name : Bytes) (f : StreamConsumer → StreamConsumer) (x : Bytes) :
    (grp.modifyConsumer name f).consumer x = if x = name then (grp.consumer name).map f else grp.consumer x :=
  Function.update_apply _ _ _ _

theorem Le.modifyConsumer (now : Int) (grp : StreamGroup) (name : Bytes) {f : StreamConsumer → StreamConsumer}
    (hseen : ∀ c, c.seenTime = now → (f c).seenTime = now) : Le now grp (grp.modifyConsumer name f) := by
  refine ⟨le_refl _, ?_, ?_⟩
  · intro x hx
    rw [consumer_modifyConsumer]
    split
    next hxn => simpa [hxn] using hx
    · exact hx
  · intro x hx
    rw [consumer_modifyConsumer]
    split
    next hxn =>
      obtain ⟨c, hc, hs⟩ := Option.map_eq_some_iff.mp hx
      rw [← hxn, hc]
      exact congrArg some (hseen c hs)
    · exact hx

theorem consumer_ensureConsumer (grp : StreamGroup) (name : Bytes) (now : Int) (x : Bytes) :
    (grp.ensureConsumer name now).consumer x =
      if x = name then some ((grp.consumer name).getD ⟨name, grp.ords % 2 ^ 32, 0, now, -1⟩) else grp.consumer x := by
  unfold ensureConsumer
  split
  next hthere =>
    obtain ⟨c, hc⟩ := Option.isSome_iff_exists.mp hthere
    rw [hc]
    split
    next hx => rw [hx, hc]; rfl
    · rfl
  next hnone =>
    have hn : grp.consumer name = none := by simpa using hnone
    rw [hn]
    exact Function.update_apply _ _ _ _

theorem Le.ensureConsumer (now : Int) (grp : StreamGroup) (name : Bytes) : Le now grp (grp.ensureConsumer name now) := by
  refine ⟨?_, ?_, ?_⟩
  · unfold StreamGroup.ensureConsumer
    split <;> exact le_refl _
  · intro x hx
    rw [consumer_ensureConsumer]
    split
    · rfl
    · exact hx
  · intro x hx
    rw [consumer_ensureConsumer]
    split
    next hxn =>
      obtain ⟨c, hc, hs⟩ := Option.map_eq_some_iff.mp hx
      rw [← hxn, hc]
      exact congrArg some hs
    · exact hx

theorem Le.see (now : Int) (grp : StreamGroup) (name : Bytes) : Le now grp (grp.see name now) :=
  (Le.ensureConsumer now grp name).trans (Le.modifyConsumer now _ name fun _ _ => rfl)

theorem consumer_see (grp : StreamGroup) (name : Bytes) (now : Int) :
    ((grp.see name now).consumer name).map StreamConsumer.seenTime = some now := by
  unfold see
  rw [consumer_modifyConsumer, if_pos rfl, consumer_ensureConsumer, if_pos rfl]
  rfl

theorem see_eq {grp : StreamGroup} {name : Bytes} {now : Int}
    (h : (grp.consumer name).map StreamConsumer.seenTime = some now) : grp.see name now = grp := by
  obtain ⟨c, hc, hs⟩ := Option.map_eq_some_iff.mp h
  have hens : grp.ensureConsumer name now = grp := by
    unfold ensureConsumer
    rw [hc]
    rfl
  have hsame : { c with seenTime := now } = c := by rw [← hs]
  unfold see
  rw [hens]
  unfold modifyConsumer
  rw [show grp.consumers name = some c from hc, Option.map_some, hsame, ← show grp.consumers name = some c from hc,
    Function.update_eq_self]

theorem Le.deliverOne (ord : Nat) (name : Bytes) (now : Int) (grp : StreamGroup) (e : StreamEntry) :
    Le now grp (StreamGroup.deliverOne ord name now grp e) := by
  have h := Le.modifyConsumer now grp name (f := fun c => { c with pelCount := (c.pelCount + 1) % 2 ^ 32 }) fun _ h => h
  exact ⟨h.cursor, h.known, h.stamped⟩

theorem Le.deliverAll (ord : Nat) (name : Bytes) (now : Int) (es : List StreamEntry) (grp : StreamGroup) :
    Le now grp (es.foldl (StreamGroup.deliverOne ord name now) grp) := by
  induction es generalizing grp with
  | nil => exact Le.refl now grp
  | cons e es ih => exact (Le.deliverOne ord name now grp e).trans (ih _)

theorem Le.deliverNew (grp : StreamGroup) (name : Bytes) (ord : Nat) (noack : Bool) (now : Int) {es : List StreamEntry}
    (hes : ∀ e ∈ es, grp.lastDeliveredID < e.id) : Le now grp (grp.deliverNew name ord noack now es) := by
  unfold StreamGroup.deliverNew
  cases hlast : es.getLast? with
  | none => exact Le.refl now grp
  | some last =>
    have hlt := hes last (List.mem_of_getLast? hlast)
    dsimp only
    have hrest : Le now grp (if noack then grp
        else (es.foldl (StreamGroup.deliverOne ord name now) grp).modifyConsumer name fun c => { c with activeTime := now }) := by
      split
      · exact Le.refl now grp
      · exact (Le.deliverAll ord name now es grp).trans (Le.modifyConsumer now _ name fun _ h => h)
    exact ⟨le_of_lt hlt, hrest.known, hrest.stamped⟩

/-- A delivery moves the cursor. -/
theorem lt_deliverNew {grp : StreamGroup} (name : Bytes) (ord : Nat) (noack : Bool) (now : Int) {es : List StreamEntry}
    (hes : ∀ e ∈ es, grp.lastDeliveredID < e.id) (hne : es ≠ []) :
    grp.lastDeliveredID < (grp.deliverNew name ord noack now es).lastDeliveredID := by
  unfold StreamGroup.deliverNew
  cases hlast : es.getLast? with
  | none => exact absurd (List.getLast?_eq_none_iff.mp hlast) hne
  | some last => exact hes last (List.mem_of_getLast? hlast)

end StreamGroup

theorem KeyStream.lt_of_mem_readAfter {s : KeyStream} {after : StreamId} {count : Int} {e : StreamEntry}
    (h : e ∈ s.readAfter after count) : after < e.id := by
  unfold KeyStream.readAfter at h
  split at h
  · cases h
  · dsimp only at h
    have hmem : e ∈ s.entries.filter fun e => decide (after < e.id) := by
      split at h
      · exact List.mem_of_mem_take h
      · exact h
    simpa using (List.mem_filter.mp hmem).2

namespace StreamShard

/-- Nothing a read does to a shard's streams goes back: a dropped stream stays dropped, a group only moves on. -/
def Le (now : Int) (st st' : StreamShard) : Prop :=
  ∀ key s', st'.keys key = .stream s' → ∃ s, st.keys key = .stream s ∧
    ∀ name grp, s.groups name = some grp → ∃ grp', s'.groups name = some grp' ∧ grp.Le now grp'

theorem Le.refl (now : Int) (st : StreamShard) : Le now st st :=
  fun _ s hs => ⟨s, hs, fun _ grp hg => ⟨grp, hg, StreamGroup.Le.refl now grp⟩⟩

theorem Le.trans {now : Int} {a b c : StreamShard} (h : Le now a b) (h' : Le now b c) : Le now a c := by
  intro key s₃ hs₃
  obtain ⟨s₂, hs₂, hgr⟩ := h' key s₃ hs₃
  obtain ⟨s₁, hs₁, hgr'⟩ := h key s₂ hs₂
  refine ⟨s₁, hs₁, ?_⟩
  intro name grp hg
  obtain ⟨grp₂, hg₂, hle⟩ := hgr' name grp hg
  obtain ⟨grp₃, hg₃, hle'⟩ := hgr name grp₂ hg₂
  exact ⟨grp₃, hg₃, hle.trans hle'⟩

theorem setKey_keys (st : StreamShard) (key x : Bytes) (slot : KeySlot) :
    (st.setKey key slot).keys x = if x = key then slot else st.keys x := Function.update_apply _ _ _ _

theorem Le.drop (now : Int) (st : StreamShard) (key : Bytes) : Le now st (st.setKey key .absent) := by
  intro x s hs
  rw [setKey_keys] at hs
  split at hs
  · cases hs
  · exact ⟨s, hs, fun _ grp hg => ⟨grp, hg, StreamGroup.Le.refl now grp⟩⟩

theorem Le.setGroup {now : Int} {st : StreamShard} {key name : Bytes} {s : KeyStream} {grp grp' : StreamGroup}
    (hs : st.keys key = .stream s) (hg : s.groups name = some grp) (hle : grp.Le now grp') :
    Le now st (st.setKey key (.stream (s.setGroup name grp'))) := by
  intro x s' hs'
  rw [setKey_keys] at hs'
  split at hs'
  next hx =>
    rw [hx, ← KeySlot.stream.inj hs']
    refine ⟨s, hs, ?_⟩
    intro y g hgy
    by_cases hy : y = name
    · subst hy
      rw [hg] at hgy
      obtain rfl := Option.some.inj hgy
      exact ⟨grp', Function.update_self _ _ _, hle⟩
    · exact ⟨g, (Function.update_of_ne hy _ _).trans hgy, StreamGroup.Le.refl now g⟩
  · exact ⟨s', hs', fun _ g hg => ⟨g, hg, StreamGroup.Le.refl now g⟩⟩

/-- The read would leave this stream as it is: not expired, its consumer already seen now, and nothing new for a `>`. -/
def Quiet (now : Int) (rd : GroupRead) (st : StreamShard) (key id : Bytes) : Prop :=
  ∀ s, st.keys key = .stream s → s.expired now = false ∧
    ∀ grp, s.groups rd.grp = some grp → (grp.consumer rd.con).map StreamConsumer.seenTime = some now ∧
      (isGreaterToken id = true → s.readAfter grp.lastDeliveredID rd.opts.count = [])

section

variable {now : Int} {rd : GroupRead} {st : StreamShard} {key id : Bytes} {s : KeyStream} {grp : StreamGroup}

theorem readKey_no_stream (h : ∀ s, st.keys key ≠ .stream s) : (st.readKey now rd key id).1 = st := by
  unfold readKey lookup
  cases hk : st.keys key with
  | absent => rfl
  | other => rfl
  | stream s => exact absurd hk (h s)

theorem readKey_expired (hs : st.keys key = .stream s) (he : s.expired now = true) :
    (st.readKey now rd key id).1 = st.setKey key .absent := by
  unfold readKey lookup
  simp only [hs, he, if_true]

theorem readKey_no_group (hs : st.keys key = .stream s) (he : s.expired now = false) (hg : s.groups rd.grp = none) :
    (st.readKey now rd key id).1 = st := by
  unfold readKey lookup
  simp only [hs, he, Bool.false_eq_true, if_false, hg]

def readGroup (now : Int) (rd : GroupRead) (s : KeyStream) (grp : StreamGroup) : StreamGroup :=
  (grp.see rd.con now).deliverNew rd.con ((((grp.see rd.con now).consumer rd.con).map StreamConsumer.ord).getD 0)
    rd.opts.noack now (s.readAfter (grp.see rd.con now).lastDeliveredID rd.opts.count)

theorem readKey_new (hs : st.keys key = .stream s) (he : s.expired now = false) (hg : s.groups rd.grp = some grp)
    (hid : isGreaterToken id = true) : (st.readKey now rd key id).1 =
      { st.setKey key (.stream (s.setGroup rd.grp (readGroup now rd s grp))) with
        log := st.log ++ (readGroup now rd s grp).deliveryEffects key rd.grp rd.con rd.opts.noack (grp.consumer rd.con).isNone
          (s.readAfter (grp.see rd.con now).lastDeliveredID rd.opts.count) } := by
  unfold readKey lookup
  simp only [hs, he, Bool.false_eq_true, if_false, hg, hid, if_true]
  rfl

theorem readKey_old (hs : st.keys key = .stream s) (he : s.expired now = false) (hg : s.groups rd.grp = some grp)
    (hid : isGreaterToken id = false) :
    (st.readKey now rd key id).1 = st.setKey key (.stream (s.setGroup rd.grp (grp.see rd.con now))) := by
  unfold readKey lookup
  simp only [hs, he, Bool.false_eq_true, if_false, hg, hid]
  cases parseStreamId id with
  | none => rfl
  | some start => rfl

theorem see_cursor (grp : StreamGroup) (name : Bytes) (now : Int) :
    (grp.see name now).lastDeliveredID = grp.lastDeliveredID := by
  unfold StreamGroup.see StreamGroup.modifyConsumer StreamGroup.ensureConsumer
  split <;> rfl

theorem readGroup_le (now : Int) (rd : GroupRead) (s : KeyStream) (grp : StreamGroup) :
    (grp.see rd.con now).Le now (readGroup now rd s grp) :=
  StreamGroup.Le.deliverNew _ _ _ _ now fun _ he => KeyStream.lt_of_mem_readAfter he

theorem readKey_le (now : Int) (rd : GroupRead) (st : StreamShard) (key id : Bytes) :
    Le now st (st.readKey now rd key id).1 := by
  cases hs : st.keys key with
  | absent => rw [readKey_no_stream (by simp [hs])]; exact Le.refl now st
  | other => rw [readKey_no_stream (by simp [hs])]; exact Le.refl now st
  | stream s =>
    cases he : s.expired now with
    | true => rw [readKey_expired hs he]; exact Le.drop now st key
    | false =>
      cases hg : s.groups rd.grp with
      | none => rw [readKey_no_group hs he hg]; exact Le.refl now st
      | some grp =>
        cases hid : isGreaterToken id with
        | true =>
          rw [readKey_new hs he hg hid]
          exact Le.setGroup hs hg ((StreamGroup.Le.see now grp rd.con).trans (readGroup_le now rd s grp))
        | false =>
          rw [readKey_old hs he hg hid]
          exact Le.setGroup hs hg (StreamGroup.Le.see now grp rd.con)

theorem setKey_setGroup_self (hs : st.keys key = .stream s) {name : Bytes} (hg : s.groups name = some grp) :
    st.setKey key (.stream (s.setGroup name grp)) = st := by
  have hsame : s.setGroup name grp = s := by
    unfold KeyStream.setGroup
    rw [← hg, Function.update_eq_self]
  rw [hsame]
  unfold setKey
  rw [← hs, Function.update_eq_self]

theorem Quiet.readKey (h : Quiet now rd st key id) : (st.readKey now rd key id).1 = st := by
  cases hs : st.keys key with
  | absent => exact readKey_no_stream (by simp [hs])
  | other => exact readKey_no_stream (by simp [hs])
  | stream s =>
    obtain ⟨he, hgr⟩ := h s hs
    cases hg : s.groups rd.grp with
    | none => exact readKey_no_group hs he hg
    | some grp =>
      obtain ⟨hseen, hnew⟩ := hgr grp hg
      have hsee := StreamGroup.see_eq hseen
      cases hid : isGreaterToken id with
      | true =>
        have hes := hnew hid
        have hgrp : readGroup now rd s grp = grp := by
          unfold readGroup
          rw [hsee, hes]
          rfl
        have hknown : (grp.consumer rd.con).isNone = false := by
          obtain ⟨c, hc, -⟩ := Option.map_eq_some_iff.mp hseen
          rw [hc]
          rfl
        rw [readKey_new hs he hg hid, hgrp, hsee, hes, hknown, setKey_setGroup_self hs hg]
        simp [StreamGroup.deliveryEffects]
      | false => rw [readKey_old hs he hg hid, hsee, setKey_setGroup_self hs hg]

/-- A read that is not quiet leaves a mark that no further read takes back. -/
theorem quiet_of_le (h : Le now (st.readKey now rd key id).1 st) : Quiet now rd st key id := by
  intro s hs
  obtain ⟨s', hs', hgr⟩ := h key s hs
  have he : s.expired now = false := by
    cases he : s.expired now with
    | false => rfl
    | true =>
      rw [readKey_expired hs he, setKey_keys, if_pos rfl] at hs'
      cases hs'
  refine ⟨he, ?_⟩
  intro grp hg
  cases hid : isGreaterToken id with
  | true =>
    rw [readKey_new hs he hg hid] at hs'
    have hslot := (setKey_keys st key key (.stream (s.setGroup rd.grp (readGroup now rd s grp)))).symm.trans hs'
    rw [if_pos rfl] at hslot
    rw [← KeySlot.stream.inj hslot] at hgr
    obtain ⟨grp', hg', hle⟩ := hgr rd.grp _ (Function.update_self _ _ _)
    rw [hg] at hg'
    obtain rfl := Option.some.inj hg'
    refine ⟨hle.stamped _ ((readGroup_le now rd s grp).stamped _ (StreamGroup.consumer_see grp rd.con now)), ?_⟩
    intro _
    by_contra hne
    have hcur := see_cursor grp rd.con now
    have hlt : (grp.see rd.con now).lastDeliveredID < (readGroup now rd s grp).lastDeliveredID :=
      StreamGroup.lt_deliverNew _ _ _ now (fun _ he => KeyStream.lt_of_mem_readAfter he) (by rw [hcur]; exact hne)
    exact absurd hle.cursor (not_le_of_gt (lt_of_eq_of_lt hcur.symm hlt))
  | false =>
    rw [readKey_old hs he hg hid, setKey_keys, if_pos rfl] at hs'
    rw [← KeySlot.stream.inj hs'] at hgr
    obtain ⟨grp', hg', hle⟩ := hgr rd.grp _ (Function.update_self _ _ _)
    rw [hg] at hg'
    obtain rfl := Option.some.inj hg'
    exact ⟨hle.stamped _ (StreamGroup.consumer_see grp rd.con now), fun h => nomatch h⟩

end

/-- Every stream up to the one that fails is read quietly. -/
def Untouched (now : Int) (rd : GroupRead) (st : StreamShard) : List (Bytes × Bytes) → Prop
  | [] => True
  | p :: ps => Quiet now rd st p.1 p.2 ∧
      ((∃ e, (st.readKey now rd p.1 p.2).2 = .error e) ∨ Untouched now rd st ps)

theorem readKeys_cons_error {now : Int} {rd : GroupRead} {st st' : StreamShard} {p : Bytes × Bytes} {e : ReadError}
    (h : st.readKey now rd p.1 p.2 = (st', .error e)) (ps : List (Bytes × Bytes)) :
    st.readKeys now rd (p :: ps) = (st', .error e) := by
  unfold readKeys
  rw [h]

theorem readKeys_cons_ok {now : Int} {rd : GroupRead} {st st' : StreamShard} {p : Bytes × Bytes} {r : Option GroupResult}
    (h : st.readKey now rd p.1 p.2 = (st', .ok r)) (ps : List (Bytes × Bytes)) :
    (st.readKeys now rd (p :: ps)).1 = (st'.readKeys now rd ps).1 := by
  conv_lhs => unfold readKeys
  rw [h]
  dsimp only
  split
  next he => rw [he]
  next he => rw [he]

theorem readKeys_le (now : Int) (rd : GroupRead) (ps : List (Bytes × Bytes)) (st : StreamShard) :
    Le now st (st.readKeys now rd ps).1 := by
  induction ps generalizing st with
  | nil => exact Le.refl now st
  | cons p ps ih =>
    have hle := readKey_le now rd st p.1 p.2
    match he : st.readKey now rd p.1 p.2 with
    | (st', .error e) =>
      rw [readKeys_cons_error he]
      rw [he] at hle
      exact hle
    | (st', .ok r) =>
      rw [readKeys_cons_ok he]
      rw [he] at hle
      exact hle.trans (ih st')

theorem readKeys_eq_iff (now : Int) (rd : GroupRead) (ps : List (Bytes × Bytes)) (st : StreamShard) :
    (st.readKeys now rd ps).1 = st ↔ Untouched now rd st ps := by
  induction ps generalizing st with
  | nil => simp [readKeys, Untouched]
  | cons p ps ih =>
    unfold Untouched
    match he : st.readKey now rd p.1 p.2 with
    | (st', .error e) =>
      rw [readKeys_cons_error he]
      constructor
      · intro heq
        refine ⟨quiet_of_le ?_, Or.inl ⟨e, rfl⟩⟩
        rw [he, show st' = st from heq]
        exact Le.refl now st
      · rintro ⟨hq, -⟩
        have := hq.readKey
        rw [he] at this
        exact this
    | (st', .ok r) =>
      rw [readKeys_cons_ok he]
      have hback : Quiet now rd st p.1 p.2 → st' = st := by
        intro hq
        have := hq.readKey
        rw [he] at this
        exact this
      constructor
      · intro heq
        -- the rest of the call cannot take back what this stream's read did
        have hq : Quiet now rd st p.1 p.2 := by
          refine quiet_of_le ?_
          rw [he]
          have hle := readKeys_le now rd ps st'
          rw [heq] at hle
          exact hle
        have hst := hback hq
        subst hst
        exact ⟨hq, Or.inr ((ih st').mp heq)⟩
      · rintro ⟨hq, hor⟩
        have hst := hback hq
        subst hst
        rcases hor with ⟨e, hbad⟩ | hun
        · cases hbad
        · exact (ih st').mpr hun

end StreamShard

/-- An error reply leaves the shard as it was exactly when the arguments do not parse, or every stream named up to the
failing one is quiet: not expired, its consumer already seen at this instant, and no new entry for a `>`. -/
theorem xreadgroup_error_unchanged_iff (now : Int) (st : StreamShard) (args : List Bytes) {e : ReadError}
    (herr : (xreadgroup now st args).2 = .err e) :
    (xreadgroup now st args).1 = st ↔ ∀ rd, parseGroupRead args = .ok rd → st.Untouched now rd rd.keys := by
  unfold xreadgroup at herr ⊢
  cases hp : parseGroupRead args with
  | error e' => simp
  | ok rd =>
    simp only [hp] at herr ⊢
    have hiff := StreamShard.readKeys_eq_iff now rd rd.keys st
    split at herr
    next st' e' hr =>
      rw [hr] at hiff
      simpa using hiff
    next st' hr =>
      split at herr <;> cases herr
    next st' r rs hr => cases herr

/-- Key `a` is a stream of one entry with a group `g` at its start, key `b` a string. -/
def oneEntryShard : StreamShard where
  keys := fun key =>
    if key = [97] then
      .stream ⟨[⟨streamId 1 0, [([102], [118])]⟩], streamId 1 0, 0,
        fun name => if name = [103] then some ⟨streamId 0 0, 0, true, 0, fun _ => none, 0, none⟩ else none⟩
    else if key = [98] then .other else .absent
  log := []

/-- `GROUP g c STREAMS a b > >`. -/
def readBoth : List Bytes := [kwGroup, [103], [99], kwStreams, [97], [98], [62], [62]]

/-- The same once `c` has read the entry of `a` at 100, with nothing left pending. -/
def caughtUpShard : StreamShard where
  keys := fun key =>
    if key = [97] then
      .stream ⟨[⟨streamId 1 0, [([102], [118])]⟩], streamId 1 0, 0, fun name =>
        if name = [103] then
          some ⟨streamId 1 0, 1, true, 0, fun con => if con = [99] then some ⟨[99], 0, 0, 100, 100⟩ else none, 1, none⟩
        else none⟩
    else if key = [98] then .other else .absent
  log := []

/-- Nothing is new in `a`, and then `b` turns out to be a string. -/
theorem caughtUp_unchanged : (xreadgroup 100 caughtUpShard readBoth).2 = .err .wrongType ∧
    (xreadgroup 100 caughtUpShard readBoth).1 = caughtUpShard := by
  have herr : (xreadgroup 100 caughtUpShard readBoth).2 = .err .wrongType := by decide +kernel
  refine ⟨herr, (xreadgroup_error_unchanged_iff 100 caughtUpShard readBoth herr).mpr ?_⟩
  intro rd hrd
  have hread : parseGroupRead readBoth = .ok ⟨[103], [99], ⟨-1, false, false, 0⟩, [([97], [62]), ([98], [62])]⟩ := by decide +kernel
  obtain rfl := Except.ok.inj (hread.symm.trans hrd)
  refine ⟨fun s hs => ?_, Or.inr ⟨fun s hs => ?_, Or.inr trivial⟩⟩
  · obtain rfl := KeySlot.stream.inj hs
    refine ⟨by decide, fun grp hgrp => ?_⟩
    obtain rfl := Option.some.inj hgrp
    exact ⟨by decide +kernel, fun _ => by decide +kernel⟩
  · simp [caughtUpShard] at hs

/-- The entry of `a` is delivered, made pending and logged before `b` turns out to be a string. -/
theorem readBoth_delivers_then_fails : (xreadgroup 100 oneEntryShard readBoth).2 = .err .wrongType ∧
    (xreadgroup 100 oneEntryShard readBoth).1.log =
      [.consumerSet [97] [103] ⟨[99], 0, 1, 100, 100⟩, .pelSet [97] [103] ⟨streamId 1 0, 100, 1, 0⟩,
        .groupSet [97] [103] (streamId 1 0) 1 true] ∧
    (xreadgroup 100 oneEntryShard readBoth).1 ≠ oneEntryShard := by
  have hlog : (xreadgroup 100 oneEntryShard readBoth).1.log =
      [.consumerSet [97] [103] ⟨[99], 0, 1, 100, 100⟩, .pelSet [97] [103] ⟨streamId 1 0, 100, 1, 0⟩,
        .groupSet [97] [103] (streamId 1 0) 1 true] := by decide +kernel
  refine ⟨by decide +kernel, hlog, ?_⟩
  intro heq
  rw [heq] at hlog
  cases hlog

end Aki
