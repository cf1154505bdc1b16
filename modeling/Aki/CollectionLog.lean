import Aki.AkiRecordRun
import Aki.KeyedReplay

namespace Aki.Akifile

open ByteDevice LittleEndian Uvarint KeyedReplay

structure CollOpRow where
  kind : UInt8
  op : UInt8
  subKey : List UInt8
  subValue : List UInt8
  deriving DecidableEq, Repr

structure CollSnapRow where
  kind : UInt8
  header : List UInt8
  elementRun : List UInt8
  deriving DecidableEq, Repr

def appendCollOp (dst : List UInt8) (row : CollOpRow) : List UInt8 :=
  dst ++ ([row.kind, row.op] ++ (putUvarint row.subKey.length ++ (row.subKey ++ row.subValue)))

def appendCollSnap (dst : List UInt8) (row : CollSnapRow) : List UInt8 :=
  dst ++ ([row.kind] ++ (putUvarint row.header.length ++ (row.header ++ row.elementRun)))

def splitPart (rest : List UInt8) : Except RecErr (List UInt8 × List UInt8) :=
  let r := uvarint rest
  if r.2 ≤ 0 then .error .length
  else if (rest.drop r.2.toNat).length < r.1 then .error .length
  else .ok ((rest.drop r.2.toNat).take r.1, (rest.drop r.2.toNat).drop r.1)

def parseCollOp : List UInt8 → Except RecErr CollOpRow
  | kind :: op :: rest => (splitPart rest).map fun p => ⟨kind, op, p.1, p.2⟩
  | _ => .error .short

def parseCollSnap : List UInt8 → Except RecErr CollSnapRow
  | kind :: rest => (splitPart rest).map fun p => ⟨kind, p.1, p.2⟩
  | [] => .error .short

theorem splitPart_put {part : List UInt8} (h : part.length < 2 ^ 64) (rest : List UInt8) :
    splitPart (putUvarint part.length ++ (part ++ rest)) = .ok (part, rest) := by
  have hpos := putUvarint_length_pos part.length
  rw [splitPart, uvarint_put h]
  dsimp only
  rw [if_neg (by omega), Int.toNat_natCast, List.drop_left' rfl, if_neg (by rw [List.length_append]; omega), List.take_left' rfl,
    List.drop_left' rfl]

theorem parseCollOp_append {row : CollOpRow} (h : row.subKey.length < 2 ^ 64) : parseCollOp (appendCollOp [] row) = .ok row := by
  change (splitPart (putUvarint row.subKey.length ++ (row.subKey ++ row.subValue))).map _ = _
  rw [splitPart_put h]
  rfl

theorem parseCollSnap_append {row : CollSnapRow} (h : row.header.length < 2 ^ 64) : parseCollSnap (appendCollSnap [] row) = .ok row := by
  change (splitPart (putUvarint row.header.length ++ (row.header ++ row.elementRun))).map _ = _
  rw [splitPart_put h]
  rfl

inductive CollRow where
  | op (row : CollOpRow)
  | snap (row : CollSnapRow)
  deriving DecidableEq, Repr

namespace CollRow

def kind : CollRow → UInt8
  | op row => row.kind
  | snap row => row.kind

def isSnap : CollRow → Bool
  | op _ => false
  | snap _ => true

def flag : CollRow → UInt32
  | op _ => recFlagCollectionOp
  | snap _ => recFlagCollectionSnap

def payload : CollRow → List UInt8
  | op row => appendCollOp [] row
  | snap row => appendCollSnap [] row

/-- The record `LogCollectionOp` and `LogCollectionSnap` stage. -/
def record (c : CollRow) (key : List UInt8) : RecordRow := ⟨c.flag, 0, UInt32.ofNat c.payload.length, 0, c.payload, key⟩

end CollRow

def snapFlagged (flags : UInt32) : Bool := decide (flags &&& recFlagCollectionSnap ≠ 0)

def opFlagged (flags : UInt32) : Bool := decide (flags &&& recFlagCollectionOp ≠ 0)

/-- A record of the log: a collection frame, or a record of another sort, which carries neither flag. -/
def Logged (row : RecordRow) : Prop :=
  (∃ c key, row = CollRow.record c key) ∨ (snapFlagged row.flags = false ∧ opFlagged row.flags = false)

section Walk

variable {σ : Type}

/-- The walk hands records to a visitor until it fails. -/
def visitRecords (visit : σ → Nat × RecordRow → Except RecErr σ) : List (Nat × RecordRow) → σ → Except RecErr σ
  | [], st => .ok st
  | p :: ps, st =>
    match visit st p with
    | .error e => .error e
    | .ok st => visitRecords visit ps st

def walkShardFrom (shard : UInt16) (visit : σ → Nat × RecordRow → Except RecErr σ) (s : LogState) (start : Nat) (st : σ) :
    Except RecErr σ :=
  let w := walkShardRecords shard s.st.live s.st.file.cursor start
  match visitRecords visit w.1 st, w.2 with
  | .error e, _ => .error e
  | .ok _, some e => .error e
  | .ok st, none => .ok st

def collVisit (kind : UInt8) (onSnap : List UInt8 → CollSnapRow → σ → Except RecErr σ)
    (onOp : List UInt8 → CollOpRow → σ → Except RecErr σ) (st : σ) (p : Nat × RecordRow) : Except RecErr σ :=
  if snapFlagged p.2.flags then
    match parseCollSnap p.2.value with
    | .error e => .error e
    | .ok snap => if snap.kind ≠ kind then .ok st else onSnap p.2.key snap st
  else if opFlagged p.2.flags then
    match parseCollOp p.2.value with
    | .error e => .error e
    | .ok op => if op.kind ≠ kind then .ok st else onOp p.2.key op st
  else .ok st

/-- `WalkCollection`, over the part of the log that begins at `start`. -/
def walkCollectionFrom (start : Nat) (shard : UInt16) (kind : UInt8) (onSnap : List UInt8 → CollSnapRow → σ → Except RecErr σ)
    (onOp : List UInt8 → CollOpRow → σ → Except RecErr σ) (s : LogState) (st : σ) : Except RecErr σ :=
  walkShardFrom shard (collVisit kind onSnap onOp) s start st

end Walk

structure CFrame where
  addr : Nat
  key : List UInt8
  size : Nat

/-- The frames of the kind so far, and the index of the last snapshot of each key. -/
structure LiveScan where
  frames : List CFrame
  lastSnap : List UInt8 → Option Nat

def frameKind (row : RecordRow) : Except RecErr UInt8 :=
  if snapFlagged row.flags then (parseCollSnap row.value).map CollSnapRow.kind else (parseCollOp row.value).map CollOpRow.kind

def liveVisit (kind : UInt8) (sc : LiveScan) (p : Nat × RecordRow) : Except RecErr LiveScan :=
  if snapFlagged p.2.flags = false ∧ opFlagged p.2.flags = false then .ok sc
  else
    match frameKind p.2 with
    | .error e => .error e
    | .ok k =>
      if k ≠ kind then .ok sc
      else .ok
        { frames := sc.frames ++ [⟨p.1, p.2.key, (appendRecordFrame [] p.2).1.length⟩]
          lastSnap := fun key => if snapFlagged p.2.flags = true ∧ key = p.2.key then some sc.frames.length else sc.lastSnap key }

/-- The frames from index `i` on: the addresses to keep and the size of the others. -/
def liveLoop (lastSnap : List UInt8 → Option Nat) : Nat → List CFrame → List Nat × Nat
  | _, [] => ([], 0)
  | i, fr :: rest =>
    let r := liveLoop lastSnap (i + 1) rest
    if (lastSnap fr.key).any (i < ·) then (r.1, fr.size + r.2) else (fr.addr :: r.1, r.2)

/-- `CollLiveFrames`, over the part of the log that begins at `start`. -/
def collLiveFramesFrom (start : Nat) (shard : UInt16) (kind : UInt8) (s : LogState) : Except RecErr (List Nat × Nat) :=
  (walkShardFrom shard (liveVisit kind) s start ⟨[], fun _ => none⟩).map fun sc => liveLoop sc.lastSnap 0 sc.frames

structure CollEvent where
  addr : Nat
  row : RecordRow
  coll : CollRow

namespace CollEvent

def key (e : CollEvent) : List UInt8 := e.row.key

def isSnap (e : CollEvent) : Bool := e.coll.isSnap

def cframe (e : CollEvent) : CFrame := ⟨e.addr, e.row.key, e.row.frame.length⟩

/-- What a frame holds, wherever it stands. -/
def content (e : CollEvent) : List UInt8 × CollRow := (e.row.key, e.coll)

end CollEvent

def decoded (row : RecordRow) : Option CollRow :=
  if snapFlagged row.flags then (parseCollSnap row.value).toOption.map .snap
  else if opFlagged row.flags then (parseCollOp row.value).toOption.map .op
  else none

def event (kind : UInt8) (p : Nat × RecordRow) : Option CollEvent :=
  match decoded p.2 with
  | some c => if c.kind = kind then some ⟨p.1, p.2, c⟩ else none
  | none => none

def events (kind : UInt8) (ps : List (Nat × RecordRow)) : List CollEvent := ps.filterMap (event kind)

variable {c : CollRow} {row : RecordRow} {kind : UInt8}

theorem CollRow.flag_snap (c : CollRow) : snapFlagged c.flag = c.isSnap := by
  cases c with
  | op _ => exact (by decide : snapFlagged recFlagCollectionOp = false)
  | snap _ => exact (by decide : snapFlagged recFlagCollectionSnap = true)

theorem CollRow.flag_op (c : CollRow) : opFlagged c.flag = !c.isSnap := by
  cases c with
  | op _ => exact (by decide : opFlagged recFlagCollectionOp = true)
  | snap _ => exact (by decide : opFlagged recFlagCollectionSnap = false)

theorem CollRow.flag_payload (c : CollRow) : framePayload c.flag = true ∧ chunkedRow c.flag = false := by
  cases c with
  | op _ => exact (by decide : framePayload recFlagCollectionOp = true ∧ chunkedRow recFlagCollectionOp = false)
  | snap _ => exact (by decide : framePayload recFlagCollectionSnap = true ∧ chunkedRow recFlagCollectionSnap = false)

theorem CollRow.payload_lt {key : List UInt8} (h : (c.record key).Wf) : c.payload.length < 2 ^ 32 := by
  have hlen := (h.payload c.flag_payload.1).2
  have hlt := (c.record key).valueLen.toNat_lt
  change (c.record key).valueLen.toNat = c.payload.length at hlen
  omega

theorem Logged.cases (hwf : row.Wf) (h : Logged row) :
    (∃ r, decoded row = some (.snap r) ∧ snapFlagged row.flags = true ∧ parseCollSnap row.value = .ok r) ∨
      (∃ r, decoded row = some (.op r) ∧ snapFlagged row.flags = false ∧ opFlagged row.flags = true ∧ parseCollOp row.value = .ok r) ∨
      (decoded row = none ∧ snapFlagged row.flags = false ∧ opFlagged row.flags = false) := by
  rcases h with ⟨c, key, rfl⟩ | ⟨hs, ho⟩
  · have hlt := CollRow.payload_lt hwf
    have hsnap : snapFlagged (c.record key).flags = c.isSnap := c.flag_snap
    have hop : opFlagged (c.record key).flags = !c.isSnap := c.flag_op
    cases c with
    | snap r =>
      have hp : parseCollSnap ((CollRow.snap r).record key).value = .ok r := by
        refine parseCollSnap_append ?_
        simp only [CollRow.payload, appendCollSnap, List.length_append] at hlt
        omega
      refine .inl ⟨r, ?_, hsnap, hp⟩
      rw [decoded, hsnap, hp]
      rfl
    | op r =>
      have hp : parseCollOp ((CollRow.op r).record key).value = .ok r := by
        refine parseCollOp_append ?_
        simp only [CollRow.payload, appendCollOp, List.length_append] at hlt
        omega
      refine .inr (.inl ⟨r, ?_, hsnap, hop, hp⟩)
      rw [decoded, hsnap, hop, hp]
      rfl
  · refine .inr (.inr ⟨?_, hs, ho⟩)
    rw [decoded, hs, ho]
    rfl

section Events

variable {σ : Type} {p : Nat × RecordRow} {ps : List (Nat × RecordRow)}

/-- One record of the walk: the callback its payload asks for if it is of the kind, and nothing otherwise. -/
theorem collVisit_event (hwf : p.2.Wf) (h : Logged p.2) (onSnap : List UInt8 → CollSnapRow → σ → Except RecErr σ)
    (onOp : List UInt8 → CollOpRow → σ → Except RecErr σ) (st : σ) :
    (event kind p = none ∧ collVisit kind onSnap onOp st p = .ok st) ∨
      (∃ r, event kind p = some ⟨p.1, p.2, .snap r⟩ ∧ collVisit kind onSnap onOp st p = onSnap p.2.key r st) ∨
      ∃ r, event kind p = some ⟨p.1, p.2, .op r⟩ ∧ collVisit kind onSnap onOp st p = onOp p.2.key r st := by
  rcases h.cases hwf with ⟨r, hd, hs, hp⟩ | ⟨r, hd, hs, ho, hp⟩ | ⟨hd, hs, ho⟩
  · rw [event, hd, collVisit, if_pos hs, hp]
    by_cases hk : r.kind = kind
    · exact .inr (.inl ⟨r, if_pos hk, if_neg fun hn => hn hk⟩)
    · exact .inl ⟨if_neg hk, if_pos hk⟩
  · rw [event, hd, collVisit, hs, if_neg (by simp), if_pos ho, hp]
    by_cases hk : r.kind = kind
    · exact .inr (.inr ⟨r, if_pos hk, if_neg fun hn => hn hk⟩)
    · exact .inl ⟨if_neg hk, if_pos hk⟩
  · rw [event, hd, collVisit, hs, ho, if_neg (by simp), if_neg (by simp)]
    exact .inl ⟨rfl, rfl⟩

theorem liveVisit_event (hwf : p.2.Wf) (h : Logged p.2) (sc : LiveScan) :
    (event kind p = none ∧ liveVisit kind sc p = .ok sc) ∨
      ∃ e, event kind p = some e ∧ liveVisit kind sc p = .ok
        ⟨sc.frames ++ [e.cframe], fun key => if e.isSnap = true ∧ key = e.key then some sc.frames.length else sc.lastSnap key⟩ := by
  rcases h.cases hwf with ⟨r, hd, hs, hp⟩ | ⟨r, hd, hs, ho, hp⟩ | ⟨hd, hs, ho⟩
  · rw [event, hd, liveVisit, if_neg (by simp [hs]), frameKind, if_pos hs, hp]
    by_cases hk : r.kind = kind
    · refine .inr ⟨⟨p.1, p.2, .snap r⟩, if_pos hk, ?_⟩
      simp [Except.map, hk, hs, CollEvent.cframe, CollEvent.isSnap, CollEvent.key, CollRow.isSnap, appendRecordFrame]
    · exact .inl ⟨if_neg hk, if_pos hk⟩
  · rw [event, hd, liveVisit, if_neg (by simp [ho]), frameKind, hs, if_neg (by simp), hp]
    by_cases hk : r.kind = kind
    · refine .inr ⟨⟨p.1, p.2, .op r⟩, if_pos hk, ?_⟩
      simp [Except.map, hk, CollEvent.cframe, CollEvent.isSnap, CollRow.isSnap, appendRecordFrame]
    · exact .inl ⟨if_neg hk, if_pos hk⟩
  · rw [event, hd, liveVisit, if_pos ⟨hs, ho⟩]
    exact .inl ⟨rfl, rfl⟩

theorem visit_live (h : ∀ p ∈ ps, p.2.Wf ∧ Logged p.2) (sc : LiveScan) :
    visitRecords (liveVisit kind) ps sc = .ok ⟨sc.frames ++ (events kind ps).map CollEvent.cframe,
      lastReset CollEvent.key CollEvent.isSnap sc.frames.length (events kind ps) sc.lastSnap⟩ := by
  induction ps generalizing sc with
  | nil => simp [visitRecords, events, lastReset]
  | cons p ps ih =>
    have hp := h p List.mem_cons_self
    have ih := fun sc => ih (fun q hq => h q (List.mem_cons_of_mem _ hq)) sc
    rcases liveVisit_event hp.1 hp.2 sc with ⟨he, hv⟩ | ⟨e, he, hv⟩
    · rw [visitRecords, hv]
      dsimp only
      rw [ih, events, events, List.filterMap_cons_none he]
    · rw [visitRecords, hv]
      dsimp only
      rw [ih, events, events, List.filterMap_cons_some he, lastReset]
      simp

/-- The state of a key after a frame, when a snapshot replaces it and an effect updates it. -/
def apply (replace : List UInt8 → CollSnapRow → σ) (update : List UInt8 → CollOpRow → σ → σ) : List UInt8 × CollRow → σ → σ
  | (key, .snap r), _ => replace key r
  | (key, .op r), v => update key r v

def onSnap (replace : List UInt8 → CollSnapRow → σ) (key : List UInt8) (r : CollSnapRow) (st : List UInt8 → σ) :
    Except RecErr (List UInt8 → σ) :=
  .ok fun k => if k = key then replace key r else st k

def onOp (update : List UInt8 → CollOpRow → σ → σ) (key : List UInt8) (r : CollOpRow) (st : List UInt8 → σ) :
    Except RecErr (List UInt8 → σ) :=
  .ok fun k => if k = key then update key r (st key) else st k

theorem visit_coll (replace : List UInt8 → CollSnapRow → σ) (update : List UInt8 → CollOpRow → σ → σ)
    (h : ∀ p ∈ ps, p.2.Wf ∧ Logged p.2) (st : List UInt8 → σ) :
    visitRecords (collVisit kind (onSnap replace) (onOp update)) ps st =
      .ok (replay CollEvent.key (fun e => apply replace update e.content) (events kind ps) st) := by
  induction ps generalizing st with
  | nil => rfl
  | cons p ps ih =>
    have hp := h p List.mem_cons_self
    have ih := fun st => ih (fun q hq => h q (List.mem_cons_of_mem _ hq)) st
    rcases collVisit_event hp.1 hp.2 (onSnap replace) (onOp update) st with ⟨he, hv⟩ | ⟨r, he, hv⟩ | ⟨r, he, hv⟩
    · rw [visitRecords, hv]
      dsimp only
      rw [ih, events, events, List.filterMap_cons_none he]
    · rw [visitRecords, hv, onSnap]
      dsimp only
      rw [ih, events, events, List.filterMap_cons_some he, replay]
      rfl
    · rw [visitRecords, hv, onOp]
      dsimp only
      rw [ih, events, events, List.filterMap_cons_some he, replay]
      refine congrArg (fun st => Except.ok (replay _ _ _ st)) (funext fun k => ?_)
      by_cases hk : k = p.2.key
      · simp [hk, CollEvent.key, CollEvent.content, apply]
      · simp [hk, CollEvent.key]

/-- The loop over the frames keeps those no later snapshot supersedes; the sizes of the others are dead. -/
theorem liveLoop_eq (pre es : List CollEvent) (hnd : (es.map CollEvent.addr).Nodup) :
    liveLoop (lastReset CollEvent.key CollEvent.isSnap 0 (pre ++ es) fun _ => none) pre.length (es.map CollEvent.cframe) =
      ((keep CollEvent.key CollEvent.isSnap es).map CollEvent.addr,
        ((es.filter fun e => decide (e.addr ∉ (keep CollEvent.key CollEvent.isSnap es).map CollEvent.addr)).map
          fun e => e.row.frame.length).sum) := by
  induction es generalizing pre with
  | nil => rfl
  | cons e es ih =>
    obtain ⟨hne, hnd⟩ := List.nodup_cons.mp hnd
    have hkept : e.addr ∉ (keep CollEvent.key CollEvent.isSnap es).map CollEvent.addr :=
      fun hm => hne (((keep_sublist es).map _).subset hm)
    have hiff := superseded_iff CollEvent.key CollEvent.isSnap pre e es
    have hrest := ih (pre ++ [e]) hnd
    rw [List.append_assoc, List.singleton_append, List.length_append, List.length_singleton] at hrest
    rw [List.map_cons, liveLoop, hrest, keep]
    have hany : ((lastReset CollEvent.key CollEvent.isSnap 0 (pre ++ e :: es) (fun _ => none) e.cframe.key).any (pre.length < ·)) =
        resets CollEvent.key CollEvent.isSnap e.key es := by
      rw [Bool.eq_iff_iff, ← hiff, Option.any_eq_true]
      simp only [decide_eq_true_eq]
      rfl
    rw [hany]
    dsimp only
    split
    next => rw [List.filter_cons_of_pos (by simpa using hkept)]; rfl
    next =>
      refine Prod.ext rfl ?_
      dsimp only
      rw [List.filter_cons_of_neg (by simp)]
      refine congrArg (fun l : List CollEvent => (l.map fun e => e.row.frame.length).sum) (List.filter_congr fun x hx => ?_)
      have hx : x.addr ≠ e.addr := fun he => hne (he ▸ List.mem_map_of_mem hx)
      simp [hx]

theorem events_addr (ps : List (Nat × RecordRow)) : ((events kind ps).map CollEvent.addr).Sublist (ps.map Prod.fst) := by
  induction ps with
  | nil => exact List.Sublist.refl []
  | cons p ps ih =>
    rw [events, List.filterMap_cons]
    split
    next => exact ih.cons _
    next e he =>
      have ha : e.addr = p.1 := by
        rw [event] at he
        split at he
        · split at he
          · rw [← Option.some.inj he]
          · cases he
        · cases he
      rw [List.map_cons, List.map_cons, ha]
      exact ih.cons_cons _

/-- A collection frame of the kind: both payloads begin with it. -/
def ofKind (kind : UInt8) (row : RecordRow) : Bool :=
  (snapFlagged row.flags || opFlagged row.flags) && decide (row.value.head? = some kind)

theorem parseCollSnap_head {value : List UInt8} {r : CollSnapRow} (h : parseCollSnap value = .ok r) : value.head? = some r.kind := by
  cases value with
  | nil => cases h
  | cons k rest =>
    rw [parseCollSnap] at h
    cases hs : splitPart rest with
    | error e => rw [hs] at h; cases h
    | ok q => rw [hs] at h; cases h; rfl

theorem parseCollOp_head {value : List UInt8} {r : CollOpRow} (h : parseCollOp value = .ok r) : value.head? = some r.kind := by
  match value with
  | [] => cases h
  | [_] => cases h
  | k :: op :: rest =>
    rw [parseCollOp] at h
    cases hs : splitPart rest with
    | error e => rw [hs] at h; cases h
    | ok q => rw [hs] at h; cases h; rfl

theorem ofKind_event (kind : UInt8) (hwf : p.2.Wf) (h : Logged p.2) :
    (ofKind kind p.2 = false ∧ event kind p = none) ∨ ∃ c, ofKind kind p.2 = true ∧ event kind p = some ⟨p.1, p.2, c⟩ := by
  have hone : ∀ c, decoded p.2 = some c → (snapFlagged p.2.flags || opFlagged p.2.flags) = true → p.2.value.head? = some c.kind →
      (ofKind kind p.2 = false ∧ event kind p = none) ∨ ∃ c, ofKind kind p.2 = true ∧ event kind p = some ⟨p.1, p.2, c⟩ := by
    intro c hd hf hh
    rw [ofKind, hf, hh, event, hd]
    by_cases hk : c.kind = kind
    · exact .inr ⟨c, by simp [hk], if_pos hk⟩
    · exact .inl ⟨by simp [hk], if_neg hk⟩
  rcases h.cases hwf with ⟨r, hd, hs, hp⟩ | ⟨r, hd, -, ho, hp⟩ | ⟨hd, hs, ho⟩
  · exact hone _ hd (by simp [hs]) (parseCollSnap_head hp)
  · exact hone _ hd (by simp [ho]) (parseCollOp_head hp)
  · exact .inl ⟨by rw [ofKind, hs, ho]; rfl, by rw [event, hd]⟩

theorem events_size (h : ∀ p ∈ ps, p.2.Wf ∧ Logged p.2) (live : List Nat) :
    ((events kind ps).filter fun e => decide (e.addr ∉ live)).map (fun e => e.row.frame.length) =
      (ps.filter fun p => ofKind kind p.2 && decide (p.1 ∉ live)).map fun p => p.2.frame.length := by
  induction ps with
  | nil => rfl
  | cons p ps ih =>
    have hp := h p List.mem_cons_self
    have ih := ih fun q hq => h q (List.mem_cons_of_mem _ hq)
    rw [events] at ih
    rcases ofKind_event kind hp.1 hp.2 with ⟨hk, he⟩ | ⟨c, hk, he⟩
    · rw [events, List.filterMap_cons_none he, ih, List.filter_cons_of_neg (by simp [hk])]
    · rw [events, List.filterMap_cons_some he, List.filter_cons, List.filter_cons, hk, Bool.true_and]
      split
      · rw [List.map_cons, List.map_cons, ih]
      · exact ih

theorem events_row {e : CollEvent} (he : e ∈ events kind ps) : (e.addr, e.row) ∈ ps ∧ decoded e.row = some e.coll ∧ e.coll.kind = kind := by
  obtain ⟨p, hp, he⟩ := List.mem_filterMap.mp he
  rw [event] at he
  split at he
  next c hd =>
    split at he
    next hk =>
      cases he
      exact ⟨hp, hd, hk⟩
    next => cases he
  next => cases he

/-- The rows of frames of the kind, standing elsewhere, are frames of the kind that hold the same. -/
theorem events_zip {addrs : List Nat} {es : List CollEvent} (hes : ∀ e ∈ es, decoded e.row = some e.coll ∧ e.coll.kind = kind)
    (hlen : addrs.length = es.length) :
    (events kind (addrs.zip (es.map CollEvent.row))).map CollEvent.content = es.map CollEvent.content ∧
      (events kind (addrs.zip (es.map CollEvent.row))).map CollEvent.addr = addrs := by
  induction es generalizing addrs with
  | nil =>
    rw [List.length_eq_zero_iff.mp hlen]
    exact ⟨rfl, rfl⟩
  | cons e es ih =>
    obtain ⟨a, addrs, rfl⟩ := List.exists_cons_of_length_pos (l := addrs) (by rw [hlen, List.length_cons]; omega)
    obtain ⟨hc, ha⟩ := ih (fun x hx => hes x (List.mem_cons_of_mem _ hx)) (Nat.succ.inj hlen)
    obtain ⟨hd, hk⟩ := hes e List.mem_cons_self
    have hev : event kind (a, e.row) = some ⟨a, e.row, e.coll⟩ := by
      rw [event, hd]
      exact if_pos hk
    rw [events] at hc ha
    rw [events, List.map_cons, List.zip_cons_cons, List.filterMap_cons_some hev, List.map_cons, List.map_cons, List.map_cons, hc, ha]
    exact ⟨rfl, rfl⟩

end Events

theorem placeRows_addrs (base : Nat) (rows : List RecordRow) :
    ((placeRows base rows).map Prod.fst).Pairwise (· < ·) ∧ ∀ p ∈ placeRows base rows, base ≤ p.1 ∧ p.1 < base + (frames rows).length := by
  induction rows generalizing base with
  | nil => exact ⟨.nil, fun _ h => nomatch h⟩
  | cons r rs ih =>
    obtain ⟨hp, hb⟩ := ih (base + r.frame.length)
    have hlen := r.frame_length
    have hcons : (frames (r :: rs)).length = r.frame.length + (frames rs).length := by
      rw [frames, List.flatMap_cons, List.length_append]
      rfl
    refine ⟨List.pairwise_cons.mpr ⟨fun a ha => ?_, hp⟩, fun p hm => ?_⟩
    · obtain ⟨p, hm, rfl⟩ := List.mem_map.mp ha
      have := hb p hm
      omega
    · rcases List.mem_cons.mp hm with rfl | hm
      · omega
      · have := hb p hm
        omega

theorem Rows.addrs {d : Dev} {size off e : Nat} {xs : List Seg} {ps : List (UInt16 × Nat × RecordRow)} (h : Rows xs ps)
    (hc : Chain d size off xs e) : (ps.map fun p => p.2.1).Pairwise (· < ·) ∧ ∀ p ∈ ps, off ≤ p.2.1 := by
  induction h generalizing off with
  | nil => exact ⟨.nil, fun _ h => nomatch h⟩
  | other x xs ps _ _ ih =>
    obtain ⟨hp, hb⟩ := ih hc.2
    have := segAt_lt_stop hc.1
    exact ⟨hp, fun p hm => by have := hb p hm; omega⟩
  | log x xs rows ps _ hpay _ _ ih =>
    obtain ⟨hp, hb⟩ := ih hc.2
    have hstop := segAt_lt_stop hc.1
    obtain ⟨hq, hin⟩ := placeRows_addrs (x.off + segHeaderLen) rows
    rw [hpay] at hstop
    rw [← segAt_off hc.1] at hstop ⊢
    have hbelow : ∀ p ∈ (placeRows (x.off + segHeaderLen) rows).map (Prod.mk x.header.shard),
        x.off ≤ p.2.1 ∧ p.2.1 < x.stop := by
      intro p hm
      obtain ⟨q, hq', rfl⟩ := List.mem_map.mp hm
      have := hin q hq'
      dsimp only
      omega
    rw [List.map_append, List.pairwise_append]
    refine ⟨⟨?_, hp, fun a ha b hb' => ?_⟩, fun p hm => ?_⟩
    · rw [List.map_map]
      exact hq
    · obtain ⟨p, hm, rfl⟩ := List.mem_map.mp ha
      obtain ⟨q, hm', rfl⟩ := List.mem_map.mp hb'
      have := hbelow p hm
      have := hb q hm'
      omega
    · rcases List.mem_append.mp hm with hm | hm
      · exact (hbelow p hm).1
      · have := hb p hm
        omega

/-- The records of one shard, in order and with their addresses. -/
def LogState.shardLog (s : LogState) (shard : UInt16) : List (Nat × RecordRow) :=
  (s.placed.filter fun p => decide (p.1 = shard)).map Prod.snd

variable {s : LogState} {policy : SyncPolicy} {due : Bool} {shard : UInt16} {shardSeq : UInt64}

theorem cut_st (w : Writer) :
    (s.cut policy due shard shardSeq w).1.st = (s.st.appendGroup policy due [LogState.logPending shard shardSeq w.pending] .none).1 := by
  unfold LogState.cut
  dsimp only
  split <;> rfl

theorem LogInv.cut_walk (h : LogInv s) (policy : SyncPolicy) (due : Bool) (shard : UInt16) (shardSeq : UInt64) {w : Writer} (hw : w.Ok)
    (hroom : Room s w.pending) :
    walkShardRecords shard (s.cut policy due shard shardSeq w).1.st.live (s.cut policy due shard shardSeq w).1.st.file.cursor
      s.st.file.cursor = (placeRows (s.st.file.cursor + segHeaderLen) w.rows, none) := by
  have hlen : ∀ p ∈ [LogState.logPending shard shardSeq w.pending], p.payload.length < 2 ^ 64 := by
    intro p hp
    rw [List.mem_singleton.mp hp]
    exact hroom.2
  obtain ⟨-, hlog, hinv, -⟩ := append_whole [_] h.file h.ended hroom.1 hlen policy due
  have hchain := hinv.chain
  rw [hlog] at hchain
  obtain ⟨m, hold, hnew⟩ := chain_append.mp hchain
  obtain rfl := chain_end h.file.chain hold
  have hone := Rows.log ((LogState.logPending shard shardSeq w.pending).seg s.st.file.cursor (s.st.file.globalSeq + 1)) [] w.rows []
    rfl hw.pending hw.wf .nil
  have hwalk := (hone.walk hnew).2 shard
  rw [cut_st, hwalk, List.append_nil, List.filter_eq_self.mpr, List.map_map]
  · exact Prod.ext (List.map_id _) rfl
  · intro p hp
    obtain ⟨q, -, rfl⟩ := List.mem_map.mp hp
    exact decide_eq_true rfl

/-- Compaction writes the rows it reads, in order, and the walk from there meets them at the addresses returned. -/
theorem LogInv.compact_walk (h : LogInv s) (policy : SyncPolicy) (due : Bool) (shard : UInt16) (shardSeq : UInt64) {live : List Nat}
    {rows : List RecordRow} (hread : live.mapM (readRecordAt s.st.live) = .ok rows) (hwf : ∀ r ∈ rows, r.Wf)
    (hroom : Room s (frames rows)) :
    ∃ addrs, (s.compactRecords policy due shard shardSeq live).2 = some addrs ∧ addrs.length = rows.length ∧
      (addrs.zip rows).map Prod.fst = addrs ∧ addrs.Nodup ∧
      walkShardRecords shard (s.compactRecords policy due shard shardSeq live).1.st.live
        (s.compactRecords policy due shard shardSeq live).1.st.file.cursor s.st.file.cursor = (addrs.zip rows, none) := by
  unfold LogState.compactRecords
  split
  next hl =>
    rw [hl] at hread
    cases hread
    refine ⟨[], rfl, rfl, rfl, List.nodup_nil, ?_⟩
    have hc : Chain s.st.live s.st.live.size s.st.file.cursor [] s.st.file.cursor := rfl
    exact (Rows.nil.walk hc).2 shard
  next =>
    rw [hread]
    dsimp only
    obtain ⟨hok, hrows⟩ := Writer.empty_ok.stageAll hwf
    rw [show Writer.empty.rows ++ rows = rows from rfl] at hrows
    rw [← hrows, ← hok.pending] at hroom
    obtain ⟨addrs, hret, hzip, hlen, -⟩ := h.cut policy due shard shardSeq hok hroom
    have hwalk := h.cut_walk policy due shard shardSeq hok hroom
    rw [hrows] at hlen hzip hwalk
    have hfst : (addrs.zip rows).map Prod.fst = addrs := List.map_fst_zip (Nat.le_of_eq hlen)
    have hinc := (placeRows_addrs (s.st.file.cursor + segHeaderLen) rows).1
    rw [← hzip, hfst] at hinc
    rw [← hzip] at hwalk
    exact ⟨addrs, hret, hlen, hfst, hinc.imp Nat.ne_of_lt, hwalk⟩

section Transparent

variable {start : Nat} {ps : List (Nat × RecordRow)}

theorem collLiveFrames_eq (kind : UInt8) (hw : walkShardRecords shard s.st.live s.st.file.cursor start = (ps, none))
    (h : ∀ p ∈ ps, p.2.Wf ∧ Logged p.2) (hnd : (ps.map Prod.fst).Nodup) :
    collLiveFramesFrom start shard kind s = .ok ((keep CollEvent.key CollEvent.isSnap (events kind ps)).map CollEvent.addr,
      (((events kind ps).filter fun e =>
        decide (e.addr ∉ (keep CollEvent.key CollEvent.isSnap (events kind ps)).map CollEvent.addr)).map fun e => e.row.frame.length).sum) := by
  have hloop := liveLoop_eq [] (events kind ps) ((events_addr ps).nodup hnd)
  rw [List.nil_append, List.length_nil] at hloop
  rw [collLiveFramesFrom, walkShardFrom, hw]
  dsimp only
  rw [visit_live h, List.nil_append]
  exact congrArg Except.ok hloop

theorem walkCollection_eq {σ : Type} (hw : walkShardRecords shard s.st.live s.st.file.cursor start = (ps, none))
    (h : ∀ p ∈ ps, p.2.Wf ∧ Logged p.2) (replace : List UInt8 → CollSnapRow → σ) (update : List UInt8 → CollOpRow → σ → σ)
    (st : List UInt8 → σ) :
    walkCollectionFrom start shard kind (onSnap replace) (onOp update) s st =
      .ok (replay CollEvent.key (fun e => apply replace update e.content) (events kind ps) st) := by
  rw [walkCollectionFrom, walkShardFrom, hw]
  dsimp only
  rw [visit_coll replace update h]

end Transparent

theorem shardLog_wf (h : LogInv s) (hlog : ∀ p ∈ s.placed, p.1 = shard → Logged p.2.2) :
    ∀ p ∈ s.shardLog shard, p.2.Wf ∧ Logged p.2 ∧ readRecordAt s.st.live p.1 = .ok p.2 := by
  intro p hp
  obtain ⟨q, hq, rfl⟩ := List.mem_map.mp hp
  obtain ⟨hm, hsh⟩ := List.mem_filter.mp hq
  exact ⟨(h.rows.mem hm).1, hlog q hm (of_decide_eq_true hsh), h.rows.read h.file.chain hm⟩

theorem shardLog_nodup (h : LogInv s) : ((s.shardLog shard).map Prod.fst).Nodup := by
  have hp := (h.rows.addrs h.file.chain).1
  have hsub : ((s.shardLog shard).map Prod.fst).Sublist (s.placed.map fun p => p.2.1) := by
    rw [LogState.shardLog, List.map_map]
    exact List.filter_sublist.map _
  exact (hp.sublist hsub).imp Nat.ne_of_lt

theorem read_events {d : Dev} {es : List CollEvent} (h : ∀ e ∈ es, readRecordAt d e.addr = .ok e.row) :
    (es.map CollEvent.addr).mapM (readRecordAt d) = .ok (es.map CollEvent.row) := by
  induction es with
  | nil => rfl
  | cons e es ih =>
    rw [List.map_cons, List.mapM_cons, h e List.mem_cons_self, ih fun x hx => h x (List.mem_cons_of_mem _ hx)]
    rfl

/-- For a log that holds any collection frames and other records: the frames kept for a kind, compacted, replay to the same state of
every key as the whole log; the dead size is that of the frames of the kind left out; and of the compacted log every frame is live. -/
theorem collection_compaction_transparent (h : LogInv s) (shard : UInt16) (hlog : ∀ p ∈ s.placed, p.1 = shard → Logged p.2.2)
    (kind : UInt8) :
    ∃ live dead, collLiveFramesFrom pageSize shard kind s = .ok (live, dead) ∧
      dead = (((s.shardLog shard).filter fun p => ofKind kind p.2 && decide (p.1 ∉ live)).map fun p => p.2.frame.length).sum ∧
      ∀ policy due shardSeq, (∀ rows, live.mapM (readRecordAt s.st.live) = .ok rows → Room s (frames rows)) →
        ∃ addrs, (s.compactRecords policy due shard shardSeq live).2 = some addrs ∧
          (∀ (σ : Type) (replace : List UInt8 → CollSnapRow → σ) (update : List UInt8 → CollOpRow → σ → σ) (st : List UInt8 → σ),
            ∃ st', walkCollectionFrom pageSize shard kind (onSnap replace) (onOp update) s st = .ok st' ∧
              walkCollectionFrom s.st.file.cursor shard kind (onSnap replace) (onOp update)
                (s.compactRecords policy due shard shardSeq live).1 st = .ok st') ∧
          collLiveFramesFrom s.st.file.cursor shard kind (s.compactRecords policy due shard shardSeq live).1 = .ok (addrs, 0) := by
  have hall := shardLog_wf h hlog
  have hok : ∀ p ∈ s.shardLog shard, p.2.Wf ∧ Logged p.2 := fun p hp => ⟨(hall p hp).1, (hall p hp).2.1⟩
  have hwalk : walkShardRecords shard s.st.live s.st.file.cursor pageSize = (s.shardLog shard, none) :=
    (h.rows.walk h.file.chain).2 shard
  have hlive := collLiveFrames_eq kind hwalk hok (shardLog_nodup h)
  refine ⟨_, _, hlive, by rw [events_size hok], fun policy due shardSeq hroom => ?_⟩
  have hkept : ∀ e ∈ keep CollEvent.key CollEvent.isSnap (events kind (s.shardLog shard)), e ∈ events kind (s.shardLog shard) :=
    fun e he => (keep_sublist _).subset he
  generalize hks : keep CollEvent.key CollEvent.isSnap (events kind (s.shardLog shard)) = ks at hroom hkept ⊢
  have hread : (ks.map CollEvent.addr).mapM (readRecordAt s.st.live) = .ok (ks.map CollEvent.row) :=
    read_events fun e he => (hall _ (events_row (hkept e he)).1).2.2
  have hrows : ∀ r ∈ ks.map CollEvent.row, r.Wf ∧ Logged r := by
    intro r hr
    obtain ⟨e, he, rfl⟩ := List.mem_map.mp hr
    exact hok _ (events_row (hkept e he)).1
  obtain ⟨addrs, hret, hlen, hfst, hnd, hnew⟩ := h.compact_walk policy due shard shardSeq hread (fun r hr => (hrows r hr).1) (hroom _ hread)
  rw [List.length_map] at hlen
  obtain ⟨hcont, haddr⟩ := events_zip (fun e he => (events_row (hkept e he)).2) hlen
  have hok' : ∀ p ∈ addrs.zip (ks.map CollEvent.row), p.2.Wf ∧ Logged p.2 := fun p hp => hrows _ (List.of_mem_zip hp).2
  refine ⟨addrs, hret, fun σ replace update st => ⟨_, walkCollection_eq hwalk hok replace update st, ?_⟩, ?_⟩
  · -- replay sees what the frames hold and not where they stand
    have hmap : ∀ es : List CollEvent, replay Prod.fst (apply replace update) (es.map CollEvent.content) st =
        replay CollEvent.key (fun e => apply replace update e.content) es st := fun es => replay_map (fun _ => rfl) (fun _ => rfl) es st
    have hreset : ∀ e : CollEvent, e.isSnap = true → ∀ v v', apply replace update e.content v = apply replace update e.content v' := by
      rintro ⟨a, row, c⟩ he v v'
      cases c with
      | op r => cases he
      | snap r => rfl
    rw [walkCollection_eq hnew hok' replace update st, ← hmap, hcont, hmap, ← hks, replay_keep hreset]
  · have hsame : (events kind (addrs.zip (ks.map CollEvent.row))).map CollEvent.content =
        (keep CollEvent.key CollEvent.isSnap (events kind (s.shardLog shard))).map CollEvent.content := by rw [hcont, hks]
    have hself : keep CollEvent.key CollEvent.isSnap (events kind (addrs.zip (ks.map CollEvent.row))) =
        events kind (addrs.zip (ks.map CollEvent.row)) :=
      keep_eq_self Prod.fst (fun p => CollRow.isSnap p.2) (fun _ => rfl) (fun _ => rfl) hsame
    have hlive' := collLiveFrames_eq kind hnew hok' (by rw [hfst]; exact hnd)
    rw [hself, haddr, List.filter_eq_nil_iff.mpr] at hlive'
    · exact hlive'
    · intro e he
      have hm := List.mem_map_of_mem (f := CollEvent.addr) he
      rw [haddr] at hm
      simpa using hm

/-- An effect on the key `8` and a snapshot of it. -/
def effectOf8 : RecordRow := CollRow.record (.op ⟨1, 1, [5], [6]⟩) [8]

def snapOf8 : RecordRow := CollRow.record (.snap ⟨1, [], [5]⟩) [8]

def effectThenSnap : LogState :=
  createdLog.ops .always [.stage 0 effectOf8, .flush false 0 1, .stage 0 snapOf8, .flush false 0 2]

theorem effectThenSnap_inv : LogInv effectThenSnap := by
  refine created_logInv.ops ⟨⟨⟨by decide, by decide, by decide +kernel⟩, by decide +kernel⟩, ⟨by decide +kernel, by decide +kernel⟩,
    ⟨⟨by decide, by decide, by decide +kernel⟩, by decide +kernel⟩, ⟨by decide +kernel, by decide +kernel⟩, trivial⟩

theorem effectThenSnap_placed : effectThenSnap.placed = [(0, 16448, effectOf8), (0, 20544, snapOf8)] := by decide +kernel

theorem collection_compaction_transparent_effect_snap :
    LogInv effectThenSnap ∧ effectThenSnap.placed = [(0, 16448, effectOf8), (0, 20544, snapOf8)] ∧
      ∃ live dead, collLiveFramesFrom pageSize 0 1 effectThenSnap = .ok (live, dead) ∧
        dead = (((effectThenSnap.shardLog 0).filter fun p => ofKind 1 p.2 && decide (p.1 ∉ live)).map fun p => p.2.frame.length).sum := by
  refine ⟨effectThenSnap_inv, effectThenSnap_placed, ?_⟩
  obtain ⟨live, dead, hlive, hdead, -⟩ := collection_compaction_transparent effectThenSnap_inv 0 (fun p hp _ => by
    rw [effectThenSnap_placed] at hp
    rcases List.mem_cons.mp hp with rfl | hp
    · exact .inl ⟨_, _, rfl⟩
    · rw [List.mem_singleton.mp hp]
      exact .inl ⟨_, _, rfl⟩) 1
  exact ⟨live, dead, hlive, hdead⟩

end Aki.Akifile
