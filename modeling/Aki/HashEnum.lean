import Aki.FieldTableMap

namespace Aki

open Slab Resp

/-- The halves of each pair an enumeration emits. -/
inductive EnumMode
  | pairs
  | keys
  | vals
deriving DecidableEq

/-- `pairs` frames the header as a map; `elem` is the next element to frame and `off` counts the bytes of `buf` gone out. -/
structure EnumStream where
  ords : List Nat
  mode : EnumMode
  pairs : Bool
  total : Nat
  elem : Nat
  buf : Bytes
  off : Nat
  started : Bool
deriving DecidableEq

def decLenLoop : Nat → Nat → Nat → Nat
  | 0, _, d => d
  | fuel + 1, n, d => if 10 ≤ n then decLenLoop fuel (n / 10) (d + 1) else d

def decLen (n : Nat) : Nat := decLenLoop n n 1

def arrayHeaderLen (n : Nat) : Nat := 1 + decLen n + 2

def bulkFrameLen (l : Nat) : Nat := 1 + decLen l + 2 + l + 2

def enumElems (card : Nat) (mode : EnumMode) : Nat := if mode = .pairs then 2 * card else card

/-- The record of an element, and whether its value half is wanted. -/
def EnumStream.locate (e : EnumStream) (elem : Nat) : Nat × Bool :=
  match e.mode with
  | .keys => (e.ords.getD elem 0, false)
  | .vals => (e.ords.getD elem 0, true)
  | .pairs => (e.ords.getD (elem / 2) 0, elem % 2 == 1)

def EnumStream.element (f : FTable) (e : EnumStream) (elem : Nat) : Bytes :=
  if (e.locate elem).2 then f.valueByOrd (e.locate elem).1 else f.fieldByOrd (e.locate elem).1

def EnumStream.header (e : EnumStream) : Bytes :=
  if e.pairs then appendMapHeader [] (e.total / 2) else appendArrayHeader [] e.total

/-- The loop of `Next` into a buffer of `cap` bytes, of which `dst` are filled. -/
def EnumStream.nextLoop (f : FTable) (cap : Nat) : Nat → EnumStream → Bytes → Option (EnumStream × Bytes)
  | 0, _, _ => none
  | fuel + 1, e, dst =>
    if dst.length < cap then
      if e.off < e.buf.length then
        let c := (e.buf.drop e.off).take (cap - dst.length)
        nextLoop f cap fuel { e with off := e.off + c.length } (dst ++ c)
      else if e.started = false then
        nextLoop f cap fuel { e with buf := e.header, started := true, off := 0 } dst
      else if e.elem < e.total then
        let b := e.element f e.elem
        if bulkFrameLen b.length ≤ cap - dst.length then
          nextLoop f cap fuel { e with elem := e.elem + 1 } (appendBulk dst b)
        else
          nextLoop f cap fuel { e with elem := e.elem + 1, buf := appendBulk [] b, off := 0 } dst
      else
        some (e, dst)
    else
      some (e, dst)

/-- An element takes two turns at most: one frames it, one drains the straddle buffer. -/
def EnumStream.next (f : FTable) (e : EnumStream) (cap : Nat) : Option (EnumStream × Bytes) :=
  nextLoop f cap (2 * (e.total - e.elem) + 5) e []

namespace FTable

def enumTotal (f : FTable) (mode : EnumMode) (asMap : Bool) : Nat :=
  let n := f.vec.length
  let hdr := if asMap then arrayHeaderLen n else arrayHeaderLen (enumElems n mode)
  f.vec.foldl (fun tot ord =>
    let tot := if mode ≠ .vals then tot + bulkFrameLen (f.ent ord).flen else tot
    if mode ≠ .keys then tot + bulkFrameLen (f.ent ord).vlen else tot) hdr

def pinStream (f : FTable) : FTable := { f with streams := f.streams + 1 }

def unpinStream (f : FTable) : FTable := { f with streams := f.streams - 1 }

def pinEnumStream (f : FTable) (mode : EnumMode) (asMap : Bool) : FTable × EnumStream :=
  (f.pinStream, ⟨f.vec, mode, asMap, enumElems f.vec.length mode, 0, [], 0, false⟩)

/-- The reply `enumerate` builds at once when it does not stream. -/
def enumerateReply (f : FTable) (mode : EnumMode) (asMap : Bool) : Bytes :=
  let out := if asMap then appendMapHeader [] f.card else appendArrayHeader [] (enumElems f.card mode)
  f.each.foldl (fun out kv =>
    let out := if mode ≠ .vals then appendBulk out kv.1 else out
    if mode ≠ .keys then appendBulk out kv.2 else out) out

end FTable

theorem decimalLoop_length (acc : Bytes) : ∀ (fuel u d : Nat), u ≤ fuel →
    (decimalLoop (fuel + 1) u acc).length + d = acc.length + decLenLoop fuel u (d + 1) := by
  intro fuel
  induction fuel generalizing acc with
  | zero =>
    intro u d hu
    obtain rfl := Nat.le_zero.mp hu
    show acc.length + 1 + d = acc.length + (d + 1)
    omega
  | succ fuel ih =>
    intro u d hu
    rw [decimalLoop, decLenLoop]
    by_cases h10 : 10 ≤ u
    · rw [if_neg (by omega), if_pos h10]
      have := ih (UInt8.ofNat (48 + u % 10) :: acc) (u / 10) (d + 1) (by omega)
      rw [List.length_cons] at this
      omega
    · rw [if_pos (by omega), if_neg h10, List.length_cons]
      omega

theorem putDecimal_length (u : Nat) : (putDecimal u).length = decLen u := by
  have := decimalLoop_length [] u u 0 (Nat.le_refl u)
  simpa [putDecimal, decLen] using this

theorem appendBulk_eq (dst v : Bytes) : appendBulk dst v = dst ++ appendBulk [] v := by
  rw [appendBulk, appendBulk, List.nil_append]

theorem appendBulk_length (v : Bytes) : (appendBulk [] v).length = bulkFrameLen v.length := by
  simp only [appendBulk, bulkFrameLen, crlf, List.nil_append, List.length_append, List.length_cons, List.length_nil,
    putDecimal_length]
  omega

theorem appendArrayHeader_length (n : Nat) : (appendArrayHeader [] n).length = arrayHeaderLen n := by
  simp only [appendArrayHeader, arrayHeaderLen, crlf, List.nil_append, List.length_append, List.length_cons,
    List.length_nil, putDecimal_length]
  omega

theorem appendMapHeader_length (n : Nat) : (appendMapHeader [] n).length = arrayHeaderLen n := by
  simp only [appendMapHeader, arrayHeaderLen, crlf, List.nil_append, List.length_append, List.length_cons,
    List.length_nil, putDecimal_length]
  omega

namespace EnumStream

variable {f : FTable} {e : EnumStream}

/-- The bodies of a pair that the mode emits. -/
def halves (f : FTable) (mode : EnumMode) (o : Nat) : List Bytes :=
  match mode with
  | .pairs => [f.fieldByOrd o, f.valueByOrd o]
  | .keys => [f.fieldByOrd o]
  | .vals => [f.valueByOrd o]

def bodies (f : FTable) (e : EnumStream) : List Bytes := e.ords.flatMap (halves f e.mode)

/-- The bytes still to go out, were the table to stay as it is. -/
def rest (f : FTable) (e : EnumStream) : Bytes :=
  e.buf.drop e.off ++ ((if e.started then [] else e.header) ++ ((bodies f e).drop e.elem).flatMap (appendBulk []))

theorem flatMap_two_get {α β : Type} (a b : α → β) : ∀ (l : List α) (i : Nat),
    (l.flatMap fun x => [a x, b x])[i]? = l[i / 2]?.map (if i % 2 == 1 then b else a)
  | [], i => by simp
  | x :: l, 0 => rfl
  | x :: l, 1 => rfl
  | x :: l, i + 2 => by
    rw [List.flatMap_cons, show (i + 2) / 2 = i / 2 + 1 by omega, show (i + 2) % 2 = i % 2 by omega,
      List.getElem?_cons_succ]
    exact flatMap_two_get a b l i

theorem bodies_get (hmode : e.total = enumElems e.ords.length e.mode) (i : Nat) :
    (bodies f e)[i]? = if i < e.total then some (e.element f i) else none := by
  have hone : ∀ (l : List Nat) (a : Nat → Bytes), (l.flatMap fun o => [a o])[i]? = if i < l.length then some (a (l.getD i 0)) else none := by
    intro l a
    rw [← List.map_eq_flatMap, List.getElem?_map, List.getD_eq_getElem?_getD]
    split
    next hi => rw [List.getElem?_eq_getElem hi]; rfl
    next hi => rw [List.getElem?_eq_none (by omega)]; rfl
  unfold bodies element locate halves
  rw [hmode]
  cases e.mode with
  | keys => exact hone e.ords f.fieldByOrd
  | vals => exact hone e.ords f.valueByOrd
  | pairs =>
    dsimp only
    rw [flatMap_two_get, List.getD_eq_getElem?_getD, show enumElems e.ords.length .pairs = 2 * e.ords.length from rfl]
    by_cases hi : i / 2 < e.ords.length
    · rw [List.getElem?_eq_getElem hi, if_pos (show i < 2 * e.ords.length by omega)]
      by_cases hodd : i % 2 = 1 <;> simp [hodd, hi]
    · rw [List.getElem?_eq_none (by omega), if_neg (show ¬ i < 2 * e.ords.length by omega)]
      rfl

theorem bodies_drop (hmode : e.total = enumElems e.ords.length e.mode) (hlt : e.elem < e.total) :
    (bodies f e).drop e.elem = e.element f e.elem :: (bodies f e).drop (e.elem + 1) := by
  have hget := bodies_get (f := f) hmode e.elem
  rw [if_pos hlt] at hget
  obtain ⟨hi, heq⟩ := List.getElem?_eq_some_iff.mp hget
  rw [List.drop_eq_getElem_cons hi, heq]

theorem bodies_drop_total (hmode : e.total = enumElems e.ords.length e.mode) (hge : e.total ≤ e.elem) :
    (bodies f e).drop e.elem = [] := by
  refine List.drop_eq_nil_of_le (List.getElem?_eq_none_iff.mp ?_)
  rw [bodies_get hmode, if_neg (by omega)]

/-- What `Next` leaves alone; the cursor only moves forward. -/
structure Continues (e e' : EnumStream) : Prop where
  ords : e'.ords = e.ords
  mode : e'.mode = e.mode
  total : e'.total = e.total
  elem : e.elem ≤ e'.elem

theorem Continues.trans {e' e'' : EnumStream} (h : Continues e e') (h' : Continues e' e'') : Continues e e'' :=
  ⟨h'.ords.trans h.ords, h'.mode.trans h.mode, h'.total.trans h.total, Nat.le_trans h.elem h'.elem⟩

/-- The turns the loop may still take, but for the last. -/
def turns (e : EnumStream) : Nat :=
  2 * (e.total - e.elem) + (if e.started then 0 else 2) + (if e.off < e.buf.length then 1 else 0)

/-- `Next` yields the first `cap - dst.length` bytes that remain and leaves the others. -/
def Yields (f : FTable) (cap : Nat) (e : EnumStream) (dst : Bytes) (r : Option (EnumStream × Bytes)) : Prop :=
  ∃ e', r = some (e', dst ++ (e.rest f).take (cap - dst.length)) ∧ e'.rest f = (e.rest f).drop (cap - dst.length) ∧
    Continues e e'

theorem Yields.emit {cap : Nat} {dst c : Bytes} {e₁ : EnumStream} {r : Option (EnumStream × Bytes)}
    (h : Yields f cap e₁ (dst ++ c) r) (hrest : e.rest f = c ++ e₁.rest f) (hroom : c.length ≤ cap - dst.length)
    (hc : Continues e e₁) : Yields f cap e dst r := by
  obtain ⟨e', hr, hrest', hcont⟩ := h
  have hsub : cap - (dst ++ c).length = cap - dst.length - c.length := by rw [List.length_append]; omega
  rw [hsub] at hr hrest'
  refine ⟨e', ?_, ?_, hc.trans hcont⟩
  · rw [hr, hrest, List.take_append, List.take_of_length_le hroom, List.append_assoc]
  · rw [hrest', hrest, List.drop_append, List.drop_eq_nil_of_le hroom, List.nil_append]

theorem Yields.refill {cap : Nat} {dst : Bytes} {e₁ : EnumStream} {r : Option (EnumStream × Bytes)}
    (h : Yields f cap e₁ dst r) (hrest : e.rest f = e₁.rest f) (hc : Continues e e₁) : Yields f cap e dst r :=
  Yields.emit (c := []) (by rwa [List.append_nil]) hrest (Nat.zero_le _) hc

theorem Yields.full {cap : Nat} {dst : Bytes} (hfull : cap ≤ dst.length) (fuel : Nat) :
    Yields f cap e dst (nextLoop f cap (fuel + 1) e dst) := by
  refine ⟨e, ?_, ?_, rfl, rfl, rfl, Nat.le_refl _⟩
  · rw [nextLoop, if_neg (by omega), Nat.sub_eq_zero_of_le hfull, List.take_zero, List.append_nil]
  · rw [Nat.sub_eq_zero_of_le hfull, List.drop_zero]

theorem nextLoop_yields (cap : Nat) : ∀ (fuel : Nat) (e : EnumStream) (dst : Bytes),
    e.total = enumElems e.ords.length e.mode → e.turns + 2 ≤ fuel → Yields f cap e dst (nextLoop f cap fuel e dst)
  | 0, _, _, _, hfuel => by omega
  | fuel + 1, e, dst, hmode, hfuel => by
    unfold turns at hfuel
    rw [nextLoop]
    by_cases hroom : dst.length < cap
    · rw [if_pos hroom]
      by_cases hbuf : e.off < e.buf.length
      -- the straddle buffer is drained, or fills what is left of the chunk
      · rw [if_pos hbuf]
        rw [if_pos hbuf] at hfuel
        obtain ⟨c, hc⟩ : ∃ c, c = (e.buf.drop e.off).take (cap - dst.length) := ⟨_, rfl⟩
        dsimp only
        rw [← hc]
        have hlen : c.length = min (cap - dst.length) (e.buf.length - e.off) := by rw [hc, List.length_take, List.length_drop]
        have hrest : e.rest f = c ++ ({ e with off := e.off + c.length } : EnumStream).rest f := by
          have hsplit : e.buf.drop e.off = c ++ e.buf.drop (e.off + c.length) := by
            rw [← List.drop_drop]
            conv_lhs => rw [← List.take_append_drop c.length (e.buf.drop e.off)]
            refine congrArg (· ++ _) ?_
            rw [hlen, hc, ← List.length_drop, List.take_eq_take_iff]
            omega
          unfold rest
          rw [hsplit, List.append_assoc]
          rfl
        refine Yields.emit ?_ hrest (by omega) ⟨rfl, rfl, rfl, Nat.le_refl _⟩
        by_cases hfill : cap - dst.length ≤ e.buf.length - e.off
        · obtain ⟨fuel, rfl⟩ := Nat.exists_eq_succ_of_ne_zero (show fuel ≠ 0 by omega)
          exact Yields.full (by rw [List.length_append]; omega) fuel
        · refine nextLoop_yields cap fuel _ _ hmode ?_
          simp only [turns]
          rw [if_neg (show ¬ e.off + c.length < e.buf.length by omega)]
          omega
      · rw [if_neg hbuf]
        rw [if_neg hbuf] at hfuel
        have hdrained : e.buf.drop e.off = [] := List.drop_eq_nil_of_le (by omega)
        by_cases hstart : e.started = false
        · rw [if_pos hstart]
          have hcont : Continues e { e with buf := e.header, started := true, off := 0 } := ⟨rfl, rfl, rfl, Nat.le_refl _⟩
          refine Yields.refill (nextLoop_yields cap fuel _ dst hmode ?_) ?_ hcont
          · simp only [turns, if_true]
            rw [hstart] at hfuel
            simp only [Bool.false_eq_true, if_false] at hfuel
            split <;> omega
          · rw [rest, hdrained, hstart]
            rfl
        · rw [if_neg hstart]
          replace hstart : e.started = true := by simpa using hstart
          rw [hstart] at hfuel
          simp only [if_true] at hfuel
          by_cases hmore : e.elem < e.total
          · rw [if_pos hmore]
            have hrest : e.rest f = appendBulk [] (e.element f e.elem) ++ ((bodies f e).drop (e.elem + 1)).flatMap (appendBulk []) := by
              rw [rest, hdrained, hstart, bodies_drop hmode hmore, List.flatMap_cons]
              rfl
            dsimp only
            split
            next hfit =>
              rw [appendBulk_eq]
              have hcont : Continues e { e with elem := e.elem + 1 } := ⟨rfl, rfl, rfl, Nat.le_succ _⟩
              refine Yields.emit (nextLoop_yields cap fuel _ _ hmode ?_) ?_ (by rw [appendBulk_length]; exact hfit) hcont
              · simp only [turns, hstart, if_true, if_neg hbuf]
                omega
              · rw [hrest, rest, hdrained, hstart]
                rfl
            next =>
              have hcont : Continues e { e with elem := e.elem + 1, buf := appendBulk [] (e.element f e.elem), off := 0 } :=
                ⟨rfl, rfl, rfl, Nat.le_succ _⟩
              refine Yields.refill (nextLoop_yields cap fuel _ dst hmode ?_) ?_ hcont
              · simp only [turns, hstart, if_true]
                split <;> omega
              · rw [hrest, rest, hstart]
                rfl
          · rw [if_neg hmore]
            have hrest : e.rest f = [] := by
              rw [rest, hdrained, hstart, bodies_drop_total hmode (by omega)]
              rfl
            exact ⟨e, by simp [hrest], by simp [hrest], rfl, rfl, rfl, Nat.le_refl _⟩
    · rw [if_neg hroom]
      have hzero : cap - dst.length = 0 := by omega
      exact ⟨e, by simp [hzero], by simp [hzero], rfl, rfl, rfl, Nat.le_refl _⟩

theorem next_spec (hmode : e.total = enumElems e.ords.length e.mode) (cap : Nat) :
    ∃ e', e.next f cap = some (e', (e.rest f).take cap) ∧ e'.rest f = (e.rest f).drop cap ∧ Continues e e' :=
  nextLoop_yields cap _ e [] hmode (by unfold turns; split <;> split <;> omega)

theorem rest_congr {g : FTable} (hmode : e.total = enumElems e.ords.length e.mode)
    (h : ∀ i, e.elem ≤ i → i < e.total → e.element g i = e.element f i) : e.rest g = e.rest f := by
  unfold rest
  refine congrArg₂ (· ++ ·) rfl (congrArg₂ (· ++ ·) rfl (congrArg (List.flatMap (appendBulk [])) (List.ext_getElem? fun i => ?_)))
  rw [List.getElem?_drop, List.getElem?_drop, bodies_get hmode, bodies_get hmode]
  split
  next hi => rw [h _ (Nat.le_add_right _ _) hi]
  next => rfl

end EnumStream

open Slab Resp EnumStream

section

variable {hash : Bytes → Nat} {f : FTable} {keep : List Nat} {A : Table.KeyMap Bytes} {mode : EnumMode} {asMap : Bool}

theorem FTable.Inv.rekeep (h : f.Inv hash keep A) {keep' : List Nat} (streams : Int) (hsub : ∀ o ∈ keep', o ∈ f.vec ++ keep)
    (hpinned : keep' ≠ [] → 0 < streams) : Inv hash { f with streams := streams } keep' A := by
  have hall : ∀ o ∈ f.vec ++ keep', o ∈ f.vec ++ keep := fun o ho =>
    (List.mem_append.mp ho).elim (List.mem_append_left _) (hsub o)
  have hlt : ∀ o ∈ f.vec ++ keep, o < f.ents.length := fun o ho =>
    (List.mem_append.mp ho).elim (fun ho => h.laid.lt o (List.mem_append_left _ ho)) (h.laid.keepLt o)
  exact ⟨⟨h.laid.nodup, h.laid.lt, h.laid.total, h.laid.slot, h.laid.expLen, fun o ho => hlt o (hsub o ho), hpinned,
    fun o ho => h.laid.field o (hall o ho), fun o ho => h.laid.value o (hall o ho),
    fun o ho o' ho' => h.laid.apartField o ho o' (hall o' ho'), fun o ho o' ho' => h.laid.apartValue o ho o' (hall o' ho'),
    h.laid.bytes, h.laid.dead, h.laid.width⟩, h.table, h.index⟩

theorem FTable.enumerateReply_eq (hcard : f.card = f.vec.length) (hmap : asMap = true → mode = .pairs) :
    f.enumerateReply mode asMap = (f.pinEnumStream mode asMap).2.rest f := by
  have hfold : ∀ (l : List Nat) (out : Bytes), (l.map fun ord => (f.fieldByOrd ord, f.valueByOrd ord)).foldl (fun out kv =>
      let out := if mode ≠ .vals then appendBulk out kv.1 else out
      if mode ≠ .keys then appendBulk out kv.2 else out) out = out ++ (l.flatMap (halves f mode)).flatMap (appendBulk []) := by
    intro l
    induction l with
    | nil => exact fun out => (List.append_nil out).symm
    | cons o l ih =>
      intro out
      rw [List.map_cons, List.foldl_cons, ih, List.flatMap_cons, List.flatMap_append, ← List.append_assoc]
      refine congrArg (· ++ _) ?_
      cases mode
      · simp only [halves, ne_eq, reduceCtorEq, not_false_eq_true, if_true, List.flatMap_cons, List.flatMap_nil, List.append_nil]
        rw [appendBulk_eq (appendBulk out _), appendBulk_eq out, List.append_assoc]
      all_goals
        simp only [halves, ne_eq, reduceCtorEq, not_false_eq_true, not_true_eq_false, if_true, if_false, List.flatMap_cons,
          List.flatMap_nil, List.append_nil]
        exact appendBulk_eq out _
  have hhalf : (if asMap then appendMapHeader [] f.card else appendArrayHeader [] (enumElems f.card mode)) =
      (f.pinEnumStream mode asMap).2.header := by
    rw [header, hcard]
    cases asMap with
    | false => rfl
    | true =>
      rw [hmap rfl]
      exact congrArg (appendMapHeader []) (Nat.mul_div_cancel_left _ Nat.two_pos).symm
  unfold enumerateReply
  dsimp only
  rw [hhalf, each, hfold]
  rfl

theorem FTable.enumTotal_eq (hlen : ∀ o ∈ f.vec, (f.fieldByOrd o).length = (f.ent o).flen ∧ (f.valueByOrd o).length = (f.ent o).vlen)
    (hmap : asMap = true → mode = .pairs) :
    f.enumTotal mode asMap = ((f.pinEnumStream mode asMap).2.rest f).length := by
  have hfold : ∀ (l : List Nat), (∀ o ∈ l, o ∈ f.vec) → ∀ tot, l.foldl (fun tot ord =>
      let tot := if mode ≠ .vals then tot + bulkFrameLen (f.ent ord).flen else tot
      if mode ≠ .keys then tot + bulkFrameLen (f.ent ord).vlen else tot) tot =
        tot + ((l.flatMap (halves f mode)).flatMap (appendBulk [])).length := by
    intro l
    induction l with
    | nil => exact fun _ _ => rfl
    | cons o l ih =>
      intro hl tot
      obtain ⟨hflen, hvlen⟩ := hlen o (hl o List.mem_cons_self)
      rw [List.foldl_cons, ih fun o' ho' => hl o' (List.mem_cons_of_mem _ ho'), List.flatMap_cons, List.flatMap_append,
        List.length_append, ← hflen, ← hvlen, ← Nat.add_assoc]
      refine congrArg (· + _) ?_
      cases mode <;> simp [halves, appendBulk_length, Nat.add_assoc]
  have hhead : (if asMap then arrayHeaderLen f.vec.length else arrayHeaderLen (enumElems f.vec.length mode)) =
      (f.pinEnumStream mode asMap).2.header.length := by
    rw [header]
    cases asMap with
    | false => exact (appendArrayHeader_length _).symm
    | true =>
      rw [hmap rfl]
      refine Eq.trans ?_ (appendMapHeader_length _).symm
      exact congrArg arrayHeaderLen (Nat.mul_div_cancel_left _ Nat.two_pos).symm
  unfold enumTotal
  dsimp only
  rw [hhead, hfold f.vec fun _ ho => ho]
  exact (List.length_append).symm

end

/-- An open enumeration: the reply and the width `enumTotal` gave when it was pinned, and what has gone out since. -/
structure Watch where
  stream : EnumStream
  reply : Bytes
  width : Nat
  out : Bytes
deriving DecidableEq

/-- What has gone out begins the reply of the pin, whose length was announced, and `Next` goes on with it in chunks of any
size, to its end. -/
def Watch.Exact (f : FTable) (w : Watch) : Prop :=
  w.width = w.reply.length ∧ ∃ rest, w.reply = w.out ++ rest ∧
    ∀ cap, ∃ e, w.stream.next f cap = some (e, rest.take cap)

structure EnumState where
  table : FTable
  streams : List Watch
deriving DecidableEq

namespace EnumState

/-- What the shard interleaves. The header is a map for all pairs under RESP3 only. -/
inductive Act
  | op (op : FTable.Op)
  | pin (mode : EnumMode) (resp3 : Bool)
  | next (i cap : Nat)
  | release (i : Nat)

section

variable (hash : Bytes → Nat)

def act (s : EnumState) : Act → Option EnumState
  | .op op => (op.run hash s.table).map fun f => { s with table := f }
  | .pin mode resp3 =>
    let asMap := decide (mode = .pairs) && resp3
    let r := s.table.pinEnumStream mode asMap
    some ⟨r.1, s.streams ++ [⟨r.2, s.table.enumerateReply mode asMap, s.table.enumTotal mode asMap, []⟩]⟩
  | .next i cap =>
    s.streams[i]?.bind fun w =>
      (w.stream.next s.table cap).map fun r => { s with streams := s.streams.set i { w with stream := r.1, out := w.out ++ r.2 } }
  | .release i => s.streams[i]?.map fun _ => ⟨s.table.unpinStream, s.streams.eraseIdx i⟩

inductive Run (C : EnumState → Act → Prop) : EnumState → Prop
  | new (hint : Nat) {f : FTable} (hnew : FTable.newFtable hint = some f) : Run C ⟨f, []⟩
  | step (a : Act) {s s' : EnumState} (hrun : Run C s) (ha : C s a) (hs : s.act hash a = some s') : Run C s'

/-- The stream has still to frame the value of record `o`. -/
def Awaits (e : EnumStream) (o : Nat) : Prop := ∃ i, e.elem ≤ i ∧ i < e.total ∧ e.locate i = (o, true)

/-- A table operation must fit its widths and must not change a value that an open enumeration has still to frame. -/
def Quiet (s : EnumState) : Act → Prop
  | .op op => op.Fits s.table ∧ s.table.ents.length < 2 ^ 32 ∧
      ∀ k v o, op.target = some (k, v) → s.table.find hash k = some (some o) → ∀ w ∈ s.streams, Awaits w.stream o →
        v = s.table.valueByOrd o
  | _ => True

end

variable {hash : Bytes → Nat} {s : EnumState}

structure Owes (f : FTable) (w : Watch) : Prop where
  formed : w.stream.total = enumElems w.stream.ords.length w.stream.mode
  width : w.width = w.reply.length
  reply : w.reply = w.out ++ w.stream.rest f

theorem Owes.exact {f : FTable} {w : Watch} (h : Owes f w) : w.Exact f :=
  ⟨h.width, _, h.reply, fun cap => (next_spec h.formed cap).imp fun _ he => he.1⟩

structure Inv (hash : Bytes → Nat) (s : EnumState) : Prop where
  pins : s.table.streams = s.streams.length
  table : ∃ A, s.table.Inv hash (s.streams.flatMap (·.stream.ords)) A
  owes : ∀ w ∈ s.streams, Owes s.table w

theorem locate_mem {e : EnumStream} (hformed : e.total = enumElems e.ords.length e.mode) {i : Nat} (hi : i < e.total) :
    (e.locate i).1 ∈ e.ords := by
  have hget : ∀ j, j < e.ords.length → e.ords.getD j 0 ∈ e.ords := fun j hj => by
    rw [List.getD_eq_getElem?_getD, List.getElem?_eq_getElem hj]
    exact List.getElem_mem hj
  rw [hformed] at hi
  unfold locate
  cases hmode : e.mode with
  | pairs =>
    rw [hmode] at hi
    exact hget _ (by change i < 2 * _ at hi; omega)
  | keys =>
    rw [hmode] at hi
    exact hget _ hi
  | vals =>
    rw [hmode] at hi
    exact hget _ hi

theorem Inv.op (h : s.Inv hash) {op : FTable.Op} (hq : s.Quiet hash (.op op)) :
    ∃ s', s.act hash (.op op) = some s' ∧ s'.Inv hash := by
  obtain ⟨hfits, hents, hquiet⟩ := hq
  obtain ⟨A, hA⟩ := h.table
  obtain ⟨g, hg, hstep⟩ := hA.step op hents hfits
  obtain ⟨B, hB, -⟩ := hstep.inv
  refine ⟨⟨g, s.streams⟩, by rw [act, hg]; rfl, hstep.streams.trans h.pins, ⟨B, hB⟩, fun w hw => ?_⟩
  have hw' := h.owes w hw
  have hrest : w.stream.rest g = w.stream.rest s.table := by
    refine rest_congr hw'.formed fun i hlo hi => ?_
    have hmem : (w.stream.locate i).1 ∈ s.streams.flatMap (·.stream.ords) :=
      List.mem_flatMap.mpr ⟨w, hw, locate_mem hw'.formed hi⟩
    obtain ⟨hfield, hvalue⟩ := hstep.recs _ hmem
    unfold element
    split
    next hval =>
      rcases hvalue with hsame | hhit
      · exact hsame
      · obtain ⟨t, htarget, hmap⟩ := Option.bind_eq_some_iff.mp hhit
        obtain ⟨o, ho, heq⟩ := Option.map_eq_some_iff.mp hmap
        obtain ⟨rfl, hv⟩ := Prod.mk.inj heq
        exact hv.symm.trans (hquiet t.1 t.2 _ htarget (by rw [hA.find_eq, ho]) w hw ⟨i, hlo, hi, Prod.ext rfl hval⟩)
    next => exact hfield
  exact ⟨hw'.formed, hw'.width, by rw [hrest]; exact hw'.reply⟩

theorem Inv.pin (h : s.Inv hash) (mode : EnumMode) (resp3 : Bool) :
    ∃ s', s.act hash (.pin mode resp3) = some s' ∧ s'.Inv hash := by
  obtain ⟨A, hA⟩ := h.table
  have hmap : (decide (mode = .pairs) && resp3) = true → mode = .pairs := by
    intro hb
    exact of_decide_eq_true (Bool.and_eq_true_iff.mp hb).1
  have hlen : ∀ o ∈ s.table.vec, (s.table.fieldByOrd o).length = (s.table.ent o).flen ∧
      (s.table.valueByOrd o).length = (s.table.ent o).vlen := fun o ho =>
    ⟨slice_length (hA.laid.field o (List.mem_append_left _ ho)), slice_length (hA.laid.value o (List.mem_append_left _ ho))⟩
  refine ⟨_, rfl, ?_, ⟨A, ?_⟩, fun w hw => ?_⟩
  · have hpins := h.pins
    show s.table.streams + 1 = _
    rw [List.length_append, List.length_singleton]
    omega
  · rw [List.flatMap_append]
    have hpins := h.pins
    refine hA.rekeep _ (fun o ho => ?_) fun _ => by omega
    rcases List.mem_append.mp ho with hold | hnew
    · exact List.mem_append_right _ hold
    · refine List.mem_append_left _ ?_
      simpa [FTable.pinEnumStream] using hnew
  · rcases List.mem_append.mp hw with hold | hnew
    · have hw' := h.owes w hold
      exact ⟨hw'.formed, hw'.width, hw'.reply⟩
    · obtain rfl := List.mem_singleton.mp hnew
      have hreply := FTable.enumerateReply_eq hA.card_eq hmap
      refine ⟨rfl, ?_, hreply⟩
      rw [FTable.enumTotal_eq hlen hmap, hreply]

theorem mem_set_cases {α : Type} {l : List α} {i : Nat} {x y : α} (h : y ∈ l.set i x) : y = x ∨ y ∈ l := by
  rcases List.mem_or_eq_of_mem_set h with h | h
  · exact .inr h
  · exact .inl h

theorem Inv.next (h : s.Inv hash) {i : Nat} {w : Watch} (hw : s.streams[i]? = some w) (cap : Nat) :
    ∃ s', s.act hash (.next i cap) = some s' ∧ s'.Inv hash := by
  have hmem := List.mem_of_getElem? hw
  have howes := h.owes w hmem
  obtain ⟨e, he, hrest, hcont⟩ := next_spec (f := s.table) howes.formed cap
  refine ⟨_, by rw [act, hw, Option.bind_some, he]; rfl, ?_, ?_, fun w' hw' => ?_⟩
  · rw [List.length_set]
    exact h.pins
  · obtain ⟨A, hA⟩ := h.table
    have hpins := h.pins
    refine ⟨A, hA.rekeep s.table.streams (fun o ho => List.mem_append_right _ ?_) fun hne => ?_⟩
    · obtain ⟨w', hw', ho⟩ := List.mem_flatMap.mp ho
      rcases mem_set_cases hw' with rfl | hold
      · exact List.mem_flatMap.mpr ⟨w, hmem, hcont.ords ▸ ho⟩
      · exact List.mem_flatMap.mpr ⟨w', hold, ho⟩
    · have := List.length_pos_of_mem hmem
      omega
  · rcases mem_set_cases hw' with rfl | hold
    · refine ⟨?_, howes.width, ?_⟩
      · show e.total = _
        rw [hcont.total, hcont.ords, hcont.mode]
        exact howes.formed
      · show w.reply = _
        rw [hrest, List.append_assoc, List.take_append_drop]
        exact howes.reply
    · exact h.owes w' hold

theorem Inv.release (h : s.Inv hash) {i : Nat} {w : Watch} (hw : s.streams[i]? = some w) :
    ∃ s', s.act hash (.release i) = some s' ∧ s'.Inv hash := by
  have hi := (List.getElem?_eq_some_iff.mp hw).1
  have hpins := h.pins
  have hlen : (s.streams.eraseIdx i).length = s.streams.length - 1 := List.length_eraseIdx_of_lt hi
  refine ⟨_, by rw [act, hw]; rfl, ?_, ?_, fun w' hw' => ?_⟩
  · show s.table.streams - 1 = ((s.streams.eraseIdx i).length : Int)
    omega
  · obtain ⟨A, hA⟩ := h.table
    refine ⟨A, hA.rekeep _ (fun o ho => List.mem_append_right _ ?_) fun hne => ?_⟩
    · obtain ⟨w', hw', ho⟩ := List.mem_flatMap.mp ho
      exact List.mem_flatMap.mpr ⟨w', List.mem_of_mem_eraseIdx hw', ho⟩
    · obtain ⟨o, ho⟩ := List.exists_mem_of_ne_nil _ hne
      obtain ⟨w', hw', -⟩ := List.mem_flatMap.mp ho
      have hw' : w' ∈ s.streams.eraseIdx i := hw'
      have := List.length_pos_of_mem hw'
      omega
  · have hw'' := h.owes w' (List.mem_of_mem_eraseIdx hw')
    exact ⟨hw''.formed, hw''.width, hw''.reply⟩

theorem Inv.act (h : s.Inv hash) {a : Act} {s' : EnumState} (hq : s.Quiet hash a) (hs : s.act hash a = some s') : s'.Inv hash := by
  have hdone : (∃ s'', s.act hash a = some s'' ∧ s''.Inv hash) → s'.Inv hash := by
    rintro ⟨s'', heq, hinv⟩
    obtain rfl := Option.some.inj (heq.symm.trans hs)
    exact hinv
  cases a with
  | op op => exact hdone (h.op hq)
  | pin mode resp3 => exact hdone (h.pin mode resp3)
  | next i cap =>
    obtain ⟨w, hw, -⟩ := Option.bind_eq_some_iff.mp hs
    exact hdone (h.next hw cap)
  | release i =>
    obtain ⟨w, hw, -⟩ := Option.map_eq_some_iff.mp hs
    exact hdone (h.release hw)

theorem Run.inv (h : Run hash (Quiet hash) s) : s.Inv hash := by
  induction h with
  | new hint hnew =>
    have hsound := FTable.newFtable_sound hash hnew
    obtain ⟨A, hA, -⟩ := hsound.inv
    exact ⟨hsound.streams, ⟨A, hA⟩, by simp⟩
  | step a _ hq hs ih => exact ih.act hq hs

/-- However `Next` calls and table operations interleave, each open enumeration sends the reply of its pin. -/
theorem run_streams_exact (hash : Bytes → Nat) (s : EnumState) (h : Run hash (Quiet hash) s) : ∀ w ∈ s.streams, w.Exact s.table :=
  fun w hw => (h.inv.owes w hw).exact

theorem Run.acts {C : EnumState → Act → Prop} (ok : EnumState → Act → Bool) (hC : ∀ s a, ok s a = true → C s a) :
    ∀ (as : List Act) {s s' : EnumState}, Run hash C s → as.foldlM (fun s a => if ok s a then s.act hash a else none) s = some s' →
      Run hash C s'
  | [], s, s', h, hs => by
    obtain rfl := Option.some.inj hs
    exact h
  | a :: as, s, s', h, hs => by
    obtain ⟨s₁, h₁, hs⟩ := Option.bind_eq_some_iff.mp hs
    obtain ⟨hok, h₁⟩ := Option.ite_none_right_eq_some.mp h₁
    exact Run.acts ok hC as (h.step a (hC s a hok) h₁) hs

/-- An operation that fits and overwrites no field that is there. -/
def addsOrDrops (hash : Bytes → Nat) (s : EnumState) : Act → Bool
  | .op op => decide (op.Fits s.table ∧ s.table.ents.length < 2 ^ 32) && op.target.all fun x => s.table.find hash x.1 == some none
  | _ => true

theorem quiet_of_addsOrDrops (s : EnumState) (a : Act) (h : addsOrDrops hash s a = true) : Quiet hash s a := by
  cases a with
  | op op =>
    obtain ⟨hfits, htarget⟩ := Bool.and_eq_true_iff.mp h
    obtain ⟨hfits, hents⟩ := of_decide_eq_true hfits
    refine ⟨hfits, hents, fun k v o hop hfind => ?_⟩
    rw [hop, Option.all_some, beq_iff_eq, hfind] at htarget
    cases htarget
  | pin | next | release => trivial

/-- Between two chunks of an open enumeration, one of its fields is deleted and another one set. -/
theorem interleaved_enumeration_exact : ∃ s, Run (fun _ => 0) (Quiet fun _ => 0) s ∧
    s.streams.map (fun w => (w.out.length, w.width)) = [(9, 32)] ∧ ∀ w ∈ s.streams, w.Exact s.table := by
  obtain ⟨s, hs, hend⟩ := (Option.any_eq_true (fun s : EnumState => s.streams.map (fun w => (w.out.length, w.width)) == [(9, 32)])
    ([Act.op (.set [1] [2]), .op (.set [3] [4]), .pin .pairs true, .next 0 5, .op (.del [1]), .op (.set [5] [6]), .next 0 4].foldlM
      (fun s a => if addsOrDrops (fun _ => 0) s a then s.act (fun _ => 0) a else none)
      ⟨⟨Table.init 8, [], [], [], [], 0, 0, none⟩, []⟩)).mp (by decide +kernel)
  have hrun : Run (fun _ => 0) (Quiet fun _ => 0) s := Run.acts _ quiet_of_addsOrDrops _ (.new 1 rfl) hs
  exact ⟨s, hrun, beq_iff_eq.mp hend, run_streams_exact _ _ hrun⟩

/-- The pair `[1]`, `[2, 3]` is pinned and then overwritten in place by a shorter value: the new value goes out, and the
stream is exhausted before the width announced. -/
theorem overwrite_reaches_stream : ∃ s, Run (fun _ => 0) (fun _ _ => True) s ∧ ∃ w ∈ s.streams,
    w.reply = appendBulk (appendBulk (appendArrayHeader [] 2) [1]) [2, 3] ∧
    w.out = appendBulk (appendBulk (appendArrayHeader [] 2) [1]) [9] ∧
    w.stream.next s.table 100 = some (w.stream, []) ∧ w.out.length < w.width ∧ ¬ w.Exact s.table := by
  obtain ⟨s, hs, hw⟩ := (Option.any_eq_true (fun s : EnumState => decide (∃ w ∈ s.streams,
      w.reply = appendBulk (appendBulk (appendArrayHeader [] 2) [1]) [2, 3] ∧
      w.out = appendBulk (appendBulk (appendArrayHeader [] 2) [1]) [9] ∧
      w.stream.next s.table 100 = some (w.stream, []) ∧ w.out.length < w.width))
    ([Act.op (.set [1] [2, 3]), .pin .pairs false, .op (.set [1] [9]), .next 0 100].foldlM
      (fun s a => if (true : Bool) then s.act (fun _ => 0) a else none) ⟨⟨Table.init 8, [], [], [], [], 0, 0, none⟩, []⟩)).mp (by decide +kernel)
  obtain ⟨w, hmem, hreply, hout, hnext, hlt⟩ := of_decide_eq_true hw
  refine ⟨s, Run.acts (fun _ _ => true) (fun _ _ _ => trivial) _ (.new 1 rfl) hs, w, hmem, hreply, hout, hnext, hlt, ?_⟩
  rintro ⟨-, rest, hrest, -⟩
  rw [hreply, hout] at hrest
  have hfirst := congrArg (List.take 13) hrest
  rw [List.take_append_of_le_length (by decide +kernel)] at hfirst
  exact absurd hfirst (by decide +kernel)

end EnumState

end Aki
