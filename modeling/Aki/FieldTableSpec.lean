import Aki.FieldTable

namespace Aki

open Slab

/-- The last element takes the place of the one at `v`. -/
theorem swapRemove_perm {l : List Nat} {v x d : Nat} (hv : l[v]? = some x) :
    l.Perm (x :: (l.set v (l.getD (l.length - 1) d)).take (l.length - 1)) := by
  obtain ⟨hlt, rfl⟩ := List.getElem?_eq_some_iff.mp hv
  have hne : l ≠ [] := List.ne_nil_of_length_pos (by omega)
  obtain ⟨init, y, rfl⟩ := (List.eq_nil_or_concat l).resolve_left hne
  simp only [List.concat_eq_append] at hlt ⊢
  have hlast : (init ++ [y]).getD ((init ++ [y]).length - 1) d = y := by
    simp [List.getD_eq_getElem?_getD]
  rw [hlast]
  rw [List.length_append, List.length_singleton] at hlt
  rcases Nat.lt_or_eq_of_le (Nat.le_of_lt_succ hlt) with hv | rfl
  · have hinit : init = init.take v ++ init[v] :: init.drop (v + 1) := by
      rw [List.cons_getElem_drop_succ, List.take_append_drop]
    rw [List.getElem_append_left hv, List.set_append_left _ _ hv, List.length_append, List.length_singleton,
      Nat.add_sub_cancel, List.take_left' (by simp), List.set_eq_take_append_cons_drop, if_pos hv]
    conv_lhs => rw [hinit]
    refine (List.perm_append_singleton _ _).trans ?_
    rw [← List.cons_append]
    refine List.perm_middle.trans (List.Perm.cons _ ?_)
    rw [List.cons_append]
    exact List.perm_middle.symm
  · simp only [List.getElem_concat_length, List.length_append, List.length_singleton, Nat.add_sub_cancel]
    rw [List.set_append_right _ _ (Nat.le_refl _), List.take_left' rfl]
    exact List.perm_append_singleton _ _

theorem swapRemove_get {l : List Nat} {v d i o : Nat}
    (h : ((l.set v (l.getD (l.length - 1) d)).take (l.length - 1))[i]? = some o) :
    i < l.length - 1 ∧ (i = v ∧ o = l.getD (l.length - 1) d ∨ i ≠ v ∧ l[i]? = some o) := by
  have hi : i < l.length - 1 := by
    have := (List.getElem?_eq_some_iff.mp h).1
    simp at this
    omega
  rw [List.getElem?_take_of_lt hi] at h
  refine ⟨hi, ?_⟩
  by_cases hiv : i = v
  · subst hiv
    rw [List.getElem?_set_self (by omega)] at h
    exact .inl ⟨rfl, (Option.some.inj h).symm⟩
  · rw [List.getElem?_set_ne (Ne.symm hiv)] at h
    exact .inr ⟨hiv, h⟩

namespace FTable

variable {f : FTable} {keep : List Nat} {o o' ord : Nat}

def size (f : FTable) (o : Nat) : Nat := (f.ent o).flen + (f.ent o).vlen

/-- Where the records are: the live ones and those of `keep`, which an open enumeration still reads, can be read back, and
no live value overlaps another region, so that it may be overwritten in place. -/
structure Laid (f : FTable) (keep : List Nat) : Prop where
  nodup : (f.vec ++ f.free).Nodup
  lt : ∀ o ∈ f.vec ++ f.free, o < f.ents.length
  total : f.vec.length + f.free.length = f.ents.length
  slot : ∀ (i : Nat) o, f.vec[i]? = some o → (f.ent o).vslot = i
  expLen : ∀ x, f.exp = some x → x.length = f.ents.length
  keepLt : ∀ o ∈ keep, o < f.ents.length
  pinned : keep ≠ [] → 0 < f.streams
  field : ∀ o ∈ f.vec ++ keep, (f.ent o).foff + (f.ent o).flen ≤ f.slab.length
  value : ∀ o ∈ f.vec ++ keep, (f.ent o).voff + (f.ent o).vlen ≤ f.slab.length
  apartField : ∀ o ∈ f.vec, ∀ o' ∈ f.vec ++ keep, Apart (f.ent o).voff (f.ent o).vlen (f.ent o').foff (f.ent o').flen
  apartValue : ∀ o ∈ f.vec, ∀ o' ∈ f.vec ++ keep, o ≠ o' →
    Apart (f.ent o).voff (f.ent o).vlen (f.ent o').voff (f.ent o').vlen
  bytes : (f.slab.length : Int) = f.dead + ((f.vec.map f.size).sum : Nat)
  dead : 0 ≤ f.dead
  width : f.slab.length < 2 ^ 32

theorem ent_set_self {l : List FEntry} {e : FEntry} (h : o < l.length) : (l.set o e).getD o default = e := by
  rw [List.getD_eq_getElem?_getD, List.getElem?_set_self h]
  rfl

theorem ent_set_ne {l : List FEntry} {e : FEntry} (h : o ≠ o') : (l.set o e).getD o' default = l.getD o' default := by
  rw [List.getD_eq_getElem?_getD, List.getElem?_set_ne h, List.getD_eq_getElem?_getD]

theorem Laid.size_split (h : f.Laid keep) (ho : o ∈ f.vec) : ∃ rest, f.vec.Perm (o :: rest) ∧ o ∉ rest := by
  obtain ⟨a, b, hab⟩ := List.append_of_mem ho
  have hperm : f.vec.Perm (o :: (a ++ b)) := hab ▸ List.perm_middle
  have hnd := hperm.nodup_iff.mp (List.nodup_append.mp h.nodup).1
  exact ⟨a ++ b, hperm, (List.nodup_cons.mp hnd).1⟩

def SameRecs (f g : FTable) (os : List Nat) : Prop :=
  ∀ o ∈ os, g.fieldByOrd o = f.fieldByOrd o ∧ g.valueByOrd o = f.valueByOrd o

/-- The draw vector, the free list, the table, the expiries and the pins are as before. -/
structure SameIndex (f g : FTable) : Prop where
  tbl : g.tbl = f.tbl
  vec : g.vec = f.vec
  free : g.free = f.free
  exp : g.exp = f.exp
  streams : g.streams = f.streams
  ents : g.ents.length = f.ents.length

theorem SameIndex.refl (f : FTable) : SameIndex f f := ⟨rfl, rfl, rfl, rfl, rfl, rfl⟩

theorem SameIndex.trans {g k : FTable} (h : SameIndex f g) (h' : SameIndex g k) : SameIndex f k :=
  ⟨h'.tbl.trans h.tbl, h'.vec.trans h.vec, h'.free.trans h.free, h'.exp.trans h.exp, h'.streams.trans h.streams,
    h'.ents.trans h.ents⟩

/-- The compaction after the ordinals of `done`: theirs read from the packed bytes, the others' records are untouched. -/
structure Packed (f : FTable) (acc : Bytes × List FEntry) (done : List Nat) : Prop where
  len : acc.2.length = f.ents.length
  rest : ∀ o, o ∉ done → acc.2.getD o default = f.ent o
  same : ∀ o, (acc.2.getD o default).flen = (f.ent o).flen ∧ (acc.2.getD o default).vlen = (f.ent o).vlen ∧
    (acc.2.getD o default).vslot = (f.ent o).vslot
  bytes : acc.1.length = (done.map f.size).sum
  joined : ∀ o ∈ done, (acc.2.getD o default).voff = (acc.2.getD o default).foff + (f.ent o).flen
  fit : ∀ o ∈ done, (acc.2.getD o default).foff + f.size o ≤ acc.1.length
  field : ∀ o ∈ done, slice acc.1 (acc.2.getD o default).foff (f.ent o).flen = f.fieldByOrd o
  value : ∀ o ∈ done, slice acc.1 (acc.2.getD o default).voff (f.ent o).vlen = f.valueByOrd o
  apart : ∀ o ∈ done, ∀ o' ∈ done, o ≠ o' →
    Apart (acc.2.getD o default).foff (f.size o) (acc.2.getD o' default).foff (f.size o')

theorem Packed.step {acc : Bytes × List FEntry} {done : List Nat} (h : Packed f acc done) (hlt : ord < f.ents.length)
    (hnew : ord ∉ done) (hfield : (f.ent ord).foff + (f.ent ord).flen ≤ f.slab.length)
    (hvalue : (f.ent ord).voff + (f.ent ord).vlen ≤ f.slab.length) (hroom : acc.1.length + f.size ord < 2 ^ 32) :
    Packed f (packRecord f.slab acc ord) (done ++ [ord]) := by
  have he : acc.2.getD ord default = f.ent ord := h.rest ord hnew
  have hflen : (f.fieldByOrd ord).length = (f.ent ord).flen := slice_length hfield
  have hvlen : (f.valueByOrd ord).length = (f.ent ord).vlen := slice_length hvalue
  have hsize : f.size ord = (f.ent ord).flen + (f.ent ord).vlen := rfl
  let e : FEntry := { f.ent ord with foff := acc.1.length, voff := acc.1.length + (f.ent ord).flen }
  have hpack : packRecord f.slab acc ord = (acc.1 ++ f.fieldByOrd ord ++ f.valueByOrd ord, acc.2.set ord e) := by
    unfold packRecord
    dsimp only
    rw [he]
    have hmid : (acc.1 ++ slice f.slab (f.ent ord).foff (f.ent ord).flen).length = acc.1.length + (f.ent ord).flen := by
      rw [List.length_append]
      exact congrArg _ hflen
    rw [hmid, Nat.mod_eq_of_lt (by omega), Nat.mod_eq_of_lt (by omega)]
    rfl
  have hlen : (acc.1 ++ f.fieldByOrd ord ++ f.valueByOrd ord).length = acc.1.length + f.size ord := by
    rw [List.length_append, List.length_append, hflen, hvlen, hsize, Nat.add_assoc]
  have hself : (acc.2.set ord e).getD ord default = e := ent_set_self (by rw [h.len]; exact hlt)
  have hother : ∀ o, o ≠ ord → (acc.2.set ord e).getD o default = acc.2.getD o default := fun o ho =>
    ent_set_ne (Ne.symm ho)
  have hdone : ∀ o ∈ done, o ≠ ord := fun o ho heq => hnew (heq ▸ ho)
  rw [hpack]
  refine ⟨?_, ?_, ?_, ?_, ?_, ?_, ?_, ?_, ?_⟩
  · dsimp only
    rw [List.length_set, h.len]
  · intro o ho
    rw [hother o fun heq => ho (by simp [heq])]
    exact h.rest o fun hmem => ho (List.mem_append_left _ hmem)
  · intro o
    by_cases ho : o = ord
    · subst ho
      rw [hself]
      exact ⟨rfl, rfl, rfl⟩
    · rw [hother o ho]
      exact h.same o
  · rw [hlen, List.map_append, List.sum_append, h.bytes]
    simp
  · intro o ho
    rcases List.mem_append.mp ho with ho | ho
    · rw [hother o (hdone o ho)]
      exact h.joined o ho
    · obtain rfl := List.mem_singleton.mp ho
      rw [hself]
  · intro o ho
    rw [hlen]
    rcases List.mem_append.mp ho with ho | ho
    · rw [hother o (hdone o ho)]
      exact (h.fit o ho).trans (Nat.le_add_right _ _)
    · obtain rfl := List.mem_singleton.mp ho
      rw [hself]
  · intro o ho
    rcases List.mem_append.mp ho with ho | ho
    · have hfit := h.fit o ho
      rw [hother o (hdone o ho), List.append_assoc, slice_append_left (by unfold size at hfit; omega)]
      exact h.field o ho
    · obtain rfl := List.mem_singleton.mp ho
      rw [hself, ← hflen]
      exact slice_append_mid
  · intro o ho
    rcases List.mem_append.mp ho with ho | ho
    · have hfit := h.fit o ho
      have hjoin := h.joined o ho
      rw [hother o (hdone o ho), List.append_assoc, slice_append_left (by unfold size at hfit; omega)]
      exact h.value o ho
    · obtain rfl := List.mem_singleton.mp ho
      rw [hself, ← hvlen]
      show slice _ (acc.1.length + (f.ent o).flen) _ = _
      rw [← hflen, ← List.length_append]
      exact slice_append_right
  · intro o ho o' ho' hne
    rcases List.mem_append.mp ho with hin | hin <;> rcases List.mem_append.mp ho' with hin' | hin'
    · rw [hother o (hdone o hin), hother o' (hdone o' hin')]
      exact h.apart o hin o' hin' hne
    · obtain rfl := List.mem_singleton.mp hin'
      rw [hother o (hdone o hin), hself]
      exact .inl (h.fit o hin)
    · obtain rfl := List.mem_singleton.mp hin
      rw [hother o' (hdone o' hin'), hself]
      exact .inr (h.fit o' hin')
    · exact absurd ((List.mem_singleton.mp hin).trans (List.mem_singleton.mp hin').symm) hne

theorem Packed.run : ∀ {rest : List Nat} {acc : Bytes × List FEntry} {done : List Nat}, Packed f acc done →
    (done ++ rest).Nodup → (∀ o ∈ rest, o < f.ents.length ∧ (f.ent o).foff + (f.ent o).flen ≤ f.slab.length ∧
      (f.ent o).voff + (f.ent o).vlen ≤ f.slab.length) → ((done ++ rest).map f.size).sum < 2 ^ 32 →
    Packed f (rest.foldl (packRecord f.slab) acc) (done ++ rest)
  | [], acc, done, h, _, _, _ => by rwa [List.append_nil]
  | ord :: rest, acc, done, h, hnd, hfit, hroom => by
    have happ : done ++ ord :: rest = (done ++ [ord]) ++ rest := by simp
    have hnew : ord ∉ done := fun hmem => (List.nodup_append.mp hnd).2.2 ord hmem ord List.mem_cons_self rfl
    have hord := hfit ord List.mem_cons_self
    rw [List.foldl_cons, happ]
    refine Packed.run (h.step hord.1 hnew hord.2.1 hord.2.2 ?_) (happ ▸ hnd)
      (fun o ho => hfit o (List.mem_cons_of_mem _ ho)) (happ ▸ hroom)
    rw [happ, List.map_append, List.sum_append, List.map_append, List.sum_append, ← h.bytes] at hroom
    simp only [List.map_cons, List.map_nil, List.sum_cons, List.sum_nil, Nat.add_zero] at hroom
    omega

theorem Laid.sum_le (h : f.Laid keep) : (f.vec.map f.size).sum ≤ f.slab.length := by
  have := h.bytes
  have := h.dead
  omega

theorem Laid.compact (h : f.Laid []) : f.compact.Laid [] ∧ SameIndex f f.compact ∧ SameRecs f f.compact f.vec := by
  have hvec : ∀ o, o ∈ f.vec ++ [] ↔ o ∈ f.vec := fun o => by rw [List.append_nil]
  have hpack : Packed f (f.vec.foldl (packRecord f.slab) ([], f.ents)) ([] ++ f.vec) := by
    refine Packed.run ⟨rfl, fun _ _ => rfl, fun _ => ⟨rfl, rfl, rfl⟩, rfl, by simp, by simp, by simp, by simp, by simp⟩
      (List.nodup_append.mp h.nodup).1 (fun o ho => ⟨h.lt o (List.mem_append_left _ ho), h.field o ((hvec o).mpr ho),
        h.value o ((hvec o).mpr ho)⟩) ?_
    exact Nat.lt_of_le_of_lt h.sum_le h.width
  rw [List.nil_append] at hpack
  generalize hacc : f.vec.foldl (packRecord f.slab) ([], f.ents) = acc at hpack
  have hcompact : f.compact = { f with slab := acc.1, ents := acc.2, dead := 0 } := by
    unfold FTable.compact
    rw [hacc]
  have hent : ∀ o, f.compact.ent o = acc.2.getD o default := fun o => by rw [hcompact]; rfl
  have hslab : f.compact.slab = acc.1 := by rw [hcompact]
  have hsize : ∀ o, f.compact.size o = f.size o := fun o => by
    rw [size, hent, (hpack.same o).1, (hpack.same o).2.1]
    rfl
  have hindex : SameIndex f f.compact := by
    rw [hcompact]
    exact ⟨rfl, rfl, rfl, rfl, rfl, hpack.len⟩
  refine ⟨⟨?_, ?_, ?_, ?_, ?_, by simp, by simp, ?_, ?_, ?_, ?_, ?_, ?_, ?_⟩, hindex, ?_⟩
  · rw [hindex.vec, hindex.free]
    exact h.nodup
  · rw [hindex.vec, hindex.free, hindex.ents]
    exact h.lt
  · rw [hindex.vec, hindex.free, hindex.ents]
    exact h.total
  · intro i o hi
    rw [hindex.vec] at hi
    rw [hent, (hpack.same o).2.2, h.slot i o hi]
  · intro x hx
    rw [hindex.exp] at hx
    rw [hindex.ents]
    exact h.expLen x hx
  · intro o ho
    rw [hindex.vec, hvec] at ho
    have hfit := hpack.fit o ho
    unfold size at hfit
    rw [hent, hslab, (hpack.same o).1]
    omega
  · intro o ho
    rw [hindex.vec, hvec] at ho
    have hfit := hpack.fit o ho
    have hjoin := hpack.joined o ho
    unfold size at hfit
    rw [hent, hslab, (hpack.same o).2.1]
    omega
  · intro o ho o' ho'
    rw [hindex.vec] at ho
    rw [hindex.vec, hvec] at ho'
    have hjoin := hpack.joined o ho
    have hapart := hpack.apart o ho o' ho'
    rw [hent, hent, (hpack.same o).2.1, (hpack.same o').1]
    unfold size at hapart
    unfold Apart at hapart ⊢
    by_cases heq : o = o'
    · subst heq
      omega
    · have := hapart heq
      omega
  · intro o ho o' ho' hne
    rw [hindex.vec] at ho
    rw [hindex.vec, hvec] at ho'
    have hjoin := hpack.joined o ho
    have hjoin' := hpack.joined o' ho'
    have hapart := hpack.apart o ho o' ho' hne
    rw [hent, hent, (hpack.same o).2.1, (hpack.same o').2.1]
    unfold size at hapart
    unfold Apart at hapart ⊢
    omega
  · rw [hindex.vec, hslab, hpack.bytes, List.map_congr_left fun o _ => hsize o, hcompact]
    exact (Int.zero_add _).symm
  · rw [hcompact]
  · rw [hslab, hpack.bytes]
    exact Nat.lt_of_le_of_lt h.sum_le h.width
  · intro o ho
    rw [fieldByOrd, valueByOrd, hslab, hent, (hpack.same o).1, (hpack.same o).2.1]
    exact ⟨hpack.field o ho, hpack.value o ho⟩

theorem Laid.maybeCompact (h : f.Laid keep) : f.maybeCompact.Laid keep ∧ SameIndex f f.maybeCompact ∧
    SameRecs f f.maybeCompact (f.vec ++ keep) := by
  have hid : f.Laid keep ∧ SameIndex f f ∧ SameRecs f f (f.vec ++ keep) := ⟨h, SameIndex.refl f, fun _ _ => ⟨rfl, rfl⟩⟩
  unfold FTable.maybeCompact
  split
  next => exact hid
  next hstreams =>
    split
    next => exact hid
    next =>
      obtain rfl : keep = [] := by
        by_contra hne
        exact hstreams (h.pinned hne)
      rw [List.append_nil]
      exact h.compact

theorem sum_size_set {g : FTable} {rest : List Nat} (hperm : f.vec.Perm (ord :: rest)) (hvec : g.vec = f.vec)
    (hrest : ∀ o ∈ rest, g.size o = f.size o) : (g.vec.map g.size).sum + f.size ord = (f.vec.map f.size).sum + g.size ord := by
  have hf := (hperm.map f.size).sum_eq
  have hg := (hperm.map g.size).sum_eq
  rw [List.map_cons, List.sum_cons] at hf hg
  rw [List.map_congr_left hrest] at hg
  rw [hvec]
  omega

theorem Laid.reseat (h : f.Laid keep) (ho : ord ∈ f.vec) {slab : Bytes} {voff vlen : Nat} {dead : Int}
    (hgrow : f.slab.length ≤ slab.length) (hwidth : slab.length < 2 ^ 32) (hfit : voff + vlen ≤ slab.length)
    (hfields : ∀ o ∈ f.vec ++ keep, Apart voff vlen (f.ent o).foff (f.ent o).flen)
    (hvalues : ∀ o ∈ f.vec ++ keep, ord ≠ o → Apart voff vlen (f.ent o).voff (f.ent o).vlen)
    (hbytes : (slab.length : Int) + f.dead + (f.ent ord).vlen = f.slab.length + dead + vlen) (hdead : 0 ≤ dead) :
    Laid { f with
      dead := dead
      slab := slab
      ents := f.ents.set ord { f.ent ord with voff := voff, vlen := vlen } } keep := by
  have hlt := h.lt ord (List.mem_append_left _ ho)
  obtain ⟨g, hg⟩ : ∃ g : FTable, g = { f with
      dead := dead
      slab := slab
      ents := f.ents.set ord { f.ent ord with voff := voff, vlen := vlen } } := ⟨_, rfl⟩
  rw [← hg]
  have hself : g.ent ord = { f.ent ord with voff := voff, vlen := vlen } := by
    rw [hg]
    exact ent_set_self hlt
  have hother : ∀ o, o ≠ ord → g.ent o = f.ent o := fun o hne => by
    rw [hg]
    exact ent_set_ne (Ne.symm hne)
  have hkeep : ∀ o, (g.ent o).foff = (f.ent o).foff ∧ (g.ent o).flen = (f.ent o).flen ∧ (g.ent o).vslot = (f.ent o).vslot := by
    intro o
    by_cases heq : o = ord
    · subst heq
      rw [hself]
      exact ⟨rfl, rfl, rfl⟩
    · rw [hother o heq]
      exact ⟨rfl, rfl, rfl⟩
  have hents : g.ents.length = f.ents.length := by rw [hg]; exact List.length_set
  have hvec : g.vec = f.vec := by rw [hg]
  have hfree : g.free = f.free := by rw [hg]
  have hslab : g.slab = slab := by rw [hg]
  refine ⟨?_, ?_, ?_, ?_, ?_, ?_, ?_, ?_, ?_, ?_, ?_, ?_, ?_, ?_⟩
  · rw [hvec, hfree]
    exact h.nodup
  · rw [hvec, hfree, hents]
    exact h.lt
  · rw [hvec, hfree, hents]
    exact h.total
  · intro i o hi
    rw [hvec] at hi
    rw [(hkeep o).2.2, h.slot i o hi]
  · rw [hents, hg]
    exact h.expLen
  · rw [hents]
    exact h.keepLt
  · rw [hg]
    exact h.pinned
  · intro o hmem
    rw [hvec] at hmem
    rw [(hkeep o).1, (hkeep o).2.1, hslab]
    exact (h.field o hmem).trans hgrow
  · intro o hmem
    rw [hvec] at hmem
    rw [hslab]
    by_cases heq : o = ord
    · rw [heq, hself]
      exact hfit
    · rw [hother o heq]
      exact (h.value o hmem).trans hgrow
  · intro o hmem o' hmem'
    rw [hvec] at hmem hmem'
    rw [(hkeep o').1, (hkeep o').2.1]
    by_cases heq : o = ord
    · rw [heq, hself]
      exact hfields o' hmem'
    · rw [hother o heq]
      exact h.apartField o hmem o' hmem'
  · intro o hmem o' hmem' hne
    rw [hvec] at hmem hmem'
    by_cases heq : o = ord
    · rw [hother o' fun heq' => hne (heq.trans heq'.symm), heq, hself]
      exact hvalues o' hmem' fun heq' => hne (heq.trans heq')
    · rw [hother o heq]
      by_cases heq' : o' = ord
      · rw [heq', hself]
        exact (hvalues o (List.mem_append_left _ hmem) (Ne.symm heq)).symm
      · rw [hother o' heq']
        exact h.apartValue o hmem o' hmem' hne
  · obtain ⟨rest, hperm, hnotin⟩ := h.size_split ho
    have hsum := sum_size_set hperm hvec fun o hmem => by
      rw [size, hother o fun heq => hnotin (heq ▸ hmem)]
      rfl
    have hsizeG : g.size ord = (f.ent ord).flen + vlen := by rw [size, hself]
    have hsizeF : f.size ord = (f.ent ord).flen + (f.ent ord).vlen := rfl
    have hold := h.bytes
    have hdeadG : g.dead = dead := by rw [hg]
    rw [hslab, hdeadG]
    omega
  · rw [hg]
    exact hdead
  · rw [hslab]
    exact hwidth

/-- What an overwrite of `ord` leaves: the other records as they were. -/
structure Overwritten (f g : FTable) (keep : List Nat) (ord : Nat) (value : Bytes) : Prop where
  laid : g.Laid keep
  index : SameIndex f g
  field : ∀ o ∈ f.vec ++ keep, g.fieldByOrd o = f.fieldByOrd o
  value : g.valueByOrd ord = value
  others : ∀ o ∈ f.vec ++ keep, o ≠ ord → g.valueByOrd o = f.valueByOrd o

theorem Laid.overwritten (h : f.Laid keep) (ho : ord ∈ f.vec) {slab value : Bytes} {voff vlen : Nat} {dead : Int}
    (hlaid : Laid { f with
      dead := dead
      slab := slab
      ents := f.ents.set ord { f.ent ord with voff := voff, vlen := vlen } } keep)
    (hself : slice slab voff vlen = value)
    (hfield : ∀ o ∈ f.vec ++ keep, slice slab (f.ent o).foff (f.ent o).flen = f.fieldByOrd o)
    (hothers : ∀ o ∈ f.vec ++ keep, o ≠ ord → slice slab (f.ent o).voff (f.ent o).vlen = f.valueByOrd o) :
    Overwritten f { f with
      dead := dead
      slab := slab
      ents := f.ents.set ord { f.ent ord with voff := voff, vlen := vlen } } keep ord value := by
  have hlt := h.lt ord (List.mem_append_left _ ho)
  have hent : (f.ents.set ord { f.ent ord with voff := voff, vlen := vlen }).getD ord default =
      { f.ent ord with voff := voff, vlen := vlen } := ent_set_self hlt
  have hne : ∀ o, o ≠ ord → (f.ents.set ord { f.ent ord with voff := voff, vlen := vlen }).getD o default = f.ent o :=
    fun o hne => ent_set_ne (Ne.symm hne)
  refine ⟨hlaid, ⟨rfl, rfl, rfl, rfl, rfl, List.length_set⟩, fun o hmem => ?_, ?_, fun o hmem hord => ?_⟩
  · show slice slab (FEntry.foff (List.getD _ o default)) (FEntry.flen (List.getD _ o default)) = _
    by_cases heq : o = ord
    · subst heq
      rw [hent]
      exact hfield o hmem
    · rw [hne o heq]
      exact hfield o hmem
  · show slice slab (FEntry.voff (List.getD _ ord default)) (FEntry.vlen (List.getD _ ord default)) = _
    rw [hent]
    exact hself
  · show slice slab (FEntry.voff (List.getD _ o default)) (FEntry.vlen (List.getD _ o default)) = _
    rw [hne o hord]
    exact hothers o hmem hord

theorem Overwritten.maybeCompact {g : FTable} {value : Bytes} (h : Overwritten f g keep ord value) (ho : ord ∈ f.vec) :
    Overwritten f g.maybeCompact keep ord value := by
  obtain ⟨hlaid, hindex, hrecs⟩ := h.laid.maybeCompact
  rw [h.index.vec] at hrecs
  refine ⟨hlaid, h.index.trans hindex, fun o hmem => ?_, ?_, fun o hmem hne => ?_⟩
  · rw [(hrecs o hmem).1, h.field o hmem]
  · rw [(hrecs ord (List.mem_append_left _ ho)).2, h.value]
  · rw [(hrecs o hmem).2, h.others o hmem hne]

theorem Laid.overwrite (h : f.Laid keep) (ho : ord ∈ f.vec) {value : Bytes} (hroom : f.slab.length + value.length < 2 ^ 32) :
    Overwritten f (f.overwrite ord value) keep ord value := by
  have hord : ord ∈ f.vec ++ keep := List.mem_append_left _ ho
  have hmod : value.length % 2 ^ 32 = value.length := Nat.mod_eq_of_lt (by omega)
  have hdead := h.dead
  unfold FTable.overwrite
  dsimp only
  rw [hmod, Nat.mod_eq_of_lt h.width]
  split
  next hle =>
    have hfit := h.value ord hord
    rw [List.take_of_length_le (by omega)]
    have hfit' : (f.ent ord).voff + value.length ≤ f.slab.length := by omega
    have hfields : ∀ o ∈ f.vec ++ keep, Apart (f.ent ord).voff value.length (f.ent o).foff (f.ent o).flen := fun o hmem =>
      (h.apartField ord ho o hmem).shrink hle (Nat.le_refl _)
    have hvalues : ∀ o ∈ f.vec ++ keep, ord ≠ o → Apart (f.ent ord).voff value.length (f.ent o).voff (f.ent o).vlen :=
      fun o hmem hne => (h.apartValue ord ho o hmem hne).shrink hle (Nat.le_refl _)
    have hlen := writeAt_length hfit'
    refine h.overwritten ho (h.reseat ho (by rw [hlen]) (by rw [hlen]; exact h.width) (by rw [hlen]; exact hfit') hfields
      hvalues (by rw [hlen]; omega) (by omega)) (slice_writeAt_self hfit') (fun o hmem => ?_) (fun o hmem hne => ?_)
    · exact slice_writeAt_apart hfit' (hfields o hmem)
    · exact slice_writeAt_apart hfit' (hvalues o hmem (Ne.symm hne))
  next hgt =>
    have hlen : (f.slab ++ value).length = f.slab.length + value.length := List.length_append
    refine (h.overwritten ho (h.reseat ho (by omega) (by omega) (by omega) (fun o hmem => .inr (h.field o hmem))
      (fun o hmem _ => .inr (h.value o hmem)) (by rw [hlen]; push_cast; omega) (by omega)) slice_append_right
      (fun o hmem => ?_) (fun o hmem hne => ?_)).maybeCompact ho
    · exact slice_append_left (h.field o hmem)
    · exact slice_append_left (h.value o hmem)

/-- What a new record leaves: its own bytes at the end of the slab and the other records as they were. -/
structure Added (f g : FTable) (keep : List Nat) (ord : Nat) (field value : Bytes) : Prop where
  laid : g.Laid keep
  tbl : g.tbl = f.tbl
  vec : g.vec = f.vec ++ [ord]
  streams : g.streams = f.streams
  fresh : ord ∉ f.vec ++ keep
  field : g.fieldByOrd ord = field
  value : g.valueByOrd ord = value
  expiry : g.expByOrd ord = 0
  recs : SameRecs f g (f.vec ++ keep)
  expiries : ∀ o ∈ f.vec, g.expByOrd o = f.expByOrd o

section

variable {g : FTable} {field value : Bytes}

theorem Laid.added (h : f.Laid keep) (htbl : g.tbl = f.tbl) (hvec : g.vec = f.vec ++ [ord]) (hstreams : g.streams = f.streams)
    (hslab : g.slab = f.slab ++ field ++ value) (hdead : g.dead = f.dead) (hfresh : ord ∉ f.vec ++ keep)
    (hself : g.ent ord = ⟨f.slab.length, f.slab.length + field.length, f.vec.length, field.length, value.length⟩)
    (hothers : ∀ o ∈ f.vec ++ keep, g.ent o = f.ent o) (hnodup : (g.vec ++ g.free).Nodup)
    (hlt : ∀ o ∈ g.vec ++ g.free, o < g.ents.length) (htotal : g.vec.length + g.free.length = g.ents.length)
    (hexpLen : ∀ x, g.exp = some x → x.length = g.ents.length) (hgrow : f.ents.length ≤ g.ents.length)
    (hroom : f.slab.length + field.length + value.length < 2 ^ 32) (hexp : g.expByOrd ord = 0)
    (hexps : ∀ o ∈ f.vec, g.expByOrd o = f.expByOrd o) : Added f g keep ord field value := by
  have hlen : g.slab.length = f.slab.length + field.length + value.length := by
    rw [hslab, List.length_append, List.length_append]
  have hmem : ∀ o ∈ g.vec ++ keep, o = ord ∨ o ∈ f.vec ++ keep := by
    intro o ho
    rw [hvec] at ho
    simp only [List.mem_append, List.mem_singleton] at ho ⊢
    tauto
  have hmemVec : ∀ o ∈ g.vec, o = ord ∨ o ∈ f.vec := by
    intro o ho
    rw [hvec, List.mem_append, List.mem_singleton] at ho
    exact ho.symm
  have hold : ∀ o ∈ f.vec, o ∈ f.vec ++ keep := fun o ho => List.mem_append_left _ ho
  refine ⟨⟨hnodup, hlt, htotal, ?_, hexpLen, fun o ho => (h.keepLt o ho).trans_le hgrow, ?_, ?_, ?_, ?_, ?_, ?_, ?_, ?_⟩,
    htbl, hvec, hstreams, hfresh, ?_, ?_, hexp, ?_, hexps⟩
  · intro i o hi
    rw [hvec] at hi
    rcases Nat.lt_or_ge i f.vec.length with hlt | hge
    · rw [List.getElem?_append_left hlt] at hi
      rw [hothers o (hold o (List.mem_of_getElem? hi)), h.slot i o hi]
    · rw [List.getElem?_append_right hge, List.getElem?_singleton] at hi
      split at hi
      next heq =>
        obtain rfl := Option.some.inj hi
        rw [hself]
        show f.vec.length = i
        omega
      next => exact absurd hi (by simp)
  · rw [hstreams]
    exact h.pinned
  · intro o ho
    rcases hmem o ho with rfl | ho
    · rw [hself, hlen]
      show f.slab.length + field.length ≤ _
      omega
    · have := h.field o ho
      rw [hothers o ho]
      omega
  · intro o ho
    rcases hmem o ho with rfl | ho
    · rw [hself, hlen]
    · have := h.value o ho
      rw [hothers o ho]
      omega
  · intro o ho o' ho'
    rcases hmemVec o ho with rfl | ho <;> rcases hmem o' ho' with rfl | ho'
    · rw [hself]
      exact .inr (Nat.le_refl _)
    · rw [hself, hothers o' ho']
      exact .inr ((h.field o' ho').trans (Nat.le_add_right _ _))
    · rw [hself, hothers o (hold o ho)]
      exact .inl (h.value o (hold o ho))
    · rw [hothers o (hold o ho), hothers o' ho']
      exact h.apartField o ho o' ho'
  · intro o ho o' ho' hne
    rcases hmemVec o ho with rfl | ho <;> rcases hmem o' ho' with rfl | ho'
    · exact absurd rfl hne
    · rw [hself, hothers o' ho']
      exact .inr ((h.value o' ho').trans (Nat.le_add_right _ _))
    · rw [hself, hothers o (hold o ho)]
      exact .inl ((h.value o (hold o ho)).trans (Nat.le_add_right _ _))
    · rw [hothers o (hold o ho), hothers o' ho']
      exact h.apartValue o ho o' ho' hne
  · have hsum : (g.vec.map g.size).sum = (f.vec.map f.size).sum + (field.length + value.length) := by
      rw [hvec, List.map_append, List.sum_append,
        List.map_congr_left fun o ho => show g.size o = f.size o by rw [size, hothers o (hold o ho)]; rfl]
      simp [size, hself]
    have := h.bytes
    rw [hsum, hlen, hdead]
    omega
  · rw [hdead]
    exact h.dead
  · rw [hlen]
    exact hroom
  · rw [fieldByOrd, hself, hslab]
    exact slice_append_mid
  · rw [valueByOrd, hself, hslab]
    show slice _ (f.slab.length + field.length) _ = _
    rw [← List.length_append]
    exact slice_append_right
  · intro o ho
    rw [fieldByOrd, valueByOrd, hothers o ho, hslab, List.append_assoc, slice_append_left (h.field o ho),
      slice_append_left (h.value o ho)]
    exact ⟨rfl, rfl⟩

theorem expiry_clear_self (hexp : g.exp = f.exp.map (·.set ord 0)) : g.expByOrd ord = 0 := by
  rw [expByOrd, hexp]
  cases f.exp with
  | none => rfl
  | some x =>
    show (x.set ord 0).getD ord 0 = 0
    rw [List.getD_eq_getElem?_getD, List.getElem?_set]
    split
    next => split <;> rfl
    next hne => exact absurd rfl hne

theorem expiry_clear_ne (hexp : g.exp = f.exp.map (·.set ord 0)) (hne : ord ≠ o) : g.expByOrd o = f.expByOrd o := by
  rw [expByOrd, expByOrd, hexp]
  cases f.exp with
  | none => rfl
  | some x =>
    show (x.set ord 0).getD o 0 = x.getD o 0
    rw [List.getD_eq_getElem?_getD, List.getElem?_set_ne hne, List.getD_eq_getElem?_getD]

theorem Laid.newRecord (h : f.Laid keep) (field value : Bytes) (hfield : field.length < 2 ^ 16)
    (hroom : f.slab.length + field.length + value.length < 2 ^ 32) (hents : f.ents.length < 2 ^ 32) :
    Added f (f.newRecord field value).1 keep (f.newRecord field value).2 field value := by
  have hvecLen : f.vec.length < 2 ^ 32 := by
    have := h.total
    omega
  unfold FTable.newRecord
  dsimp only
  rw [Nat.mod_eq_of_lt h.width, Nat.mod_eq_of_lt (by omega : f.slab.length + field.length < 2 ^ 32),
    Nat.mod_eq_of_lt hvecLen, Nat.mod_eq_of_lt hfield, Nat.mod_eq_of_lt (by omega : value.length < 2 ^ 32),
    Nat.mod_eq_of_lt hents]
  split
  next ord free hfree hstreams =>
    obtain rfl : keep = [] := by
      by_contra hne
      have := h.pinned hne
      simp at hstreams
      omega
    have hnd := h.nodup
    rw [hfree] at hnd
    have hperm : (f.vec ++ [ord] ++ free).Perm (f.vec ++ ord :: free) := by simp
    have hord : ord < f.ents.length := h.lt ord (by rw [hfree]; simp)
    have hfresh : ord ∉ f.vec := fun hmem => (List.nodup_append.mp hnd).2.2 ord hmem ord List.mem_cons_self rfl
    refine h.added rfl rfl rfl rfl rfl (by rwa [List.append_nil]) (ent_set_self hord) ?_ (hperm.nodup_iff.mpr hnd) ?_ ?_ ?_ ?_
      hroom ?_ ?_
    · intro o ho
      rw [List.append_nil] at ho
      exact ent_set_ne fun heq => hfresh (heq ▸ ho)
    · intro o ho
      have hmem : o ∈ f.vec ++ f.free := hfree ▸ hperm.mem_iff.mp ho
      exact (h.lt o hmem).trans_le (Nat.le_of_eq List.length_set.symm)
    · have htotal := h.total
      rw [hfree] at htotal
      simp only [List.length_cons, List.length_append, List.length_nil, List.length_set] at htotal ⊢
      omega
    · intro x hx
      obtain ⟨y, hy, rfl⟩ := Option.map_eq_some_iff.mp hx
      simp [h.expLen y hy]
    · exact Nat.le_of_eq List.length_set.symm
    · exact expiry_clear_self rfl
    · exact fun o ho => expiry_clear_ne rfl fun heq => hfresh (heq ▸ ho)
  next =>
    have hold : ∀ o ∈ f.vec ++ f.free, o ≠ f.ents.length := fun o ho => Nat.ne_of_lt (h.lt o ho)
    have hkeep : ∀ o ∈ f.vec ++ keep, o < f.ents.length := fun o ho =>
      (List.mem_append.mp ho).elim (fun ho => h.lt o (List.mem_append_left _ ho)) (h.keepLt o)
    have hperm : (f.vec ++ [f.ents.length] ++ f.free).Perm (f.ents.length :: (f.vec ++ f.free)) := by
      rw [List.append_assoc]
      exact List.perm_middle
    have hlen : ∀ e : FEntry, (f.ents ++ [e]).length = f.ents.length + 1 := fun e => List.length_append
    refine h.added rfl rfl rfl rfl rfl (fun hmem => absurd (hkeep _ hmem) (Nat.lt_irrefl _)) ?_ ?_
      (hperm.nodup_iff.mpr (List.nodup_cons.mpr ⟨fun hmem => hold _ hmem rfl, h.nodup⟩)) ?_ ?_ ?_ ?_ hroom ?_ ?_
    · show (f.ents ++ [_]).getD f.ents.length default = _
      simp [List.getD_eq_getElem?_getD]
    · intro o ho
      show (f.ents ++ [_]).getD o default = f.ents.getD o default
      rw [List.getD_eq_getElem?_getD, List.getElem?_append_left (hkeep o ho), List.getD_eq_getElem?_getD]
    · intro o ho
      rw [hlen]
      rcases List.mem_cons.mp (hperm.mem_iff.mp ho) with rfl | ho
      · exact Nat.lt_succ_self _
      · exact Nat.lt_succ_of_lt (h.lt o ho)
    · have htotal := h.total
      simp only [List.length_append, List.length_cons, List.length_nil] at htotal ⊢
      omega
    · intro x hx
      obtain ⟨y, hy, rfl⟩ := Option.map_eq_some_iff.mp hx
      rw [List.length_append, List.length_append, h.expLen y hy]
      rfl
    · rw [hlen]
      exact Nat.le_succ _
    · cases hx : f.exp with
      | none => rfl
      | some x => simp [expByOrd, List.getD_eq_getElem?_getD, ← h.expLen x hx]
    · intro o ho
      cases hx : f.exp with
      | none => simp [expByOrd, hx]
      | some x =>
        have hlt : o < x.length := by
          rw [h.expLen x hx]
          exact h.lt o (List.mem_append_left _ ho)
        simp [expByOrd, hx, List.getD_eq_getElem?_getD, List.getElem?_append_left hlt]

end

/-- What a removal leaves: the last ordinal in the removed one's place and every record as it was. -/
structure Removed (f g : FTable) (keep : List Nat) (ord : Nat) : Prop where
  laid : g.Laid keep
  tbl : g.tbl = f.tbl
  streams : g.streams = f.streams
  ents : g.ents.length = f.ents.length
  exp : g.exp.isSome = f.exp.isSome
  vec : g.vec = (f.vec.set (f.ent ord).vslot (f.vec.getD (f.vec.length - 1) 0)).take (f.vec.length - 1)
  perm : f.vec.Perm (ord :: g.vec)
  recs : SameRecs f g (g.vec ++ keep)
  expiries : ∀ o ∈ g.vec, g.expByOrd o = f.expByOrd o

theorem Laid.removeOrd (h : f.Laid keep) (ho : ord ∈ f.vec) : Removed f (f.removeOrd ord) keep ord := by
  obtain ⟨v, hv⟩ := List.mem_iff_getElem?.mp ho
  have hslot := h.slot v ord hv
  have hnd := List.nodup_append.mp h.nodup
  have hperm := swapRemove_perm (d := 0) hv
  have hvlt := (List.getElem?_eq_some_iff.mp hv).1
  generalize hmoved : f.vec.getD (f.vec.length - 1) 0 = moved at hperm
  have hlast : f.vec[f.vec.length - 1]? = some moved := by
    rw [← hmoved, List.getD_eq_getElem?_getD, List.getElem?_eq_getElem (by omega)]
    rfl
  have hmovedMem : moved ∈ f.vec := List.mem_of_getElem? hlast
  obtain ⟨g, hg⟩ : ∃ g : FTable, g = { f with
    vec := (f.vec.set (f.ent ord).vslot moved).take (f.vec.length - 1)
    ents := f.ents.set moved { f.ent moved with vslot := (f.ent ord).vslot }
    dead := f.dead + ((f.ent ord).flen + (f.ent ord).vlen)
    free := ord :: f.free
    exp := f.exp.map (·.set ord 0) } := ⟨_, rfl⟩
  have hremove : f.removeOrd ord = g.maybeCompact := by rw [hg, ← hmoved]; rfl
  have hvec : g.vec = (f.vec.set v moved).take (f.vec.length - 1) := by rw [hg, hslot]
  rw [← hvec] at hperm
  have hself : g.ent moved = { f.ent moved with vslot := v } := by
    rw [hg, hslot]
    exact ent_set_self (h.lt moved (List.mem_append_left _ hmovedMem))
  have hother : ∀ o, o ≠ moved → g.ent o = f.ent o := fun o hne => by
    rw [hg]
    exact ent_set_ne (Ne.symm hne)
  have hsame : ∀ o, (g.ent o).foff = (f.ent o).foff ∧ (g.ent o).flen = (f.ent o).flen ∧ (g.ent o).voff = (f.ent o).voff ∧
      (g.ent o).vlen = (f.ent o).vlen := by
    intro o
    by_cases heq : o = moved
    · subst heq
      rw [hself]
      exact ⟨rfl, rfl, rfl, rfl⟩
    · rw [hother o heq]
      exact ⟨rfl, rfl, rfl, rfl⟩
  have hents : g.ents.length = f.ents.length := by rw [hg]; exact List.length_set
  have hslab : g.slab = f.slab := by rw [hg]
  have hfree : g.free = ord :: f.free := by rw [hg]
  have hexp : g.exp = f.exp.map (·.set ord 0) := by rw [hg]
  have hsub : ∀ o ∈ g.vec, o ∈ f.vec := fun o hmem => hperm.mem_iff.mpr (List.mem_cons_of_mem _ hmem)
  have hsub' : ∀ o ∈ g.vec ++ keep, o ∈ f.vec ++ keep := fun o hmem =>
    (List.mem_append.mp hmem).elim (fun hmem => List.mem_append_left _ (hsub o hmem)) (List.mem_append_right _)
  have hgone : ord ∉ g.vec := (List.nodup_cons.mp (hperm.nodup_iff.mp hnd.1)).1
  have hpool : (g.vec ++ g.free).Perm (f.vec ++ f.free) := by
    rw [hfree]
    exact List.perm_middle.trans (hperm.symm.append_right _)
  have hlaid : g.Laid keep := by
    refine ⟨hpool.nodup_iff.mpr h.nodup, fun o hmem => hents ▸ h.lt o (hpool.mem_iff.mp hmem), ?_, ?_, ?_, ?_, ?_, ?_, ?_, ?_,
      ?_, ?_, ?_, ?_⟩
    · have hlen := hpool.length_eq
      rw [List.length_append, List.length_append] at hlen
      rw [hents, hlen, h.total]
    · intro i o hi
      rw [hvec, ← hmoved] at hi
      obtain ⟨hlt, ⟨rfl, heq⟩ | ⟨-, hi⟩⟩ := swapRemove_get hi
      · rw [heq, hmoved, hself]
      · have hne : o ≠ moved := by
          rintro rfl
          have := h.slot i o hi
          have := h.slot _ o hlast
          omega
        rw [hother o hne, h.slot i o hi]
    · intro x hx
      rw [hexp] at hx
      obtain ⟨y, hy, rfl⟩ := Option.map_eq_some_iff.mp hx
      rw [hents, List.length_set, h.expLen y hy]
    · rw [hents]
      exact h.keepLt
    · rw [hg]
      exact h.pinned
    · intro o hmem
      rw [(hsame o).1, (hsame o).2.1, hslab]
      exact h.field o (hsub' o hmem)
    · intro o hmem
      rw [(hsame o).2.2.1, (hsame o).2.2.2, hslab]
      exact h.value o (hsub' o hmem)
    · intro o hmem o' hmem'
      rw [(hsame o).2.2.1, (hsame o).2.2.2, (hsame o').1, (hsame o').2.1]
      exact h.apartField o (hsub o hmem) o' (hsub' o' hmem')
    · intro o hmem o' hmem' hne
      rw [(hsame o).2.2.1, (hsame o).2.2.2, (hsame o').2.2.1, (hsame o').2.2.2]
      exact h.apartValue o (hsub o hmem) o' (hsub' o' hmem') hne
    · have hsum := (hperm.map f.size).sum_eq
      rw [List.map_cons, List.sum_cons] at hsum
      have hbytes := h.bytes
      have hdead : g.dead = f.dead + ((f.ent ord).flen + (f.ent ord).vlen) := by rw [hg]
      rw [List.map_congr_left fun o _ => show g.size o = f.size o by rw [size, (hsame o).2.1, (hsame o).2.2.2]; rfl, hslab,
        hdead, hbytes, hsum, size]
      push_cast
      omega
    · have := h.dead
      rw [hg]
      dsimp only
      omega
    · rw [hslab]
      exact h.width
  obtain ⟨hlaid', hindex, hrecs⟩ := hlaid.maybeCompact
  rw [hremove]
  refine ⟨hlaid', by rw [hindex.tbl, hg], by rw [hindex.streams, hg], by rw [hindex.ents, hents], ?_, ?_, by rwa [hindex.vec],
    ?_, ?_⟩
  · rw [hindex.exp, hexp, Option.isSome_map]
  · rw [hindex.vec, hvec, hslot, hmoved]
  · intro o hmem
    rw [hindex.vec] at hmem
    rw [(hrecs o hmem).1, (hrecs o hmem).2, fieldByOrd, valueByOrd, (hsame o).1, (hsame o).2.1, (hsame o).2.2.1,
      (hsame o).2.2.2, hslab]
    exact ⟨rfl, rfl⟩
  · intro o hmem
    rw [hindex.vec] at hmem
    have hne : ord ≠ o := fun heq => hgone (heq ▸ hmem)
    rw [expByOrd, hindex.exp]
    exact expiry_clear_ne hexp hne

end FTable

end Aki
