import Aki.FieldTableSpec
import Aki.SwissTableMap

namespace Aki

open Slab

namespace FTable

/-- The finite map a table stands for: the value and the expiry of each field. -/
abbrev FieldMap := Bytes → Option (Bytes × Nat)

variable {hash : Bytes → Nat} {f : FTable} {keep : List Nat} {A : Table.KeyMap Bytes} {field value : Bytes} {ord : Nat}

/-- The Swiss table leads from each field to its live record. -/
structure Inv (hash : Bytes → Nat) (f : FTable) (keep : List Nat) (A : Table.KeyMap Bytes) : Prop where
  laid : f.Laid keep
  table : f.tbl.Holds hash A
  index : ∀ k o, A k = some o ↔ o ∈ f.vec ∧ f.fieldByOrd o = k

def mapOf (f : FTable) (A : Table.KeyMap Bytes) : FieldMap := fun k => (A k).map fun o => (f.valueByOrd o, f.expByOrd o)

theorem mapOf_some (hA : A field = some ord) : f.mapOf A field = some (f.valueByOrd ord, f.expByOrd ord) := by
  rw [mapOf, hA, Option.map_some]

theorem mapOf_none (hA : A field = none) : f.mapOf A field = none := by
  rw [mapOf, hA, Option.map_none]

theorem members_setOf (h : ∀ k o, A k = some o → f.fieldByOrd o = k) : Table.SetOf hash A (f.members hash) := by
  intro k o ho
  have hk := h k o ho
  refine ⟨fun k' => ?_, congrArg hash hk⟩
  show (f.fieldByOrd o == k') = true ↔ k' = k
  rw [beq_iff_eq, hk, eq_comm]

theorem Inv.setOf (h : f.Inv hash keep A) : Table.SetOf hash A (f.members hash) :=
  members_setOf fun k o ho => ((h.index k o).mp ho).2

theorem Inv.find_eq (h : f.Inv hash keep A) (field : Bytes) : f.find hash field = some (A field) :=
  h.table.find_eq h.setOf field

theorem Inv.card_eq (h : f.Inv hash keep A) : f.card = f.vec.length := by
  obtain ⟨keys, hnd, hmem, hlen⟩ := h.table.keys
  have hfields : (f.vec.map f.fieldByOrd).Nodup := by
    refine (List.nodup_map_iff_inj_on (List.nodup_append.mp h.laid.nodup).1).mpr fun o ho o' ho' heq => ?_
    have h1 := (h.index (f.fieldByOrd o) o).mpr ⟨ho, rfl⟩
    have h2 := (h.index (f.fieldByOrd o) o').mpr ⟨ho', heq.symm⟩
    exact Option.some.inj (h1.symm.trans h2)
  have hperm : keys.Perm (f.vec.map f.fieldByOrd) := by
    refine (List.perm_ext_iff_of_nodup hnd hfields).mpr fun k => ?_
    rw [hmem, List.mem_map, Option.ne_none_iff_exists']
    exact exists_congr fun o => h.index k o
  rw [card, hlen, hperm.length_eq, List.length_map]

theorem Inv.overwrite (h : f.Inv hash keep A) (hk : A field = some ord) (hroom : f.slab.length + value.length < 2 ^ 32) :
    (f.overwrite ord value).Inv hash keep A ∧ SameIndex f (f.overwrite ord value) ∧
      (f.overwrite ord value).mapOf A = Function.update (f.mapOf A) field (some (value, f.expByOrd ord)) := by
  obtain ⟨ho, hfield⟩ := (h.index field ord).mp hk
  have hw := h.laid.overwrite ho hroom
  refine ⟨⟨hw.laid, by rw [hw.index.tbl]; exact h.table, fun k o => ?_⟩, hw.index, funext fun k => ?_⟩
  · rw [hw.index.vec, h.index]
    exact and_congr_right fun ho => by rw [hw.field o (List.mem_append_left _ ho)]
  · have hexp : ∀ o, (f.overwrite ord value).expByOrd o = f.expByOrd o := fun o => by rw [expByOrd, hw.index.exp]; rfl
    by_cases hkk : k = field
    · subst hkk
      rw [Function.update_self, mapOf, hk, Option.map_some, hw.value, hexp]
    · rw [Function.update_of_ne hkk, mapOf, mapOf]
      refine Option.map_congr fun o hA => ?_
      obtain ⟨hmem, hfo⟩ := (h.index k o).mp hA
      have hne : o ≠ ord := fun heq => hkk (by rw [← hfo, heq, hfield])
      rw [hw.others o (List.mem_append_left _ hmem) hne, hexp]

theorem Inv.addField (h : f.Inv hash keep A) (hk : A field = none) (hfield : field.length < 2 ^ 16)
    (hroom : f.slab.length + field.length + value.length < 2 ^ 32) (hents : f.ents.length < 2 ^ 32)
    (hcard : f.card < 2 ^ 28) : ∃ g ord, f.addField hash field value = some g ∧
      g.Inv hash keep (Function.update A field (some ord)) ∧
      g.mapOf (Function.update A field (some ord)) = Function.update (f.mapOf A) field (some (value, 0)) ∧
      g.streams = f.streams ∧ g.ents = (f.newRecord field value).1.ents ∧ SameRecs f g (f.vec ++ keep) := by
  have ha := h.laid.newRecord field value hfield hroom hents
  generalize hr : f.newRecord field value = r at ha
  obtain ⟨g, ord⟩ := r
  have hset : Table.SetOf hash A (g.members hash) := members_setOf fun k o ho => by
    obtain ⟨hmem, hfo⟩ := (h.index k o).mp ho
    rw [(ha.recs o (List.mem_append_left _ hmem)).1, hfo]
  have htbl : g.tbl = f.tbl := ha.tbl
  have hholds : g.tbl.Holds hash A := htbl ▸ h.table
  obtain ⟨tbl, hins, hholds⟩ := hholds.insert_spec hset hk (htbl ▸ hcard) ord
  refine ⟨{ g with tbl := tbl }, ord, ?_, ⟨?_, hholds, fun k o => ?_⟩, funext fun k => ?_, ha.streams, rfl, ha.recs⟩
  · rw [FTable.addField, hr]
    show Option.map _ (g.tbl.insert (g.members hash) (hash field) ord) = _
    rw [hins]
    rfl
  · exact ⟨ha.laid.nodup, ha.laid.lt, ha.laid.total, ha.laid.slot, ha.laid.expLen, ha.laid.keepLt, ha.laid.pinned,
      ha.laid.field, ha.laid.value, ha.laid.apartField, ha.laid.apartValue, ha.laid.bytes, ha.laid.dead, ha.laid.width⟩
  · show _ ↔ o ∈ g.vec ∧ g.fieldByOrd o = k
    rw [ha.vec, List.mem_append, List.mem_singleton]
    by_cases hkk : k = field
    · subst hkk
      rw [Function.update_self]
      constructor
      · intro ho
        obtain rfl := Option.some.inj ho
        exact ⟨.inr rfl, ha.field⟩
      · rintro ⟨ho | rfl, hfo⟩
        · rw [(ha.recs o (List.mem_append_left _ ho)).1] at hfo
          rw [(h.index k o).mpr ⟨ho, hfo⟩] at hk
          exact absurd hk (by simp)
        · rfl
    · rw [Function.update_of_ne hkk, h.index]
      constructor
      · rintro ⟨ho, hfo⟩
        exact ⟨.inl ho, by rw [(ha.recs o (List.mem_append_left _ ho)).1, hfo]⟩
      · rintro ⟨ho | rfl, hfo⟩
        · exact ⟨ho, by rw [← (ha.recs o (List.mem_append_left _ ho)).1, hfo]⟩
        · exact absurd (hfo.symm.trans ha.field) hkk
  · by_cases hkk : k = field
    · subst hkk
      rw [mapOf, Function.update_self, Function.update_self]
      show some (g.valueByOrd ord, g.expByOrd ord) = _
      rw [ha.value, ha.expiry]
    · rw [mapOf, Function.update_of_ne hkk, Function.update_of_ne hkk, mapOf]
      refine Option.map_congr fun o hA => ?_
      have hmem := ((h.index k o).mp hA).1
      exact Prod.ext (ha.recs o (List.mem_append_left _ hmem)).2 (ha.expiries o hmem)

theorem Inv.removeOrd (h : f.Inv hash keep A) (hk : A field = some ord) {tbl : Table}
    (htbl : tbl.Holds hash (Function.update A field none)) :
    Removed { f with tbl := tbl } (({ f with tbl := tbl } : FTable).removeOrd ord) keep ord ∧
      (({ f with tbl := tbl } : FTable).removeOrd ord).Inv hash keep (Function.update A field none) ∧
      (({ f with tbl := tbl } : FTable).removeOrd ord).mapOf (Function.update A field none) =
        Function.update (f.mapOf A) field none := by
  obtain ⟨ho, hfield⟩ := (h.index field ord).mp hk
  have hlaid : Laid { f with tbl := tbl } keep :=
    ⟨h.laid.nodup, h.laid.lt, h.laid.total, h.laid.slot, h.laid.expLen, h.laid.keepLt, h.laid.pinned, h.laid.field,
      h.laid.value, h.laid.apartField, h.laid.apartValue, h.laid.bytes, h.laid.dead, h.laid.width⟩
  have hr := hlaid.removeOrd ho
  generalize ({ f with tbl := tbl } : FTable).removeOrd ord = g at hr
  have hperm : f.vec.Perm (ord :: g.vec) := hr.perm
  have hgone : ord ∉ g.vec := (List.nodup_cons.mp (hperm.nodup_iff.mp (List.nodup_append.mp h.laid.nodup).1)).1
  have hrecs : ∀ o ∈ g.vec, g.fieldByOrd o = f.fieldByOrd o ∧ g.valueByOrd o = f.valueByOrd o := fun o hmem =>
    hr.recs o (List.mem_append_left _ hmem)
  have hsub : ∀ o ∈ g.vec, o ∈ f.vec := fun o hmem => hperm.mem_iff.mpr (List.mem_cons_of_mem _ hmem)
  have hback : ∀ k o, k ≠ field → A k = some o → o ∈ g.vec := fun k o hkk ho => by
    obtain ⟨hmem, hfo⟩ := (h.index k o).mp ho
    exact (List.mem_cons.mp (hperm.mem_iff.mp hmem)).resolve_left fun heq => hkk (by rw [← hfo, heq, hfield])
  refine ⟨hr, ⟨hr.laid, by rw [hr.tbl]; exact htbl, fun k o => ?_⟩, funext fun k => ?_⟩
  · by_cases hkk : k = field
    · subst hkk
      rw [Function.update_self]
      refine iff_of_false (by simp) fun ⟨hmem, hfo⟩ => hgone ?_
      rw [(hrecs o hmem).1] at hfo
      have hA := (h.index k o).mpr ⟨hsub o hmem, hfo⟩
      rwa [← Option.some.inj (hA.symm.trans hk)]
    · rw [Function.update_of_ne hkk]
      constructor
      · intro hA
        exact ⟨hback k o hkk hA, by rw [(hrecs o (hback k o hkk hA)).1]; exact ((h.index k o).mp hA).2⟩
      · rintro ⟨hmem, hfo⟩
        rw [(hrecs o hmem).1] at hfo
        exact (h.index k o).mpr ⟨hsub o hmem, hfo⟩
  · by_cases hkk : k = field
    · subst hkk
      rw [mapOf, Function.update_self, Function.update_self]
      rfl
    · rw [mapOf, Function.update_of_ne hkk, Function.update_of_ne hkk, mapOf]
      refine Option.map_congr fun o hA => ?_
      have hmem := hback k o hkk hA
      exact Prod.ext (hrecs o hmem).2 (hr.expiries o hmem)

theorem Inv.delete_spec (h : f.Inv hash keep A) (field : Bytes) : ∃ tbl,
    f.tbl.delete (f.members hash) (hash field) field = some (tbl, A field) ∧
      tbl.Holds hash (Function.update A field none) := h.table.delete_spec h.setOf field

theorem Inv.setExp (h : f.Inv hash keep A) {exp : Option (List Nat)} (hlen : ∀ x, exp = some x → x.length = f.ents.length) :
    Inv hash { f with exp := exp } keep A :=
  ⟨⟨h.laid.nodup, h.laid.lt, h.laid.total, h.laid.slot, hlen, h.laid.keepLt, h.laid.pinned, h.laid.field, h.laid.value,
    h.laid.apartField, h.laid.apartValue, h.laid.bytes, h.laid.dead, h.laid.width⟩, h.table, h.index⟩

theorem expByOrd_set {x : List Nat} (hlt : ord < x.length) (e o : Nat) :
    ({ f with exp := some (x.set ord e) } : FTable).expByOrd o = if o = ord then e else x.getD o 0 := by
  show (x.set ord e).getD o 0 = _
  rw [List.getD_eq_getElem?_getD, List.getElem?_set]
  by_cases heq : o = ord
  · subst heq
    rw [if_pos rfl, if_pos hlt, if_pos rfl]
    rfl
  · rw [if_neg (Ne.symm heq), if_neg heq, List.getD_eq_getElem?_getD]

theorem Inv.expiry (h : f.Inv hash keep A) (hk : A field = some ord) {x : List Nat} (hx : x.length = f.ents.length)
    (hsame : ∀ o, x.getD o 0 = f.expByOrd o) (e : Nat) : Inv hash { f with exp := some (x.set ord e) } keep A ∧
      ({ f with exp := some (x.set ord e) } : FTable).mapOf A =
        Function.update (f.mapOf A) field (some (f.valueByOrd ord, e)) := by
  obtain ⟨ho, hfield⟩ := (h.index field ord).mp hk
  have hlt : ord < x.length := hx ▸ h.laid.lt ord (List.mem_append_left _ ho)
  refine ⟨h.setExp fun y hy => ?_, funext fun k => ?_⟩
  · obtain rfl := Option.some.inj hy
    rw [List.length_set, hx]
  · by_cases hkk : k = field
    · subst hkk
      rw [mapOf, hk, Function.update_self, Option.map_some, expByOrd_set hlt, if_pos rfl]
      rfl
    · rw [mapOf, Function.update_of_ne hkk, mapOf]
      refine Option.map_congr fun o hA => ?_
      have hne : o ≠ ord := fun heq => hkk (by rw [← ((h.index k o).mp hA).2, heq, hfield])
      rw [expByOrd_set hlt, if_neg hne, hsame]
      rfl

/-- The fields whose expiry is set and not after `now` are gone. -/
def reaped (now : Nat) (M : FieldMap) : FieldMap := fun k => (M k).filter fun x => !decide (x.2 ≠ 0 ∧ x.2 ≤ now)

def due (f : FTable) (now ord : Nat) : Prop := f.expByOrd ord ≠ 0 ∧ f.expByOrd ord ≤ now

theorem Inv.reaped_self (h : f.Inv hash keep A) {now : Nat} (hlive : ∀ o ∈ f.vec, ¬ f.due now o) :
    reaped now (f.mapOf A) = f.mapOf A := by
  funext k
  unfold reaped mapOf
  cases hA : A k with
  | none => rfl
  | some o => simpa [Option.filter, due] using hlive o ((h.index k o).mp hA).1

theorem reaped_update {M : FieldMap} {now : Nat} {x : Bytes × Nat} (hx : M field = some x) (hdue : x.2 ≠ 0 ∧ x.2 ≤ now) :
    reaped now (Function.update M field none) = reaped now M := by
  funext k
  unfold reaped
  by_cases hkk : k = field
  · subst hkk
    rw [Function.update_self, hx]
    simp [Option.filter, hdue]
  · rw [Function.update_of_ne hkk]

theorem mem_take_of_get {l l' : List Nat} {i o : Nat} (h : ∀ j < i, l[j]? = some o → l'[j]? = some o) (ho : o ∈ l.take i) :
    o ∈ l'.take i := by
  obtain ⟨j, hj⟩ := List.mem_iff_getElem?.mp ho
  rw [List.getElem?_take] at hj
  split at hj
  next hlt => exact List.mem_iff_getElem?.mpr ⟨j, by rw [List.getElem?_take_of_lt hlt]; exact h j hlt hj⟩
  next => exact absurd hj (by simp)

/-- The positions before `i` have been kept; what is removed at `i` is replaced by a later one. -/
theorem Inv.reapLoop (now : Nat) : ∀ (fuel i next : Nat) {f : FTable} {A : Table.KeyMap Bytes}, f.Inv hash keep A →
    f.vec.length ≤ i + fuel → (∀ o ∈ f.vec.take i, ¬ f.due now o) → ∃ g n B, reapLoop hash now fuel i next f = some (g, n) ∧
      g.Inv hash keep B ∧ g.mapOf B = reaped now (f.mapOf A) ∧ g.streams = f.streams ∧ g.ents.length = f.ents.length ∧
      SameRecs f g keep
  | 0, i, next, f, A, h, hfuel, hkept => by
    refine ⟨f, next, A, rfl, h, (h.reaped_self fun o ho => hkept o ?_).symm, rfl, rfl, fun _ _ => ⟨rfl, rfl⟩⟩
    rwa [List.take_of_length_le (by omega)]
  | fuel + 1, i, next, f, A, h, hfuel, hkept => by
    rw [FTable.reapLoop]
    by_cases hi : i < f.vec.length
    · have hget : f.vec[i]? = some (f.vec.getD i 0) := by
        rw [List.getD_eq_getElem?_getD, List.getElem?_eq_getElem hi]
        rfl
      rw [if_pos hi]
      generalize f.vec.getD i 0 = ord at hget
      dsimp only
      have ho : ord ∈ f.vec := List.mem_of_getElem? hget
      by_cases hdue : f.due now ord
      · have hA := (h.index (f.fieldByOrd ord) ord).mpr ⟨ho, rfl⟩
        obtain ⟨tbl, hdel, htbl⟩ := h.delete_spec (f.fieldByOrd ord)
        obtain ⟨hr, hinv, hmap⟩ := h.removeOrd hA htbl
        have hvec := hr.vec
        generalize hg : ({ f with tbl := tbl } : FTable).removeOrd ord = g at hr hinv hmap hvec
        have hlen : f.vec.length = g.vec.length + 1 := hr.perm.length_eq
        have hkept' : ∀ o ∈ g.vec.take i, ¬ g.due now o := by
          intro o hmem
          rw [due, hr.expiries o (List.mem_of_mem_take hmem)]
          refine hkept o (mem_take_of_get (fun j hj hget' => ?_) hmem)
          rw [hvec] at hget'
          rcases (swapRemove_get hget').2 with ⟨heq, -⟩ | ⟨-, hget'⟩
          · exact absurd (heq.trans (h.laid.slot i ord hget)) (Nat.ne_of_lt hj)
          · exact hget'
        obtain ⟨g', n, B, heq, hinv', hmap', hstreams, hents, hrecs⟩ := reapLoop now fuel i next hinv (by omega) hkept'
        refine ⟨g', n, B, ?_, hinv', ?_, hstreams.trans hr.streams, hents.trans hr.ents, fun o hmem => ?_⟩
        · rw [if_pos (show f.expByOrd ord ≠ 0 ∧ f.expByOrd ord ≤ now from hdue), hdel, Option.bind_some, hg, heq]
        · rw [hmap', hmap]
          exact reaped_update (mapOf_some hA) hdue
        · have h1 := hrecs o hmem
          have h2 := hr.recs o (List.mem_append_right _ hmem)
          exact ⟨h1.1.trans h2.1, h1.2.trans h2.2⟩
      · rw [if_neg (show ¬ (f.expByOrd ord ≠ 0 ∧ f.expByOrd ord ≤ now) from hdue)]
        refine reapLoop now fuel (i + 1) _ h (by omega) fun o hmem => ?_
        rw [List.take_add_one, hget] at hmem
        rcases List.mem_append.mp hmem with hmem | hmem
        · exact hkept o hmem
        · obtain rfl := List.mem_singleton.mp hmem
          exact hdue
    · rw [if_neg hi]
      refine ⟨f, next, A, rfl, h, (h.reaped_self fun o ho => hkept o ?_).symm, rfl, rfl, fun _ _ => ⟨rfl, rfl⟩⟩
      rwa [List.take_of_length_le (by omega)]

inductive Op where
  | set (field value : Bytes)
  | setNX (field value : Bytes)
  | overwrite (field value : Bytes)
  | del (field : Bytes)
  | setFieldExp (field : Bytes) (expiry : Nat)
  | clearFieldExp (field : Bytes)
  | reap (now : Nat)

/-- `overwrite` is of the record of a field, as `set` finds it. -/
def Op.run (hash : Bytes → Nat) (f : FTable) : Op → Option FTable
  | .set k v => (f.set hash k v).map Prod.fst
  | .setNX k v => (f.setNX hash k v).map Prod.fst
  | .overwrite k v => (f.find hash k).map fun r => r.elim f (f.overwrite · v)
  | .del k => (f.del hash k).map Prod.fst
  | .setFieldExp k e => (f.setFieldExp hash k e).map Prod.fst
  | .clearFieldExp k => f.clearFieldExp hash k
  | .reap now => (f.reap hash now).map Prod.fst

/-- An overwrite keeps the expiry; a new field has none. -/
def Op.spec (M : FieldMap) : Op → FieldMap
  | .set k v => Function.update M k (some (v, ((M k).map Prod.snd).getD 0))
  | .setNX k v => if (M k).isSome then M else Function.update M k (some (v, 0))
  | .overwrite k v => Function.update M k ((M k).map fun x => (v, x.2))
  | .del k => Function.update M k none
  | .setFieldExp k e => Function.update M k ((M k).map fun x => (x.1, e))
  | .clearFieldExp k => Function.update M k ((M k).map fun x => (x.1, 0))
  | .reap now => reaped now M

/-- The lengths and offsets written fit their widths, and the table is below its size limit. -/
def Op.Fits (f : FTable) : Op → Prop
  | .set k v => k.length < 2 ^ 16 ∧ f.slab.length + k.length + v.length < 2 ^ 32 ∧ f.card < 2 ^ 28
  | .setNX k v => k.length < 2 ^ 16 ∧ f.slab.length + k.length + v.length < 2 ^ 32 ∧ f.card < 2 ^ 28
  | .overwrite _ v => f.slab.length + v.length < 2 ^ 32
  | _ => True

instance (f : FTable) : (op : Op) → Decidable (op.Fits f)
  | .set _ _ | .setNX _ _ => inferInstanceAs (Decidable (_ ∧ _ ∧ _))
  | .overwrite _ _ => inferInstanceAs (Decidable (_ < _))
  | .del _ | .setFieldExp _ _ | .clearFieldExp _ | .reap _ => isTrue trivial

/-- The field whose value the operation overwrites if it is present, and the new value. -/
def Op.target : Op → Option (Bytes × Bytes)
  | .set k v => some (k, v)
  | .overwrite k v => some (k, v)
  | _ => none

/-- What an operation leaves: the map it should, the pins as they were, at most one more record, and the records of `keep`
but for the one it overwrites. -/
structure Stepped (hash : Bytes → Nat) (keep : List Nat) (f g : FTable) (M : FieldMap) (hit : Option (Nat × Bytes)) : Prop where
  inv : ∃ B, g.Inv hash keep B ∧ g.mapOf B = M
  streams : g.streams = f.streams
  ents : g.ents.length = f.ents.length ∨
    g.ents.length = f.ents.length + 1 ∧ f.card < 2 ^ 28 ∧ (f.streams = 0 → f.free = [])
  recs : ∀ o ∈ keep, g.fieldByOrd o = f.fieldByOrd o ∧
    (g.valueByOrd o = f.valueByOrd o ∨ hit = some (o, g.valueByOrd o))

theorem Inv.stay (h : f.Inv hash keep A) {M : FieldMap} (hM : f.mapOf A = M) (hit : Option (Nat × Bytes)) :
    Stepped hash keep f f M hit := ⟨⟨A, h, hM⟩, rfl, .inl rfl, fun _ _ => ⟨rfl, .inl rfl⟩⟩

theorem update_mapOf_none (hA : A field = none) : f.mapOf A = Function.update (f.mapOf A) field none := by
  refine (Function.update_eq_self_iff.mpr ?_).symm
  rw [mapOf, hA]
  rfl

theorem newRecord_ents (field value : Bytes) : (f.newRecord field value).1.ents.length = f.ents.length ∨
    (f.newRecord field value).1.ents.length = f.ents.length + 1 ∧ (f.streams = 0 → f.free = []) := by
  unfold FTable.newRecord
  dsimp only
  split
  next => exact .inl List.length_set
  next hno =>
    refine .inr ⟨List.length_append, fun hstreams => ?_⟩
    cases hfree : f.free with
    | nil => rfl
    | cons o free => exact absurd (by rw [hstreams]; rfl) (hno o free hfree)

theorem Inv.addField_step (h : f.Inv hash keep A) (value : Bytes) (hA : A field = none) (hents : f.ents.length < 2 ^ 32)
    (hfits : field.length < 2 ^ 16 ∧ f.slab.length + field.length + value.length < 2 ^ 32 ∧ f.card < 2 ^ 28)
    (hit : Option (Nat × Bytes)) : ∃ g, f.addField hash field value = some g ∧
      Stepped hash keep f g (Function.update (f.mapOf A) field (some (value, 0))) hit := by
  obtain ⟨g, ord, heq, hinv, hmap, hstreams, hents', hrecs⟩ := h.addField hA hfits.1 hfits.2.1 hents hfits.2.2
  refine ⟨g, heq, ⟨_, hinv, hmap⟩, hstreams, ?_, fun o ho => ?_⟩
  · rw [hents']
    exact (newRecord_ents field value).imp id fun hnew => ⟨hnew.1, hfits.2.2, hnew.2⟩
  have hrec := hrecs o (List.mem_append_right _ ho)
  exact ⟨hrec.1, .inl hrec.2⟩

theorem Inv.overwrite_step (h : f.Inv hash keep A) (hA : A field = some ord) (hroom : f.slab.length + value.length < 2 ^ 32) :
    Stepped hash keep f (f.overwrite ord value) (Function.update (f.mapOf A) field (some (value, f.expByOrd ord)))
      (some (ord, value)) := by
  obtain ⟨hinv, hindex, hmap⟩ := h.overwrite hA hroom
  have hw := h.laid.overwrite ((h.index field ord).mp hA).1 hroom
  refine ⟨⟨A, hinv, hmap⟩, hindex.streams, .inl hindex.ents, fun o ho => ⟨hw.field o (List.mem_append_right _ ho), ?_⟩⟩
  rcases eq_or_ne o ord with rfl | hne
  · exact .inr (by rw [hw.value])
  · exact .inl (hw.others o (List.mem_append_right _ ho) hne)

theorem Inv.expiry_step (h : f.Inv hash keep A) (hA : A field = some ord) {x : List Nat} (hx : x.length = f.ents.length)
    (hsame : ∀ o, x.getD o 0 = f.expByOrd o) (e : Nat) (hit : Option (Nat × Bytes)) :
    Stepped hash keep f { f with exp := some (x.set ord e) }
      (Function.update (f.mapOf A) field (some (f.valueByOrd ord, e))) hit := by
  obtain ⟨hinv, hmap⟩ := h.expiry hA hx hsame e
  exact ⟨⟨A, hinv, hmap⟩, rfl, .inl rfl, fun _ _ => ⟨rfl, .inl rfl⟩⟩

section

variable (h : f.Inv hash keep A)
include h

theorem Inv.set_step (hents : f.ents.length < 2 ^ 32) (hfits : Op.Fits f (.set field value)) :
    ∃ g, Op.run hash f (.set field value) = some g ∧ Stepped hash keep f g (Op.spec (f.mapOf A) (.set field value))
      ((A field).map (·, value)) := by
  unfold Op.run Op.spec
  dsimp only
  rw [FTable.set, h.find_eq, Option.bind_some]
  cases hA : A field with
  | none =>
    obtain ⟨g, heq, hs⟩ := h.addField_step value hA hents hfits none
    refine ⟨g, by dsimp only; rw [heq]; rfl, ?_⟩
    rwa [mapOf_none hA]
  | some ord =>
    refine ⟨_, rfl, ?_⟩
    rw [mapOf_some hA]
    exact h.overwrite_step hA (by have := hfits.2.1; omega)

theorem Inv.setNX_step (hents : f.ents.length < 2 ^ 32) (hfits : Op.Fits f (.setNX field value)) :
    ∃ g, Op.run hash f (.setNX field value) = some g ∧ Stepped hash keep f g (Op.spec (f.mapOf A) (.setNX field value)) none := by
  unfold Op.run Op.spec
  dsimp only
  rw [FTable.setNX, h.find_eq, Option.bind_some]
  cases hA : A field with
  | none =>
    obtain ⟨g, heq, hs⟩ := h.addField_step value hA hents hfits none
    refine ⟨g, by dsimp only; rw [heq]; rfl, ?_⟩
    rwa [mapOf_none hA]
  | some ord =>
    refine ⟨f, rfl, h.stay ?_ none⟩
    rw [mapOf_some hA]
    rfl

theorem Inv.overwriteOp_step (hfits : Op.Fits f (.overwrite field value)) : ∃ g, Op.run hash f (.overwrite field value) = some g ∧
    Stepped hash keep f g (Op.spec (f.mapOf A) (.overwrite field value)) ((A field).map (·, value)) := by
  unfold Op.run Op.spec
  dsimp only
  rw [h.find_eq, Option.map_some]
  cases hA : A field with
  | none =>
    refine ⟨f, rfl, h.stay ?_ none⟩
    rw [mapOf_none hA]
    exact update_mapOf_none hA
  | some ord =>
    refine ⟨_, rfl, ?_⟩
    rw [mapOf_some hA]
    exact h.overwrite_step hA hfits

theorem Inv.del_step (field : Bytes) :
    ∃ g, Op.run hash f (.del field) = some g ∧ Stepped hash keep f g (Op.spec (f.mapOf A) (.del field)) none := by
  obtain ⟨tbl, hdel, htbl⟩ := h.delete_spec field
  unfold Op.run Op.spec
  dsimp only
  rw [FTable.del, hdel]
  cases hA : A field with
  | none => exact ⟨f, rfl, h.stay (update_mapOf_none hA) none⟩
  | some ord =>
    obtain ⟨hr, hinv, hmap⟩ := h.removeOrd hA htbl
    refine ⟨_, rfl, ⟨_, hinv, hmap⟩, hr.streams, .inl hr.ents, fun o ho => ?_⟩
    have hrec := hr.recs o (List.mem_append_right _ ho)
    exact ⟨hrec.1, .inl hrec.2⟩

theorem Inv.setFieldExp_step (field : Bytes) (e : Nat) : ∃ g, Op.run hash f (.setFieldExp field e) = some g ∧
    Stepped hash keep f g (Op.spec (f.mapOf A) (.setFieldExp field e)) none := by
  unfold Op.run Op.spec
  dsimp only
  rw [FTable.setFieldExp, h.find_eq]
  cases hA : A field with
  | none =>
    refine ⟨f, rfl, h.stay ?_ none⟩
    rw [mapOf_none hA]
    exact update_mapOf_none hA
  | some ord =>
    have hcolumn : (f.exp.getD (List.replicate f.ents.length 0)).length = f.ents.length ∧
        ∀ o, (f.exp.getD (List.replicate f.ents.length 0)).getD o 0 = f.expByOrd o := by
      cases hx : f.exp with
      | none =>
        refine ⟨List.length_replicate, fun o => ?_⟩
        rw [Option.getD_none, expByOrd, hx, List.getD_eq_getElem?_getD, List.getElem?_replicate]
        split <;> rfl
      | some x => exact ⟨h.laid.expLen x hx, fun o => by simp [expByOrd, hx]⟩
    refine ⟨_, rfl, ?_⟩
    rw [mapOf_some hA]
    exact h.expiry_step hA hcolumn.1 hcolumn.2 e none

theorem Inv.clearFieldExp_step (field : Bytes) : ∃ g, Op.run hash f (.clearFieldExp field) = some g ∧
    Stepped hash keep f g (Op.spec (f.mapOf A) (.clearFieldExp field)) none := by
  unfold Op.run Op.spec
  dsimp only
  rw [FTable.clearFieldExp, h.find_eq]
  cases hx : f.exp with
  | none =>
    have hzero : ∀ o, f.expByOrd o = 0 := fun o => by rw [expByOrd, hx]
    refine ⟨f, rfl, h.stay (Function.update_eq_self_iff.mpr ?_).symm none⟩
    rw [mapOf, Option.map_map]
    exact Option.map_congr fun o _ => by rw [Function.comp_apply, hzero]
  | some x =>
    cases hA : A field with
    | none =>
      refine ⟨f, rfl, h.stay ?_ none⟩
      rw [mapOf_none hA]
      exact update_mapOf_none hA
    | some ord =>
      refine ⟨_, rfl, ?_⟩
      rw [mapOf_some hA]
      exact h.expiry_step hA (h.laid.expLen x hx) (fun o => by rw [expByOrd, hx]) 0 none

theorem Inv.reap_step (now : Nat) :
    ∃ g, Op.run hash f (.reap now) = some g ∧ Stepped hash keep f g (Op.spec (f.mapOf A) (.reap now)) none := by
  unfold Op.run Op.spec
  dsimp only
  rw [FTable.reap]
  cases hx : f.exp with
  | none =>
    refine ⟨f, rfl, h.stay (h.reaped_self fun o _ hdue => hdue.1 ?_).symm none⟩
    rw [expByOrd, hx]
  | some x =>
    obtain ⟨g, n, B, heq, hinv, hmap, hstreams, hents, hrecs⟩ := Inv.reapLoop now f.vec.length 0 0 h (by omega) (by simp)
    exact ⟨g, by dsimp only; rw [heq]; rfl, ⟨B, hinv, hmap⟩, hstreams, .inl hents,
      fun o ho => ⟨(hrecs o ho).1, .inl (hrecs o ho).2⟩⟩

theorem Inv.step (op : Op) (hents : f.ents.length < 2 ^ 32) (hfits : op.Fits f) :
    ∃ g, op.run hash f = some g ∧ Stepped hash keep f g (op.spec (f.mapOf A))
      (op.target.bind fun t => (A t.1).map (·, t.2)) := by
  cases op with
  | set k v => exact h.set_step hents hfits
  | setNX k v => exact h.setNX_step hents hfits
  | overwrite k v => exact h.overwriteOp_step hfits
  | del k => exact h.del_step k
  | setFieldExp k e => exact h.setFieldExp_step k e
  | clearFieldExp k => exact h.clearFieldExp_step k
  | reap now => exact h.reap_step now

end

/-- The state of a table that no enumeration reads: freed records are reused, so there are few of them. -/
structure Sound (hash : Bytes → Nat) (f : FTable) (M : FieldMap) : Prop where
  streams : f.streams = 0
  ents : f.ents.length ≤ 2 ^ 28
  inv : ∃ A, f.Inv hash [] A ∧ f.mapOf A = M

variable {M : FieldMap}

theorem Op.run_sound (op : Op) (h : f.Sound hash M) (hfits : op.Fits f) :
    ∃ g, op.run hash f = some g ∧ g.Sound hash (op.spec M) := by
  obtain ⟨A, hinv, rfl⟩ := h.inv
  have hents := h.ents
  obtain ⟨g, heq, hs⟩ := hinv.step op (by omega) hfits
  refine ⟨g, heq, hs.streams.trans h.streams, ?_, hs.inv⟩
  rcases hs.ents with hsame | ⟨hnew, hcard, hfree⟩
  · omega
  -- the pool was empty, so the records are exactly the live ones
  · have htotal := hinv.laid.total
    have hlive := hinv.card_eq
    rw [hfree h.streams, List.length_nil] at htotal
    omega

theorem newFtable_sound (hash : Bytes → Nat) {hint : Nat} (h : newFtable hint = some f) : f.Sound hash fun _ => none := by
  obtain ⟨tbl, htbl, rfl⟩ := Option.map_eq_some_iff.mp h
  refine ⟨rfl, Nat.zero_le _, fun _ => none, ⟨?_, Table.makeTable_holds htbl, fun k o => by simp⟩, rfl⟩
  exact ⟨by simp, by simp, rfl, by simp, by simp, by simp, by simp, by simp, by simp, by simp, by simp, by simp, Int.le_refl 0,
    by simp⟩

/-- A table and the map it should be, after a run of operations that all meet `C`. -/
inductive Run (hash : Bytes → Nat) (C : FTable → Op → Prop) : FTable → FieldMap → Prop
  | new {f : FTable} (hint : Nat) : newFtable hint = some f → Run hash C f fun _ => none
  | step {f g : FTable} {M : FieldMap} (op : Op) : Run hash C f M → C f op → op.run hash f = some g → Run hash C g (op.spec M)

/-- The reads answer as the map does, and the next operation ends if it meets `C`. -/
structure Agrees (hash : Bytes → Nat) (C : FTable → Op → Prop) (f : FTable) (M : FieldMap) : Prop where
  get : ∀ k, f.get hash k = some ((M k).map Prod.fst)
  has : ∀ k, f.has hash k = some (M k).isSome
  strlen : ∀ k, f.strlen hash k = some (((M k).map fun x => x.1.length).getD 0)
  fieldExp : ∀ k, f.fieldExp hash k = some (((M k).map Prod.snd).getD 0)
  each : (f.each.map Prod.fst).Nodup ∧ ∀ k v, (k, v) ∈ f.each ↔ ∃ e, M k = some (v, e)
  card : f.card = f.each.length
  slots : ∀ k o, f.find hash k = some (some o) → f.vec[(f.ent o).vslot]? = some o
  bytes : (f.slab.length : Int) - f.dead = (f.each.map fun x => x.1.length + x.2.length).sum
  ends : ∀ op, C f op → ∃ g, op.run hash f = some g

theorem Sound.agrees (h : f.Sound hash M) : f.Agrees hash (fun f op => op.Fits f) M := by
  obtain ⟨A, hinv, rfl⟩ := h.inv
  have hlen : ∀ o ∈ f.vec, (f.fieldByOrd o).length = (f.ent o).flen ∧ (f.valueByOrd o).length = (f.ent o).vlen :=
    fun o ho => ⟨slice_length (hinv.laid.field o (List.mem_append_left _ ho)),
      slice_length (hinv.laid.value o (List.mem_append_left _ ho))⟩
  refine ⟨fun k => ?_, fun k => ?_, fun k => ?_, fun k => ?_, ⟨?_, fun k v => ?_⟩, ?_, fun k o hfind => ?_, ?_, fun op hfits => ?_⟩
  · rw [FTable.get, hinv.find_eq, mapOf, Option.map_map]
    rfl
  · rw [FTable.has, hinv.find_eq, mapOf, Option.isSome_map]
    rfl
  · rw [FTable.strlen, hinv.find_eq, mapOf, Option.map_map]
    cases hA : A k with
    | none => rfl
    | some o => exact congrArg some (hlen o ((hinv.index k o).mp hA).1).2.symm
  · rw [FTable.fieldExp, hinv.find_eq, mapOf, Option.map_map]
    cases hx : f.exp with
    | none =>
      cases A k with
      | none => rfl
      | some o =>
        show some 0 = some (f.expByOrd o)
        rw [expByOrd, hx]
    | some x => cases A k <;> rfl
  · rw [FTable.each, List.map_map]
    refine (List.nodup_map_iff_inj_on (List.nodup_append.mp hinv.laid.nodup).1).mpr fun o ho o' ho' heq => ?_
    have h1 := (hinv.index (f.fieldByOrd o) o).mpr ⟨ho, rfl⟩
    have h2 := (hinv.index (f.fieldByOrd o) o').mpr ⟨ho', heq.symm⟩
    exact Option.some.inj (h1.symm.trans h2)
  · rw [FTable.each, List.mem_map]
    constructor
    · rintro ⟨o, ho, heq⟩
      obtain ⟨rfl, rfl⟩ := Prod.mk.inj heq
      exact ⟨f.expByOrd o, by rw [mapOf, (hinv.index _ o).mpr ⟨ho, rfl⟩]; rfl⟩
    · rintro ⟨e, he⟩
      obtain ⟨o, hA, heq⟩ := Option.map_eq_some_iff.mp he
      obtain ⟨ho, hfield⟩ := (hinv.index k o).mp hA
      exact ⟨o, ho, by rw [hfield, (Prod.mk.inj heq).1]⟩
  · rw [hinv.card_eq, FTable.each, List.length_map]
  · rw [hinv.find_eq] at hfind
    obtain ⟨i, hi⟩ := List.mem_iff_getElem?.mp ((hinv.index k o).mp (Option.some.inj hfind)).1
    rw [hinv.laid.slot i o hi, hi]
  · have hsum : (f.each.map fun x => x.1.length + x.2.length).sum = (f.vec.map f.size).sum := by
      rw [FTable.each, List.map_map]
      refine congrArg List.sum (List.map_congr_left fun o ho => ?_)
      show (f.fieldByOrd o).length + (f.valueByOrd o).length = _
      rw [(hlen o ho).1, (hlen o ho).2]
      rfl
    have := hinv.laid.bytes
    rw [hsum]
    omega
  · obtain ⟨g, heq, -⟩ := op.run_sound h hfits
    exact ⟨g, heq⟩

theorem Run.sound (h : Run hash (fun f op => op.Fits f) f M) : f.Sound hash M := by
  induction h with
  | new hint hnew => exact newFtable_sound hash hnew
  | step op _ hfits heq ih =>
    obtain ⟨g, hg, hs⟩ := op.run_sound ih hfits
    obtain rfl := Option.some.inj (hg.symm.trans heq)
    exact hs

/-- In every run whose lengths and offsets fit their widths, the band is a map from fields to values and expiries. -/
theorem run_is_field_map (hash : Bytes → Nat) (f : FTable) (M : FieldMap) (h : Run hash (fun f op => op.Fits f) f M) :
    f.Agrees hash (fun f op => op.Fits f) M := h.sound.agrees

theorem Run.ops {C : FTable → Op → Prop} [∀ f op, Decidable (C f op)] : ∀ (ops : List Op) {f g : FTable} {M : FieldMap}, Run hash C f M →
    ops.foldlM (fun f op => if C f op then op.run hash f else none) f = some g → Run hash C g (ops.foldl Op.spec M)
  | [], _, _, _, h, hg => Option.some.inj hg ▸ h
  | op :: ops, f, _, _, h, hg => by
    obtain ⟨f₁, h₁, hg⟩ := Option.bind_eq_some_iff.mp hg
    obtain ⟨hC, h₁⟩ := Option.ite_none_right_eq_some.mp h₁
    exact Run.ops ops (h.step op hC h₁) hg

/-- Under one hash for all, two fields collide, and a third takes the slot of the first. -/
def reusedSlot : List Op := [.set [1] [10], .set [2] [20], .del [1], .set [3] [30]]

def reused : FTable := ⟨⟨0 :: 0 :: List.replicate 6 ctrlEmpty, 0 :: 1 :: List.replicate 6 0, 8, 2, 0⟩,
  [⟨4, 5, 1, 1, 1⟩, ⟨2, 3, 0, 1, 1⟩], [1, 10, 2, 20, 3, 30], [1, 0], [], 2, 0, none⟩

theorem run_reused : Run (fun _ => 0) (fun f op => op.Fits f) reused (reusedSlot.foldl Op.spec fun _ => none) :=
  Run.ops reusedSlot (.new 1 rfl) (by decide +kernel)

theorem reused_slot_is_field_map : reused.Agrees (fun _ => 0) (fun f op => op.Fits f) (reusedSlot.foldl Op.spec fun _ => none) :=
  run_is_field_map _ _ _ run_reused

/-- A field of 65536 bytes is recorded with length 0. -/
theorem field_of_65536_recorded_empty (hash : Bytes → Nat) : ∃ f M, Run hash (fun _ _ => True) f M ∧
    M (List.replicate 65536 0) = some ([], 0) ∧ ∀ o, f.fieldByOrd o = [] := by
  obtain ⟨f₀, hf₀⟩ : ∃ f₀ : FTable, f₀ = ⟨Table.init 8, [], [], [], [], 0, 0, none⟩ := ⟨_, rfl⟩
  have hnew : newFtable 0 = some f₀ := by rw [hf₀]; rfl
  have hlen : (List.replicate 65536 (0 : UInt8)).length = 65536 := List.length_replicate
  generalize List.replicate 65536 (0 : UInt8) = long at hlen
  obtain ⟨A, hinv, hM⟩ := (newFtable_sound hash hnew).inv
  have hA : ∀ k, A k = none := fun k => Option.map_eq_none_iff.mp (congrFun hM k)
  have hents : (f₀.newRecord long []).1.ents = [⟨0, 65536, 0, 0, 0⟩] := by
    have hflen : long.length % 2 ^ 16 = 0 := by omega
    have hvoff : (0 + long.length) % 2 ^ 32 = 65536 := by omega
    rw [hf₀]
    show [(⟨0, (0 + long.length) % 2 ^ 32, 0, long.length % 2 ^ 16, 0⟩ : FEntry)] = _
    rw [hflen, hvoff]
  have htbl : (f₀.newRecord long []).1.tbl = f₀.tbl := by rw [hf₀]; rfl
  obtain ⟨tbl, hins, -⟩ := hinv.table.insert_spec (s := (f₀.newRecord long []).1.members hash)
    (fun k o ho => absurd ho (by simp [hA])) (hA long) (by rw [hf₀]; decide) (f₀.newRecord long []).2
  obtain ⟨f, hf⟩ : ∃ f : FTable, f = { (f₀.newRecord long []).1 with tbl := tbl } := ⟨_, rfl⟩
  have hrun : Op.run hash f₀ (.set long []) = some f := by
    unfold Op.run FTable.set
    dsimp only
    rw [hinv.find_eq, hA, Option.bind_some, FTable.addField]
    dsimp only
    rw [htbl, hins, hf]
    rfl
  refine ⟨f, _, .step (.set long []) (.new 0 hnew) trivial hrun, ?_, fun o => ?_⟩
  · rw [Op.spec, Function.update_self]
    rfl
  · have hflen : (f.ent o).flen = 0 := by
      rw [ent, hf, hents]
      cases o <;> rfl
    rw [fieldByOrd, hflen]
    rfl

/-- No probe finds the field of 65536 bytes again. -/
theorem field_of_65536_lost (hash : Bytes → Nat) : ∃ f M, Run hash (fun _ _ => True) f M ∧
    M (List.replicate 65536 0) = some ([], 0) ∧ (∀ v, f.get hash (List.replicate 65536 0) ≠ some (some v)) ∧
    ∀ C, ¬ f.Agrees hash C M := by
  obtain ⟨f, M, hrun, hM, hfield⟩ := field_of_65536_recorded_empty hash
  have hlen : (List.replicate 65536 (0 : UInt8)).length = 65536 := List.length_replicate
  generalize List.replicate 65536 (0 : UInt8) = long at hlen hM
  have hlost : ∀ v, f.get hash long ≠ some (some v) := by
    intro v hget
    obtain ⟨r, hr, hmap⟩ := Option.map_eq_some_iff.mp hget
    obtain ⟨o, rfl, -⟩ := Option.map_eq_some_iff.mp hmap
    refine Table.find_noMatch (fun o => ?_) o hr
    show (f.fieldByOrd o == long) = false
    rw [hfield, beq_eq_false_iff_ne]
    rintro rfl
    exact absurd hlen (by decide)
  refine ⟨f, M, hrun, hM, hlost, fun C hagree => ?_⟩
  have hget := hagree.get long
  rw [hM] at hget
  exact hlost [] hget

theorem long_field_lost : ∃ f M, Run (fun _ => 0) (fun _ _ => True) f M ∧
    M (List.replicate 65536 0) = some ([], 0) ∧ (∀ v, f.get (fun _ => 0) (List.replicate 65536 0) ≠ some (some v)) ∧
    ∀ C, ¬ f.Agrees (fun _ => 0) C M := field_of_65536_lost _

end FTable

end Aki
