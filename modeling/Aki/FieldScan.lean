import Aki.DownScan
import Aki.FieldTableMap

namespace Aki.FTable

open Slab DownScan

/-- One `HSCAN` page: the next cursor, and the pairs examined whose field passes `MATCH`. -/
def scanPage (f : FTable) (cursor count : Nat) (isMatch : Bytes → Bool) : Nat × List (Bytes × Bytes) :=
  let r := page f.each cursor count
  (r.1, r.2.filter fun x => isMatch x.1)

def fields (f : FTable) : List Bytes := f.vec.map f.fieldByOrd

variable {hash : Bytes → Nat} {f g : FTable} {keep : List Nat} {A : Table.KeyMap Bytes} {field value k : Bytes} {ord : Nat}

theorem fields_eq (f : FTable) : f.fields = f.each.map Prod.fst := by
  rw [fields, each, List.map_map]
  rfl

theorem Inv.mem_fields (h : f.Inv hash keep A) : k ∈ f.fields ↔ f.mapOf A k ≠ none := by
  rw [fields, List.mem_map, mapOf, ne_eq, Option.map_eq_none_iff, ← ne_eq, Option.ne_none_iff_exists']
  exact exists_congr fun o => (h.index k o).symm

theorem fields_congr (hvec : g.vec = f.vec) (hfield : ∀ o ∈ f.vec, g.fieldByOrd o = f.fieldByOrd o) : g.fields = f.fields := by
  rw [fields, hvec]
  exact List.map_congr_left hfield

theorem Inv.overwrite_fields (h : f.Inv hash keep A) (hk : A field = some ord) (hroom : f.slab.length + value.length < 2 ^ 32) :
    (f.overwrite ord value).fields = f.fields := by
  have hw := h.laid.overwrite ((h.index field ord).mp hk).1 hroom
  exact fields_congr hw.index.vec fun o ho => hw.field o (List.mem_append_left _ ho)

theorem Inv.addField_fields (h : f.Inv hash keep A) (hents : f.ents.length < 2 ^ 32)
    (hfits : field.length < 2 ^ 16 ∧ f.slab.length + field.length + value.length < 2 ^ 32 ∧ f.card < 2 ^ 28)
    (hg : f.addField hash field value = some g) : g.fields = f.fields ++ [field] := by
  have ha := h.laid.newRecord field value hfits.1 hfits.2.1 hents
  obtain ⟨tbl, -, rfl⟩ := Option.map_eq_some_iff.mp hg
  show (f.newRecord field value).1.vec.map (f.newRecord field value).1.fieldByOrd = _
  rw [ha.vec, List.map_append, List.map_singleton, ha.field]
  exact congrArg (· ++ [field]) (List.map_congr_left fun o ho => (ha.recs o (List.mem_append_left _ ho)).1)

theorem Inv.removeOrd_falls (h : f.Inv hash keep A) (hk : A field = some ord) {tbl : Table}
    (htbl : tbl.Holds hash (Function.update A field none)) :
    Falls f.fields (({ f with tbl := tbl } : FTable).removeOrd ord).fields ∧
    ∀ k ∈ (({ f with tbl := tbl } : FTable).removeOrd ord).fields, k ∈ f.fields := by
  obtain ⟨hr, -, -⟩ := h.removeOrd hk htbl
  have hvec : _ = (f.vec.set (f.ent ord).vslot (f.vec.getD (f.vec.length - 1) 0)).take (f.vec.length - 1) := hr.vec
  have hperm : f.vec.Perm (ord :: _) := hr.perm
  generalize ({ f with tbl := tbl } : FTable).removeOrd ord = g at hr hvec hperm
  have hrecs : ∀ o ∈ g.vec, g.fieldByOrd o = f.fieldByOrd o := fun o ho => (hr.recs o (List.mem_append_left _ ho)).1
  have hsub : ∀ o ∈ g.vec, o ∈ f.vec := fun o ho => hperm.mem_iff.mpr (List.mem_cons_of_mem _ ho)
  constructor
  · intro i k hi hmem
    obtain ⟨o, ho, hfo⟩ := List.mem_map.mp hmem
    rw [hrecs o ho] at hfo
    rw [fields, List.getElem?_map] at hi
    obtain ⟨o', ho', hfo'⟩ := Option.map_eq_some_iff.mp hi
    -- one record has the field before and after
    have hsame : o' = o := Option.some.inj
      (((h.index k o').mpr ⟨List.mem_of_getElem? ho', hfo'⟩).symm.trans ((h.index k o).mpr ⟨hsub o ho, hfo⟩))
    subst hsame
    obtain ⟨j, hj⟩ := List.mem_iff_getElem?.mp ho
    refine ⟨j, ?_, by rw [fields, List.getElem?_map, hj, Option.map_some, hrecs o' ho, hfo]⟩
    have hslot := h.laid.slot i o' ho'
    rw [hvec] at hj
    obtain ⟨hlt, ⟨-, hlast⟩ | ⟨-, hj⟩⟩ := swapRemove_get hj
    · have hpos : f.vec.length - 1 < f.vec.length := by omega
      have hget : f.vec[f.vec.length - 1]? = some o' := by
        rw [hlast, List.getD_eq_getElem?_getD, List.getElem?_eq_getElem hpos]
        rfl
      have := h.laid.slot _ o' hget
      omega
    · have := h.laid.slot j o' hj
      omega
  · intro k hk
    obtain ⟨o, ho, hfo⟩ := List.mem_map.mp hk
    exact List.mem_map.mpr ⟨o, hsub o ho, (hrecs o ho).symm.trans hfo⟩

theorem Inv.reapLoop_falls (now : Nat) : ∀ (fuel i next : Nat) {f : FTable} {A : Table.KeyMap Bytes} {g : FTable} {n : Nat},
    f.Inv hash keep A → FTable.reapLoop hash now fuel i next f = some (g, n) →
      Falls f.fields g.fields ∧ ∀ k ∈ g.fields, k ∈ f.fields
  | 0, i, next, f, A, g, n, _, hg => by
    obtain ⟨rfl, -⟩ := Prod.mk.inj (Option.some.inj hg)
    exact ⟨Falls.of_eq rfl, fun _ hk => hk⟩
  | fuel + 1, i, next, f, A, g, n, h, hg => by
    rw [FTable.reapLoop] at hg
    split at hg
    · next hi =>
      dsimp only at hg
      split at hg
      · have ho : f.vec.getD i 0 ∈ f.vec := by
          rw [List.getD_eq_getElem?_getD, List.getElem?_eq_getElem hi]
          exact List.getElem_mem hi
        have hA := (h.index (f.fieldByOrd (f.vec.getD i 0)) (f.vec.getD i 0)).mpr ⟨ho, rfl⟩
        obtain ⟨tbl, hdel, htbl⟩ := h.delete_spec (f.fieldByOrd (f.vec.getD i 0))
        rw [hdel, Option.bind_some] at hg
        obtain ⟨hfall, hsub⟩ := h.removeOrd_falls hA htbl
        obtain ⟨hfall', hsub'⟩ := reapLoop_falls now fuel i next (h.removeOrd hA htbl).2.1 hg
        exact ⟨hfall.trans hfall' hsub', fun k hk => hsub k (hsub' k hk)⟩
      · exact reapLoop_falls now fuel (i + 1) _ h hg
    · obtain ⟨rfl, -⟩ := Prod.mk.inj (Option.some.inj hg)
      exact ⟨Falls.of_eq rfl, fun _ hk => hk⟩

/-- No operation moves a field that stays up the draw vector. -/
theorem Inv.op_falls (h : f.Inv hash keep A) (op : Op) (hents : f.ents.length < 2 ^ 32) (hfits : op.Fits f)
    (hg : op.run hash f = some g) : Falls f.fields g.fields := by
  cases op with
  | set field value =>
    rw [Op.run, FTable.set, h.find_eq, Option.bind_some] at hg
    cases hA : A field with
    | none =>
      rw [hA] at hg
      dsimp only at hg
      rw [Option.map_map] at hg
      obtain ⟨g', hg', rfl⟩ := Option.map_eq_some_iff.mp hg
      exact h.addField_fields hents hfits hg' ▸ Falls.append _ _
    | some ord =>
      rw [hA] at hg
      obtain rfl := Option.some.inj hg
      exact Falls.of_eq (h.overwrite_fields hA (by have := hfits.2.1; omega))
  | setNX field value =>
    rw [Op.run, FTable.setNX, h.find_eq, Option.bind_some] at hg
    cases hA : A field with
    | none =>
      rw [hA] at hg
      dsimp only at hg
      rw [Option.map_map] at hg
      obtain ⟨g', hg', rfl⟩ := Option.map_eq_some_iff.mp hg
      exact h.addField_fields hents hfits hg' ▸ Falls.append _ _
    | some ord =>
      rw [hA] at hg
      obtain rfl := Option.some.inj hg
      exact Falls.of_eq rfl
  | overwrite field value =>
    rw [Op.run, h.find_eq, Option.map_some] at hg
    cases hA : A field with
    | none =>
      rw [hA] at hg
      obtain rfl := Option.some.inj hg
      exact Falls.of_eq rfl
    | some ord =>
      rw [hA] at hg
      obtain rfl := Option.some.inj hg
      exact Falls.of_eq (h.overwrite_fields hA hfits)
  | del field =>
    obtain ⟨tbl, hdel, htbl⟩ := h.delete_spec field
    rw [Op.run, FTable.del, hdel] at hg
    cases hA : A field with
    | none =>
      rw [hA] at hg
      obtain rfl := Option.some.inj hg
      exact Falls.of_eq rfl
    | some ord =>
      rw [hA] at hg
      obtain rfl := Option.some.inj hg
      exact (h.removeOrd_falls hA htbl).1
  | setFieldExp field e =>
    rw [Op.run, FTable.setFieldExp, h.find_eq] at hg
    cases hA : A field with
    | none =>
      rw [hA] at hg
      obtain rfl := Option.some.inj hg
      exact Falls.of_eq rfl
    | some ord =>
      rw [hA] at hg
      obtain rfl := Option.some.inj hg
      exact Falls.of_eq rfl
  | clearFieldExp field =>
    rw [Op.run, FTable.clearFieldExp, h.find_eq] at hg
    cases hx : f.exp with
    | none =>
      rw [hx] at hg
      obtain rfl := Option.some.inj hg
      exact Falls.of_eq rfl
    | some x =>
      rw [hx] at hg
      cases hA : A field with
      | none =>
        rw [hA] at hg
        obtain rfl := Option.some.inj hg
        exact Falls.of_eq rfl
      | some ord =>
        rw [hA] at hg
        obtain rfl := Option.some.inj hg
        exact Falls.of_eq rfl
  | reap now =>
    rw [Op.run, FTable.reap] at hg
    cases hx : f.exp with
    | none =>
      rw [hx] at hg
      obtain rfl := Option.some.inj hg
      exact Falls.of_eq rfl
    | some x =>
      rw [hx] at hg
      obtain ⟨r, hr, rfl⟩ := Option.map_eq_some_iff.mp hg
      exact (Inv.reapLoop_falls now _ _ _ h hr).1

/-- A scan between two pages: the table, the map it should be, the cursor to resume from, what the pages returned, and whether
one of them returned cursor 0. -/
structure Scan where
  table : FTable
  map : FieldMap
  cursor : Nat
  returned : List Bytes
  finished : Bool

def Scan.page (s : Scan) (count : Nat) (isMatch : Bytes → Bool) : Scan :=
  let r := s.table.scanPage s.cursor count isMatch
  { s with cursor := r.1, returned := s.returned ++ r.2.map Prod.fst, finished := r.1 == 0 }

/-- A scan from cursor 0 over a table that holds `field` throughout, its pages passing the field and each of at least one
position, between them any operations that meet `C`. -/
inductive Scans (hash : Bytes → Nat) (C : FTable → Op → Prop) (field : Bytes) : Scan → Prop
  | start {f : FTable} {M : FieldMap} : Run hash C f M → M field ≠ none → Scans hash C field ⟨f, M, 0, [], false⟩
  | op {s : Scan} {g : FTable} (op : Op) : Scans hash C field s → C s.table op → op.run hash s.table = some g →
      op.spec s.map field ≠ none → Scans hash C field { s with table := g, map := op.spec s.map }
  | page {s : Scan} (count : Nat) (isMatch : Bytes → Bool) : Scans hash C field s → s.finished = false → 1 ≤ count →
      isMatch field = true → Scans hash C field (s.page count isMatch)

/-- The field has been returned or is still ahead of the cursor. -/
structure Scan.Covers (hash : Bytes → Nat) (s : Scan) (field : Bytes) : Prop where
  sound : s.table.Sound hash s.map
  present : s.map field ≠ none
  covered : field ∈ s.returned ∨ s.finished = false ∧ Ahead s.table.fields s.cursor field

theorem Scan.Covers.op {s : Scan} (h : s.Covers hash field) (op : Op) (hfits : op.Fits s.table) (hg : op.run hash s.table = some g)
    (hpresent : op.spec s.map field ≠ none) : Scan.Covers hash { s with table := g, map := op.spec s.map } field := by
  obtain ⟨g', hg', hsound⟩ := op.run_sound h.sound hfits
  obtain rfl := Option.some.inj (hg'.symm.trans hg)
  refine ⟨hsound, hpresent, h.covered.imp_right fun ⟨hopen, hahead⟩ => ⟨hopen, ?_⟩⟩
  obtain ⟨A, hinv, -⟩ := h.sound.inv
  obtain ⟨B, hinv', hmap⟩ := hsound.inv
  have hents := h.sound.ents
  exact hahead.falls (hinv.op_falls op (by omega) hfits hg) (hinv'.mem_fields.mpr (hmap ▸ hpresent))

theorem Scan.Covers.page {s : Scan} (h : s.Covers hash field) (count : Nat) {isMatch : Bytes → Bool} (hmatch : isMatch field = true) :
    (s.page count isMatch).Covers hash field := by
  refine ⟨h.sound, h.present, ?_⟩
  rcases h.covered with hret | ⟨-, hahead⟩
  · exact .inl (List.mem_append_left _ hret)
  · have hpage := @Ahead.page _ _ _ _ count hahead
    rw [fields_eq, page_map] at hpage
    rcases hpage with hmem | ⟨i, hi, hget⟩
    · obtain ⟨x, hx, rfl⟩ := List.mem_map.mp hmem
      exact .inl (List.mem_append_right _ (List.mem_map_of_mem (List.mem_filter.mpr ⟨hx, hmatch⟩)))
    · refine .inr ⟨beq_false_of_ne (Nat.ne_of_gt (Nat.zero_lt_of_lt hi)), .inr ⟨i, hi, ?_⟩⟩
      rwa [← fields_eq] at hget

/-- In every run whose lengths and offsets fit their widths, a finished scan has returned every field present throughout. -/
theorem scan_returns_stable_field (hash : Bytes → Nat) (field : Bytes) (s : Scan)
    (h : Scans hash (fun f op => op.Fits f) field s) (hfin : s.finished = true) : field ∈ s.returned := by
  have hcov : s.Covers hash field := by
    clear hfin
    induction h with
    | start hrun hpresent =>
      obtain ⟨A, hinv, hmap⟩ := hrun.sound.inv
      exact ⟨hrun.sound, hpresent, .inr ⟨rfl, .inl ⟨rfl, hinv.mem_fields.mpr (hmap ▸ hpresent)⟩⟩⟩
    | op op _ hfits hg hpresent ih => exact ih.op op hfits hg hpresent
    | page count isMatch _ _ _ hmatch ih => exact ih.page count hmatch
  exact hcov.covered.resolve_right fun h => by rw [hfin] at h; cases h.1

theorem Scan.page_finished (s : Scan) {count : Nat} (isMatch : Bytes → Bool) (h : s.table.vec.length ≤ count) :
    (s.page count isMatch).finished = true :=
  beq_iff_eq.mpr (page_eq_zero (by rwa [each, List.length_map]))

/-- Behind a page of one position a field is set and the one returned deleted, and a second page goes to the end. -/
theorem interleaved_scan_returns : ∃ s, Scans (fun _ => 0) (fun f op => op.Fits f) [2] s ∧ s.finished = true ∧ [2] ∈ s.returned := by
  obtain ⟨g, hg⟩ := Option.isSome_iff_exists.mp (by decide +kernel :
    ((Op.run (fun _ => 0) reused (.set [4] [40])).bind fun f => Op.run (fun _ => 0) f (.del [3])).isSome = true)
  obtain ⟨f, hf, hg⟩ := Option.bind_eq_some_iff.mp hg
  have h0 : Scans (fun _ => 0) (fun f op => op.Fits f) [2] _ := Scans.start run_reused (by decide +kernel)
  have h1 := h0.page 1 (fun _ => true) rfl (Nat.le_refl 1) rfl
  have h2 := h1.op (.set [4] [40]) (show Op.Fits reused _ by decide +kernel) hf (by decide +kernel)
  have h3 := h2.op (.del [3]) trivial hg
    (show Op.spec (Op.spec (reusedSlot.foldl Op.spec fun _ => none) (.set [4] [40])) (.del [3]) [2] ≠ none by decide +kernel)
  have h4 := h3.page (g.vec.length + 1) (fun _ => true)
    (show (Scan.page ⟨reused, fun _ => none, 0, [], false⟩ 1 fun _ => true).finished = false by decide +kernel) (Nat.le_add_left 1 _) rfl
  refine ⟨_, h4, ?_, scan_returns_stable_field _ _ _ h4 ?_⟩
  · exact Scan.page_finished _ _ (Nat.le_succ _)
  · exact Scan.page_finished _ _ (Nat.le_succ _)

/-- The scan of a table with a field of 65536 bytes returns an empty field in its place. -/
theorem long_field_not_scanned : ∃ s, Scans (fun _ => 0) (fun _ _ => True) (List.replicate 65536 0) s ∧ s.finished = true ∧
    List.replicate 65536 0 ∉ s.returned := by
  obtain ⟨f, M, hrun, hM, hfield⟩ := field_of_65536_recorded_empty fun _ => 0
  have hne : List.replicate 65536 (0 : UInt8) ≠ [] := fun h => by
    have := congrArg List.length h
    rw [List.length_replicate] at this
    exact absurd this (by decide)
  generalize List.replicate 65536 (0 : UInt8) = long at hM hne
  have hscan := (Scans.start hrun (by rw [hM]; simp) : Scans _ _ long _).page (f.vec.length + 1) (fun _ => true) rfl (Nat.le_add_left 1 _) rfl
  refine ⟨_, hscan, Scan.page_finished _ _ (Nat.le_succ _), fun hmem => hne ?_⟩
  obtain ⟨x, hx, rfl⟩ := List.mem_map.mp ((List.mem_append.mp hmem).resolve_left List.not_mem_nil)
  obtain ⟨o, -, rfl⟩ := List.mem_map.mp (mem_of_mem_page (List.mem_filter.mp hx).1)
  exact hfield o

end Aki.FTable
