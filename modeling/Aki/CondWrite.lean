import Mathlib.Data.List.Basic

namespace Aki.Obs1

/-- The identity a write leaves on an object: the node and the number it wrote at, nothing of its bytes. -/
structure WriteTag where
  writer : Nat
  batch : Nat
deriving DecidableEq

structure Stored (β : Type) where
  tag : WriteTag
  body : β
deriving DecidableEq

/-- How a conditional create meets the wire: answered, cut off before or after the store took it, or failed outright. -/
inductive Wire
  | answered
  | cut (there : Bool)
  | fault
deriving DecidableEq

/-- How a create ends: stored now, or resolved by the recheck of a refused or unanswered one. -/
inductive PutEnd
  | stored
  | ours
  | other
deriving DecidableEq

section

variable {β : Type}

def putIfAbsent (cell : Option (Stored β)) (o : Stored β) : Option (Stored β) := some (cell.getD o)

/-- `Recheck` compares tags; with nothing there, or no answer, the same create goes again. -/
def recheck (cell : Option (Stored β)) (tag : WriteTag) (rereads : Bool) : Option PutEnd :=
  if rereads then cell.map fun st => if st.tag = tag then .ours else .other else none

/-- One round of a conditional create on its key's object, with its end when the round is the last. -/
def putRound (cell : Option (Stored β)) (o : Stored β) (wire : Wire) (rereads : Bool) : Option (Stored β) × Option PutEnd :=
  match wire with
  | .answered => if cell.isSome then (cell, recheck cell o.tag rereads) else (some o, some .stored)
  | .cut there =>
    let cell' := if there then putIfAbsent cell o else cell
    (cell', recheck cell' o.tag rereads)
  | .fault => (cell, none)

/-- What a round leaves under the key, and what stands there when it ends the create. -/
structure Rounded (cell : Option (Stored β)) (o : Stored β) (r : Option (Stored β) × Option PutEnd) : Prop where
  cell_eq : r.1 = cell ∨ (cell = none ∧ r.1 = some o)
  stored : r.2 = some .stored → r.1 = some o
  ours : r.2 = some .ours → ∃ st, r.1 = some st ∧ st.tag = o.tag
  other : r.2 = some .other → ∃ st, r.1 = some st ∧ st.tag ≠ o.tag

theorem recheck_eq_some {cell : Option (Stored β)} {tag : WriteTag} {rereads : Bool} {e : PutEnd}
    (h : recheck cell tag rereads = some e) : ∃ st, cell = some st ∧ e = if st.tag = tag then .ours else .other := by
  unfold recheck at h
  split at h
  · obtain ⟨st, hst, he⟩ := Option.map_eq_some_iff.mp h
    exact ⟨st, hst, he.symm⟩
  · cases h

theorem Rounded.of_recheck {cell cell' : Option (Stored β)} {o : Stored β} (h : cell' = cell ∨ (cell = none ∧ cell' = some o))
    (rereads : Bool) : Rounded cell o (cell', recheck cell' o.tag rereads) := by
  refine ⟨h, ?_, ?_, ?_⟩
  · intro he
    obtain ⟨st, -, hend⟩ := recheck_eq_some he
    split at hend <;> cases hend
  · intro he
    obtain ⟨st, hst, hend⟩ := recheck_eq_some he
    refine ⟨st, hst, ?_⟩
    by_contra hne
    rw [if_neg hne] at hend
    cases hend
  · intro he
    obtain ⟨st, hst, hend⟩ := recheck_eq_some he
    refine ⟨st, hst, ?_⟩
    intro heq
    rw [if_pos heq] at hend
    cases hend

theorem putRound_spec (cell : Option (Stored β)) (o : Stored β) (wire : Wire) (rereads : Bool) :
    Rounded cell o (putRound cell o wire rereads) := by
  cases wire with
  | answered =>
    unfold putRound
    dsimp only
    split
    · exact Rounded.of_recheck (Or.inl rfl) rereads
    next hnone =>
      have hcell : cell = none := by simpa using hnone
      exact ⟨Or.inr ⟨hcell, rfl⟩, (fun _ => rfl), (fun h => nomatch h), (fun h => nomatch h)⟩
  | cut there =>
    refine Rounded.of_recheck ?_ rereads
    split
    · cases cell with
      | none => exact Or.inr ⟨rfl, rfl⟩
      | some st => exact Or.inl rfl
    · exact Or.inl rfl
  | fault => exact ⟨Or.inl rfl, (fun h => nomatch h), (fun h => nomatch h), (fun h => nomatch h)⟩

theorem putRound_own (cell : Option (Stored β)) (o : Stored β) (h : ∀ st, cell = some st → st.tag = o.tag) :
    (putRound cell o .answered true).1 = some (cell.getD o) ∧
      ((putRound cell o .answered true).2 = some .stored ∨ (putRound cell o .answered true).2 = some .ours) := by
  cases cell with
  | none => exact ⟨rfl, Or.inl rfl⟩
  | some st => exact ⟨rfl, Or.inr (by simp [putRound, recheck, h st rfl])⟩

end

end Aki.Obs1
