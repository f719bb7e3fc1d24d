import TreeCompiler.Asm.Frame
import TreeCompiler.Proofs.Code.WellFormed

namespace TreeCompiler

namespace Asm.Frame

open Code

variable {fr fr' : Frame} {o o' : Operand} {offset : Int}

/-- Temporaries with a number that is not negative and variables have slots of their own. -/
theorem slot?_of_isStorage (hstorage : Operand.isStorage (some o) = true)
    (htemp : ∀ t, o = .temp t → 0 ≤ t.id) : ∃ s, slot? o = .ok (some s) := by
  cases o with
  | temp t =>
    have hid := htemp t rfl
    refine ⟨.temp t.id.toNat, ?_⟩
    simp [slot?, BitSet.key, show ¬ t.id < 0 by omega, Except.map]
  | var name => exact ⟨.var name, rfl⟩
  | const c => cases hstorage
  | label name => cases hstorage
  | func name => cases hstorage

theorem isStorage_of_slot? {s : Slot} (hslot : slot? o = .ok (some s)) :
    Operand.isStorage (some o) = true := by
  cases o <;> simp_all [slot?, Operand.isStorage]

theorem offset?_eq_some_iff : fr.offset? o = some offset ↔
    ∃ s k, slot? o = .ok (some s) ∧ fr.slots.toList.idxOf? s = some k ∧ offset = -8 * ((k : Int) + 1) := by
  obtain ⟨⟨slots⟩, hasArrays⟩ := fr
  unfold offset?
  cases hslot : slot? o with
  | error e => simp
  | ok s =>
    cases s with
    | none => simp
    | some s =>
      cases hk : slots.idxOf? s with
      | none => simp [hk]
      | some k => simp [hk, eq_comm]

theorem isStorage_of_offset? (hoffset : fr.offset? o = some offset) :
    Operand.isStorage (some o) = true := by
  obtain ⟨s, k, hslot, _⟩ := offset?_eq_some_iff.mp hoffset
  exact isStorage_of_slot? hslot

/-- The slots lie below the base of the frame, one word each. -/
theorem offset?_bound (hoffset : fr.offset? o = some offset) :
    ∃ k, k < fr.slots.size ∧ offset = -8 * ((k : Int) + 1) := by
  obtain ⟨s, k, _, hk, rfl⟩ := offset?_eq_some_iff.mp hoffset
  obtain ⟨hlt, _⟩ := List.idxOf?_eq_some_iff.mp hk
  exact ⟨k, by simpa using hlt, rfl⟩

/-- Operands with one offset have one slot. -/
theorem slot?_eq_of_offset? (hoffset : fr.offset? o = some offset) (hoffset' : fr.offset? o' = some offset) :
    slot? o = slot? o' := by
  obtain ⟨s, k, hslot, hk, hv⟩ := offset?_eq_some_iff.mp hoffset
  obtain ⟨s', k', hslot', hk', hv'⟩ := offset?_eq_some_iff.mp hoffset'
  have heq : k = k' := by omega
  subst heq
  obtain ⟨hlt, hs, _⟩ := List.idxOf?_eq_some_iff.mp hk
  obtain ⟨hlt', hs', _⟩ := List.idxOf?_eq_some_iff.mp hk'
  rw [hslot, hslot', ← hs, ← hs']

theorem mem_slots_add {x : Option Operand} (hadd : fr.add x = .ok fr') :
    (∀ s ∈ fr.slots, s ∈ fr'.slots) ∧
      ∀ o s, x = some o → slot? o = .ok (some s) → s ∈ fr'.slots := by
  cases x with
  | none =>
    cases hadd
    exact ⟨fun s hs => hs, fun o s ho => by cases ho⟩
  | some o =>
    simp only [add] at hadd
    cases hslot : slot? o with
    | error e => rw [hslot] at hadd; cases hadd
    | ok s =>
      rw [hslot] at hadd
      cases s with
      | none =>
        cases hadd
        refine ⟨fun s hs => hs, fun o' s' ho hs' => ?_⟩
        cases ho
        rw [hslot] at hs'
        cases hs'
      | some s =>
        cases hadd
        by_cases hmem : s ∈ fr.slots
        · simp only [hmem, if_true]
          refine ⟨fun s hs => hs, fun o' s' ho hs' => ?_⟩
          cases ho
          rw [hslot] at hs'
          cases hs'
          exact hmem
        · simp only [hmem, if_false]
          refine ⟨fun s' hs' => Array.mem_push_of_mem _ hs', fun o' s' ho hs' => ?_⟩
          cases ho
          rw [hslot] at hs'
          cases hs'
          exact Array.mem_push_self

theorem mem_slots_addAll {os : List (Option Operand)} (hadd : fr.addAll os = .ok fr') :
    (∀ s ∈ fr.slots, s ∈ fr'.slots) ∧
      ∀ o s, some o ∈ os → slot? o = .ok (some s) → s ∈ fr'.slots := by
  induction os generalizing fr with
  | nil =>
    cases hadd
    exact ⟨fun s hs => hs, fun o s ho => by cases ho⟩
  | cons x os ih =>
    simp only [addAll, List.foldlM_cons] at hadd
    obtain ⟨fr₁, hx, hos⟩ := bind_eq_ok_iff.mp hadd
    obtain ⟨hkeep, hnew⟩ := mem_slots_add hx
    obtain ⟨hkeep', hnew'⟩ := ih hos
    refine ⟨fun s hs => hkeep' s (hkeep s hs), fun o s ho hslot => ?_⟩
    rcases List.mem_cons.mp ho with ho | ho
    · exact hkeep' s (hnew o s ho.symm hslot)
    · exact hnew' o s ho hslot

/-- Every place that a function mentions has a slot in its frame. -/
theorem offset?_of_mem_operands {f : Func} (hframe : ofFunc f = .ok fr) (hmem : some o ∈ f.operands)
    {s : Slot} (hslot : slot? o = .ok (some s)) : ∃ offset, fr.offset? o = some offset := by
  simp only [ofFunc] at hframe
  obtain ⟨fr₁, hparams, hframe⟩ := bind_eq_ok_iff.mp hframe
  obtain ⟨fr₂, hcode, hframe⟩ := bind_eq_ok_iff.mp hframe
  cases hframe
  have hs : s ∈ fr₂.slots := by
    rcases List.mem_append.mp hmem with hmem | hmem
    · exact (mem_slots_addAll hcode).1 s ((mem_slots_addAll hparams).2 o s hmem hslot)
    · exact (mem_slots_addAll hcode).2 o s hmem hslot
  have hsome : (fr₂.slots.toList.idxOf? s).isSome = true := by
    rw [List.isSome_idxOf?]
    exact hs.val
  obtain ⟨k, hk⟩ := Option.isSome_iff_exists.mp hsome
  exact ⟨_, offset?_eq_some_iff.mpr ⟨s, k, hslot, hk, rfl⟩⟩

/-- The frame has room for its slots. -/
theorem slots_size_le_size (fr : Frame) : 8 * fr.slots.size ≤ fr.size := by
  unfold size alignUp
  omega

end Asm.Frame

end TreeCompiler
