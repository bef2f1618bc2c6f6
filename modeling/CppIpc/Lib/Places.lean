import Mathlib.Data.Set.Card

/-! # Who is where

A family of parties, each at a place; one party moves at a time. -/
namespace CppIpc.Lib.Places

variable {ι β : Type} [DecidableEq ι] {P : β → Prop} {f : ι → β} {i j : ι} {b c : β}

/-- Where one party moves to a place without `P`, the others who have `P` had it before. -/
theorem of_update (h : P (Function.update f i b j)) (hb : ¬ P b) : j ≠ i ∧ P (f j) := by
  by_cases he : j = i
  · rw [he, Function.update_self] at h
    exact absurd h hb
  · rw [Function.update_of_ne he] at h
    exact ⟨he, h⟩

theorem of_update_eq (h : Function.update f i b j = c) (hb : b ≠ c) : j ≠ i ∧ f j = c :=
  of_update (P := fun x => x = c) h hb

/-- The party that moved is at its new place, and any other where it was. -/
theorem update_cases (h : Function.update f i b j = c) : (j = i ∧ b = c) ∨ (j ≠ i ∧ f j = c) := by
  by_cases he : j = i
  · rw [he, Function.update_self] at h
    exact .inl ⟨he, h⟩
  · rw [Function.update_of_ne he] at h
    exact .inr ⟨he, h⟩

/-- A move between places without `P`. -/
theorem update_outside (hi : ¬ P (f i)) (hb : ¬ P b) : P (Function.update f i b j) ↔ P (f j) := by
  by_cases he : j = i
  · rw [he, Function.update_self]
    exact iff_of_false hb hi
  · rw [Function.update_of_ne he]

/-- A party without `P` moves, and who has `P` still has it. -/
theorem exists_moved (b : β) (hi : ¬ P (f i)) (h : ∃ j, P (f j)) :
    ∃ j, P (Function.update f i b j) := by
  obtain ⟨j, hj⟩ := h
  have hne : j ≠ i := fun he => hi (he ▸ hj)
  exact ⟨j, by rw [Function.update_of_ne hne]; exact hj⟩

theorem exists_there (f : ι → β) (i : ι) (hb : P b) : ∃ j, P (Function.update f i b j) :=
  ⟨i, by rw [Function.update_self]; exact hb⟩

/-- The parties at a place with `P`. -/
def parties {ι β : Type} (P : β → Prop) (f : ι → β) : Set ι := {i | P (f i)}

@[simp] theorem mem_parties {ι β : Type} {P : β → Prop} {f : ι → β} {i : ι} :
    i ∈ parties P f ↔ P (f i) := Iff.rfl

theorem parties_enter (hb : P b) : parties P (Function.update f i b) = insert i (parties P f) := by
  ext j
  by_cases he : j = i
  · simp [he, hb]
  · simp [he]

theorem parties_leave (hb : ¬ P b) : parties P (Function.update f i b) = parties P f \ {i} := by
  ext j
  by_cases he : j = i
  · simp [he, hb]
  · simp [he]

theorem finite_update (h : (parties P f).Finite) (i : ι) (b : β) :
    (parties P (Function.update f i b)).Finite := by
  by_cases hb : P b
  · rw [parties_enter hb]; exact h.insert i
  · rw [parties_leave hb]; exact h.subset Set.sdiff_subset

theorem ncard_enter (h : (parties P f).Finite) (hi : ¬ P (f i)) (hb : P b) :
    (parties P (Function.update f i b)).ncard = (parties P f).ncard + 1 := by
  rw [parties_enter hb, Set.ncard_insert_of_notMem (mem_parties.not.mpr hi) h]

theorem ncard_leave (h : (parties P f).Finite) (hi : P (f i)) (hb : ¬ P b) :
    (parties P (Function.update f i b)).ncard + 1 = (parties P f).ncard := by
  rw [parties_leave hb, Set.ncard_sdiff_singleton_add_one (mem_parties.mpr hi) h]

theorem parties_same (hi : P (f i) ↔ P b) : parties P (Function.update f i b) = parties P f := by
  ext j
  by_cases he : j = i
  · simp [he, hi]
  · simp [he]

end CppIpc.Lib.Places
