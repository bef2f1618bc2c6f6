import Mathlib.Data.Fintype.Card
import Mathlib.Data.List.Nodup

/-! # Free lists threaded through an array

An array `next` of indices below `nil` and a head: the free indices are those met
when following `next` from the head to `nil`. -/
namespace CppIpc.Lib.FreeList

variable {nil : Nat} {next : Nat → Nat} {c i v : Nat} {l : List Nat}

/-- Following `next` from `c` meets exactly `l`, in this order, and then `nil`. -/
def Links (nil : Nat) (next : Nat → Nat) : Nat → List Nat → Prop
  | c, [] => c = nil
  | c, i :: l => c = i ∧ i < nil ∧ Links nil next (next i) l

/-- The walk itself, with a bound on its length: a list that is cyclic is cut off. -/
def walk (nil : Nat) (next : Nat → Nat) : Nat → Nat → List Nat
  | 0, _ => []
  | fuel + 1, c => if c = nil then [] else c :: walk nil next fuel (next c)

theorem Links.lt (h : Links nil next c l) (hi : i ∈ l) : i < nil := by
  induction l generalizing c with
  | nil => cases hi
  | cons j l ih =>
    rcases List.mem_cons.mp hi with rfl | hi
    · exact h.2.1
    · exact ih h.2.2 hi

/-- Distinct indices below `nil` are at most `nil` many. -/
theorem Links.length_le (h : Links nil next c l) (hn : l.Nodup) : l.length ≤ nil := by
  have hsub : l ⊆ List.range nil := fun i hi => List.mem_range.mpr (h.lt hi)
  simpa using (List.subperm_of_subset hn hsub).length_le

theorem Links.walk_eq (h : Links nil next c l) {fuel : Nat} (hf : l.length ≤ fuel) :
    walk nil next fuel c = l := by
  induction l generalizing c fuel with
  | nil =>
    cases fuel with
    | zero => rfl
    | succ n => simp [walk, show c = nil from h]
  | cons j l ih =>
    obtain ⟨rfl, hlt, h⟩ := h
    cases fuel with
    | zero => simp at hf
    | succ n =>
      rw [walk, if_neg (Nat.ne_of_lt hlt), ih h (by simpa using hf)]

/-- Changing the array at an index that is not on the list. -/
theorem Links.update (h : Links nil next c l) (hi : i ∉ l) :
    Links nil (fun j => if j = i then v else next j) c l := by
  induction l generalizing c with
  | nil => exact h
  | cons j l ih =>
    have hne : j ≠ i := fun he => hi (he ▸ List.mem_cons_self)
    refine ⟨h.1, h.2.1, ?_⟩
    simp only [if_neg hne]
    exact ih h.2.2 fun hm => hi (List.mem_cons_of_mem _ hm)

/-- Putting an index in front. -/
theorem Links.push (h : Links nil next c l) (hi : i ∉ l) (hlt : i < nil) :
    Links nil (fun j => if j = i then c else next j) i (i :: l) := by
  refine ⟨rfl, hlt, ?_⟩
  simp only [if_true]
  exact h.update hi

end CppIpc.Lib.FreeList
