import Mathlib.Data.List.Infix

/-! # Logs

Histories are lists that grow at their end; a reader's log is a prefix of the
writer's. -/
namespace CppIpc.Lib.Logs

variable {α : Type} {l L : List α} {x v : α} {i : Nat}

/-- An entry of a log that has grown by one. -/
theorem getElem?_snoc_cases (h : (l ++ [x])[i]? = some v) :
    l[i]? = some v ∨ (i = l.length ∧ v = x) := by
  rw [List.getElem?_append] at h
  split at h
  · exact .inl h
  · rename_i hlt
    rw [List.getElem?_singleton] at h
    split at h
    · exact .inr ⟨by omega, (Option.some.inj h).symm⟩
    · cases h

/-- An entry stays where it is. -/
theorem getElem?_of_prefix (hl : l <+: L) (h : l[i]? = some v) : L[i]? = some v := by
  obtain ⟨r, rfl⟩ := hl
  exact (List.getElem?_append_left (List.getElem?_eq_some_iff.mp h).1).trans h

theorem getElem?_snoc (h : l[i]? = some v) : (l ++ [x])[i]? = some v :=
  getElem?_of_prefix (List.prefix_append l [x]) h

/-- The reader takes the next entry. -/
theorem prefix_snoc (hl : l <+: L) (hx : L[l.length]? = some x) : l ++ [x] <+: L := by
  obtain ⟨hlt, rfl⟩ := List.getElem?_eq_some_iff.mp hx
  exact List.concat_get_prefix hl hlt

/-! ## How often an entry comes before a position -/

section Rank
variable [DecidableEq α] {j d : Nat} {y : α}

/-- How often `x` is among the first `i` entries. -/
def rank (l : List α) (i : Nat) (x : α) : Nat := (l.take i).count x

theorem rank_succ (h : l[i]? = some y) (x : α) :
    rank l (i + 1) x = rank l i x + if y = x then 1 else 0 := by
  rw [rank, List.take_add_one, h, Option.toList_some, List.count_append, List.count_singleton]
  simp [rank]

theorem rank_mono (l : List α) (x : α) (h : i ≤ j) : rank l i x ≤ rank l j x :=
  (List.take_sublist_take_left h).count_le x

theorem rank_append (r : List α) (x : α) (h : i ≤ l.length) : rank (l ++ r) i x = rank l i x := by
  rw [rank, List.take_append_of_le_length h, rank]

theorem rank_length (l : List α) (x : α) : rank l l.length x = l.count x := by
  rw [rank, List.take_length]

theorem mem_of_rank_pos (h : 0 < rank l i x) : x ∈ l :=
  List.mem_of_mem_take (List.count_pos_iff.mp h)

end Rank

end CppIpc.Lib.Logs
