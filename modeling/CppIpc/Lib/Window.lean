import Mathlib.Data.Nat.ModEq

/-! # A window of indices in a ring of `2 ^ w` slots

Counters are unbounded, slots are counters cut to `w` bits. A reader that has
finished `lo` items of `hi` written owes a read to the slots of `[lo, hi)`; as
long as `hi ≤ lo + 2 ^ w` each slot carries at most one of these indices. -/
namespace CppIpc.Lib.Window

/-- The slot of index `i`. -/
abbrev slot (w i : Nat) : BitVec w := BitVec.ofNat w i

/-- Some index of `[lo, hi)` falls on slot `σ`. -/
def Owes (w lo hi : Nat) (σ : BitVec w) : Prop := ∃ i, lo ≤ i ∧ i < hi ∧ slot w i = σ

variable {w lo hi i j : Nat} {σ : BitVec w}

theorem slot_eq_iff : slot w i = slot w j ↔ i % 2 ^ w = j % 2 ^ w := by
  rw [← BitVec.toNat_inj, BitVec.toNat_ofNat, BitVec.toNat_ofNat]

/-- Two indices of one lap on the same slot are equal. -/
theorem eq_of_slot_eq (h : slot w i = slot w j) (hij : i < j + 2 ^ w) (hji : j < i + 2 ^ w) :
    i = j := by
  have hm : i ≡ j [MOD 2 ^ w] := slot_eq_iff.mp h
  rcases Nat.le_total i j with hle | hle
  · have := Nat.eq_zero_of_dvd_of_lt ((Nat.modEq_iff_dvd' hle).mp hm) (by omega)
    omega
  · have := Nat.eq_zero_of_dvd_of_lt ((Nat.modEq_iff_dvd' hle).mp hm.symm) (by omega)
    omega

theorem slot_add_lap : slot w (i + 2 ^ w) = slot w i := by
  rw [slot_eq_iff, Nat.add_mod_right]

/-- The slot of an index that is still in the ring is owed by those who have not
finished that index. -/
theorem owes_slot_iff (hi' : i < hi) (hlap : hi ≤ i + 2 ^ w) :
    Owes w lo hi (slot w i) ↔ lo ≤ i := by
  constructor
  · rintro ⟨j, hl, hu, hs⟩
    by_contra hc
    have := eq_of_slot_eq hs (by omega) (by omega)
    omega
  · exact fun hl => ⟨i, hl, hi', rfl⟩

/-- Writing one more index. -/
theorem owes_succ_hi (h : lo ≤ hi) :
    Owes w lo (hi + 1) σ ↔ Owes w lo hi σ ∨ slot w hi = σ := by
  constructor
  · rintro ⟨i, hl, hu, hs⟩
    by_cases he : i = hi
    · exact .inr (he ▸ hs)
    · exact .inl ⟨i, hl, by omega, hs⟩
  · rintro (⟨i, hl, hu, hs⟩ | hs)
    · exact ⟨i, hl, by omega, hs⟩
    · exact ⟨hi, h, by omega, hs⟩

/-- Finishing the oldest index of a window of at most one lap. -/
theorem owes_succ_lo (hroom : hi ≤ lo + 2 ^ w) :
    Owes w (lo + 1) hi σ ↔ Owes w lo hi σ ∧ slot w lo ≠ σ := by
  constructor
  · rintro ⟨i, hl, hu, hs⟩
    refine ⟨⟨i, by omega, hu, hs⟩, fun he => ?_⟩
    have := eq_of_slot_eq (he.trans hs.symm) (by omega) (by omega)
    omega
  · rintro ⟨⟨i, hl, hu, hs⟩, hne⟩
    have : i ≠ lo := fun he => hne (he ▸ hs)
    exact ⟨i, by omega, hu, hs⟩

/-- If the slot of the next index is free, the window has room for it. -/
theorem room_of_not_owes (h : ¬ Owes w lo hi (slot w hi)) (hle : hi ≤ lo + 2 ^ w) :
    hi + 1 ≤ lo + 2 ^ w := by
  by_contra hc
  have he : hi = lo + 2 ^ w := by omega
  have hp : 0 < 2 ^ w := Nat.two_pow_pos w
  exact h ⟨lo, Nat.le_refl _, by omega, by rw [he, slot_add_lap]⟩

/-- The last index before `hi` on the slot of `lo`. -/
theorem exists_last (h : lo < hi) :
    ∃ i, lo ≤ i ∧ i < hi ∧ hi ≤ i + 2 ^ w ∧ slot w i = slot w lo := by
  have hd := Nat.div_add_mod (hi - 1 - lo) (2 ^ w)
  have hm := Nat.mod_lt (hi - 1 - lo) (Nat.two_pow_pos w)
  refine ⟨lo + 2 ^ w * ((hi - 1 - lo) / 2 ^ w), by omega, by omega, by omega, ?_⟩
  rw [slot_eq_iff, Nat.add_mul_mod_self_left]

/-- A slot was not reached yet or carries an index of the last lap. -/
theorem slot_cases (hi : Nat) (σ : BitVec w) :
    (∃ i, hi ≤ i ∧ i < 2 ^ w ∧ slot w i = σ) ∨ ∃ i, i < hi ∧ hi ≤ i + 2 ^ w ∧ slot w i = σ := by
  have hσ : slot w σ.toNat = σ := by rw [slot, BitVec.ofNat_toNat, BitVec.setWidth_eq]
  by_cases h : hi ≤ σ.toNat
  · exact .inl ⟨σ.toNat, h, σ.isLt, hσ⟩
  · obtain ⟨i, _, hlt, hlap, hs⟩ := exists_last (w := w) (Nat.lt_of_not_le h)
    exact .inr ⟨i, hlt, hlap, hs.trans hσ⟩

theorem not_owes_self : ¬ Owes w lo lo σ := by
  rintro ⟨i, hl, hu, _⟩
  omega

end CppIpc.Lib.Window
