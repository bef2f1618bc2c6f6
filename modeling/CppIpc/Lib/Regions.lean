import Mathlib.Data.Nat.ModEq

/-! # Regions of memory and aligned addresses -/
namespace CppIpc.Lib.Regions

/-- The addresses from `start` on, `size` of them. -/
structure Region where
  start : Nat
  size : Nat
deriving DecidableEq

def Region.stop (r : Region) : Nat := r.start + r.size

def Region.Within (r s : Region) : Prop := s.start ≤ r.start ∧ r.stop ≤ s.stop

def Region.Apart (r s : Region) : Prop := r.stop ≤ s.start ∨ s.stop ≤ r.start

def Region.Holds (r : Region) (a : Nat) : Prop := r.start ≤ a ∧ a < r.stop

/-- What is left behind the first `n` addresses. -/
def Region.drop (r : Region) (n : Nat) : Region := ⟨r.start + n, r.size - n⟩

instance (r s : Region) : Decidable (r.Within s) := inferInstanceAs (Decidable (_ ∧ _))

instance (r s : Region) : Decidable (r.Apart s) := inferInstanceAs (Decidable (_ ∨ _))

instance (r : Region) (a : Nat) : Decidable (r.Holds a) := inferInstanceAs (Decidable (_ ∧ _))

section Regions
variable {r r' s s' : Region} {n a : Nat}

theorem Region.Within.trans (h : r.Within r') (h' : r'.Within s) : r.Within s :=
  ⟨h'.1.trans h.1, h.2.trans h'.2⟩

theorem Region.Apart.symm (h : r.Apart s) : s.Apart r := Or.symm h

instance : Std.Symm Region.Apart := ⟨fun _ _ h => h.symm⟩

/-- Parts of regions that are apart. -/
theorem Region.Apart.within (h : r.Apart s) (hr : r'.Within r) (hs : s'.Within s) :
    r'.Apart s' := by
  obtain ⟨hr, hr'⟩ := hr
  obtain ⟨hs, hs'⟩ := hs
  cases h with
  | inl h => exact .inl (by omega)
  | inr h => exact .inr (by omega)

/-- Regions with something in them that are apart begin at different addresses. -/
theorem Region.Apart.start_ne (h : r.Apart s) (hr : 0 < r.size) (hs : 0 < s.size) :
    r.start ≠ s.start := by
  intro he
  unfold Region.Apart Region.stop at h
  omega

theorem Region.Within.size_le (h : r.Within s) : r.size ≤ s.size := by
  unfold Region.Within Region.stop at h
  omega

theorem Region.drop_within (h : n ≤ r.size) : (r.drop n).Within r := by
  simp only [Region.Within, Region.stop, Region.drop]
  omega

/-- An address behind the first `n` is not among the first `n`. -/
theorem Region.Holds.not_before (h : r.Holds a) (hr : r.Within (s.drop n)) : ¬ a < s.start + n := by
  have := h.1
  have : s.start + n ≤ r.start := hr.1
  omega

theorem Region.Apart.not_holds (h : r.Apart s) (hr : r.Holds a) : ¬ s.Holds a := by
  intro hs
  obtain ⟨hr, hr'⟩ := hr
  obtain ⟨hs, hs'⟩ := hs
  cases h with
  | inl h => omega
  | inr h => omega

end Regions

/-! ## Alignment -/

/-- How far it is to the first aligned address. -/
def pad (alignment ptr : Nat) : Nat := (alignment - ptr % alignment) % alignment

section Alignment
variable {alignment ptr d : Nat}

theorem pad_lt (h : 0 < alignment) : pad alignment ptr < alignment := Nat.mod_lt _ h

theorem dvd_add_pad (h : 0 < alignment) : alignment ∣ ptr + pad alignment ptr := by
  have hlt := Nat.mod_lt ptr h
  refine Nat.dvd_of_mod_eq_zero ?_
  rw [pad, Nat.add_mod, Nat.mod_mod]
  by_cases h0 : ptr % alignment = 0
  · simp [h0]
  · rw [Nat.mod_eq_of_lt (by omega : alignment - ptr % alignment < alignment),
      Nat.add_sub_of_le hlt.le, Nat.mod_self]

theorem pad_eq_zero (h : alignment ∣ ptr) : pad alignment ptr = 0 := by
  simp [pad, Nat.mod_eq_zero_of_dvd h]

/-- Where the address is on the coarse grid of `d`, so is the padding. -/
theorem pad_le_sub (h : 0 < alignment) (hd : d ∣ alignment) (hp : d ∣ ptr) :
    pad alignment ptr ≤ alignment - d := by
  have hpad : d ∣ pad alignment ptr :=
    (Nat.dvd_add_right hp).mp (hd.trans (dvd_add_pad h))
  have hlt : pad alignment ptr < alignment := pad_lt h
  have := Nat.le_of_dvd (Nat.sub_pos_of_lt hlt) (Nat.dvd_sub hd hpad)
  omega

end Alignment

end CppIpc.Lib.Regions
