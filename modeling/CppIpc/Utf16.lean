import CppIpc.Codecvt

/-! # Surrogate pairs

The standard encoding of a scalar value, and how much of it the code writes: the
encoder ends at `U+EFFFF`, while the decoder reads every pair. -/
namespace CppIpc.Codecvt
open CppIpc.Lib.Buffers CppIpc.Lib.Codecs

/-- A Unicode scalar value. -/
def Scalar (c : Nat) : Prop := c ≤ 0x10FFFF ∧ ¬(0xD800 ≤ c ∧ c ≤ 0xDFFF)

instance (c : Nat) : Decidable (Scalar c) := inferInstanceAs (Decidable (_ ∧ _))

/-- UTF-16 as the standard defines it. -/
def utf16 (c : Nat) : List (BitVec 16) :=
  if c < 0x10000 then [BitVec.ofNat 16 c]
  else [BitVec.ofNat 16 (0xD800 + (c - 0x10000) / 0x400),
    BitVec.ofNat 16 (0xDC00 + (c - 0x10000) % 0x400)]

/-- What a converted text has for the code point `c`. -/
def units16 (signed : Bool) (c : BitVec 32) : Option (List (BitVec 16)) :=
  if c = 0 then none
  else if atMost signed c 0xFFFF then some [c.setWidth 16]
  else if atMost signed c 0xEFFFF then
    some [(0xD800#32 + (c >>> 10) - 0x40).setWidth 16, (0xDC00 + (c &&& 0x03FF)).setWidth 16]
  else none

/-! ## The encoder -/

theorem cvtChar32To16_none {signed : Bool} {c : BitVec 32} (h : units16 signed c = none)
    (des : Option Nat) (dlen : Nat) (m : Target 16) :
    cvtChar32To16 signed c des dlen m = (0, m) := by
  unfold units16 at h
  unfold cvtChar32To16
  grind

theorem cvtChar32To16_query {signed : Bool} {c : BitVec 32} {l : List (BitVec 16)}
    (h : units16 signed c = some l) (dlen : Nat) (m : Target 16) :
    cvtChar32To16 signed c none dlen m = (l.length, m) := by
  unfold units16 at h
  unfold cvtChar32To16
  grind

theorem cvtChar32To16_fits {signed : Bool} {c : BitVec 32} {l : List (BitVec 16)}
    (h : units16 signed c = some l) {dlen : Nat} (hd : l.length ≤ dlen) (p : Nat)
    (m : Target 16) : cvtChar32To16 signed c (some p) dlen m = (l.length, put m p l) := by
  unfold units16 at h
  unfold cvtChar32To16
  split at h
  · cases h
  next h0 =>
    rw [if_neg h0]
    split at h
    next h1 =>
      cases h
      have hd0 : dlen ≠ 0 := by simp only [List.length_singleton] at hd; omega
      rw [if_pos h1]
      simp only [if_pos hd0]
      rfl
    next h1 =>
      rw [if_neg h1]
      split at h
      next h2 =>
        cases h
        have hd1 : dlen > 1 := by simp only [List.length_cons, List.length_nil] at hd; omega
        rw [if_pos h2]
        simp only [if_pos hd1]
        rfl
      · cases h

/-- Without room for the whole character nothing is written. -/
theorem cvtChar32To16_cut {signed : Bool} {c : BitVec 32} {l : List (BitVec 16)}
    (h : units16 signed c = some l) {dlen : Nat} (hd : dlen < l.length) (p : Nat)
    (m : Target 16) : cvtChar32To16 signed c (some p) dlen m = (l.length, m) := by
  unfold units16 at h
  unfold cvtChar32To16
  split at h
  · cases h
  next h0 =>
    rw [if_neg h0]
    split at h
    next h1 =>
      cases h
      have hd0 : ¬dlen ≠ 0 := by simp only [List.length_singleton] at hd; omega
      rw [if_pos h1]
      simp only [if_neg hd0]
      rfl
    next h1 =>
      rw [if_neg h1]
      split at h
      next h2 =>
        cases h
        have hd1 : ¬dlen > 1 := by simp only [List.length_cons, List.length_nil] at hd; omega
        rw [if_pos h2]
        simp only [if_neg hd1]
        rfl
      · cases h

theorem atMost_eq {signed : Bool} {c : BitVec 32} (hc : c.toNat < 2 ^ 31) (n : Nat) :
    atMost signed c n = decide (c.toNat ≤ n) := by
  cases signed with
  | false => rfl
  | true =>
    rw [atMost, if_pos rfl, BitVec.toInt_eq_toNat_of_lt (by omega)]
    simp

/-- The two units of a pair, from the encoder's sums. -/
theorem units16_pair {c : BitVec 32} (hl : 0x10000 ≤ c.toNat) (hu : c.toNat ≤ 0x10FFFF) :
    [(0xD800#32 + (c >>> 10) - 0x40).setWidth 16, (0xDC00 + (c &&& 0x03FF)).setWidth 16] =
      utf16 c.toNat := by
  have hshift : (c >>> 10).toNat = c.toNat / 1024 := by
    rw [BitVec.toNat_ushiftRight, Nat.shiftRight_eq_div_pow]
  have hand : (c &&& 0x03FF).toNat = c.toNat % 1024 := by
    rw [BitVec.toNat_and]
    exact Nat.and_two_pow_sub_one_eq_mod c.toNat 10
  have hhigh : (0xD800#32 + (c >>> 10) - 0x40).setWidth 16 =
      BitVec.ofNat 16 (0xD800 + (c.toNat - 0x10000) / 0x400) := by
    apply BitVec.eq_of_toNat_eq
    simp only [BitVec.toNat_setWidth, BitVec.toNat_sub, BitVec.toNat_add, hshift,
      BitVec.ofNat_eq_ofNat, BitVec.toNat_ofNat]
    omega
  have hlow : (0xDC00 + (c &&& 0x03FF)).setWidth 16 =
      BitVec.ofNat 16 (0xDC00 + (c.toNat - 0x10000) % 0x400) := by
    apply BitVec.eq_of_toNat_eq
    rw [BitVec.toNat_setWidth, BitVec.toNat_add, hand]
    simp only [BitVec.ofNat_eq_ofNat, BitVec.toNat_ofNat]
    omega
  rw [utf16, if_neg (by omega), hhigh, hlow]

/-- Up to its limit the encoder writes the standard encoding, also of a code
point that a surrogate has. -/
theorem units16_eq {signed : Bool} {c : BitVec 32} (h : c.toNat < 2 ^ 31) :
    units16 signed c =
      if 0 < c.toNat ∧ c.toNat ≤ 0xEFFFF then some (utf16 c.toNat) else none := by
  unfold units16
  by_cases hc : c = 0
  · subst hc
    rfl
  have hpos : 0 < c.toNat := Nat.pos_of_ne_zero fun h => hc (BitVec.eq_of_toNat_eq (by simpa))
  rw [if_neg hc, atMost_eq h, atMost_eq h]
  simp only [decide_eq_true_eq]
  by_cases h1 : c.toNat ≤ 0xFFFF
  · have hset : c.setWidth 16 = BitVec.ofNat 16 c.toNat := by
      apply BitVec.eq_of_toNat_eq
      rw [BitVec.toNat_setWidth, BitVec.toNat_ofNat]
    rw [if_pos h1, if_pos ⟨hpos, by omega⟩, utf16, if_pos (by omega), hset]
  · by_cases h2 : c.toNat ≤ 0xEFFFF
    · rw [if_neg h1, if_pos h2, if_pos ⟨hpos, h2⟩, units16_pair (by omega) (by omega)]
    · rw [if_neg h1, if_neg h2, if_neg fun hb => h2 hb.2]

/-! ## The decoder -/

theorem cvtChar16To32_single {w : BitVec 16} (h0 : w ≠ 0) (hw : w < 0xD800 ∨ 0xDFFF < w)
    (t : List (BitVec 16)) : cvtChar16To32 (w :: t) = some (1, w.setWidth 32) := by
  have hout : ¬(0xD800 ≤ w ∧ w ≤ 0xDFFF) := by
    simp only [BitVec.lt_def, BitVec.le_def] at hw ⊢
    omega
  rw [cvtChar16To32, if_neg h0, if_neg hout]

theorem cvtChar16To32_pair {w1 w2 : BitVec 16} (h1 : 0xD800 ≤ w1 ∧ w1 < 0xDC00)
    (h2 : 0xDC00 ≤ w2 ∧ w2 ≤ 0xDFFF) (t : List (BitVec 16)) :
    cvtChar16To32 (w1 :: w2 :: t) = some (2, BitVec.ofNat 32
      (0x10000 + (w1.toNat - 0xD800) * 0x400 + (w2.toNat - 0xDC00))) := by
  simp only [BitVec.lt_def, BitVec.le_def, BitVec.ofNat_eq_ofNat, BitVec.toNat_ofNat,
    Nat.reducePow, Nat.reduceMod] at h1 h2
  have h0 : w1 ≠ 0 := by
    rintro rfl
    simp at h1
  have hin : 0xD800 ≤ w1 ∧ w1 ≤ 0xDFFF := by
    simp only [BitVec.le_def, BitVec.ofNat_eq_ofNat, BitVec.toNat_ofNat]
    omega
  have hhigh : w1 < 0xDC00 := by
    simp only [BitVec.lt_def, BitVec.ofNat_eq_ofNat, BitVec.toNat_ofNat]
    omega
  have hlow : 0xDC00 ≤ w2 ∧ w2 ≤ 0xDFFF := by
    simp only [BitVec.le_def, BitVec.ofNat_eq_ofNat, BitVec.toNat_ofNat]
    omega
  have hand : ∀ w : BitVec 16, (w &&& 0x03FF#16).toNat = w.toNat % 1024 := fun w => by
    rw [BitVec.toNat_and]
    exact Nat.and_two_pow_sub_one_eq_mod w.toNat 10
  have hval : (w2 &&& 0x03FF).setWidth 32 + (((w1 &&& 0x03FF).setWidth 32 + 0x40) <<< 10) =
      BitVec.ofNat 32 (0x10000 + (w1.toNat - 0xD800) * 0x400 + (w2.toNat - 0xDC00)) := by
    apply BitVec.eq_of_toNat_eq
    simp only [BitVec.toNat_add, BitVec.toNat_shiftLeft, BitVec.toNat_setWidth, hand,
      Nat.shiftLeft_eq, BitVec.ofNat_eq_ofNat, BitVec.toNat_ofNat]
    omega
  rw [cvtChar16To32, if_neg h0, if_pos hin, if_pos hhigh, ← hval]
  simp only [List.head?_cons, if_pos hlow]

theorem utf16_read {c : BitVec 32} (h0 : 0 < c.toNat) (h : Scalar c.toNat)
    (t : List (BitVec 16)) :
    decoder16.read (utf16 c.toNat ++ t) = some ((utf16 c.toNat).length, c) := by
  obtain ⟨hmax, hsur⟩ := h
  show cvtChar16To32 (utf16 c.toNat ++ t) = _
  by_cases hb : c.toNat < 0x10000
  · have hw : (BitVec.ofNat 16 c.toNat).toNat = c.toNat := by
      rw [BitVec.toNat_ofNat, Nat.mod_eq_of_lt hb]
    have hne : BitVec.ofNat 16 c.toNat ≠ 0 := by
      intro h
      rw [h] at hw
      simp at hw
      omega
    have hout : BitVec.ofNat 16 c.toNat < 0xD800 ∨ 0xDFFF < BitVec.ofNat 16 c.toNat := by
      simp only [BitVec.lt_def, hw, BitVec.ofNat_eq_ofNat, BitVec.toNat_ofNat]
      omega
    have hval : (BitVec.ofNat 16 c.toNat).setWidth 32 = c := by
      apply BitVec.eq_of_toNat_eq
      rw [BitVec.toNat_setWidth, hw, Nat.mod_eq_of_lt c.isLt]
    rw [utf16, if_pos hb, List.singleton_append, cvtChar16To32_single hne hout, hval]
    rfl
  · have hw1 : (BitVec.ofNat 16 (0xD800 + (c.toNat - 0x10000) / 0x400)).toNat =
        0xD800 + (c.toNat - 0x10000) / 0x400 := by
      rw [BitVec.toNat_ofNat]
      omega
    have hw2 : (BitVec.ofNat 16 (0xDC00 + (c.toNat - 0x10000) % 0x400)).toNat =
        0xDC00 + (c.toNat - 0x10000) % 0x400 := by
      rw [BitVec.toNat_ofNat]
      omega
    have hval : BitVec.ofNat 32 (0x10000 + (0xD800 + (c.toNat - 0x10000) / 0x400 - 0xD800) *
        0x400 + (0xDC00 + (c.toNat - 0x10000) % 0x400 - 0xDC00)) = c := by
      apply BitVec.eq_of_toNat_eq
      rw [BitVec.toNat_ofNat]
      omega
    rw [utf16, if_neg hb, List.cons_append, List.singleton_append, cvtChar16To32_pair
      (by simp only [BitVec.le_def, BitVec.lt_def, hw1, BitVec.ofNat_eq_ofNat,
            BitVec.toNat_ofNat]; omega)
      (by simp only [BitVec.le_def, hw2, BitVec.ofNat_eq_ofNat, BitVec.toNat_ofNat]; omega),
      hw1, hw2, hval]
    rfl

/-- What is read is the standard encoding of a scalar value. -/
theorem utf16_of_read {s : List (BitVec 16)} {n : Nat} {v : BitVec 32}
    (h : decoder16.read s = some (n, v)) :
    0 < v.toNat ∧ Scalar v.toNat ∧ n = (utf16 v.toNat).length ∧ s.take n = utf16 v.toNat := by
  change cvtChar16To32 s = _ at h
  cases s with
  | nil => cases h
  | cons w1 t =>
    by_cases h0 : w1 = 0
    · rw [cvtChar16To32, if_pos h0] at h
      cases h
    by_cases hin : 0xD800 ≤ w1 ∧ w1 ≤ 0xDFFF
    · have hc := h
      rw [cvtChar16To32, if_neg h0, if_pos hin] at hc
      split at hc
      next hhigh =>
        cases t with
        | nil => cases hc
        | cons w2 t =>
          simp only [List.head?_cons] at hc
          split at hc
          next hlow =>
            rw [cvtChar16To32_pair ⟨hin.1, hhigh⟩ hlow] at h
            simp only [BitVec.lt_def, BitVec.le_def, BitVec.ofNat_eq_ofNat,
              BitVec.toNat_ofNat, Nat.reducePow, Nat.reduceMod] at hin hhigh hlow
            cases h
            have hv : (BitVec.ofNat 32 (0x10000 + (w1.toNat - 0xD800) * 0x400 +
                (w2.toNat - 0xDC00))).toNat =
                0x10000 + (w1.toNat - 0xD800) * 0x400 + (w2.toNat - 0xDC00) := by
              rw [BitVec.toNat_ofNat]
              omega
            have hw1 : BitVec.ofNat 16 (0xD800 + ((w1.toNat - 0xD800) * 0x400 +
                (w2.toNat - 0xDC00)) / 0x400) = w1 := by
              apply BitVec.eq_of_toNat_eq
              rw [BitVec.toNat_ofNat]
              omega
            have hw2 : BitVec.ofNat 16 (0xDC00 + ((w1.toNat - 0xD800) * 0x400 +
                (w2.toNat - 0xDC00)) % 0x400) = w2 := by
              apply BitVec.eq_of_toNat_eq
              rw [BitVec.toNat_ofNat]
              omega
            rw [hv]
            have hsum : 0x10000 + (w1.toNat - 0xD800) * 0x400 + (w2.toNat - 0xDC00) - 0x10000 =
                (w1.toNat - 0xD800) * 0x400 + (w2.toNat - 0xDC00) := by omega
            have henc : utf16 (0x10000 + (w1.toNat - 0xD800) * 0x400 + (w2.toNat - 0xDC00)) =
                [w1, w2] := by
              rw [utf16, if_neg (by omega), hsum, hw1, hw2]
            rw [henc]
            exact ⟨by omega, ⟨by omega, by omega⟩, rfl, rfl⟩
          · cases hc
      · cases hc
    · have hout : w1 < 0xD800 ∨ 0xDFFF < w1 := by
        simp only [BitVec.lt_def, BitVec.le_def] at hin ⊢
        omega
      rw [cvtChar16To32_single h0 hout] at h
      cases h
      have hv : (w1.setWidth 32).toNat = w1.toNat := by
        rw [BitVec.toNat_setWidth]
        omega
      have hpos : 0 < w1.toNat :=
        Nat.pos_of_ne_zero fun h => h0 (BitVec.eq_of_toNat_eq (by simpa))
      have hlt := w1.isLt
      have henc : utf16 w1.toNat = [w1] := by
        rw [utf16, if_pos (by omega), BitVec.ofNat_toNat, BitVec.setWidth_eq]
      simp only [BitVec.lt_def, BitVec.ofNat_eq_ofNat, BitVec.toNat_ofNat, Nat.reducePow,
        Nat.reduceMod] at hout
      rw [hv, henc]
      exact ⟨hpos, ⟨by omega, by omega⟩, rfl, rfl⟩

theorem zero_not_mem_utf16 {c : BitVec 32} (h0 : 0 < c.toNat) (h : Scalar c.toNat) :
    0 ∉ utf16 c.toNat := by
  obtain ⟨hmax, hsur⟩ := h
  intro hm
  unfold utf16 at hm
  split at hm
  next hb =>
    have hw := congrArg BitVec.toNat (List.mem_singleton.mp hm)
    simp only [BitVec.toNat_ofNat, BitVec.ofNat_eq_ofNat] at hw
    omega
  next hb =>
    rcases List.mem_cons.mp hm with hw | hm
    · have hw := congrArg BitVec.toNat hw
      simp only [BitVec.toNat_ofNat, BitVec.ofNat_eq_ofNat] at hw
      omega
    · have hw := congrArg BitVec.toNat (List.mem_singleton.mp hm)
      simp only [BitVec.toNat_ofNat, BitVec.ofNat_eq_ofNat] at hw
      omega

/-- A high surrogate of a code point beyond the encoder's limit. -/
def PastLimit (x : BitVec 16) : Prop := 0xDB80 ≤ x.toNat ∧ x.toNat ≤ 0xDBFF

instance (x : BitVec 16) : Decidable (PastLimit x) := inferInstanceAs (Decidable (_ ∧ _))

/-- The units of a scalar value tell whether it is beyond the limit. -/
theorem pastLimit_iff {c : Nat} (h : Scalar c) : (∃ x ∈ utf16 c, PastLimit x) ↔ 0xEFFFF < c := by
  obtain ⟨hmax, hsur⟩ := h
  by_cases hb : c < 0x10000
  · have hw : (BitVec.ofNat 16 c).toNat = c := by rw [BitVec.toNat_ofNat, Nat.mod_eq_of_lt hb]
    rw [utf16, if_pos hb]
    simp only [List.mem_singleton, exists_eq_left, PastLimit, hw]
    omega
  · have hw1 : (BitVec.ofNat 16 (0xD800 + (c - 0x10000) / 0x400)).toNat =
        0xD800 + (c - 0x10000) / 0x400 := by
      rw [BitVec.toNat_ofNat]
      omega
    have hw2 : (BitVec.ofNat 16 (0xDC00 + (c - 0x10000) % 0x400)).toNat =
        0xDC00 + (c - 0x10000) % 0x400 := by
      rw [BitVec.toNat_ofNat]
      omega
    rw [utf16, if_neg hb]
    simp only [List.mem_cons, List.not_mem_nil, or_false, exists_eq_or_imp, exists_eq_left,
      PastLimit, hw1, hw2]
    omega

end CppIpc.Codecvt
