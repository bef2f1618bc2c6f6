import CppIpc.Codecvt
import Mathlib.Data.Nat.ModEq

/-! # The multi-byte form of a code point

A character of `k` continuation bytes carries six bits of the code point in each
of them and the others in its lead byte. The encoder chooses the smallest `k`
that has room, `extra`; the decoder takes the `k` that the lead byte announces. -/
namespace CppIpc.Codecvt
open CppIpc.Lib.Buffers CppIpc.Lib.Codecs

/-- The continuation bytes of the shortest form. -/
def extra (c : Nat) : Nat :=
  if c < 0x80 then 0
  else if c < 0x800 then 1
  else if c < 0x10000 then 2
  else if c < 0x200000 then 3
  else if c < 0x4000000 then 4
  else 5

def utf8Length (c : Nat) : Nat := extra c + 1

/-- The code points for which `k` continuation bytes have room end here. -/
def limit (k : Nat) : Nat := if k = 0 then 2 ^ 7 else 2 ^ (6 - k) * 64 ^ k

/-- The lead byte of an empty character. -/
def mark (k : Nat) : Nat := if k = 0 then 0 else 0x100 - 2 ^ (7 - k)

/-- The last `6 * k` bits of `c`, in `k` bytes. -/
def tailBytes : Nat → Nat → List (BitVec 8)
  | 0, _ => []
  | k + 1, c => BitVec.ofNat 8 (0x80 + c / 64 ^ k % 64) :: tailBytes k c

def form (k c : Nat) : List (BitVec 8) := BitVec.ofNat 8 (mark k + c / 64 ^ k) :: tailBytes k c

/-- The shortest form. -/
def utf8 (c : Nat) : List (BitVec 8) := form (extra c) c

/-- What a converted text has for the code point `c`. -/
def units8 (c : BitVec 32) : Option (List (BitVec 8)) :=
  if 0 < c.toNat ∧ c.toNat < 2 ^ 31 then some (utf8 c.toNat) else none

@[simp] theorem tailBytes_length (k c : Nat) : (tailBytes k c).length = k := by
  induction k with
  | zero => rfl
  | succ k ih => rw [tailBytes, List.length_cons, ih]

@[simp] theorem form_length (k c : Nat) : (form k c).length = k + 1 := by simp [form]

@[simp] theorem utf8_length (c : Nat) : (utf8 c).length = utf8Length c := form_length _ c

theorem extra_le (c : Nat) : extra c ≤ 5 := by unfold extra; grind

theorem lt_limit_extra {c : Nat} (h : c < 2 ^ 31) : c < limit (extra c) := by
  unfold extra limit
  grind

/-- No form with room for the code point is shorter than the chosen one. -/
theorem extra_le_of_lt_limit {k c : Nat} (hk : k ≤ 5) (h : c < limit k) : extra c ≤ k := by
  unfold extra
  unfold limit at h
  have hcases : k = 0 ∨ k = 1 ∨ k = 2 ∨ k = 3 ∨ k = 4 ∨ k = 5 := by omega
  rcases hcases with rfl | rfl | rfl | rfl | rfl | rfl <;> simp at h <;> grind

theorem lead_lt {k c : Nat} (hk0 : k ≠ 0) (h : c < limit k) :
    c / 64 ^ k < 2 ^ (6 - k) := by
  rw [limit, if_neg hk0] at h
  exact Nat.div_lt_of_lt_mul (by rwa [Nat.mul_comm])

/-! ## Bytes -/

theorem or_mark {x i : Nat} (a : Nat) (h : x < 2 ^ i) : x ||| 2 ^ i * a = 2 ^ i * a + x := by
  rw [Nat.or_comm, Nat.two_pow_add_eq_or_of_lt h]

theorem contByte (c : BitVec 32) :
    ((c &&& 0x3F) ||| 0x80).setWidth 8 = BitVec.ofNat 8 (0x80 + c.toNat % 64) := by
  apply BitVec.eq_of_toNat_eq
  have hand : c.toNat &&& 63 = c.toNat % 64 := Nat.and_two_pow_sub_one_eq_mod c.toNat 6
  have hor := or_mark (x := c.toNat % 64) (i := 7) 1 (by omega)
  simp only [Nat.reducePow, Nat.reduceMul] at hor
  simp only [BitVec.toNat_setWidth, BitVec.toNat_or, BitVec.toNat_and, BitVec.ofNat_eq_ofNat,
    BitVec.toNat_ofNat, Nat.reducePow, Nat.reduceMod, hand, hor]

/-- Writing the lead byte over what is left of the code point. -/
theorem leadByte_write {k : Nat} (c : BitVec 32) (hk : k ≤ 5) (h : c.toNat < limit k) :
    ((c >>> (6 * k)) ||| (prefixes.getD k 0).setWidth 32).setWidth 8 =
      BitVec.ofNat 8 (mark k + c.toNat / 64 ^ k) := by
  apply BitVec.eq_of_toNat_eq
  have hshift : c.toNat >>> (6 * k) = c.toNat / 64 ^ k := by
    rw [Nat.shiftRight_eq_div_pow, Nat.pow_mul]
  simp only [BitVec.toNat_setWidth, BitVec.toNat_or, BitVec.toNat_ushiftRight,
    BitVec.toNat_ofNat, hshift]
  have hcases : k = 0 ∨ k = 1 ∨ k = 2 ∨ k = 3 ∨ k = 4 ∨ k = 5 := by omega
  rcases hcases with rfl | rfl | rfl | rfl | rfl | rfl
  · simp [prefixes, mark]
  · have hor := or_mark 6 (lead_lt (by omega) h)
    simpa [prefixes, mark] using congrArg (· % 256) hor
  · have hor := or_mark 14 (lead_lt (by omega) h)
    simpa [prefixes, mark] using congrArg (· % 256) hor
  · have hor := or_mark 30 (lead_lt (by omega) h)
    simpa [prefixes, mark] using congrArg (· % 256) hor
  · have hor := or_mark 62 (lead_lt (by omega) h)
    simpa [prefixes, mark] using congrArg (· % 256) hor
  · have hor := or_mark 126 (lead_lt (by omega) h)
    simpa [prefixes, mark] using congrArg (· % 256) hor

/-! ## The encoder -/

/-- The tail byte that is written first is the last one of the form. -/
theorem tailBytes_snoc (k c : Nat) :
    tailBytes (k + 1) c = tailBytes k (c / 64) ++ [BitVec.ofNat 8 (0x80 + c % 64)] := by
  induction k with
  | zero => simp [tailBytes]
  | succ k ih =>
    have hdiv : c / 64 / 64 ^ k = c / 64 ^ (k + 1) := by
      rw [Nat.div_div_eq_div_mul, Nat.pow_succ']
    rw [tailBytes, ih, tailBytes, hdiv]
    rfl

theorem writeTail_eq (k : Nat) (c : BitVec 32) (p : Nat) (m : Target 8) :
    writeTail k c p m = (c >>> (6 * k), put m (p + 1) (tailBytes k c.toNat)) := by
  induction k generalizing c m with
  | zero => simp [writeTail, tailBytes]
  | succ k ih =>
    have hc : (c >>> 6).toNat = c.toNat / 64 := by
      rw [BitVec.toNat_ushiftRight, Nat.shiftRight_eq_div_pow]
    have hs : c >>> 6 >>> (6 * k) = c >>> (6 * (k + 1)) := by
      rw [← BitVec.shiftRight_add]
      congr 1
      omega
    have hp : p + 1 + (tailBytes k (c.toNat / 64)).length = p + (k + 1) := by
      rw [tailBytes_length]
      omega
    rw [writeTail, ih, hs, hc, tailBytes_snoc, put_append, hp, contByte,
      put_set _ _ _ (Nat.le_of_eq hp)]
    rfl

theorem findIdx_codeup (c : BitVec 32) :
    codeup.findIdx (c < ·) = if c.toNat < 2 ^ 31 then extra c.toNat else codeup.length := by
  simp only [codeup, extra, List.findIdx_cons, BitVec.lt_def, BitVec.ofNat_eq_ofNat,
    BitVec.toNat_ofNat, Nat.reducePow, Nat.reduceMod, List.findIdx_nil, List.length_cons,
    List.length_nil]
  grind

theorem units8_of_range {c : BitVec 32} (h : 0 < c.toNat ∧ c.toNat < 2 ^ 31) :
    units8 c = some (utf8 c.toNat) := if_pos h

theorem units8_eq_some {c : BitVec 32} {l : List (BitVec 8)} (h : units8 c = some l) :
    0 < c.toNat ∧ c.toNat < 2 ^ 31 ∧ l = utf8 c.toNat := by
  unfold units8 at h
  split at h
  next hc => exact ⟨hc.1, hc.2, (Option.some.inj h).symm⟩
  next => cases h

/-- The encoder past its two checks. -/
theorem cvtChar32To8_some {c : BitVec 32} {l : List (BitVec 8)} (h : units8 c = some l)
    (des : Option Nat) (dlen : Nat) (m : Target 8) :
    cvtChar32To8 c des dlen m = match des with
      | none => (l.length, m)
      | some p =>
        let t := if dlen > extra c.toNat then writeTail (extra c.toNat) c p m else (c, m)
        (l.length, set t.2 p
          ((t.1 ||| (prefixes.getD (extra c.toNat) 0).setWidth 32).setWidth 8)) := by
  obtain ⟨h0, hlt, rfl⟩ := units8_eq_some h
  have hc : c ≠ 0 := by rintro rfl; simp at h0
  have he : extra c.toNat ≠ codeup.length := by
    have hle := extra_le c.toNat
    simp only [codeup, List.length_cons, List.length_nil]
    omega
  rw [cvtChar32To8, if_neg hc, findIdx_codeup, if_pos hlt, if_neg he, utf8_length]
  rfl

theorem cvtChar32To8_none {c : BitVec 32} (h : units8 c = none) (des : Option Nat) (dlen : Nat)
    (m : Target 8) : cvtChar32To8 c des dlen m = (0, m) := by
  by_cases hc : c = 0
  · rw [cvtChar32To8, if_pos hc]
  · have h0 : 0 < c.toNat := Nat.pos_of_ne_zero fun h => hc (BitVec.eq_of_toNat_eq (by simpa))
    have hlt : ¬c.toNat < 2 ^ 31 := by
      intro hlt
      rw [units8, if_pos ⟨h0, hlt⟩] at h
      cases h
    rw [cvtChar32To8, if_neg hc, findIdx_codeup, if_neg hlt, if_pos rfl]

theorem cvtChar32To8_fits {c : BitVec 32} {l : List (BitVec 8)} (h : units8 c = some l)
    {dlen : Nat} (hd : l.length ≤ dlen) (p : Nat) (m : Target 8) :
    cvtChar32To8 c (some p) dlen m = (l.length, put m p l) := by
  obtain ⟨_, hlt, rfl⟩ := units8_eq_some h
  have hroom : dlen > extra c.toNat := by rw [utf8_length, utf8Length] at hd; omega
  rw [cvtChar32To8_some h]
  simp only [if_pos hroom, writeTail_eq]
  rw [leadByte_write c (extra_le _) (lt_limit_extra hlt), set_put _ _ _ (by omega)]
  rfl

/-- Without room for the whole character the lead byte is still written. -/
theorem cvtChar32To8_cut {c : BitVec 32} {l : List (BitVec 8)} (h : units8 c = some l)
    {dlen : Nat} (hd : dlen < l.length) (p : Nat) (m : Target 8) :
    ∃ b, cvtChar32To8 c (some p) dlen m = (l.length, set m p b) := by
  obtain ⟨_, _, rfl⟩ := units8_eq_some h
  have hroom : ¬dlen > extra c.toNat := by rw [utf8_length, utf8Length] at hd; omega
  rw [cvtChar32To8_some h]
  simp only [if_neg hroom]
  exact ⟨_, rfl⟩

/-! ## The decoder -/

theorem toNat_and_mask (b : BitVec 8) {k : Nat} (x : BitVec 8)
    (hx : x.toNat = 2 ^ k - 1) : (b &&& x).toNat = b.toNat % 2 ^ k := by
  rw [BitVec.toNat_and, hx, Nat.and_two_pow_sub_one_eq_mod]

/-- The lead byte of a form says its length and the top of the code point. -/
theorem leadByte_mark {k a : Nat} (hk0 : k ≠ 0) (hk : k ≤ 5) (ha : a < 2 ^ (6 - k))
    {b : BitVec 8} (hb : b.toNat = mark k + a) :
    leadByte b = (BitVec.ofNat 8 a, k + 1) ∧ ¬b < 0x80 ∧ ¬(b < 0xC0 ∨ b > 0xFD) := by
  have hand : ∀ i ≤ 5, i = 6 - k → ∀ x : BitVec 8, x.toNat = 2 ^ i - 1 →
      mark k % 2 ^ i = 0 → b &&& x = BitVec.ofNat 8 a := by
    rintro i hi rfl x hx hm
    apply BitVec.eq_of_toNat_eq
    have ha8 : a < 2 ^ 8 := Nat.lt_of_lt_of_le ha (Nat.pow_le_pow_right (by omega) (by omega))
    rw [toNat_and_mask b x hx, hb, BitVec.toNat_ofNat, Nat.mod_eq_of_lt ha8,
      Nat.add_mod, hm, Nat.zero_add, Nat.mod_mod, Nat.mod_eq_of_lt ha]
  have hcases : k = 1 ∨ k = 2 ∨ k = 3 ∨ k = 4 ∨ k = 5 := by omega
  simp only [leadByte, BitVec.lt_def, gt_iff_lt, BitVec.ofNat_eq_ofNat, BitVec.toNat_ofNat,
    Nat.reducePow, Nat.reduceMod]
  rcases hcases with rfl | rfl | rfl | rfl | rfl
  · have h := hand 5 (by omega) rfl 0x1F rfl rfl
    simp only [mark] at hb ha
    grind
  · have h := hand 4 (by omega) rfl 0x0F rfl rfl
    simp only [mark] at hb ha
    grind
  · have h := hand 3 (by omega) rfl 0x07 rfl rfl
    simp only [mark] at hb ha
    grind
  · have h := hand 2 (by omega) rfl 0x03 rfl rfl
    simp only [mark] at hb ha
    grind
  · have h := hand 1 (by omega) rfl 0x01 rfl rfl
    simp only [mark] at hb ha
    grind

/-- Every byte that the decoder takes for a lead byte is one of a form. -/
theorem mark_of_leadByte {b : BitVec 8} (h : ¬b < 0x80) (hb : ¬(b < 0xC0 ∨ b > 0xFD)) :
    ∃ k a, k ≠ 0 ∧ k ≤ 5 ∧ a < 2 ^ (6 - k) ∧ b.toNat = mark k + a := by
  simp only [BitVec.lt_def, gt_iff_lt, BitVec.ofNat_eq_ofNat, BitVec.toNat_ofNat,
    Nat.reducePow, Nat.reduceMod] at h hb
  by_cases h1 : b.toNat < 0xE0
  · exact ⟨1, b.toNat - 0xC0, by simp [mark]; omega⟩
  by_cases h2 : b.toNat < 0xF0
  · exact ⟨2, b.toNat - 0xE0, by simp [mark]; omega⟩
  by_cases h3 : b.toNat < 0xF8
  · exact ⟨3, b.toNat - 0xF0, by simp [mark]; omega⟩
  by_cases h4 : b.toNat < 0xFC
  · exact ⟨4, b.toNat - 0xF8, by simp [mark]; omega⟩
  · exact ⟨5, b.toNat - 0xFC, by simp [mark]; omega⟩

theorem toNat_contByte (x : Nat) :
    (BitVec.ofNat 8 (0x80 + x % 64)).toNat = 0x80 + x % 64 := by
  rw [BitVec.toNat_ofNat, Nat.mod_eq_of_lt (by omega)]

/-- One turn of the loop does not overflow while there is room for the digits to come. -/
theorem shift_add {d : BitVec 32} {k : Nat} (b : BitVec 8)
    (hd : (d.toNat + 1) * 64 ^ (k + 1) ≤ 2 ^ 32) :
    ((d <<< 6) + (b &&& 0x3F).setWidth 32).toNat = d.toNat * 64 + b.toNat % 64 ∧
      (d.toNat * 64 + b.toNat % 64 + 1) * 64 ^ k ≤ 2 ^ 32 := by
  have hk : 0 < 64 ^ k := Nat.pow_pos (by omega)
  have hstep : (d.toNat * 64 + b.toNat % 64 + 1) * 64 ^ k ≤ 2 ^ 32 := by
    calc (d.toNat * 64 + b.toNat % 64 + 1) * 64 ^ k
        ≤ ((d.toNat + 1) * 64) * 64 ^ k := Nat.mul_le_mul_right _ (by omega)
      _ = (d.toNat + 1) * 64 ^ (k + 1) := by rw [Nat.mul_assoc, Nat.pow_succ']
      _ ≤ 2 ^ 32 := hd
  have hlt : d.toNat * 64 + b.toNat % 64 + 1 ≤ 2 ^ 32 :=
    Nat.le_trans (Nat.le_mul_of_pos_right _ hk) hstep
  have hand : (b &&& 0x3F).toNat = b.toNat % 64 := toNat_and_mask b (k := 6) _ rfl
  refine ⟨?_, hstep⟩
  simp only [BitVec.toNat_add, BitVec.toNat_shiftLeft, BitVec.toNat_setWidth, hand,
    Nat.shiftLeft_eq]
  omega

/-- The loop puts the digits of a code point back together. -/
theorem readTail_tailBytes (k c : Nat) (t : List (BitVec 8)) (d : BitVec 32)
    (hd : (d.toNat + 1) * 64 ^ k ≤ 2 ^ 32) :
    readTail k (tailBytes k c ++ t) d = some (BitVec.ofNat 32 (d.toNat * 64 ^ k + c % 64 ^ k)) := by
  induction k generalizing d with
  | zero => simp [readTail, Nat.mod_one]
  | succ k ih =>
    obtain ⟨hval, hroom⟩ := shift_add (BitVec.ofNat 8 (0x80 + c / 64 ^ k % 64)) hd
    have hb := toNat_contByte (c / 64 ^ k)
    have hin : ¬(BitVec.ofNat 8 (0x80 + c / 64 ^ k % 64) < 0x80 ∨
        BitVec.ofNat 8 (0x80 + c / 64 ^ k % 64) > 0xBF) := by
      simp only [BitVec.lt_def, gt_iff_lt, hb, BitVec.ofNat_eq_ofNat, BitVec.toNat_ofNat]
      omega
    have hdigit : (0x80 + c / 64 ^ k % 64) % 64 = c / 64 ^ k % 64 := by omega
    rw [hb, hdigit] at hval hroom
    rw [tailBytes, List.cons_append, readTail, if_neg hin, ih _ (by rw [hval]; exact hroom), hval]
    congr 2
    rw [Nat.mod_pow_succ, Nat.pow_succ', Nat.add_mul, Nat.mul_assoc]
    have hcomm := Nat.mul_comm (64 ^ k) (c / 64 ^ k % 64)
    omega

/-- What the loop accepts is the digits of its result. -/
theorem readTail_eq_some {k : Nat} {s : List (BitVec 8)} {d v : BitVec 32}
    (hd : (d.toNat + 1) * 64 ^ k ≤ 2 ^ 32) (h : readTail k s d = some v) :
    v.toNat / 64 ^ k = d.toNat ∧ s.take k = tailBytes k v.toNat := by
  induction k generalizing s d with
  | zero => cases h; simp [tailBytes]
  | succ k ih =>
    cases s with
    | nil => cases h
    | cons b s =>
      rw [readTail] at h
      split at h
      · cases h
      next hin =>
        obtain ⟨hval, hroom⟩ := shift_add b hd
        obtain ⟨htop, htail⟩ := ih (by rw [hval]; exact hroom) h
        rw [hval] at htop
        simp only [BitVec.lt_def, gt_iff_lt, BitVec.ofNat_eq_ofNat, BitVec.toNat_ofNat] at hin
        have hdiv : v.toNat / 64 ^ (k + 1) = d.toNat := by
          rw [Nat.pow_succ, ← Nat.div_div_eq_div_mul, htop]
          omega
        have hb : b = BitVec.ofNat 8 (0x80 + v.toNat / 64 ^ k % 64) := by
          apply BitVec.eq_of_toNat_eq
          rw [toNat_contByte, htop]
          omega
        exact ⟨hdiv, by rw [List.take_succ_cons, htail, tailBytes, ← hb]⟩

theorem limit_le (k : Nat) (hk : k ≤ 5) : limit k ≤ 2 ^ 31 := by
  have hcases : k = 0 ∨ k = 1 ∨ k = 2 ∨ k = 3 ∨ k = 4 ∨ k = 5 := by omega
  rcases hcases with rfl | rfl | rfl | rfl | rfl | rfl <;> simp [limit]

/-- A lead byte is one byte. -/
theorem mark_add_lt {k a : Nat} (hk0 : k ≠ 0) (hk : k ≤ 5) (ha : a < 2 ^ (6 - k)) :
    mark k + a < 2 ^ 8 := by
  have hcases : k = 1 ∨ k = 2 ∨ k = 3 ∨ k = 4 ∨ k = 5 := by omega
  rw [mark, if_neg hk0]
  rcases hcases with rfl | rfl | rfl | rfl | rfl <;> omega

/-- The first digit leaves room for the others. -/
theorem lead_room {k a : Nat} (hk0 : k ≠ 0) (hk : k ≤ 5) (ha : a < 2 ^ (6 - k)) :
    (a + 1) * 64 ^ k ≤ 2 ^ 32 := by
  have hle : (a + 1) * 64 ^ k ≤ limit k := by
    rw [limit, if_neg hk0]
    exact Nat.mul_le_mul_right _ ha
  have h31 := limit_le k hk
  omega

theorem toNat_setWidth_lead {k a : Nat} (ha : a < 2 ^ (6 - k)) :
    ((BitVec.ofNat 8 a).setWidth 32).toNat = a := by
  have h8 : a < 2 ^ 6 := Nat.lt_of_lt_of_le ha (Nat.pow_le_pow_right (by omega) (by omega))
  simp only [BitVec.toNat_setWidth, BitVec.toNat_ofNat]
  omega

/-- A form is read as what it was made of, whether it is the shortest or not. -/
theorem read_form {k c : Nat} (hk : k ≤ 5) (hc : c < limit k) (h0 : k = 0 → 0 < c)
    (t : List (BitVec 8)) :
    cvtChar8To32 (form k c ++ t) = some (k + 1, BitVec.ofNat 32 c) := by
  rw [form, List.cons_append, cvtChar8To32]
  by_cases hk0 : k = 0
  · subst hk0
    have hlt : c < 128 := hc
    have hpos := h0 rfl
    have hb : (BitVec.ofNat 8 (mark 0 + c / 64 ^ 0)).toNat = c := by
      have hm : mark 0 = 0 := rfl
      rw [BitVec.toNat_ofNat, hm, Nat.pow_zero, Nat.div_one]
      omega
    have hne : BitVec.ofNat 8 (mark 0 + c / 64 ^ 0) ≠ 0 := by
      intro h
      rw [h] at hb
      simp at hb
      omega
    have hascii : BitVec.ofNat 8 (mark 0 + c / 64 ^ 0) < 0x80 := by
      rw [BitVec.lt_def, hb]
      exact hlt
    rw [if_neg hne, if_pos hascii]
    congr 2
    apply BitVec.eq_of_toNat_eq
    rw [BitVec.toNat_setWidth, hb, BitVec.toNat_ofNat]
  · have ha := lead_lt hk0 hc
    have hb : (BitVec.ofNat 8 (mark k + c / 64 ^ k)).toNat = mark k + c / 64 ^ k := by
      rw [BitVec.toNat_ofNat, Nat.mod_eq_of_lt (mark_add_lt hk0 hk ha)]
    obtain ⟨hlead, hascii, hin⟩ := leadByte_mark hk0 hk ha hb
    have hne : BitVec.ofNat 8 (mark k + c / 64 ^ k) ≠ 0 := by
      intro h
      rw [h] at hascii
      exact hascii (by decide)
    have htop := toNat_setWidth_lead ha
    have hlen : ¬(tailBytes k c ++ t).length + 1 < k + 1 := by
      rw [List.length_append, tailBytes_length]
      omega
    rw [if_neg hne, if_neg hascii, if_neg hin, hlead]
    simp only
    rw [if_neg hlen, Nat.add_sub_cancel, readTail_tailBytes _ _ _ _
      (by rw [htop]; exact lead_room hk0 hk ha), htop, Nat.div_add_mod']
    rfl

/-- What is read is a form of the result, in the class that its length says. -/
theorem form_of_read {s : List (BitVec 8)} {n : Nat} {v : BitVec 32}
    (h : cvtChar8To32 s = some (n, v)) :
    ∃ k ≤ 5, n = k + 1 ∧ v.toNat < limit k ∧ (k = 0 → 0 < v.toNat) ∧
      s.take n = form k v.toNat := by
  cases s with
  | nil => cases h
  | cons b src =>
    rw [cvtChar8To32] at h
    split at h
    · cases h
    next hb0 =>
      split at h
      next hascii =>
        cases h
        have hv : (b.setWidth 32).toNat = b.toNat := by
          rw [BitVec.toNat_setWidth]
          omega
        have hpos : 0 < b.toNat :=
          Nat.pos_of_ne_zero fun h => hb0 (BitVec.eq_of_toNat_eq (by simpa))
        refine ⟨0, by omega, rfl, by rw [hv]; exact hascii, fun _ => by omega, ?_⟩
        simp [hv, form, tailBytes, mark]
      next hascii =>
        split at h
        · cases h
        next hin =>
          obtain ⟨k, a, hk0, hk, ha, hb⟩ := mark_of_leadByte hascii hin
          obtain ⟨hlead, -, -⟩ := leadByte_mark hk0 hk ha hb
          rw [hlead] at h
          split at h
          · cases h
          · obtain ⟨v', hread, hv⟩ := Option.map_eq_some_iff.mp h
            cases hv
            have htop := toNat_setWidth_lead ha
            obtain ⟨hdiv, htail⟩ := readTail_eq_some
              (by rw [Nat.add_sub_cancel, htop]; exact lead_room hk0 hk ha) hread
            rw [Nat.add_sub_cancel, htop] at hdiv
            rw [Nat.add_sub_cancel] at htail
            have hlt : v.toNat < limit k := by
              rw [limit, if_neg hk0]
              exact Nat.lt_mul_of_div_lt (by rwa [hdiv]) (Nat.pow_pos (by omega))
            refine ⟨k, hk, rfl, hlt, fun h => absurd h hk0, ?_⟩
            rw [List.take_succ_cons, htail, form, hdiv, ← hb, BitVec.ofNat_toNat]
            simp

theorem zero_not_mem_form {k c : Nat} (h : cvtChar8To32 (form k c) ≠ none) :
    0 ∉ form k c := by
  intro h0
  have htail : 0 ∉ tailBytes k c := by
    clear h h0
    induction k with
    | zero => simp [tailBytes]
    | succ k ih =>
      rw [tailBytes, List.mem_cons, not_or]
      refine ⟨fun h => ?_, ih⟩
      have hb := toNat_contByte (c / 64 ^ k)
      rw [← h] at hb
      simp at hb
      omega
  rcases List.mem_cons.mp h0 with hlead | h0
  · rw [form, ← hlead, cvtChar8To32, if_pos rfl] at h
    exact h rfl
  · exact htail h0

theorem utf8_read {c : BitVec 32} (h0 : 0 < c.toNat) (h : c.toNat < 2 ^ 31)
    (t : List (BitVec 8)) :
    decoder8.read (utf8 c.toNat ++ t) = some ((utf8 c.toNat).length, c) := by
  have hread := read_form (extra_le c.toNat) (lt_limit_extra h) (fun _ => h0) t
  rw [BitVec.ofNat_toNat, BitVec.setWidth_eq] at hread
  rw [utf8_length]
  exact hread

theorem zero_not_mem_utf8 {c : BitVec 32} (h0 : 0 < c.toNat) (h : c.toNat < 2 ^ 31) :
    0 ∉ utf8 c.toNat := by
  have hread := utf8_read h0 h []
  rw [List.append_nil] at hread
  exact zero_not_mem_form fun hn => by
    have := hread.symm.trans hn
    cases this

/-- The encoder's form is the shortest that the decoder reads. -/
theorem shortest8 : Shortest decoder8 0 fun v => utf8 v.toNat where
  le := by
    intro s n v h
    obtain ⟨k, hk, rfl, hlt, -, -⟩ := form_of_read h
    have hle := extra_le_of_lt_limit hk hlt
    rw [utf8_length, utf8Length]
    omega
  eq := by
    intro s n v h hl
    obtain ⟨k, hk, rfl, -, -, htake⟩ := form_of_read h
    have he : extra v.toNat = k := by rw [utf8_length, utf8Length] at hl; omega
    rw [htake, utf8, he]
  clear := by
    intro s n v h
    obtain ⟨k, hk, rfl, hlt, h0, htake⟩ := form_of_read h
    have hread := read_form hk hlt h0 []
    rw [List.append_nil] at hread
    rw [htake]
    exact zero_not_mem_form fun hn => by rw [hn] at hread; cases hread

end CppIpc.Codecvt
