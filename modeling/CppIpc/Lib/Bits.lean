import Mathlib.Data.Finset.Card
import Mathlib.Data.Nat.ModEq

/-! # Words as sets of bits -/
namespace CppIpc.Lib.Bits

variable {w : Nat} {x y : BitVec w}

theorem eq_zero_iff : x = 0#w ↔ ∀ i, x.getLsbD i = false := by
  constructor
  · rintro rfl i; simp
  · intro h
    apply BitVec.eq_of_getLsbD_eq
    intro i _
    simpa using h i

theorem ne_zero_iff : x ≠ 0#w ↔ ∃ i, x.getLsbD i = true := by
  simp [Ne, eq_zero_iff]

theorem and_eq_zero_iff :
    x &&& y = 0#w ↔ ∀ i, x.getLsbD i = true → y.getLsbD i = false := by
  rw [eq_zero_iff]
  simp only [BitVec.getLsbD_and, Bool.and_eq_false_imp]

/-- Removing the bits of `y`. -/
@[simp] theorem getLsbD_and_not (i : Nat) :
    (x &&& ~~~y).getLsbD i = (x.getLsbD i && !y.getLsbD i) := by
  by_cases hi : i < w
  · simp [hi]
  · simp [BitVec.getLsbD_of_ge x i (by omega)]

/-- The bits of a word with one bit. -/
theorem getLsbD_single {b i : Nat} :
    (BitVec.twoPow w b).getLsbD i = true ↔ b < w ∧ b = i := by
  rw [BitVec.getLsbD_twoPow, Bool.and_eq_true, decide_eq_true_iff, decide_eq_true_iff]

theorem twoPow_inj {b c : Nat} (hb : b < w) (h : BitVec.twoPow w b = BitVec.twoPow w c) :
    b = c := by
  have hbit : (BitVec.twoPow w b).getLsbD b = true := getLsbD_single.mpr ⟨hb, rfl⟩
  rw [h] at hbit
  exact (getLsbD_single.mp hbit).2.symm

/-- The bits of `x + 1` and of the word whose lowest clear bit is filled. -/
theorem getLsbD_or_succ_xor {i : Nat} (hi : i < w) :
    ((x ||| (x + 1#w)) ^^^ x).getLsbD i = true ↔
      x.getLsbD i = false ∧ ∀ j < i, x.getLsbD j = true := by
  have hsucc : x + 1#w = -~~~x := by rw [BitVec.neg_eq_not_add, BitVec.not_not]
  have hneg : (x + 1#w).getLsbD i =
      ((!x.getLsbD i) ^^ decide (∃ j < i, (~~~x).getLsbD j = true)) := by
    rw [hsucc, BitVec.getLsbD_neg]
    simp [hi]
  have hlow : (∃ j < i, (~~~x).getLsbD j = true) ↔ ¬ ∀ j < i, x.getLsbD j = true := by
    constructor
    · rintro ⟨j, hj, h⟩ hall
      simp [hall j hj] at h
    · intro h
      simp only [not_forall] at h
      obtain ⟨j, hj, h⟩ := h
      exact ⟨j, hj, by simpa [show j < w by omega] using h⟩
  simp only [BitVec.getLsbD_xor, BitVec.getLsbD_or, hneg, hlow]
  by_cases hall : ∀ j < i, x.getLsbD j = true <;> cases x.getLsbD i <;> simp [hall]

/-! ## Filling the lowest clear bit -/

/-- The lowest clear bit is the one that filling changes. -/
theorem or_succ_eq (h : x ||| (x + 1#w) ≠ x) :
    ∃ b, b < w ∧ x.getLsbD b = false ∧ (∀ j < b, x.getLsbD j = true) ∧
      (x ||| (x + 1#w)) ^^^ x = BitVec.twoPow w b ∧ x ||| (x + 1#w) = x ||| BitVec.twoPow w b := by
  have hx : (x ||| (x + 1#w)) ^^^ x ≠ 0#w := fun h0 => h (BitVec.xor_eq_zero_iff.mp h0)
  obtain ⟨b, hb⟩ := ne_zero_iff.mp hx
  have hlt : b < w := BitVec.lt_of_getLsbD hb
  obtain ⟨hclear, hbelow⟩ := (getLsbD_or_succ_xor hlt).mp hb
  have hxor : (x ||| (x + 1#w)) ^^^ x = BitVec.twoPow w b := by
    apply BitVec.eq_of_getLsbD_eq
    intro i hi
    rw [Bool.eq_iff_iff, getLsbD_single, getLsbD_or_succ_xor hi]
    constructor
    · rintro ⟨hc, hl⟩
      rcases Nat.lt_trichotomy b i with hn | he | hn
      · rw [hl b hn] at hclear; cases hclear
      · exact ⟨hlt, he⟩
      · rw [hbelow i hn] at hc; cases hc
    · rintro ⟨-, rfl⟩
      exact ⟨hclear, hbelow⟩
  refine ⟨b, hlt, hclear, hbelow, hxor, ?_⟩
  apply BitVec.eq_of_getLsbD_eq
  intro i hi
  have hbit := congrArg (fun y => y.getLsbD i) hxor
  simp only [BitVec.getLsbD_xor, BitVec.getLsbD_or] at hbit ⊢
  rw [← hbit]
  cases x.getLsbD i <;> simp

theorem or_succ_eq_self_iff : x ||| (x + 1#w) = x ↔ ∀ i < w, x.getLsbD i = true := by
  constructor
  · intro h i
    induction i using Nat.strong_induction_on with
    | _ i ih =>
      intro hi
      by_contra hc
      -- all bits below are set, so that this one would be filled
      have hbit := (getLsbD_or_succ_xor hi).mpr
        ⟨by simpa using hc, fun j hj => ih j hj (Nat.lt_trans hj hi)⟩
      rw [h, BitVec.xor_self] at hbit
      simp at hbit
  · intro h
    apply BitVec.eq_of_getLsbD_eq
    intro i hi
    rw [BitVec.getLsbD_or, h i hi, Bool.true_or]

/-! ## Clearing the lowest set bit -/

theorem and_pred_eq (h : x ≠ 0#w) :
    ∃ b, x.getLsbD b = true ∧ x &&& (x - 1#w) = x &&& ~~~BitVec.twoPow w b := by
  have hpred : x - 1#w = ~~~(~~~x + 1#w) := by
    rw [← BitVec.neg_eq_not_add, BitVec.not_neg]
  have hdual : x &&& (x - 1#w) = ~~~(~~~x ||| (~~~x + 1#w)) := by
    rw [BitVec.not_or, BitVec.not_not, hpred]
  have hne : ~~~x ||| (~~~x + 1#w) ≠ ~~~x := by
    intro he
    obtain ⟨i, hi⟩ := ne_zero_iff.mp h
    have hall := or_succ_eq_self_iff.mp he i (BitVec.lt_of_getLsbD hi)
    simp [hi] at hall
  obtain ⟨b, hb, hclear, -, -, hor⟩ := or_succ_eq hne
  refine ⟨b, by simpa [hb] using hclear, ?_⟩
  rw [hdual, hor, BitVec.not_or, BitVec.not_not]

/-- The places of the bits that are set. -/
def ones (x : BitVec w) : Finset Nat := (Finset.range w).filter fun i => x.getLsbD i = true

@[simp] theorem mem_ones {i : Nat} : i ∈ ones x ↔ x.getLsbD i = true := by
  rw [ones, Finset.mem_filter, Finset.mem_range]
  exact ⟨And.right, fun h => ⟨BitVec.lt_of_getLsbD h, h⟩⟩

theorem ones_and_pred (h : x ≠ 0#w) :
    (ones (x &&& (x - 1#w))).card + 1 = (ones x).card := by
  obtain ⟨b, hb, he⟩ := and_pred_eq h
  have herase : ones (x &&& (x - 1#w)) = (ones x).erase b := by
    ext i
    rw [Finset.mem_erase, mem_ones, mem_ones, he, getLsbD_and_not, Bool.and_eq_true,
      Bool.not_eq_true', ← Bool.not_eq_true, getLsbD_single]
    constructor
    · rintro ⟨hi, hn⟩
      exact ⟨fun hib => hn ⟨BitVec.lt_of_getLsbD hb, hib.symm⟩, hi⟩
    · rintro ⟨hn, hi⟩
      exact ⟨hi, fun h => hn h.2.symm⟩
  rw [herase, Finset.card_erase_add_one (mem_ones.mpr hb)]

end CppIpc.Lib.Bits
