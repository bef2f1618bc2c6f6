import CppIpc.Def
import CppIpc.Lib.Bits

/-! # The packed read counter `rc_`

In both broadcast policies the low 32 bits of `rc_` are the receivers that have
not read the slot yet. Above them the single-producer policy keeps a 32-bit
epoch, the multi-producer policy a 24-bit update counter and an 8-bit epoch. -/
namespace CppIpc.ReadCounter
open CppIpc.Def

abbrev RC := BitVec 64

/-- Receiver `r` is connected under the word `cc`. -/
abbrev Conn (cc : CC) (r : Fin 32) : Prop := cc.getLsbD r = true

/-- `connected_id()` of receiver `r`. -/
def idOf (r : Fin 32) : CC := BitVec.twoPow 32 r

@[simp] theorem getLsbD_idOf (r : Fin 32) (i : Nat) :
    (idOf r).getLsbD i = decide ((r : Nat) = i) := by
  simp [idOf, BitVec.getLsbD_twoPow, r.isLt]

theorem idOf_ne_zero (r : Fin 32) : idOf r ≠ 0 := by
  intro h
  have hb : (idOf r).getLsbD r = true := by rw [getLsbD_idOf]; exact decide_eq_true rfl
  rw [h] at hb
  simp at hb

theorem idOf_inj {r r' : Fin 32} (h : idOf r = idOf r') : r = r' :=
  Fin.ext (Lib.Bits.twoPow_inj r.isLt h)

theorem exists_conn {cc : CC} (h : cc ≠ 0) : ∃ r, Conn cc r := by
  obtain ⟨b, hb⟩ := Lib.Bits.ne_zero_iff.mp h
  exact ⟨⟨b, BitVec.lt_of_getLsbD hb⟩, hb⟩

/-- Nothing is left without the bit of `r` if there is no other bit. -/
theorem and_not_idOf_eq_zero {cc : CC} {r : Fin 32} :
    cc &&& ~~~idOf r = 0#32 ↔ ∀ r', Conn cc r' → r' = r := by
  rw [Lib.Bits.eq_zero_iff]
  constructor
  · intro h r' hr'
    have hbit := h r'
    rw [Lib.Bits.getLsbD_and_not, getLsbD_idOf, hr', Bool.true_and, Bool.not_eq_false',
      decide_eq_true_iff] at hbit
    exact (Fin.ext hbit).symm
  · intro h i
    rw [Lib.Bits.getLsbD_and_not, getLsbD_idOf]
    cases hbit : cc.getLsbD i with
    | false => rfl
    | true =>
      have he := h ⟨i, BitVec.lt_of_getLsbD hbit⟩ hbit
      simp [← he]

theorem not_conn_zero (r : Fin 32) : ¬ Conn 0 r := by simp

theorem not_conn_of_and {cc cc' : CC} (h : cc &&& cc' = 0) {r : Fin 32} (hr : Conn cc r) :
    ¬ Conn cc' r := by
  intro hr'
  exact absurd (hr'.symm.trans (Lib.Bits.and_eq_zero_iff.mp h r hr)) (by decide)

/-- The pending receivers of a slot. -/
def pend (rc : RC) : CC := rc.setWidth 32

theorem getLsbD_pend (rc : RC) (i : Nat) :
    (pend rc).getLsbD i = (decide (i < 32) && rc.getLsbD i) := by
  simp [pend]

/-- The mask of the pending bits, `ep_mask` of the one policy and `rc_mask` of
the other. -/
def lowMask : RC := 0x00000000ffffffff#64

theorem lowMask_eq : lowMask = (BitVec.allOnes 32).setWidth 64 := by decide +kernel

@[simp] theorem getLsbD_lowMask (i : Nat) : lowMask.getLsbD i = decide (i < 32) := by
  rw [lowMask_eq, BitVec.getLsbD_setWidth, BitVec.getLsbD_allOnes]
  by_cases h : i < 32
  · simp [h, show i < 64 by omega]
  · simp [h]

/-- `rem_cc = cur_rc & mask`, converted to `cc_t`. -/
@[simp] theorem pend_and_lowMask (rc : RC) : pend (rc &&& lowMask) = pend rc := by
  apply BitVec.eq_of_getLsbD_eq
  intro i hi
  simp only [getLsbD_pend, BitVec.getLsbD_and, getLsbD_lowMask, hi, decide_true, Bool.true_and,
    Bool.and_true]

theorem and_lowMask_eq_zero {rc : RC} : rc &&& lowMask = 0 ↔ pend rc = 0 := by
  rw [BitVec.ofNat_eq_ofNat, BitVec.ofNat_eq_ofNat]
  simp only [Lib.Bits.eq_zero_iff, getLsbD_pend, BitVec.getLsbD_and, getLsbD_lowMask]
  simp only [Bool.and_comm]

/-- Clearing the bit of one receiver. -/
@[simp] theorem pend_and_not (rc : RC) (id : CC) :
    pend (rc &&& ~~~id.setWidth 64) = pend rc &&& ~~~id := by
  apply BitVec.eq_of_getLsbD_eq
  intro i hi
  simp only [getLsbD_pend, Lib.Bits.getLsbD_and_not, BitVec.getLsbD_setWidth, hi,
    show i < 64 by omega, decide_true, Bool.true_and]

/-- Marking a slot whose other fields are `e` as unread by `cc`. -/
theorem pend_or {e : RC} (cc : CC) (he : pend e = 0#32) : pend (e ||| cc.setWidth 64) = cc := by
  apply BitVec.eq_of_getLsbD_eq
  intro i hi
  have h0 := Lib.Bits.eq_zero_iff.mp he i
  simp only [getLsbD_pend, BitVec.getLsbD_or, BitVec.getLsbD_setWidth, hi,
    show i < 64 by omega, decide_true, Bool.true_and] at h0 ⊢
  simp [h0]

/-! ## Single producer: a 32-bit epoch above the pending bits -/

namespace Route

/-- `ep_mask`. -/
def epMask : RC := lowMask

/-- `ep_incr`. -/
def epIncr : RC := 0x0000000100000000#64

theorem epIncr_toNat : epIncr.toNat = 2 ^ 32 := rfl

theorem pend_add_epIncr {e : RC} (he : pend e = 0#32) : pend (e + epIncr) = 0#32 := by
  have h : e.toNat % 2 ^ 32 = 0 := by simpa [pend] using congrArg BitVec.toNat he
  apply BitVec.eq_of_toNat_eq
  rw [pend, BitVec.toNat_setWidth, BitVec.toNat_add, epIncr_toNat, BitVec.toNat_zero]
  omega

/-- A slot marked under epoch `e` carries that epoch. -/
theorem tag_or {e : RC} (cc : CC) (he : pend e = 0#32) :
    (e ||| cc.setWidth 64) &&& ~~~epMask = e := by
  apply BitVec.eq_of_getLsbD_eq
  intro i hi
  have h0 := Lib.Bits.eq_zero_iff.mp he i
  rw [getLsbD_pend] at h0
  rw [Lib.Bits.getLsbD_and_not, BitVec.getLsbD_or, BitVec.getLsbD_setWidth, epMask,
    getLsbD_lowMask]
  by_cases h32 : i < 32
  · simp only [h32, decide_true, Bool.true_and] at h0
    simp [h32, h0]
  · simp [h32, BitVec.getLsbD_of_ge cc i (by omega)]

/-- Clearing a pending bit keeps the epoch. -/
theorem tag_and_not (rc : RC) (id : CC) :
    (rc &&& ~~~id.setWidth 64) &&& ~~~epMask = rc &&& ~~~epMask := by
  apply BitVec.eq_of_getLsbD_eq
  intro i hi
  simp only [Lib.Bits.getLsbD_and_not, BitVec.getLsbD_setWidth, epMask, getLsbD_lowMask]
  by_cases h32 : i < 32
  · simp [h32]
  · simp [h32, BitVec.getLsbD_of_ge id i (by omega)]

end Route

/-! ## Multi producer: an update counter and an 8-bit epoch -/

namespace Channel

def rcMask : RC := lowMask
def epMask : RC := 0x00ffffffffffffff#64
def epIncr : RC := 0x0100000000000000#64
def icMask : RC := 0xff000000ffffffff#64
def icIncr : RC := 0x0000000100000000#64

def incRc (rc : RC) : RC := (rc &&& icMask) ||| ((rc + icIncr) &&& ~~~icMask)

def incMask (rc : RC) : RC := incRc rc &&& ~~~rcMask

/-- The 24-bit counter of updates. -/
def count (rc : RC) : BitVec 24 := rc.extractLsb' 32 24

theorem epMask_eq : epMask = (BitVec.allOnes 56).setWidth 64 := by decide +kernel

theorem icMask_eq : icMask = ~~~((BitVec.allOnes 24).setWidth 64 <<< 32) := by decide +kernel

@[simp] theorem getLsbD_epMask (i : Nat) : epMask.getLsbD i = decide (i < 56) := by
  rw [epMask_eq, BitVec.getLsbD_setWidth, BitVec.getLsbD_allOnes]
  by_cases h : i < 56
  · simp [h, show i < 64 by omega]
  · simp [h]

@[simp] theorem getLsbD_icMask {i : Nat} (hi : i < 64) :
    icMask.getLsbD i = decide (i < 32 ∨ 56 ≤ i) := by
  rw [icMask_eq, BitVec.getLsbD_not, BitVec.getLsbD_shiftLeft, BitVec.getLsbD_setWidth,
    BitVec.getLsbD_allOnes]
  by_cases h : i < 32
  · simp [h, hi]
  · by_cases h56 : i < 56
    · simp [h, h56, hi, show i - 32 < 64 by omega, show i - 32 < 24 by omega]
    · simp [h, hi, show ¬ i - 32 < 24 by omega, show 56 ≤ i by omega]

theorem getLsbD_count (rc : RC) (i : Nat) :
    (count rc).getLsbD i = (decide (i < 24) && rc.getLsbD (32 + i)) := by
  simp [count]

@[simp] theorem pend_incRc (rc : RC) : pend (incRc rc) = pend rc := by
  apply BitVec.eq_of_getLsbD_eq
  intro i hi
  rw [getLsbD_pend, getLsbD_pend, incRc, BitVec.getLsbD_or, Lib.Bits.getLsbD_and_not,
    BitVec.getLsbD_and, getLsbD_icMask (show i < 64 by omega)]
  simp [hi, -BitVec.getLsbD_eq_getElem]

theorem icIncr_toNat : icIncr.toNat = 2 ^ 32 := rfl

theorem count_add (rc : RC) : count (rc + icIncr) = count rc + 1#24 := by
  apply BitVec.eq_of_toNat_eq
  have hone : (1#24).toNat = 1 := rfl
  rw [count, count, BitVec.toNat_add, BitVec.extractLsb'_toNat, BitVec.extractLsb'_toNat,
    BitVec.toNat_add, icIncr_toNat, Nat.shiftRight_eq_div_pow, Nat.shiftRight_eq_div_pow, hone]
  omega

@[simp] theorem count_incRc (rc : RC) : count (incRc rc) = count rc + 1#24 := by
  rw [← count_add]
  apply BitVec.eq_of_getLsbD_eq
  intro i hi
  have hout : ¬ (32 + i < 32 ∨ 56 ≤ 32 + i) := by omega
  rw [getLsbD_count, getLsbD_count, incRc, BitVec.getLsbD_or, Lib.Bits.getLsbD_and_not,
    BitVec.getLsbD_and, getLsbD_icMask (show 32 + i < 64 by omega)]
  simp only [hout, decide_false, Bool.and_false, Bool.not_false, Bool.and_true, Bool.false_or]

@[simp] theorem pend_incMask (rc : RC) : pend (incMask rc) = 0#32 := by
  apply BitVec.eq_of_getLsbD_eq
  intro i hi
  simp [getLsbD_pend, incMask, rcMask, -BitVec.getLsbD_eq_getElem, hi]

@[simp] theorem count_incMask (rc : RC) : count (incMask rc) = count rc + 1#24 := by
  rw [← count_incRc]
  apply BitVec.eq_of_getLsbD_eq
  intro i hi
  simp only [getLsbD_count, incMask, rcMask, Lib.Bits.getLsbD_and_not, getLsbD_lowMask,
    show ¬ 32 + i < 32 by omega, decide_false, Bool.not_false, Bool.and_true]

@[simp] theorem count_and_not (rc : RC) (id : CC) :
    count (rc &&& ~~~id.setWidth 64) = count rc := by
  apply BitVec.eq_of_getLsbD_eq
  intro i hi
  simp only [getLsbD_count, Lib.Bits.getLsbD_and_not, BitVec.getLsbD_setWidth,
    BitVec.getLsbD_of_ge id (32 + i) (by omega), Bool.and_false, Bool.not_false, Bool.and_true]

@[simp] theorem count_or (rc : RC) (cc : CC) : count (rc ||| cc.setWidth 64) = count rc := by
  apply BitVec.eq_of_getLsbD_eq
  intro i hi
  simp only [getLsbD_count, BitVec.getLsbD_or, BitVec.getLsbD_setWidth,
    BitVec.getLsbD_of_ge cc (32 + i) (by omega), Bool.and_false, Bool.or_false]

/-- The new value of `rc_` when `cc` is to read the slot under `epoch`. -/
def mark (epoch rc : RC) (cc : CC) : RC := incMask (epoch ||| (rc &&& epMask)) ||| cc.setWidth 64

@[simp] theorem pend_mark (epoch rc : RC) (cc : CC) : pend (mark epoch rc cc) = cc :=
  pend_or cc (pend_incMask _)

section Epoch
variable {epoch : RC} (rc : RC) (cc id : CC)

theorem getLsbD_epoch (he : epoch &&& epMask = 0#64) {i : Nat} (hi : i < 56) :
    epoch.getLsbD i = false := by
  have := Lib.Bits.eq_zero_iff.mp he i
  rwa [BitVec.getLsbD_and, getLsbD_epMask, decide_eq_true hi, Bool.and_true] at this

theorem count_mark (he : epoch &&& epMask = 0#64) :
    count (mark epoch rc cc) = count rc + 1#24 := by
  have hcount : count (epoch ||| (rc &&& epMask)) = count rc := by
    apply BitVec.eq_of_getLsbD_eq
    intro i hi
    rw [getLsbD_count, getLsbD_count, BitVec.getLsbD_or, BitVec.getLsbD_and, getLsbD_epMask,
      getLsbD_epoch he (by omega), decide_eq_true (show 32 + i < 56 by omega), Bool.and_true,
      Bool.false_or]
  rw [mark, count_or, count_incMask, hcount]

/-- The epoch is above the counter, which wraps without touching it. -/
theorem tag_incRc : incRc rc &&& ~~~epMask = rc &&& ~~~epMask := by
  apply BitVec.eq_of_getLsbD_eq
  intro i hi
  rw [Lib.Bits.getLsbD_and_not, Lib.Bits.getLsbD_and_not, incRc, BitVec.getLsbD_or,
    Lib.Bits.getLsbD_and_not, BitVec.getLsbD_and, getLsbD_icMask hi, getLsbD_epMask]
  by_cases h56 : i < 56
  · simp only [h56, decide_true, Bool.not_true, Bool.and_false]
  · simp only [h56, show 56 ≤ i by omega, decide_true, decide_false, Bool.not_false, or_true,
      Bool.not_true, Bool.and_true, Bool.and_false, Bool.or_false]

theorem tag_and_not : (rc &&& ~~~id.setWidth 64) &&& ~~~epMask = rc &&& ~~~epMask := by
  apply BitVec.eq_of_getLsbD_eq
  intro i hi
  simp only [Lib.Bits.getLsbD_and_not, BitVec.getLsbD_setWidth, getLsbD_epMask]
  by_cases h56 : i < 56
  · simp only [h56, decide_true, Bool.not_true, Bool.and_false]
  · simp only [BitVec.getLsbD_of_ge id i (by omega), Bool.and_false, Bool.not_false, Bool.and_true]

theorem tag_mark (he : epoch &&& epMask = 0#64) : mark epoch rc cc &&& ~~~epMask = epoch := by
  have hinc := tag_incRc (epoch ||| (rc &&& epMask))
  apply BitVec.eq_of_getLsbD_eq
  intro i hi
  by_cases h56 : i < 56
  · rw [Lib.Bits.getLsbD_and_not, getLsbD_epMask, getLsbD_epoch he h56]
    simp only [h56, decide_true, Bool.not_true, Bool.and_false]
  · have hbit : (incRc (epoch ||| (rc &&& epMask))).getLsbD i = epoch.getLsbD i := by
      have hi := congrArg (BitVec.getLsbD · i) hinc
      rw [Lib.Bits.getLsbD_and_not, Lib.Bits.getLsbD_and_not, BitVec.getLsbD_or,
        BitVec.getLsbD_and, getLsbD_epMask] at hi
      simpa only [h56, decide_false, Bool.not_false, Bool.and_true, Bool.and_false,
        Bool.or_false] using hi
    simp only [mark, incMask, rcMask, Lib.Bits.getLsbD_and_not, BitVec.getLsbD_or, hbit,
      BitVec.getLsbD_setWidth, BitVec.getLsbD_of_ge cc i (by omega), getLsbD_epMask,
      getLsbD_lowMask, h56, show ¬ i < 32 by omega, decide_false, Bool.not_false, Bool.and_true,
      Bool.and_false, Bool.or_false]

/-- The update of `pop`. -/
@[simp] theorem tag_clear :
    (incRc rc &&& ~~~id.setWidth 64) &&& ~~~epMask = rc &&& ~~~epMask := by
  rw [tag_and_not, tag_incRc]

end Epoch

theorem epIncr_toNat : epIncr.toNat = 2 ^ 56 := rfl

theorem and_epMask_toNat (rc : RC) : (rc &&& epMask).toNat = rc.toNat % 2 ^ 56 := by
  have h : rc &&& epMask = (rc.setWidth 56).setWidth 64 := by
    apply BitVec.eq_of_getLsbD_eq
    intro i hi
    simp only [BitVec.getLsbD_and, getLsbD_epMask, BitVec.getLsbD_setWidth, hi, decide_true,
      Bool.true_and]
    exact Bool.and_comm _ _
  rw [h, BitVec.toNat_setWidth, BitVec.toNat_setWidth]
  omega

/-- The epoch of a `force_push` has no bit below the epoch byte either. -/
theorem epoch_add_epIncr {epoch : RC} (he : epoch &&& epMask = 0#64) :
    (epoch + epIncr) &&& epMask = 0#64 := by
  have h := congrArg BitVec.toNat he
  rw [and_epMask_toNat, BitVec.toNat_zero] at h
  apply BitVec.eq_of_toNat_eq
  rw [and_epMask_toNat, BitVec.toNat_add, epIncr_toNat, BitVec.toNat_zero]
  omega

end Channel

end CppIpc.ReadCounter
