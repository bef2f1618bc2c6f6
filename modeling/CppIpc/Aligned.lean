import CppIpc.Lib.Regions
import Mathlib.Data.Nat.Bitwise

/-! # Rounding and aligning

`imp/aligned.h` and `std::align`. A `std::size_t` is a number below `2 ^ 64`; where the
source adds, the sum is taken modulo `2 ^ 64`. Addresses are numbers. -/
namespace CppIpc.Aligned
open CppIpc.Lib.Regions

def sizeT (n : Nat) : Nat := n % 2 ^ 64

/-- `ipc::round_up`, with `~(alignment - 1)` on 64 bits. -/
def roundUp (value alignment : Nat) : Nat :=
  sizeT (value + alignment - 1) &&& (2 ^ 64 - 1 - (alignment - 1))

/-- `std::align`: the aligned address and the space from there on, if `size` bytes fit. -/
def align (alignment size ptr space : Nat) : Option (Nat × Nat) :=
  if pad alignment ptr + size ≤ space then
    some (ptr + pad alignment ptr, space - pad alignment ptr)
  else none

/-- Taking away the low bits. -/
theorem and_high_bits {x k : Nat} (hx : x < 2 ^ 64) (hk : k < 64) :
    x &&& (2 ^ 64 - 1 - (2 ^ k - 1)) = x / 2 ^ k * 2 ^ k := by
  have hpos := Nat.two_pow_pos k
  have hle : 2 ^ k ≤ 2 ^ 64 := Nat.pow_le_pow_right (by omega) hk.le
  refine Nat.eq_of_testBit_eq fun i => ?_
  have hmask : 2 ^ 64 - 1 - (2 ^ k - 1) = 2 ^ 64 - (2 ^ k - 1 + 1) := by omega
  rw [Nat.testBit_and, hmask, Nat.testBit_two_pow_sub_succ (by omega), Nat.testBit_two_pow_sub_one,
    ← Nat.shiftRight_eq_div_pow, ← Nat.shiftLeft_eq, Nat.testBit_shiftLeft, Nat.testBit_shiftRight]
  by_cases hi : k ≤ i
  · rw [Nat.add_sub_of_le hi]
    by_cases hi64 : i < 64
    · simp [hi, hi64, Nat.not_lt.mpr hi]
    · rw [Nat.testBit_lt_two_pow (hx.trans_le (Nat.pow_le_pow_right (by omega) (by omega)))]
      simp
  · simp [hi, Nat.lt_of_not_le hi]

theorem roundUp_two_pow {value k : Nat} (hk : k < 64) :
    roundUp value (2 ^ k) = sizeT (value + 2 ^ k - 1) / 2 ^ k * 2 ^ k :=
  and_high_bits (Nat.mod_lt _ (by omega)) hk

/-- The room for a header: its own size, or one alignment where that is larger. -/
theorem roundUp_sixteen {k : Nat} (hk : k < 64) : roundUp 16 (2 ^ k) = max 16 (2 ^ k) := by
  have hpos := Nat.two_pow_pos k
  have hle : 2 ^ k ≤ 2 ^ 63 := Nat.pow_le_pow_right (by omega) (by omega)
  rw [roundUp_two_pow hk, sizeT, Nat.mod_eq_of_lt (by omega)]
  by_cases h4 : k ≤ 4
  · have hdvd : 2 ^ k ∣ 16 := (Nat.pow_dvd_pow_iff_le_right (by omega)).mpr h4
    obtain ⟨m, hm⟩ := hdvd
    rw [hm, Nat.add_sub_assoc hpos, Nat.add_comm, Nat.add_mul_div_left _ _ hpos,
      Nat.div_eq_of_lt (by omega), Nat.zero_add, Nat.mul_comm, ← hm]
    exact (max_eq_left (Nat.le_of_dvd (by omega) ⟨m, hm⟩)).symm
  · have hge : 2 ^ 5 ≤ 2 ^ k := Nat.pow_le_pow_right (by omega) (by omega)
    have hdiv : (16 + 2 ^ k - 1) / 2 ^ k = 1 := Nat.div_eq_of_lt_le (by omega) (by omega)
    rw [hdiv, Nat.one_mul]
    exact (max_eq_right (by omega)).symm

end CppIpc.Aligned
