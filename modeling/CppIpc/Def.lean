import Mathlib.Algebra.Group.Int.Defs
import Mathlib.Algebra.Group.Nat.Defs
import Mathlib.Data.Int.DivMod
import Mathlib.Data.List.Basic

/-! # Fixed-width types and constants

`libipc/def.h` and `libipc/circ/elem_def.h`. Indices, connection words and
message ids are 32-bit words, slot numbers 8-bit words; `std::int32_t` is an
`Int` reduced by `int32` wherever the source converts or adds. -/
namespace CppIpc.Def

abbrev Byte := UInt8

/-- `circ::u2_t`, the type of the read, write and commit indices. -/
abbrev U2 := BitVec 32

/-- `circ::cc_t`: one bit for each connected receiver in broadcast mode. -/
abbrev CC := BitVec 32

abbrev MsgId := BitVec 32

def dataLength : Nat := 64
def largeMsgLimit : Nat := dataLength
def largeMsgAlign : Nat := 1024
def largeMsgCache : Nat := 32

/-- `elem_array::elem_max`: 255 + 1 slots. -/
def elemMax : Nat := 256

/-- `circ::index_of`: the conversion of an index to `u1_t`. -/
def indexOf (c : U2) : BitVec 8 := c.setWidth 8

/-- The conversion to `std::int32_t`, in two's complement. -/
def int32 (x : Int) : Int := x.bmod (2 ^ 32)

theorem int32_of_range {x : Int} (hl : -2 ^ 31 ≤ x) (hu : x < 2 ^ 31) : int32 x = x := by
  unfold int32
  rw [Int.bmod_def]
  split <;> omega

@[simp] theorem indexOf_toNat (c : U2) : (indexOf c).toNat = c.toNat % 256 := by
  simp [indexOf]

/-- Slot numbers do not notice the wrap of the 32-bit index. -/
theorem indexOf_ofNat (n : Nat) : indexOf (BitVec.ofNat 32 n) = BitVec.ofNat 8 n := by
  apply BitVec.eq_of_toNat_eq
  simp only [indexOf_toNat, BitVec.toNat_ofNat]
  omega

/-- An index that is advanced by one. -/
theorem ofNat_add_one (n : Nat) : BitVec.ofNat 32 n + 1 = BitVec.ofNat 32 (n + 1) :=
  BitVec.ofNat_add_ofNat n 1

end CppIpc.Def
