import CppIpc.Aligned
import CppIpc.Ipc

/-! # The layout of the chunk pools

`calc_chunk_size`, `chunk_info_t` and `chunk_t` in 64-bit arithmetic, with addresses in
the process that has the pool mapped at `this`; and the size of a large message on its
way from `send` to `recv` and `clear_message`. -/
namespace CppIpc.ChunkGeometry
open CppIpc.Def CppIpc.IdPool CppIpc.Message CppIpc.Send CppIpc.Ipc
open CppIpc.Storage (Storages ChunkInfo acquireStorage writeChunk releaseStorage recycleStorage
  clearMessage acquireStorage_empty acquireStorage_cursor)
open CppIpc.Lib.Regions

abbrev SizeT := BitVec 64

/-! ## Sizes -/

/-- `ipc::make_align`. -/
def makeAlign (align size : SizeT) : SizeT := (size + align - 1) &&& ~~~(align - 1)

/-- `alignof(std::max_align_t)`. -/
def maxAlign : SizeT := 16

/-- `sizeof(std::atomic<ipc::circ::cc_t>)`. -/
def connsSize : SizeT := 4

def alignChunkSize (size : SizeT) : SizeT :=
  ((size - 1) / BitVec.ofNat 64 largeMsgAlign + 1) * BitVec.ofNat 64 largeMsgAlign

def calcChunkSize (size : SizeT) : SizeT :=
  makeAlign maxAlign (alignChunkSize (makeAlign maxAlign connsSize + size))

/-- `sizeof(chunk_info_t)`: the bytes `next_`, `cursor_` and `prepared_` of the pool, and
the 32-bit word of the lock. -/
def sizeofChunkInfo : SizeT := makeAlign 4 (BitVec.ofNat 64 maxCount + 1 + 1) + 4

/-- `chunk_info_t::chunks_mem`. -/
def chunksMem (this : SizeT) : SizeT := this + sizeofChunkInfo

/-- `chunk_info_t::at`. -/
def chunkAt (this chunkSize : SizeT) (id : Int) : Option SizeT :=
  if id < 0 then none else some (chunksMem this + chunkSize * BitVec.ofInt 64 id)

/-- `chunk_t::data`. -/
def chunkData (chunk : SizeT) : SizeT := chunk + makeAlign maxAlign connsSize

section Rounding
variable {align size : SizeT} {n : Nat}

/-- The mask of `make_align` is that of `round_up`. -/
theorem makeAlign_toNat (ha : align ≠ 0) :
    (makeAlign align size).toNat = Aligned.roundUp size.toNat align.toNat := by
  have hpos : 0 < align.toNat := BitVec.toNat_pos_of_ne_zero ha
  have hlow : (align - 1).toNat = align.toNat - 1 := by
    rw [BitVec.toNat_sub]
    have := align.isLt
    have : (1 : SizeT).toNat = 1 := rfl
    omega
  have hsum : (size + align - 1).toNat = Aligned.sizeT (size.toNat + align.toNat - 1) := by
    rw [BitVec.toNat_sub, BitVec.toNat_add, Aligned.sizeT]
    have : (1 : SizeT).toNat = 1 := rfl
    omega
  rw [makeAlign, BitVec.toNat_and, BitVec.toNat_not, hlow, hsum, Aligned.roundUp]

theorem makeAlign_sixteen : (makeAlign maxAlign size).toNat =
    Aligned.sizeT (size.toNat + 2 ^ 4 - 1) / 2 ^ 4 * 2 ^ 4 := by
  rw [makeAlign_toNat (by decide)]
  exact Aligned.roundUp_two_pow (k := 4) (by omega)

theorem connsRoom_toNat : (makeAlign maxAlign connsSize).toNat = 16 := by
  rw [makeAlign_sixteen]
  rfl

theorem sizeofChunkInfo_toNat : sizeofChunkInfo.toNat = 40 := by decide +kernel

end Rounding

/-! ## The chunks of one pool -/

section Layout
variable {this chunkSize : SizeT} {n : Nat}

end Layout

/-! ## The size of a message on both sides -/

/-- `find_storage`, with the bytes of the chunk. -/
def findStorage (st : Storages) (id : Int) (size : Nat) : Option (List Byte) :=
  if id < 0 then none else some ((st (Storage.calcChunkSize size)).data id.toNat)

/-- `recycle_storage` for unicast, where `sub_rc` returns true. -/
def recycleUnicast (st : Storages) (id : Int) (size : Nat) : Storages :=
  if id < 0 then st
  else
    let cs := Storage.calcChunkSize size
    Function.update st cs { st cs with pool := (st cs).pool.release id }

/-- `r_size`, as `recv` and `clear_message` compute it. -/
def rSize (msg : MsgT) : Int := int32 (dataLength + msg.remain)

/-- A call wrote to the pool of `cs` at most, and of its chunks to that of `id`. -/
structure Confined (st st' : Storages) (cs id : Nat) : Prop where
  pools : ∀ cs' ≠ cs, st' cs' = st cs'
  conns : ∀ i ≠ id, (st' cs).conns i = (st cs).conns i
  data : ∀ i ≠ id, (st' cs).data i = (st cs).data i

/-- Chunk `id` of the pool for `size` is the one that the parties use for the message
`msg`, whose bytes are `size` many. -/
structure Shared (msg : MsgT) (id size : Nat) : Prop where
  received : BitVec.ofInt 64 (rSize msg) = BitVec.ofNat 64 size
  storageId : loadId msg.data = id
  recv : ∀ (h : RecvCtx) (rc : RecvCache), ¬ Skips h msg →
    recvMsg h rc msg = .ret (.storage id size) rc
  find : ∀ (st : Storages) (data : List Byte), data.length = size →
    findStorage (writeChunk st id data) (loadId msg.data) (rSize msg).toNat = some data
  acquire : ∀ {st st' : Storages} {conns : CC}, acquireStorage st size conns = (some id, st') →
    Confined st st' (Storage.calcChunkSize size) id
  recycle : ∀ (st : Storages) (currConns connId : CC),
    Confined st (recycleStorage st (loadId msg.data) (rSize msg).toNat currConns connId)
      (Storage.calcChunkSize size) id
  recycleUnicast : ∀ st : Storages,
    Confined st (recycleUnicast st (loadId msg.data) (rSize msg).toNat)
      (Storage.calcChunkSize size) id
  clear : ∀ st : Storages, clearMessage st msg = releaseStorage st id size
  release : ∀ st : Storages, Confined st (clearMessage st msg) (Storage.calcChunkSize size) id

section Transfer
variable {st st' : Storages} {id size : Nat} {conns : CC}

theorem Confined.update {info : ChunkInfo} {cs : Nat}
    (hconns : ∀ i ≠ id, info.conns i = (st cs).conns i)
    (hdata : ∀ i ≠ id, info.data i = (st cs).data i) :
    Confined st (Function.update st cs info) cs id := by
  refine ⟨fun cs' hne => Function.update_of_ne hne _ _, ?_, ?_⟩
  · rw [Function.update_self]
    exact hconns
  · rw [Function.update_self]
    exact hdata

end Transfer

section Alignment
variable {this : SizeT}

theorem calcChunkSize_aligned (size : SizeT) : 16 ∣ (calcChunkSize size).toNat := by
  rw [calcChunkSize, makeAlign_sixteen]
  exact ⟨_, Nat.mul_comm _ _⟩

theorem mul_aligned {x : SizeT} (hx : 16 ∣ x.toNat) (y : SizeT) : 16 ∣ (x * y).toNat := by
  rw [BitVec.toNat_mul]
  exact (Nat.dvd_mod_iff (by decide)).mpr (Dvd.dvd.mul_right hx _)

/-- The 40 bytes of `chunk_info_t` are no multiple of 16, and all that follows is. -/
theorem chunkData_mod (hpage : 4096 ∣ this.toNat) (size : SizeT) {id : Int} (h0 : 0 ≤ id) :
    ∃ chunk, chunkAt this (calcChunkSize size) id = some chunk ∧
      (chunkData chunk).toNat % 16 = 8 := by
  refine ⟨_, if_neg (Int.not_lt.mpr h0), ?_⟩
  have hoff := mul_aligned (calcChunkSize_aligned size) (BitVec.ofInt 64 id)
  rw [chunkData, BitVec.toNat_add, chunksMem, BitVec.toNat_add, BitVec.toNat_add,
    connsRoom_toNat, sizeofChunkInfo_toNat]
  omega

/-- In a page-aligned mapping no chunk has its data at a multiple of
`alignof(std::max_align_t)`. -/
theorem data_misaligned (hpage : 4096 ∣ this.toNat) (size : SizeT) {id : Int} (h0 : 0 ≤ id) :
    ∃ chunk, chunkAt this (calcChunkSize size) id = some chunk ∧
      ¬ maxAlign.toNat ∣ (chunkData chunk).toNat := by
  obtain ⟨chunk, hc, hmod⟩ := chunkData_mod hpage size h0
  refine ⟨chunk, hc, fun hdvd => ?_⟩
  have hzero : (chunkData chunk).toNat % 16 = 0 := Nat.mod_eq_zero_of_dvd hdvd
  omega

theorem data_misaligned_sample :
    ∃ chunk, chunkAt 0x7F0000000000 (calcChunkSize 100) 3 = some chunk ∧
      ¬ maxAlign.toNat ∣ (chunkData chunk).toNat :=
  data_misaligned (by decide) 100 (by decide)

/-- The first chunk for the smallest large message. -/
theorem not_aligned_first : 4096 ∣ (0x7F0000000000 : SizeT).toNat ∧
    (chunkAt 0x7F0000000000 (calcChunkSize 65) 0).map chunkData = some 0x7F0000000038 ∧
    ¬ maxAlign.toNat ∣ (0x7F0000000038 : SizeT).toNat := by
  decide +kernel

end Alignment

end CppIpc.ChunkGeometry
