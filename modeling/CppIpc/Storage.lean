import CppIpc.IdPool
import CppIpc.Message
import CppIpc.ReadCounter
import Mathlib.Logic.Function.Basic

/-! # Large-message storage

The chunk pools of `ipc.cpp`, one for each chunk size, shared by all handles of one
prefix. Mapping the shared memory succeeds. -/
namespace CppIpc.Storage
open CppIpc.Def CppIpc.IdPool CppIpc.Message

/-- `make_align`, for a power of two. -/
def makeAlign (align size : Nat) : Nat := (size + align - 1) / align * align

/-- `alignof(std::max_align_t)`. -/
def maxAlign : Nat := 16

def alignChunkSize (size : Nat) : Nat := ((size - 1) / largeMsgAlign + 1) * largeMsgAlign

/-- `calc_chunk_size`: the mask of readers, 4 bytes, comes before the data. -/
def calcChunkSize (size : Nat) : Nat :=
  makeAlign maxAlign (alignChunkSize (makeAlign maxAlign 4 + size))

/-- `chunk_info_t` with its chunks: for each id the mask of readers and the bytes of
the message. -/
structure ChunkInfo where
  pool : Pool
  conns : Nat → CC
  data : Nat → List Byte

/-- The pools by chunk size. -/
abbrev Storages := Nat → ChunkInfo

/-- Zero-filled memory. -/
def Storages.zero : Storages := fun _ => ⟨.zero, fun _ => 0, fun _ => []⟩

/-- The free ids of one chunk size. -/
def Storages.free (st : Storages) (cs : Nat) : List Nat := (st cs).pool.free

/-- `acquire_storage`; `none` is the null chunk. -/
def acquireStorage (st : Storages) (size : Nat) (conns : CC) : Option Nat × Storages :=
  let cs := calcChunkSize size
  let info := st cs
  let (id, pool) := info.pool.prepare.acquire
  if id < 0 then (none, Function.update st cs { info with pool := pool })
  else (some id.toNat, Function.update st cs
    { info with pool := pool, conns := Function.update info.conns id.toNat conns })

/-- `memcpy(buf, data, size)` into the chunk. -/
def writeChunk (st : Storages) (id : Nat) (data : List Byte) : Storages :=
  let cs := calcChunkSize data.length
  Function.update st cs { st cs with data := Function.update (st cs).data id data }

/-- `release_storage`. -/
def releaseStorage (st : Storages) (id : Int) (size : Nat) : Storages :=
  if id < 0 then st
  else
    let cs := calcChunkSize size
    Function.update st cs { st cs with pool := (st cs).pool.release id }

/-- `sub_rc` for broadcast: the mask that stays, and whether it is empty. -/
def subRc (conns currConns connId : CC) : CC × Bool :=
  let lastConns := currConns &&& ~~~connId
  (conns &&& lastConns, conns &&& lastConns = 0)

/-- `recycle_storage` for broadcast. -/
def recycleStorage (st : Storages) (id : Int) (size : Nat) (currConns connId : CC) : Storages :=
  if id < 0 then st
  else
    let cs := calcChunkSize size
    let info := st cs
    let (conns, last) := subRc (info.conns id.toNat) currConns connId
    let info := { info with conns := Function.update info.conns id.toNat conns }
    Function.update st cs (if last then { info with pool := info.pool.release id } else info)

/-- `clear_message`: the storage of the message in a slot that is overwritten. -/
def clearMessage (st : Storages) (msg : MsgT) : Storages :=
  if msg.storage then
    let rSize := int32 (dataLength + msg.remain)
    if rSize ≤ 0 then st
    else releaseStorage st (loadId msg.data) rSize.toNat
  else st

/-- The pool of the message's chunk size is not `empty()`. -/
def HasChunk (st : Storages) (size : Nat) : Prop :=
  (st (calcChunkSize size)).pool.prepare.cursor ≠ maxCount

section Acquire
variable {st : Storages} {size : Nat} {conns : CC} {data : List Byte} {id cs : Nat}

@[simp] theorem writeChunk_pool (st : Storages) (id : Nat) (data : List Byte) (cs : Nat) :
    (writeChunk st id data cs).pool = (st cs).pool := by
  simp only [writeChunk, Function.update_apply]
  split
  · rename_i h; rw [h]
  · rfl

@[simp] theorem writeChunk_conns (st : Storages) (id : Nat) (data : List Byte) (cs : Nat) :
    (writeChunk st id data cs).conns = (st cs).conns := by
  simp only [writeChunk, Function.update_apply]
  split
  · rename_i h; rw [h]
  · rfl

/-- The pool is `empty()`. -/
theorem acquireStorage_empty (h : (st (calcChunkSize size)).pool.prepare.cursor = maxCount) :
    acquireStorage st size conns = (none, Function.update st (calcChunkSize size)
      { st (calcChunkSize size) with pool := (st (calcChunkSize size)).pool.prepare }) := by
  simp [acquireStorage, Pool.acquire, h]

/-- The head of the free list is taken and its mask is set. -/
theorem acquireStorage_cursor (h : (st (calcChunkSize size)).pool.prepare.cursor ≠ maxCount) :
    acquireStorage st size conns =
      (some (st (calcChunkSize size)).pool.prepare.cursor, Function.update st (calcChunkSize size)
        { st (calcChunkSize size) with
          pool := (st (calcChunkSize size)).pool.prepare.acquire.2
          conns := Function.update (st (calcChunkSize size)).conns
            (st (calcChunkSize size)).pool.prepare.cursor conns }) := by
  have hn : ¬ (((st (calcChunkSize size)).pool.prepare.cursor : Int) < 0) := by omega
  simp [acquireStorage, Pool.acquire, h, hn]

end Acquire

end CppIpc.Storage
