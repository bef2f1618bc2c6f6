import CppIpc.Lib.Bits
import CppIpc.Lib.BoundedLog
import CppIpc.Lib.Buffers
import CppIpc.Lib.Chains
import CppIpc.Lib.Codecs
import CppIpc.Lib.FreeList
import CppIpc.Lib.Futures
import CppIpc.Lib.Joining
import CppIpc.Lib.Logs
import CppIpc.Lib.Monitor
import CppIpc.Lib.Places
import CppIpc.Lib.Regions
import CppIpc.Lib.Rings
import CppIpc.Lib.Runs
import CppIpc.Lib.Sections
import CppIpc.Lib.Shelves
import CppIpc.Lib.Window
import CppIpc.Aligned
import CppIpc.AllocationSizes
import CppIpc.BlockPool
import CppIpc.Blocking
import CppIpc.BroadcastLog
import CppIpc.CallSteps
import CppIpc.CentralCache
import CppIpc.ChanWrapper
import CppIpc.Channel
import CppIpc.ChannelJoin
import CppIpc.ChannelSteps
import CppIpc.ChunkBytes
import CppIpc.ChunkGeometry
import CppIpc.Codecvt
import CppIpc.CodecvtLoops
import CppIpc.Condition
import CppIpc.Connections
import CppIpc.CrashCoverage
import CppIpc.Debts
import CppIpc.Def
import CppIpc.Delivery
import CppIpc.FailedSend
import CppIpc.FmtContext
import CppIpc.FmtSpec
import CppIpc.ForcedPush
import CppIpc.Fragments
import CppIpc.FreeIds
import CppIpc.Gaps
import CppIpc.HeadInit
import CppIpc.IdPool
import CppIpc.IntrusiveStack
import CppIpc.Ipc
import CppIpc.LastReader
import CppIpc.Ledger
import CppIpc.Message
import CppIpc.MonotonicBuffer
import CppIpc.MultiUnicast
import CppIpc.MutexRegistry
import CppIpc.Overwriting
import CppIpc.OwnerDeath
import CppIpc.Owners
import CppIpc.Ownership
import CppIpc.Policies
import CppIpc.PoolSections
import CppIpc.ProdCons
import CppIpc.ReadCounter
import CppIpc.Reassembly
import CppIpc.ReceiveCache
import CppIpc.Receivers
import CppIpc.Reclaim
import CppIpc.Recycling
import CppIpc.RefusedAllocation
import CppIpc.Returning
import CppIpc.RobustExclusion
import CppIpc.RobustList
import CppIpc.RobustLock
import CppIpc.RobustMutex
import CppIpc.Route
import CppIpc.RouteJoin
import CppIpc.RouteSteps
import CppIpc.RwLock
import CppIpc.Send
import CppIpc.SenderWakeup
import CppIpc.Senders
import CppIpc.Shm
import CppIpc.SizeLimits
import CppIpc.Storage
import CppIpc.TargetBounds
import CppIpc.Transcoding
import CppIpc.Unicast
import CppIpc.UnicastSteps
import CppIpc.Utf16
import CppIpc.Utf8
import CppIpc.WaitForRecv
import CppIpc.WaitTime
import CppIpc.Waiting
import CppIpc.Wakeup
import CppIpc.WakeupSteps
import CppIpc.WeakExchange
import CppIpc.WrapAround
