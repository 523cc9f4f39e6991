import Esesc.Lib.Machine
import Esesc.Lib.Ring
import Esesc.Emul.ThreadSafeFIFO
import Esesc.Suc.Pool
import Esesc.Suc.Port
import Esesc.Suc.PortEquiv
import Esesc.Suc.CacheCore
import Esesc.Suc.CacheInv
import Esesc.Mem.Accounting
import Esesc.Mem.Cache
import Esesc.Mem.Retire
import Esesc.Mem.Parked
import Esesc.Mem.System
import Esesc.Mem.WakeUp
import Esesc.Mem.AddrDep
import Esesc.Mem.Pending
import Esesc.Core.Instruction
import Esesc.Core.DInst
import Esesc.Core.DepWindow
import Esesc.Core.DepList
import Esesc.Core.OoO
import Esesc.Core.Rename
import Esesc.Core.InOrder
import Esesc.Core.Pipeline
import Esesc.Emul.QEMUReader
import Esesc.Emul.EmuDInstQueue
import Esesc.Lib.Heap
import Esesc.Lib.Linked
import Esesc.Suc.TQueue
import Esesc.Suc.TQueueRep
import Esesc.Suc.EventScheduler
import Esesc.Core.BPred
import Esesc.Core.BPredAgree
import Esesc.Mem.LineTag
import Esesc.Mem.TLB
import Esesc.Emul.ExecuteHead
import Esesc.Emul.GiveUp
import Esesc.Mem.Broadcast
import Esesc.Mem.Cover
import Esesc.Mem.Route
import Esesc.Mem.LinearUse
import Esesc.Mem.Hierarchy
import Esesc.Mem.MemController
import Esesc.Mem.BankProtocol
import Esesc.Core.OoOProcessor
import Esesc.Core.Replay
import Esesc.Core.Cluster
import Esesc.Lib.Credit
import Esesc.Core.Resources
import Esesc.Suc.CallbackContainer
import Esesc.Emul.Sampler
import Esesc.Suc.Config
import Esesc.Emul.Pslice
import Esesc.Suc.StrictFIFO
import Esesc.Lib.Lanes
import Esesc.Emul.Sccore
import Esesc.Emul.PackedLanes
import Esesc.Emul.Conditions
import Esesc.Emul.AHash
import Esesc.Core.StoreSets
import Esesc.Lib.ShortestPath
import Esesc.Net.RoutingPolicy
import Esesc.Net.Search
import Esesc.Net.Topology
import Esesc.Net.Routes
import Esesc.Suc.TQueueRemove
import Esesc.Core.FetchEngine
import Esesc.Core.Fusion
import Esesc.Lib.Groups
import Esesc.Core.DynamicFusion
import Esesc.Suc.PortCapacity
import Esesc.Lib.Rereference
import Esesc.Suc.CacheProbe
import Esesc.Core.BTBEntry
import Esesc.Core.RAS
import Esesc.Mem.ShipSearch
import Esesc.Core.GehlIndex
import Esesc.Core.GehlBounds
import Esesc.Core.GehlCounters
import Esesc.Core.TaskHandler
import Esesc.Core.YagsTraining
import Esesc.Core.BootLoop
import Esesc.Core.LSQ
import Esesc.Emul.Joined
import Esesc.Emul.PackedShifts
import Esesc.Emul.Saturating
import Esesc.Emul.CarryChain
import Esesc.Emul.TraceEquality
import Esesc.Emul.VectorAbs
import Esesc.Lib.DefUse
import Esesc.Emul.BackwardSlice
import Esesc.Core.PrefetchInterface
import Esesc.Core.Renaming
import Esesc.Emul.PsliceMemoryMap
import Esesc.Core.StreamPrefetcher
import Esesc.Core.AccessMap
import Esesc.Core.AccessMapRuns
import Esesc.Core.PrefetchCandidates
import Esesc.Lib.Recency
import Esesc.Lib.Slots
import Esesc.Core.PrefetchMSHR
import Esesc.Core.AccessMapPrefetcher
import Esesc.Core.DemandMisses
import Esesc.Mem.VPC
import Esesc.Mem.WCB
import Esesc.Net.LinkRows
import Esesc.Net.Latency
import Esesc.Emul.Schedule
import Esesc.Emul.MarkDone
import Esesc.Lib.OrderedSet
import Esesc.Core.Delinquency
import Esesc.Suc.ConfigUpdate
import Esesc.Suc.BloomFilter
import Esesc.Suc.TsPool
import Esesc.Suc.FastQueue
import Esesc.Lib.Microcode
import Esesc.Lib.BitList
import Esesc.Emul.Microops
import Esesc.Emul.Thumb16Crack
import Esesc.Emul.ThumbIsa
import Esesc.Emul.CrackRep
import Esesc.Emul.CrackAlu
import Esesc.Emul.CrackData
import Esesc.Emul.CrackBranch
import Esesc.Emul.CrackMem
import Esesc.Emul.CrackLists
import Esesc.Emul.CrackSound
import Esesc.Emul.Scexec
import Esesc.Emul.Trusted
import Esesc.Emul.CrackRun
import Esesc.Emul.PushPop
import Esesc.Emul.EmulatorRuns
import Esesc.Emul.CoreInvariant
import Esesc.Emul.FlagsKept
import Esesc.Net.Distances
import Esesc.Net.Traffic
import Esesc.Net.InOrder
