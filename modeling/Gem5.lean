import Gem5.Proof.Base.AddrRangeSiblings
import Gem5.Proof.Base.AddrRangeInverse
import Gem5.Proof.Base.AddrRangeMapAnswers
import Gem5.Proof.Base.AddrRangeRelations
import Gem5.Proof.O3.RenameRecovery
import Gem5.Proof.O3.RobOrder
import Gem5.Proof.O3.MemDepBarriers
import Gem5.Proof.O3.InstQueueOccupancy
import Gem5.Proof.O3.RunaheadModes
import Gem5.Proof.O3.TaintFlow
import Gem5.Proof.O3.LoopBounds
import Gem5.Proof.Sim.EventLoop
import Gem5.Proof.Sim.EventCheckpoint
import Gem5.Proof.Base.TrieRefinement
import Gem5.Proof.Base.CircleBufRuns
import Gem5.Proof.Mem.MshrQueueOrder
import Gem5.Proof.Mem.SkewedInverse
import Gem5.Proof.Mem.SuperBlkCapacity
import Gem5.Proof.Mem.FrequentValuesRoundTrip
import Gem5.Proof.Mem.PatternCompressors
import Gem5.Proof.Mem.FaLruStatistics
import Gem5.Proof.Mem.MshrSnoops
import Gem5.Proof.Mem.WholeLineWrites
import Gem5.Proof.Mem.PacketQueueDelivery
import Gem5.Proof.Mem.SnoopFilterSharers
import Gem5.Proof.Mem.SnoopFilterRetry
import Gem5.Proof.Mem.CommandWindows
import Gem5.Proof.Pred.ReturnStack
import Gem5.Proof.Pred.LoopSpeculation
import Gem5.Proof.Ruby.DmaTransfers
import Gem5.Proof.Ruby.AluBandwidth
import Gem5.Proof.Riscv.PmpRules
import Gem5.Proof.Sim.FutexWaiters
import Gem5.Proof.Dev.DescriptorChains
import Gem5.Proof.Mem.PrefetchDuplicates
import Gem5.Proof.Ruby.MeshRoutes
import Gem5.Proof.Dev.PacketCopies
