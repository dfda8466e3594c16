import TribunusCompute.Memory.HandleSafety
import TribunusCompute.WorkerProtocol.EventOrder
import TribunusCompute.WorkerProtocol.Cancellation
import TribunusCompute.WorkerProtocol.Settlement
import TribunusCompute.KvArena.PrefixReuse
import TribunusCompute.KvCache.Rollback
import TribunusCompute.Scheduling.Credits
import TribunusCompute.Grammar.Masking
import TribunusCompute.Grammar.Visits
import TribunusCompute.Grammar.SchemaCompiles
import TribunusCompute.ComputeImage.Dequantize
import TribunusCompute.WorkerProtocol.TokenFrames
import TribunusCompute.Supervisor.Polling
import TribunusCompute.Supervisor.Delivery
import TribunusCompute.Supervisor.Phases
import TribunusCompute.Supervisor.Registry
import TribunusCompute.Supervisor.Generations
import TribunusCompute.Supervisor.Recovery
import TribunusCompute.Streaming.Wakeup
import TribunusCompute.Exo.Distributed
import TribunusCompute.ComputeImage.Speculative
import TribunusCompute.ComputeImage.Differential
import TribunusCompute.ComputeImage.LayoutRoundTrip
import TribunusCompute.ComputeImage.PrepackLaw
import TribunusCompute.KvCache.CompressedRuns
import TribunusCompute.Lowering.ScheduleLaw
import TribunusCompute.Lowering.CoreMlShapes
import TribunusCompute.ComputeImage.PatchLaw
import TribunusCompute.Backend.RegistryLaw
import TribunusCompute.Memory.ArenaPool
import TribunusCompute.Lowering.AneDataFlow
import TribunusCompute.Gguf.HeaderLaw
import TribunusCompute.Tools.RepairLaw
import TribunusCompute.Tools.ControlChars
import TribunusCompute.KvArena.Admission
import TribunusCompute.KvCache.StreamPosition
import TribunusCompute.KvCache.PageResidency
import TribunusCompute.Memory.PageCounts
import TribunusCompute.Cache.PrefixLru
import TribunusCompute.Cache.BlockIndex
import TribunusCompute.Cache.ChunkPieces
import TribunusCompute.Cache.ChunkLimits
import TribunusCompute.Cache.ChunkMatching
import TribunusCompute.Scheduling.Urgency
import TribunusCompute.Scheduling.TokenBudgetRuns
import TribunusCompute.Memory.ArenaSlots
import TribunusCompute.Memory.SegmentResidency
import TribunusCompute.TurboQuant.MseTrailer
import TribunusCompute.Lowering.MilBuild
import TribunusCompute.Speculation.Step
import TribunusCompute.Server.RefillLoss
import TribunusCompute.TurboQuant.Hadamard
import TribunusCompute.TurboQuant.ExactPolar
import TribunusCompute.Lora.Unmerge
import TribunusCompute.LayoutCompiler.Orders
import TribunusCompute.Lowering.ConstantSharing
import TribunusCompute.Cache.WeightCache
import TribunusCompute.Cache.WeightRows
import TribunusCompute.Scheduling.PhaseGraph
import TribunusCompute.ComputeImage.ConstantFolding
import TribunusCompute.ComputeImage.PackedRoom
import TribunusCompute.Backend.BoundaryDigest
import TribunusCompute.Cache.ModelCache
import TribunusCompute.Scheduling.TokenBudgetServing
import TribunusCompute.Supervisor.CoordinationFabric
