import SparkKit.Lib.Scatter
import SparkKit.Lib.History
import SparkKit.Ring.Inputs
import SparkKit.Ring.Mask
import SparkKit.Ring.RowAgreement
import SparkKit.Lib.RingWindow
import SparkKit.Ring.Ingest
import SparkKit.Ring.WindowContent
import SparkKit.Dcp.Candidates
import SparkKit.Lib.Collective
import SparkKit.Lib.TopK
import SparkKit.Dcp.TopkExact
import SparkKit.Dcp.Chunks
import SparkKit.Dcp.PrefillBranch
import SparkKit.Dcp.FusedGather
import SparkKit.Graphs.DepthLadder
import SparkKit.Graphs.Manager
import SparkKit.Graphs.Tables
import SparkKit.Graphs.Coverage
import SparkKit.Rdma.AllGather
import SparkKit.Lib.Consecutive
import SparkKit.Rdma.Rounds
import SparkKit.Sched.Chunk
import SparkKit.Sched.StepState
import SparkKit.Sched.Running
import SparkKit.Sched.Waiting
import SparkKit.Sched.Schedule
import SparkKit.Sched.Budget
import SparkKit.Sched.Isolation
import SparkKit.Sched.StepInvariant
import SparkKit.Lib.Counters
import SparkKit.Depth.Controller
import SparkKit.Depth.Invariant
import SparkKit.Ring.Capture
import SparkKit.Depth.Climb
import SparkKit.Graphs.BaseDispatch
import SparkKit.Graphs.ExactDispatch
import SparkKit.Sched.RunningBooks
import SparkKit.Sched.RunningLog
import SparkKit.Sched.Refunds
import SparkKit.Sched.Frames
import SparkKit.Sched.SpecPadding
import SparkKit.Sched.UniformStep
import SparkKit.Lib.Rotation
import SparkKit.Sched.LongPrefills
import SparkKit.Sched.Selection
import SparkKit.Sched.Turns
import SparkKit.Sched.TurnRotation
import SparkKit.Sched.Output
import SparkKit.Sched.SkippedOutput
import SparkKit.Ring.CapturePositions
import SparkKit.Dcp.ShardIndex
import SparkKit.Lib.Minifloat
import SparkKit.Nvfp4.Scalars
import SparkKit.Nvfp4.Record
import SparkKit.Nvfp4.Writer
import SparkKit.Nvfp4.RoundTrip
import SparkKit.Dcp.ChunkBudget
import SparkKit.Dcp.RowOwners
import SparkKit.Dcp.DecodeExpansion
import SparkKit.Dcp.DecodeBounds
import SparkKit.Dcp.PageTable
import SparkKit.Lib.Compaction
import SparkKit.Ring.CacheTrim
import SparkKit.Ring.PromptRefill
import SparkKit.Lib.RowMajor
import SparkKit.Dcp.GatherLayout
import SparkKit.Lib.BitSum
import SparkKit.Lib.FirstMin
import SparkKit.Tailquant.RingCodec
import SparkKit.Tailquant.VectorEncode
import SparkKit.Tailquant.Unpack
import SparkKit.Lib.Checked
import SparkKit.Lib.Reduction
import SparkKit.Gemv.Weights
import SparkKit.Gemv.Lanes
import SparkKit.Lib.PyRange
import SparkKit.Gemv.SplitK
import SparkKit.Gemv.FullK
import SparkKit.Gemv.Dense
import SparkKit.Tailquant.Split
import SparkKit.Tailquant.Profiler
import SparkKit.Lmhead.Rescore
import SparkKit.Lmhead.TopTokens
import SparkKit.Depth.Atomicity
import SparkKit.Sched.Acceptance
import SparkKit.Sched.AcceptanceRun
import SparkKit.Lib.Tabulate
import SparkKit.Tailquant.RatePlan
import SparkKit.Lib.BigEndian
import SparkKit.Lib.BroadcastQueue
import SparkKit.Shm.RingBuffer
import SparkKit.Shm.Chunk
import SparkKit.Shm.MessageQueue
import SparkKit.Shm.FlagProtocol
import SparkKit.Shm.ChunkContent
import SparkKit.Shm.Broadcast
import SparkKit.Shm.Progress
import SparkKit.Lib.Outstanding
import SparkKit.Sched.InvalidBlocks
import SparkKit.Sched.EngineCore
import SparkKit.Sched.Shuffle
import SparkKit.Sched.Roster
import SparkKit.Sched.OutputTurn
import SparkKit.Sched.OutputRoster
import SparkKit.Sched.EngineRun
import SparkKit.Sched.EngineCounts
import SparkKit.Sched.LostSession
import SparkKit.Sched.DeferredFrees
import SparkKit.Tp4.StreamOrder
import SparkKit.Tp4.AllReduceProgress
import SparkKit.Tp4.FourRanks
