import MlxTrainPerf.Lib.Loops
import MlxTrainPerf.Lib.PyList
import MlxTrainPerf.Data.Packing
import MlxTrainPerf.Data.PackIndices
import MlxTrainPerf.Data.BuildRow
import MlxTrainPerf.Data.PackedRow
import MlxTrainPerf.Data.Supervision
import MlxTrainPerf.Attention.Launch
import MlxTrainPerf.Attention.LaunchPlan
import MlxTrainPerf.Attention.Kernel.Source
import MlxTrainPerf.Attention.Kernel.Tiles
import MlxTrainPerf.Attention.KeyCoverage
import MlxTrainPerf.Attention.Kernel.DkvRun
import MlxTrainPerf.Attention.DkvCoverage
import MlxTrainPerf.Attention.DkvChain
import MlxTrainPerf.Lib.OnlineSoftmax
import MlxTrainPerf.Attention.Reference
import MlxTrainPerf.Attention.ReferenceReal
import MlxTrainPerf.Attention.Isolation
import MlxTrainPerf.Attention.Kernel.Forward
import MlxTrainPerf.Attention.Kernel.ForwardRun
import MlxTrainPerf.Attention.FlashForward
import MlxTrainPerf.Attention.ValidatedMask
import MlxTrainPerf.Attention.Vjp
import MlxTrainPerf.Core.Vocab
import MlxTrainPerf.Core.Kernel.Source
import MlxTrainPerf.Core.Kernel.ForwardRun
import MlxTrainPerf.Core.Kernel.Launch
import MlxTrainPerf.Core.FusedForward
import MlxTrainPerf.Core.Chunked
import MlxTrainPerf.Core.Kernel.BackwardRun
import MlxTrainPerf.Core.FusedBackward
import MlxTrainPerf.Core.Kernel.BackwardDw
import MlxTrainPerf.Core.Kernel.Quant
import MlxTrainPerf.Core.Loss
import MlxTrainPerf.Core.ChunkedLoss
import MlxTrainPerf.Core.ChunkedGradient
import MlxTrainPerf.Lib.StrictLower
import MlxTrainPerf.Recurrent.Ops
import MlxTrainPerf.Lib.DeltaRule
import MlxTrainPerf.Recurrent.Solve
import MlxTrainPerf.Recurrent.ChunkRun
import MlxTrainPerf.Recurrent.GatedDelta
import MlxTrainPerf.Recurrent.Wrapper
import MlxTrainPerf.Recurrent.Enable
import MlxTrainPerf.Lib.Rounding
import MlxTrainPerf.Lib.Budget
import MlxTrainPerf.Memfit.Model
import MlxTrainPerf.Plan.Estimate
import MlxTrainPerf.Plan.Growth
import MlxTrainPerf.Plan.Inverse
import MlxTrainPerf.Lib.PyStr
import MlxTrainPerf.Lib.PyJson
import MlxTrainPerf.Bench.Artifacts
import MlxTrainPerf.Bench.Runner
import MlxTrainPerf.Bench.Sweep
import MlxTrainPerf.Bench.Resume
import MlxTrainPerf.Bench.Breach
import MlxTrainPerf.Plan.FitCalibration
import MlxTrainPerf.Plan.OneSided
import MlxTrainPerf.Plan.Refit
import MlxTrainPerf.Memfit.Calibration
import MlxTrainPerf.Data.Epoch
import MlxTrainPerf.Plan.Suggestion
import MlxTrainPerf.Attention.FwdBudget
import MlxTrainPerf.Bench.ContextSweep
import MlxTrainPerf.Data.OpenPool
import MlxTrainPerf.Attention.Calibrate
import MlxTrainPerf.Lib.JsonText
import MlxTrainPerf.Memfit.Holdout
import MlxTrainPerf.Lib.Groups
import MlxTrainPerf.Bench.Report
import MlxTrainPerf.Bench.Comparisons
import MlxTrainPerf.Bench.Readers
import MlxTrainPerf.Lib.MarkdownTable
import MlxTrainPerf.Community.Aggregate
import MlxTrainPerf.Community.Submissions
import MlxTrainPerf.Community.SpawnScript
import MlxTrainPerf.Bench.OnceWriter
import MlxTrainPerf.Bench.MarginalWorker
import MlxTrainPerf.Lib.Blocks
import MlxTrainPerf.Bench.CodeSha
import MlxTrainPerf.Attention.WidestWithin
import MlxTrainPerf.Attention.Belt
import MlxTrainPerf.Bench.SegmentLayout
import MlxTrainPerf.Lib.Double
import MlxTrainPerf.Core.Guards
import MlxTrainPerf.Lib.LeastSquares
import MlxTrainPerf.Plan.FitInverse
import MlxTrainPerf.Attention.Kernel.Backward
import MlxTrainPerf.Attention.FlashBackward
import MlxTrainPerf.Attention.KernelPass
import MlxTrainPerf.Core.KernelGradient
import MlxTrainPerf.Adapters.LossFn
import MlxTrainPerf.Adapters.PackedEpoch
import MlxTrainPerf.Attention.Enable
import MlxTrainPerf.Attention.KernelNames
import MlxTrainPerf.Data.PackQuality
import MlxTrainPerf.Core.Kernel.Calibrate
import MlxTrainPerf.Core.RateCache
import MlxTrainPerf.Recurrent.Clamped
import MlxTrainPerf.Recurrent.Forward
import MlxTrainPerf.Memfit.HoldoutFile
