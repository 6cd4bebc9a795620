import Latias.Analysis.GetLoopCount
import Latias.Analysis.InitAnalysis
import Latias.Analysis.PerfState
import Latias.Analysis.PerfTensors
import Latias.Analysis.PerfLatency
import Latias.Analysis.PerfAnalysis
import Latias.Analysis.Evaluate
import Latias.Analysis.Config
import Latias.Analysis.TraversalOrder
import Latias.Counts.LoopCount
import Latias.Counts.OpVisits
import Latias.Counts.Accepted
import Latias.Counts.OpCost
import Latias.Latencies.Blocks
import Latias.Latencies.Nonneg
import Latias.Latencies.Roofline
import Latias.Ranges.Charges
import Latias.Mapper.DataMovement
import Latias.Ranges.Visits
import Latias.Ranges.FirstRange
import Latias.Ranges.Root
import Latias.Visits.Restored
import Latias.Visits.NoTrace
import Latias.Ranges.Stationary
import Latias.Ranges.Bounds
import Latias.Ranges.Compulsory
import Latias.Ranges.ExactFootprint
import Latias.Mapper.Projection
import Latias.Problem.Names
import Latias.Again.Reset
import Latias.Again.Recount
import Latias.Again.Reinit
import Latias.Visits.Rule
import Latias.Again.Replay
import Latias.Again.ReplayVisit
import Latias.Again.Repeatable
import Latias.Offsets.Reordered
import Latias.Latencies.Broadcast
import Latias.Latencies.ScopeOrder
import Latias.Visits.OncePerVisit
import Latias.Latencies.OwnLinks
import Latias.Tensors.ProducerPath
import Latias.Latencies.InputLinks
import Latias.Visits.Faults
import Latias.Latencies.Faults
import Latias.Latencies.Navigation
import Latias.Latencies.Bandwidth
import Latias.Latencies.Narrowing
import Latias.Model.Links
import Latias.Mapper.Symbol
import Latias.Counts.Completeness
import Latias.Mapping.FactorLists
import Latias.Mapping.OpFactors
import Latias.Mapping.OpNames
import Latias.Mapping.Residuals
import Latias.Mapping.RoundTrip
import Latias.Mapping.TreeRoundTrip
import Latias.Tensors.TransOutputs
import Latias.Visits.Lockstep
import Latias.Tensors.LowestCommon
import Latias.Problem.DimTables
import Latias.Model.Graph
import Latias.Library.StdString
import Latias.Model.Successors
import Latias.Traffic.LoopOrder
import Latias.Traffic.Total
import Latias.Latencies.Progress
import Latias.Application.Accepted
import Latias.Visits.Progress
import Latias.Visits.AnyHash
import Latias.Application.Computed
import Latias.Traffic.ProducedFirst
