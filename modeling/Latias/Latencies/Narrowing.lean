import Latias.Latencies.Divisors
import Latias.Library.Machine

/-! Where latencies pass through an `int`: the results of `getOutputLatency` and `getInputLatency`,
    and `dm_latency` in `computeScopeLatency`. -/

namespace TileExp.Analysis

open Checked LoopNest Machine

variable {ev : Evaluator} {node : NodePtr}

end TileExp.Analysis
