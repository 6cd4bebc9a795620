import Latias.Common

namespace TileExp

structure DimRange where
  dim_name_ : String
  low_bound_ : Int
  high_bound_ : Int
  deriving DecidableEq, Repr

structure TensorMap where
  tensor_name_ : String
  tensor_dims_ : List String
  dim_ranges_ : Table DimRange

/-- `Latency`. `origin` is not in the source and no computation reads it: it names the child
    whose latencies the entry was built from. -/
structure Latency where
  input_latency_ : Int
  output_latency_ : Int
  process_latency_ : Int
  origin : List Nat
  deriving DecidableEq, Repr

namespace DimRange

def length (range : DimRange) : Int := range.high_bound_ - range.low_bound_

end DimRange

def rangeVolume (ranges : Table DimRange) : Int :=
  ranges.entries.foldl (fun map2_size pair => map2_size * pair.2.length) 1

def calTensorMapVolume (after : TensorMap) : Exec Int := do
  tileexpAssert (after.dim_ranges_.entries ≠ []) "TensorMap is empty"
  .ok (rangeVolume after.dim_ranges_)

def dimOverlap (dim_range1 dim_range2 : DimRange) : Int :=
  if dim_range1.low_bound_ < dim_range2.low_bound_ then
    max (min (dim_range1.high_bound_ - dim_range2.low_bound_) dim_range2.length) 0
  else
    max (min (dim_range2.high_bound_ - dim_range1.low_bound_) dim_range1.length) 0

def accumulateOverlap (after : Table DimRange) (sizes : Int × Int)
    (pair1 : Sigma fun _ : String => DimRange) : Int × Int :=
  match after.lookup pair1.1 with
  | some dim_range2 => (sizes.1 * dim_range2.length, sizes.2 * dimOverlap pair1.2 dim_range2)
  | none => sizes

def calTensorMapDM (before after : TensorMap) : Exec Int := do
  tileexpAssert (before.tensor_dims_.length = after.tensor_dims_.length) "TensorMap size mismatch"
  tileexpAssert (after.dim_ranges_.entries ≠ []) "TensorMap is empty"
  if before.dim_ranges_.entries = [] then
    .ok (rangeVolume after.dim_ranges_)
  else
    let sizes := before.dim_ranges_.entries.foldl (accumulateOverlap after.dim_ranges_) (1, 1)
    .ok (sizes.1 - sizes.2)

end TileExp
