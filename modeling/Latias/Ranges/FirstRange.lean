import Latias.Ranges.Visits

/-! The range a visit of a Tile gives a dimension, from the loops on the way down to an Op. -/

namespace TileExp.Analysis

open Checked LoopNest

variable {ev : Evaluator} {ctx : PerfContext} {node : NodePtr} {outer : List LoopState}
  {dim_name : String} {state : EvalState} {tree : EvaTree} {t : Tally}

theorem Evaluator.Evaluated.offsets (evaluated : ev.Evaluated state tree t) :
    InitAnalysis.OffsetsInit ev tree.toEvaOffsets :=
  InitAnalysis.run_offsets (fun _ _ some => by cases some) evaluated.initialised

theorem Carrier.below {offsets : EvaOffsets} {carrier : NodePtr}
    (carries : Carrier ev offsets dim_name node carrier) (apart : carrier ≠ node) :
    ∃ i q, carrier = q ++ node ∧ Carrier ev offsets dim_name (i :: node) carrier := by
  obtain ⟨q, rfl⟩ := carries.under
  rcases List.eq_nil_or_concat q with rfl | ⟨front, i, rfl⟩
  · exact absurd rfl apart
  · have path : front.concat i ++ node = front ++ i :: node := by simp
    refine ⟨i, front.concat i, rfl, carries.found, ?_, carries.carries, ?_⟩
    · exact ⟨front, path.symm⟩
    · intro ptr below above other
      exact carries.first ptr ((List.suffix_cons i node).trans below) above other

def outerBound (ev : Evaluator) (node : NodePtr) (outer : List LoopState) (dim_name : String)
    (loop : Descriptor) : Int :=
  if dim_name ∈ ev.dims node then loopEnd node loop outer else loop.residual_end

/-- The range of a dimension, from the loops over it at the node and below, on the way to an Op. -/
structure RangeFrom (ctx : PerfContext) (node : NodePtr) (outer : List LoopState)
    (dim_name : String) (range : StEd) (q : Rose.Address) (loop : Descriptor)
    (rest : List Descriptor) : Prop where
  op : ctx.ev.IsOp (q ++ node)
  path : ofDim dim_name (ctx.ev.loopnests_ node ++ ctx.ev.loopsBelow node q) = loop :: rest
  low : range.1 = skewOf ctx outer dim_name
  high : range.2 = skewOf ctx outer dim_name +
    ((outerBound ctx.ev node outer dim_name loop - 1) * (rest.map Descriptor.end_).prod +
      GetLoopCount.dimCount rest)

structure RangeSetting (ctx : PerfContext) : Prop where
  accepted : ctx.ev.Accepted
  distinct : ctx.ev.DistinctDims
  offsets : InitAnalysis.OffsetsInit ctx.ev ctx.offsets

theorem rangeFrom_own (setting : RangeSetting ctx) (found : (ctx.ev.root_.get? node).isSome)
    (parsed : ∀ loop ∈ ctx.ev.loopnests_ node, Parsed loop)
    (outside : ∀ loop ∈ outer, loop.node ≠ node) (own : dim_name ∈ ctx.ev.dims node)
    {range : StEd} (call : currentDimRange ctx
      (walkAt ctx node (firstIteration node (ctx.ev.loopnests_ node) outer)) (skewOf ctx outer) dim_name =
        .ok range) :
    ∃ q loop rest, RangeFrom ctx node outer dim_name range q loop rest := by
  obtain ⟨loop, member, rfl, single, _⟩ := exists_ofDim_loopnests setting.distinct found own
  obtain ⟨q, chain⟩ := exists_chain setting.accepted setting.distinct setting.offsets loop.name_
    node found own
  have names := setting.distinct node (InitAnalysis.mem_positions.mpr found)
  have inside : ownLoops node loop.name_ (firstIteration node (ctx.ev.loopnests_ node) outer) =
      [loopState node loop (loopEnd node loop outer) 0] := by
    rw [ownLoops_firstIteration _ names, single, ownLoops_of_outside outside]
    rfl
  rw [currentDimRange_own inside] at call
  cases call
  refine ⟨q, loop, ofDim loop.name_ (ctx.ev.loopsBelow node q), chain.op, ?_, ?_, ?_⟩
  · rw [ofDim_append, single]
    rfl
  · simp [loopState, (parsed loop member).start]
  · simp only [loopState, PerfContext.dim_offset_, chain.dim_offset_, chain.last_dim_offset_,
      outerBound, if_pos own, Option.getD_some]
    omega

theorem rangeFrom_below (setting : RangeSetting ctx) (found : (ctx.ev.root_.get? node).isSome)
    (outside : ∀ loop ∈ outer, loop.node ≠ node) (none : dim_name ∉ ctx.ev.dims node)
    {range : StEd} (call : currentDimRange ctx
      (walkAt ctx node (firstIteration node (ctx.ev.loopnests_ node) outer)) (skewOf ctx outer) dim_name =
        .ok range) :
    ∃ q loop rest, RangeFrom ctx node outer dim_name range q loop rest := by
  have names := setting.distinct node (InitAnalysis.mem_positions.mpr found)
  have missing : ofDim dim_name (ctx.ev.loopnests_ node) = [] := ofDim_eq_nil.mpr none
  have inside : ownLoops node dim_name (firstIteration node (ctx.ev.loopnests_ node) outer) = [] := by
    rw [ownLoops_firstIteration _ names, missing, ownLoops_of_outside outside]
    rfl
  obtain ⟨carrier, carries, rfl⟩ := currentDimRange_below found inside call
  have carried := (setting.offsets.carries carrier dim_name).mp carries.carries
  have apart : carrier ≠ node := fun same => none (same ▸ carried)
  obtain ⟨i, q, rfl, below⟩ := carries.below apart
  obtain ⟨loop, _, rfl, single, bounds⟩ :=
    exists_ofDim_loopnests setting.distinct carries.found carried
  obtain ⟨r, chain⟩ := exists_chain setting.accepted setting.distinct setting.offsets loop.name_
    (q ++ node) carries.found carried
  refine ⟨r ++ q, loop, ofDim loop.name_ (ctx.ev.loopsBelow (q ++ node) r), ?_, ?_, rfl, ?_⟩
  · rw [List.append_assoc]
    exact chain.op
  · rw [ofDim_append, missing, loopsBelow_append, ofDim_append,
      ofDim_loopsBelow_carrier setting.offsets.carries below, single]
    rfl
  · simp only [PerfContext.dim_offset_, chain.dim_offset_, chain.last_dim_offset_, bounds, outerBound,
      if_neg none, Option.getD_some]
    rw [Int.add_assoc, Int.mul_comm]

/-- Every range of a visit comes from the loops on the way down to some Op. -/
theorem exists_rangeFrom (setting : RangeSetting ctx) (found : (ctx.ev.root_.get? node).isSome)
    (parsed : ∀ loop ∈ ctx.ev.loopnests_ node, Parsed loop)
    (outside : ∀ loop ∈ outer, loop.node ≠ node) {range : StEd} (call : currentDimRange ctx
      (walkAt ctx node (firstIteration node (ctx.ev.loopnests_ node) outer)) (skewOf ctx outer) dim_name =
        .ok range) :
    ∃ q loop rest, RangeFrom ctx node outer dim_name range q loop rest := by
  by_cases own : dim_name ∈ ctx.ev.dims node
  · exact rangeFrom_own setting found parsed outside own call
  · exact rangeFrom_below setting found outside own call

end TileExp.Analysis
