import Latias.Analysis.Config
import Latias.Ranges.FirstRange

/-! The ranges at the root. -/

namespace TileExp.Analysis

open Checked LoopNest

variable {ev : Evaluator} {ctx : PerfContext} {dim_name : String} {state : EvalState}
  {tree : EvaTree} {t : Tally} {is_input : Bool} {name : String}

def Evaluator.WholeMap (ev : Evaluator) (map : TensorMap) : Prop :=
  ∀ dim_name ∈ map.tensor_dims_, map.dim_ranges_.lookup dim_name =
    some ⟨dim_name, 0, ev.workloads_.factorized_bound dim_name⟩

theorem RangeFrom.root {range : StEd} {q : Rose.Address} {loop : Descriptor}
    {rest : List Descriptor} (accepted : ctx.ev.Accepted)
    (given : RangeFrom ctx [] [] dim_name range q loop rest) :
    range = (0, ctx.ev.workloads_.factorized_bound dim_name) := by
  have split := opNests_split accepted.leaves given.op.1
  have path : ofDim dim_name (ctx.ev.opNests (q ++ [])).flatten = loop :: rest := by
    rw [split]
    exact given.path
  have counted : dim_name ∈ (ctx.ev.opNests (q ++ [])).flatten.map Descriptor.name_ := by
    by_contra absent
    rw [ofDim_eq_nil.mpr absent] at path
    cases path
  have bound := accepted.bounded _ given.op dim_name counted
  have outermost : outerBound ctx.ev [] [] dim_name loop = loop.residual_end := by
    rw [outerBound]
    split
    · rfl
    · rfl
  have high := given.high
  rw [outermost, ← GetLoopCount.dimCount_cons, ← path, ← bound, skewOf_nil, Int.zero_add] at high
  exact Prod.ext given.low high

theorem RangesAt.root {dims : List String} {ranges : Table DimRange} (setting : RangeSetting ctx)
    (parsed : ∀ loop ∈ ctx.ev.loopnests_ [], Parsed loop)
    (given : RangesAt ctx [] (firstIteration [] (ctx.ev.loopnests_ []) [])
      (skewOf ctx (firstIteration [] (ctx.ev.loopnests_ []) [])) dims ranges)
    (member : dim_name ∈ dims) : ranges.lookup dim_name =
      some ⟨dim_name, 0, ctx.ev.workloads_.factorized_bound dim_name⟩ := by
  obtain ⟨range, computed, found⟩ := given.inside dim_name member
  rw [skewOf_firstIteration] at computed
  obtain ⟨q, loop, rest, from_loops⟩ :=
    exists_rangeFrom setting rfl parsed (fun loop inside => by cases inside) computed
  rw [found, from_loops.root setting.accepted]

theorem Evaluator.Evaluated.setting (evaluated : ev.Evaluated state tree t)
    (distinct : ev.DistinctDims) : RangeSetting (tree.context ev state.leaf_vec_) :=
  ⟨evaluated.accepted, distinct, evaluated.offsets⟩

theorem Evaluator.Evaluated.blank (evaluated : ev.Evaluated state tree t) {node : NodePtr}
    {map : TensorMap} (found : (tree.table is_input node).lookup name = some map) :
    map = ev.blankMap name := by
  obtain ⟨producers, init⟩ := InitAnalysis.run_tensors
    (Evaluator.Evaluated.noTensors ev tree.inherit_loopnests_) evaluated.initialised
  cases is_input with
  | false => exact init.blank_outputs node name map found
  | true => exact init.blank_inputs node name map found

theorem Evaluator.Evaluated.root_call (evaluated : ev.Evaluated state tree t)
    (parsed : ∀ loop ∈ ev.loopnests_ [], Parsed loop)
    (running : ∀ loop ∈ ev.loopnests_ [], 1 ≤ loop.residual_end) (is_input : Bool) :
    ∃ cs, Analysis.calls [] is_input t.log = [(firstIteration [] (ev.loopnests_ []) [], cs)] := by
  have runs : ev.Running [] := by
    intro loop member loops
    have bound := running loop member
    rw [(parsed loop member).start, loopEnd]
    exact bound
  have once := evaluated.calls rfl evaluated.accepted.root runs is_input
  obtain ⟨⟨loops, cs⟩, only⟩ := List.length_eq_one_iff.mp (by
    rw [← List.length_map Prod.fst, once]
    rfl)
  rw [only] at once ⊢
  cases (List.cons.inj once).1
  exact ⟨cs, rfl⟩

/-- The root calls `addCurrentTensor` once for its inputs and once for its outputs, and each call
    gives every dimension of every tensor the whole range `GetLoopCount` checked. -/
theorem root_ranges_whole (run : ev.evaluate ev.construct = .ok state) (distinct : ev.DistinctDims)
    (parsed : ∀ loop ∈ ev.loopnests_ [], Parsed loop)
    (running : ∀ loop ∈ ev.loopnests_ [], 1 ≤ loop.residual_end) (is_input : Bool) :
    (∃ loops cs, calls [] is_input state.log = [(loops, cs)] ∧
      ∀ charge ∈ cs, ev.WholeMap charge.after) ∧
    ∀ name map, (state.tree.table is_input []).lookup name = some map →
      map.tensor_dims_ = ev.tensorDims name ∧ ev.WholeMap map := by
  obtain ⟨tree, t, evaluated⟩ := Evaluator.evaluate_eq_ok run
  have tables := evaluated.tables distinct.tiles
  obtain ⟨cs, only⟩ := evaluated.root_call parsed running is_input
  have whole : ∀ name first, (tree.table is_input []).lookup name = some first →
      ∀ entry ∈ tensorCharges [] is_input name t.log, ev.WholeMap entry.2.after := by
    intro name first found entry member
    obtain ⟨last, _, maps, _⟩ := tables.present [] is_input name first found
    obtain ⟨before, _, made⟩ := maps.charged member
    obtain ⟨at_loops, charge⟩ := entry
    obtain ⟨_, cs', called, _⟩ := mem_tensorCharges.mp member
    rw [only] at called
    cases List.mem_singleton.mp called
    intro dim_name inside
    exact made.ranges.root (evaluated.setting distinct) parsed (made.dims ▸ inside)
  constructor
  · refine ⟨_, cs, by rw [evaluated.log, only], fun charge member => ?_⟩
    obtain ⟨first, found⟩ := tables.names [] is_input _ (only ▸ List.mem_cons_self) charge member
    have inside : (firstIteration [] (ev.loopnests_ []) [], charge) ∈
        tensorCharges [] is_input charge.tensor_name t.log := by
      rw [mem_tensorCharges, only]
      exact ⟨rfl, cs, List.mem_cons_self, member⟩
    exact whole charge.tensor_name first found _ inside
  · intro name map found
    have same : state.tree.table is_input [] = t.table is_input [] := by
      rw [evaluated.result]
      rfl
    rw [same] at found
    have start : ∃ first, (tree.table is_input []).lookup name = some first := by
      rw [← Option.isSome_iff_exists]
      by_contra missing
      rw [tables.absent [] is_input name (Option.not_isSome_iff_eq_none.mp missing)] at found
      cases found
    obtain ⟨first, at_start⟩ := start
    obtain ⟨last, present, maps, iterations⟩ := tables.present [] is_input name first at_start
    cases Option.some_inj.mp (present.symm.trans found)
    have blank := evaluated.blank at_start
    refine ⟨by rw [maps.dims, blank]; rfl, ?_⟩
    have some : tensorCharges [] is_input name t.log ≠ [] := by
      intro none
      rw [none, only] at iterations
      cases iterations
    obtain ⟨entry, member, rfl⟩ := maps.last_mem some
    exact whole name first at_start entry member

def branching : Evaluator :=
  Config.evaluator
    (Config.workloads [("first", ⟨["A"], "B"⟩), ("second", ⟨["B"], "C"⟩)] [("M", 5), ("N", 4)]
      [("A", ["M", "N"]), ("B", ["M", "N"]), ("C", ["M", "N"])]) 1
    [("Main2L1", ⟨1, .HD, 1, 1⟩), ("L12Main", ⟨1, .HD, 1, 1⟩), ("L12Cube", ⟨1, .HD, 1, 1⟩)]
    (Config.tile .Temporal "Main" [Config.loop "M" 2 2]
      [Config.scope .Sequential
        [Config.tile .Temporal "L1" [Config.loop "M" 3 2, Config.loop "N" 2 2]
          [Config.op "Cube" "first" [Config.loop "M" 1 1, Config.loop "N" 2 2]],
        Config.tile .Temporal "L1" [Config.loop "N" 4 4, Config.loop "M" 3 2]
          [Config.op "Cube" "second" [Config.loop "N" 1 1, Config.loop "M" 1 1]]]])

theorem root_ranges_whole_branching :
    ∃ state, branching.evaluate branching.construct = .ok state ∧
      (∃ loops cs, calls [] true state.log = [(loops, cs)] ∧
        ∀ charge ∈ cs, branching.WholeMap charge.after) ∧
      ∀ name map, (state.tree.table true []).lookup name = some map →
        map.tensor_dims_ = branching.tensorDims name ∧ branching.WholeMap map := by
  have completed : (branching.evaluate branching.construct).isOk = true := by
    decide +kernel
  obtain ⟨state, run⟩ := exists_of_isOk completed
  exact ⟨state, run, root_ranges_whole run (by decide +kernel) (by decide +kernel)
    (by decide +kernel) true⟩

end TileExp.Analysis
