import Latias.Tensors.InitTensors
import Latias.Analysis.Config

namespace TileExp.Analysis.InitAnalysis

variable {ev : Evaluator} {producers : Producers} {leaf_vec_ : List NodePtr} {tables : EvaTensors}
  {node consumer producer : NodePtr} {tensor : String}

theorem ne_nil_of_op (root : ev.get_type [] = .Tile) (op : ev.IsOp node) : node ≠ [] := by
  rintro rfl
  cases root.symm.trans op.2

theorem mem_ancestors_of_tile (tile : ev.get_type node = .Tile) (op : ev.IsOp consumer)
    (above : node <:+ consumer) : node ∈ Rose.ancestors consumer := by
  refine Rose.mem_ancestors.mpr ⟨above, ?_⟩
  rintro rfl
  cases tile.symm.trans op.2

/-- An input that an op produces goes to the Tiles that hold the consumer without the producer. -/
theorem mem_inputPath_of_produced (init : TensorsInit ev producers leaf_vec_ tables)
    (root : ev.get_type [] = .Tile) (tile : ev.get_type node = .Tile) (op : ev.IsOp consumer)
    (used : ev.Consumes consumer tensor) (source : ev.IsOp producer)
    (made : ev.Produces producer tensor) :
    node ∈ inputPath ev producers leaf_vec_ consumer tensor ↔
      node <:+ consumer ∧ ¬ node <:+ producer := by
  have present := (init.producer_map_ tensor _ producer).mpr ⟨source, made, rfl⟩
  obtain ⟨paths, call⟩ := init.found consumer tensor _ op used present
  obtain ⟨common, -, lowest, taken⟩ := findCommonNode_eq_ok root
    (ne_nil_of_op root source) (ne_nil_of_op root op) call
  have plain : ev.get_type node ≠ .Scope := by simp [tile]
  simp only [inputPath, present, call, taken, Rose.mem_take_ancestors lowest.above_consumer]
  constructor
  · rintro ⟨above, low⟩
    refine ⟨(Rose.mem_ancestors.mp above).1, fun upper => low ?_⟩
    exact lowest.deepest node (mem_ancestors_of_tile tile source upper) above plain
  · rintro ⟨above, apart⟩
    refine ⟨mem_ancestors_of_tile tile op above, fun upper => apart ?_⟩
    exact upper.trans (Rose.mem_ancestors.mp lowest.above_producer).1

theorem mem_inputPath_of_external (init : TensorsInit ev producers leaf_vec_ tables)
    (tile : ev.get_type node = .Tile) (op : ev.IsOp consumer)
    (external : ∀ producer, ev.IsOp producer → ¬ ev.Produces producer tensor) :
    node ∈ inputPath ev producers leaf_vec_ consumer tensor ↔ node <:+ consumer := by
  have absent : producers.lookup tensor = none := by
    rw [Option.eq_none_iff_forall_not_mem]
    rintro ⟨m, producer⟩ present
    obtain ⟨source, made, -⟩ := (init.producer_map_ tensor m producer).mp present
    exact external producer source made
  simp only [inputPath, absent]
  exact ⟨fun above => (Rose.mem_ancestors.mp above).1, mem_ancestors_of_tile tile op⟩

/-- The inputs of a Tile are the tensors consumed under it and not produced under it. -/
theorem input_tensors_of_tile {tree tree' : EvaTree} {leaf_vec_ : List NodePtr}
    (root : ev.get_type [] = .Tile) (empty : tree.NoTensors)
    (run : InitAnalysis.run ev tree = .ok (tree', leaf_vec_)) (node : NodePtr)
    (tile : ev.get_type node = .Tile) (tensor : String) :
    tensor ∈ tree'.input_tensors_ node ↔
      (∃ consumer, ev.IsOp consumer ∧ node <:+ consumer ∧ ev.Consumes consumer tensor) ∧
        ¬ ∃ producer, ev.IsOp producer ∧ node <:+ producer ∧ ev.Produces producer tensor := by
  obtain ⟨producers, init⟩ := run_tensors empty run
  rw [init.inputs]
  have inner : ¬ (ev.IsOp node ∧ ev.Consumes node tensor) := by
    rintro ⟨op, -⟩
    cases tile.symm.trans op.2
  by_cases external : ∀ producer, ev.IsOp producer → ¬ ev.Produces producer tensor
  · constructor
    · rintro (here | ⟨consumer, op, used, path⟩)
      · exact absurd here inner
      · have above := (mem_inputPath_of_external init tile op external).mp path
        refine ⟨⟨consumer, op, above, used⟩, ?_⟩
        rintro ⟨producer, source, -, made⟩
        exact external producer source made
    · rintro ⟨⟨consumer, op, above, used⟩, -⟩
      exact Or.inr ⟨consumer, op, used, (mem_inputPath_of_external init tile op external).mpr above⟩
  · push Not at external
    obtain ⟨producer, source, made⟩ := external
    constructor
    · rintro (here | ⟨consumer, op, used, path⟩)
      · exact absurd here inner
      · obtain ⟨above, apart⟩ :=
          (mem_inputPath_of_produced init root tile op used source made).mp path
        refine ⟨⟨consumer, op, above, used⟩, ?_⟩
        rintro ⟨other, other_source, below, other_made⟩
        have first := (init.producer_map_ tensor _ producer).mpr ⟨source, made, rfl⟩
        have second := (init.producer_map_ tensor _ other).mpr ⟨other_source, other_made, rfl⟩
        cases first.symm.trans second
        exact apart below
    · rintro ⟨⟨consumer, op, above, used⟩, alone⟩
      refine Or.inr ⟨consumer, op, used, ?_⟩
      refine (mem_inputPath_of_produced init root tile op used source made).mpr ⟨above, ?_⟩
      exact fun below => alone ⟨producer, source, below, made⟩

def chained : Evaluator :=
  Config.evaluator
    (Config.workloads [("first", ⟨["A"], "B"⟩), ("second", ⟨["B"], "C"⟩)] [("M", 4)]
      [("A", ["M"]), ("B", ["M"]), ("C", ["M"])]) 1 []
    (Config.tile .Temporal "Main" [Config.loop "M" 2 2]
      [Config.scope .Sequential
        [Config.tile .Temporal "L1" [Config.loop "M" 2 2] [Config.op "Cube" "first" [Config.loop "M" 1 1]],
          Config.tile .Temporal "L1" [Config.loop "M" 2 2] [Config.op "Cube" "second" [Config.loop "M" 1 1]]]])

theorem input_tensors_of_tile_chained :
    ∃ tree' leaf_vec_, InitAnalysis.run chained (EvaTree.fresh chained) = .ok (tree', leaf_vec_) ∧
      ("B" ∈ tree'.input_tensors_ [1, 0] ↔
        (∃ consumer, chained.IsOp consumer ∧ [1, 0] <:+ consumer ∧ chained.Consumes consumer "B") ∧
          ¬ ∃ producer, chained.IsOp producer ∧ [1, 0] <:+ producer ∧
            chained.Produces producer "B") := by
  have completed : (InitAnalysis.run chained (EvaTree.fresh chained)).isOk = true := by
    decide +kernel
  obtain ⟨⟨tree', leaf_vec_⟩, run⟩ := Checked.exists_of_isOk completed
  exact ⟨tree', leaf_vec_, run, input_tensors_of_tile (by decide) ⟨fun _ => rfl, fun _ => rfl⟩ run
    [1, 0] (by decide) "B"⟩

end TileExp.Analysis.InitAnalysis
