import Latias.Tensors.InitTensors
import Latias.Analysis.Config

namespace TileExp.Analysis

def Evaluator.LeafOps (ev : Evaluator) : Prop :=
  ∀ node ∈ Rose.postorder [] ev.root_, ev.get_type node = .Op ∨ ev.get_type node = .Trans →
    (ev.ori_node_ node).children.length = 0

instance (ev : Evaluator) : Decidable ev.LeafOps :=
  inferInstanceAs (Decidable (∀ node ∈ Rose.postorder [] ev.root_, _))

def Evaluator.IsLastLeaf (ev : Evaluator) (node : NodePtr) : Prop :=
  ((Rose.postorder [] ev.root_).filter (InitAnalysis.isLeaf ev)).getLast? = some node

/-- What an Op produces and no Op consumes. -/
def Evaluator.FinalResult (ev : Evaluator) (producer : NodePtr) (tensor : String) : Prop :=
  ev.IsOp producer ∧ ev.Produces producer tensor ∧
    ∀ consumer, ev.IsOp consumer → ¬ ev.Consumes consumer tensor

namespace InitAnalysis

variable {ev : Evaluator} {producers : Producers} {leaf_vec_ : List NodePtr} {tables : EvaTensors}
  {node producer : NodePtr} {tensor : String}

def KeepsResults (ev : Evaluator) (tables : EvaTensors) : Prop :=
  ∀ producer tensor, ev.FinalResult producer tensor →
    ∀ node ∈ Rose.ancestors producer, tensor ∈ tables.output_tensors_ node

theorem not_isLeaf_of_ancestor (leaves : ev.LeafOps) (found : (ev.root_.get? producer).isSome)
    (above : node ∈ Rose.ancestors producer) : isLeaf ev node = false := by
  obtain ⟨⟨q, rfl⟩, distinct⟩ := Rose.mem_ancestors.mp above
  rw [Rose.get?_append] at found
  cases parent : ev.root_.get? node with
  | none => rw [parent] at found; cases found
  | some sub =>
    by_contra leaf
    have none := leaves node (mem_positions.mpr (by rw [parent]; rfl))
      (by simpa only [isLeaf, Bool.not_eq_false, decide_eq_true_eq] using leaf)
    rw [Evaluator.ori_node_of_get? parent, List.length_eq_zero_iff] at none
    rw [parent, Option.bind_some] at found
    rcases List.eq_nil_or_concat q with rfl | ⟨q, i, rfl⟩
    · exact distinct rfl
    · rw [List.concat_eq_append, Rose.get?_append, Rose.get?_cons, Rose.get?_nil, Option.bind_some,
        none] at found
      cases found

theorem mem_outputPath (init : TensorsInit ev producers leaf_vec_ tables) (leaves : ev.LeafOps)
    (found : (ev.root_.get? producer).isSome) (above : node ∈ Rose.ancestors producer) :
    node ∈ outputPath leaf_vec_ producer ↔
      ∃ last, ev.IsLastLeaf last ∧ node ∈ Rose.ancestors last := by
  have inner := not_isLeaf_of_ancestor leaves found above
  have outside : node ∉ leaf_vec_.drop (leaf_vec_.idxOf producer) := by
    intro member
    have leaf := List.mem_of_mem_drop member
    rw [init.leaves, List.mem_filter, inner] at leaf
    exact Bool.false_ne_true leaf.2
  rw [outputPath, List.mem_append, or_iff_right outside]
  simp only [Evaluator.IsLastLeaf, ← init.leaves]
  cases leaf_vec_.getLast? <;> simp

theorem TensorsInit.outputs_of_unused (init : TensorsInit ev producers leaf_vec_ tables)
    (unused : ∀ node, ev.IsOp node → ¬ ev.Consumes node tensor) (node : NodePtr) :
    tensor ∈ tables.output_tensors_ node ↔ (ev.IsOp node ∧ ev.Produces node tensor) ∨
      ∃ last, ev.IsLastOp last ∧ ev.Produces last tensor ∧ node ∈ outputPath leaf_vec_ last := by
  rw [init.outputs, or_iff_left]
  rintro ⟨consumer, op, used, _⟩
  exact unused consumer op used

theorem output_tensors_of_result (init : TensorsInit ev producers leaf_vec_ tables)
    (leaves : ev.LeafOps) (result : ev.FinalResult producer tensor)
    (above : node ∈ Rose.ancestors producer) :
    tensor ∈ tables.output_tensors_ node ↔ ev.IsLastOp producer ∧
      ∃ last, ev.IsLastLeaf last ∧ node ∈ Rose.ancestors last := by
  obtain ⟨op, made, unused⟩ := result
  rw [init.outputs_of_unused unused node]
  have inner := not_isLeaf_of_ancestor leaves op.1 above
  have plain : ¬ (ev.IsOp node ∧ ev.Produces node tensor) := by
    rintro ⟨other, -⟩
    simp [isLeaf, other.2] at inner
  rw [or_iff_right plain]
  constructor
  · rintro ⟨other, last, other_made, path⟩
    have first := (init.producer_map_ tensor _ producer).mpr ⟨op, made, rfl⟩
    have other_op : ev.IsOp other := by
      obtain ⟨before, after, split, kind, -⟩ := last
      exact isOp_iff.mpr ⟨by rw [split]; simp, kind⟩
    have second := (init.producer_map_ tensor _ other).mpr ⟨other_op, other_made, rfl⟩
    cases first.symm.trans second
    exact ⟨last, (mem_outputPath init leaves op.1 above).mp path⟩
  · rintro ⟨last, under⟩
    exact ⟨producer, last, made, (mem_outputPath init leaves op.1 above).mpr under⟩

/-- Results are kept exactly when each of them comes from the last op, under a parent that also
    holds the last leaf. -/
theorem keeps_results_iff {tree tree' : EvaTree} {leaf_vec_ : List NodePtr}
    (root : ev.get_type [] = .Tile) (leaves : ev.LeafOps) (empty : tree.NoTensors)
    (run : InitAnalysis.run ev tree = .ok (tree', leaf_vec_)) :
    KeepsResults ev tree'.toEvaTensors ↔
      ∀ producer tensor, ev.FinalResult producer tensor → ev.IsLastOp producer ∧
        ∃ last, ev.IsLastLeaf last ∧ Rose.ancestors producer ⊆ Rose.ancestors last := by
  obtain ⟨producers, init⟩ := run_tensors empty run
  constructor
  · intro kept producer tensor result
    have inner : producer ≠ [] := by
      rintro rfl
      cases root.symm.trans result.1.2
    have reached : ∀ node ∈ Rose.ancestors producer, ev.IsLastOp producer ∧
        ∃ last, ev.IsLastLeaf last ∧ node ∈ Rose.ancestors last := fun node above =>
      (output_tensors_of_result init leaves result above).mp (kept producer tensor result node above)
    obtain ⟨last_op, last, is_last, -⟩ := reached [] (nil_mem_ancestors inner)
    refine ⟨last_op, last, is_last, fun node above => ?_⟩
    obtain ⟨-, other, is_other, under⟩ := reached node above
    cases is_last.symm.trans is_other
    exact under
  · intro condition producer tensor result node above
    obtain ⟨last_op, last, is_last, under⟩ := condition producer tensor result
    exact (output_tensors_of_result init leaves result above).mpr
      ⟨last_op, last, is_last, under above⟩

def forked : Evaluator :=
  Config.evaluator
    (Config.workloads [("first", ⟨["A"], "B"⟩), ("second", ⟨["A"], "C"⟩)] [("M", 4)]
      [("A", ["M"]), ("B", ["M"]), ("C", ["M"])]) 1 []
    (Config.tile .Temporal "Main" [Config.loop "M" 4 4]
      [Config.op "Cube" "first" [Config.loop "M" 1 1],
        Config.op "Cube" "second" [Config.loop "M" 1 1]])

theorem isOp_forked {node : NodePtr} (op : forked.IsOp node) : node = [0] ∨ node = [1] := by
  obtain ⟨member, kind⟩ := isOp_iff.mp op
  have positions : Rose.postorder [] forked.root_ = [[0], [1], []] := by decide +kernel
  rw [positions] at member
  rcases List.mem_cons.mp member with rfl | member
  · exact Or.inl rfl
  · rcases List.mem_cons.mp member with rfl | member
    · exact Or.inr rfl
    · cases List.mem_singleton.mp member
      revert kind
      decide

theorem finalResult_forked : forked.FinalResult [0] "B" := by
  refine ⟨⟨by decide +kernel, by decide +kernel⟩, ⟨⟨["A"], "B"⟩, by rfl, rfl⟩, ?_⟩
  rintro consumer op ⟨workload, call, used⟩
  rcases isOp_forked op with rfl | rfl
  · have read : forked.opWorkload [0] = .ok ⟨["A"], "B"⟩ := by rfl
    cases read.symm.trans call
    simp at used
  · have read : forked.opWorkload [1] = .ok ⟨["A"], "C"⟩ := by rfl
    cases read.symm.trans call
    simp at used

theorem forked_loses_result :
    ∃ tree' leaf_vec_, InitAnalysis.run forked (EvaTree.fresh forked) = .ok (tree', leaf_vec_) ∧
      ¬ KeepsResults forked tree'.toEvaTensors := by
  have lost : ((InitAnalysis.run forked (EvaTree.fresh forked)).toOption.map fun result =>
      result.1.output_tensors_ [] |>.keys) = some ["C"] := by
    decide +kernel
  cases run : InitAnalysis.run forked (EvaTree.fresh forked) with
  | error fault => rw [run] at lost; cases lost
  | ok result =>
    refine ⟨result.1, result.2, rfl, fun kept => ?_⟩
    have reached := AList.mem_keys.mp (kept [0] "B" finalResult_forked [] (by decide))
    rw [run] at lost
    have keys : (result.1.output_tensors_ []).keys = ["C"] := Option.some_inj.mp lost
    rw [keys] at reached
    simp at reached

theorem keeps_results_iff_forked :
    ∃ tree' leaf_vec_, InitAnalysis.run forked (EvaTree.fresh forked) = .ok (tree', leaf_vec_) ∧
      (KeepsResults forked tree'.toEvaTensors ↔
        ∀ producer tensor, forked.FinalResult producer tensor → forked.IsLastOp producer ∧
          ∃ last, forked.IsLastLeaf last ∧ Rose.ancestors producer ⊆ Rose.ancestors last) := by
  have completed : (InitAnalysis.run forked (EvaTree.fresh forked)).isOk = true := by
    decide +kernel
  obtain ⟨⟨tree', leaf_vec_⟩, run⟩ := Checked.exists_of_isOk completed
  exact ⟨tree', leaf_vec_, run,
    keeps_results_iff (by decide) (by decide +kernel) ⟨fun _ => rfl, fun _ => rfl⟩ run⟩

end InitAnalysis

end TileExp.Analysis
