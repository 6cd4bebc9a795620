import Latias.Analysis.EvaNode
import Latias.Mapping.Nests

/-! The name of an Op's workload inside the name of its node. -/

namespace TileExp.Mapping

open Analysis Checked TileExp.Symbol

variable {g : Globals} {table table' : SymbolTable} {config : NodeConfig} {op : OpNode}

def tagOf (config : NodeConfig) : String := config.tag.lookupValue.getD ""

theorem NodeBase.construct_name {t : NodeType} {node : NodeBase}
    (made : NodeBase.construct g t config = .ok node) :
    node.name_ = if tagOf config ≠ "" then type2name_ t ++ "::" ++ tagOf config else type2name_ t := by
  rw [NodeBase.construct] at made
  obtain ⟨target, _, made⟩ := bind_eq_ok.mp made
  obtain ⟨mode, _, made⟩ := bind_eq_ok.mp made
  cases made
  rfl

theorem nameSub_op (rest : String) : nameSub ("Op::" ++ rest) = rest := by
  have chars : ("Op::" ++ rest).toList = 'O' :: 'p' :: ':' :: ':' :: rest.toList := by
    rw [String.toList_append]
    rfl
  rw [nameSub, chars]
  exact String.ofList_toList

/-- The name of the workload is what is behind the first "::" just when there is no tag. Then
    `InitAnalysis` finds the workload that the constructor found. -/
theorem nameSub_op_name_iff (g : Globals) (table table' : SymbolTable) (config : NodeConfig)
    (op : OpNode) (made : OpNode.construct g table config = .ok (table', op)) :
    (nameSub op.name_ = op.op_name_ ↔ tagOf config = "") ∧
      (tagOf config = "" → g.workloads_.get_workload (nameSub op.name_) = .ok op.p_workload) := by
  obtain ⟨node, _, based, _, name, _, _, _, listed⟩ := OpNode.construct_eq_ok made
  have base := NodeBase.construct_name based
  have untagged (none : tagOf config = "") : nameSub op.name_ = op.op_name_ := by
    rw [name, base, if_neg (not_not_intro none)]
    exact nameSub_op op.op_name_
  refine ⟨⟨?_, untagged⟩, fun none => ?_⟩
  · intro same
    by_contra tagged
    have found : nameSub op.name_ = tagOf config ++ "::" ++ op.op_name_ := by
      have assembled : op.name_ = "Op::" ++ (tagOf config ++ "::" ++ op.op_name_) := by
        rw [name, base, if_pos tagged]
        simp only [type2name_, String.append_assoc]
        rfl
      rw [assembled, nameSub_op]
    rw [found] at same
    have lengths := congrArg String.length same
    rw [String.length_append, String.length_append] at lengths
    have colons : "::".length = 2 := rfl
    omega
  · rw [untagged none]
    exact listed

theorem nameSub_op_name_untagged : ∃ table' op,
    OpNode.construct oneLevel .empty
        (oneOp .absent (.scalar "copy") (.scalar "M=4, N=2") .absent) = .ok (table', op) ∧
      nameSub op.name_ = "copy" := by
  have accepted : (OpNode.construct oneLevel .empty
      (oneOp .absent (.scalar "copy") (.scalar "M=4, N=2") .absent)).isOk = true := by rfl
  obtain ⟨⟨table', op⟩, made⟩ := exists_of_isOk accepted
  have named : "copy" = op.op_name_ := by
    obtain ⟨_, _, _, name, _⟩ := OpNode.construct_eq_ok made
    exact Option.some_inj.mp name
  refine ⟨table', op, made, ?_⟩
  rw [named]
  exact (nameSub_op_name_iff oneLevel .empty table' _ op made).1.mpr rfl

theorem nameSub_tagged :
    ((OpNode.construct oneLevel .empty
        (oneOp (.scalar "first") (.scalar "copy") (.scalar "M=4, N=2") .absent)).map fun made =>
          (made.2.op_name_, made.2.name_, nameSub made.2.name_)) =
      .ok ("copy", "Op::first::copy", "first::copy") ∧
    oneLevel.workloads_.get_workload "first::copy" = .error (.assertion "first::copy Not FOUND") :=
  ⟨by rfl, by rfl⟩

end TileExp.Mapping
