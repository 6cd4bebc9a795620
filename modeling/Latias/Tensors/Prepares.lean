import Latias.Analysis.Config
import Latias.Counts.Accepts
import Latias.Offsets.Total
import Latias.Problem.Names
import Latias.Tensors.Inputs

/-! Which mapping trees the passes before `PerfAnalysis` accept. -/

namespace TileExp.Analysis

open Checked

theorem Evaluator.prepare_offsets {ev : Evaluator} {tree : EvaTree} {leaf_vec_ : List NodePtr}
    (ready : ev.prepare = .ok (tree, leaf_vec_)) :
    InitAnalysis.OffsetsInit ev tree.toEvaOffsets := by
  rw [Evaluator.prepare, Evaluator.reset_fresh] at ready
  obtain ⟨counted, count, init⟩ := bind_eq_ok.mp ready
  obtain ⟨_, inherits⟩ := GetLoopCount.run_eq_ok (fun _ => rfl) count
  refine InitAnalysis.run_offsets ?_ init
  rw [inherits]
  exact fun _ _ some => by cases some

namespace Evaluator

variable (ev : Evaluator)

def leaves : List NodePtr := (Rose.postorder [] ev.root_).filter (InitAnalysis.isLeaf ev)

/-- The parent of the producer is no Scope and above the consumer, which is the next leaf. -/
def Beside (leaf_vec_ : List NodePtr) (producer consumer : NodePtr) : Prop :=
  (leaf_vec_.idxOf consumer : Int) - leaf_vec_.idxOf producer = 1 ∧
    ∃ parent, get_parent producer = some parent ∧ ev.get_type parent ≠ .Scope ∧
      parent ∈ Rose.ancestors consumer

/-- What the passes before `PerfAnalysis` check. -/
structure Preparable : Prop where
  accepted : ev.Accepted
  ordered : ev.OrderedTails
  looped : InitAnalysis.LoopedBelow ev
  workloads : ∀ op, ev.IsOp op → ∃ workload, ev.opWorkload op = .ok workload ∧
    ∀ tensor ∈ workload.ins_ ++ [workload.out_],
      ∃ dims, Workloads.dimNamesOf ev.workloads_.common_shape_ tensor = .ok dims
  producers : ∀ op op' tensor, ev.IsOp op → ev.IsOp op' → ev.Produces op tensor →
    ev.Produces op' tensor → op = op'
  apart : ∀ producer consumer tensor, ev.IsOp producer → ev.IsOp consumer →
    ev.Produces producer tensor → ev.Consumes consumer tensor →
      ¬ ev.Beside ev.leaves producer consumer

end Evaluator

namespace InitAnalysis

variable {ev : Evaluator} {s s' start : InitState} {node producer consumer : NodePtr} {tensor : String}

theorem initOpTensor_total {sub : Node} {workload : Workload} (op : ev.get_type node = .Op)
    (call : ev.opWorkload node = .ok workload)
    (known : ∀ tensor ∈ workload.ins_ ++ [workload.out_],
      ∃ dims, Workloads.dimNamesOf ev.workloads_.common_shape_ tensor = .ok dims)
    (absent : s.producer_map_.lookup workload.out_ = none) :
    ∃ s', initOpTensor ev sub node s = .ok s' := by
  obtain ⟨dimName, dims⟩ := Problem.exists_getDimName known
  have names : ev.workloads_.getInOutTensor (nameSub (ev.ori_node_ node).get_name) =
      .ok (workload.ins_ ++ [workload.out_]) := by
    have read : ev.workloads_.get_workload (nameSub (ev.ori_node_ node).get_name) = .ok workload := call
    rw [Workloads.getInOutTensor, read, ok_bind]
  obtain ⟨mid, folded, rest, _, _⟩ := @foldl_inputs ev node dimName workload.ins_
    (fun t member => getDimName_eq_ok dims (List.mem_append_left _ member))
    { s with op_num_ := s.op_num_ + 1, leaf_vec_ := s.leaf_vec_ ++ [node] }
  have free : (mid.producer_map_.lookup workload.out_).isNone = true := by
    rw [rest.producer_map_]
    exact Option.isNone_iff_eq_none.mpr absent
  rw [initOpTensor, op]
  simp only [names, dims, ok_bind]
  rw [initOpTensors_concat, folded, initOpTensors, tileexpAssert]
  simp only [add_output_tensors, free, if_true, ok_bind]
  exact ⟨_, rfl⟩

theorem findCommonNode_completes_iff {leaf_vec_ : List NodePtr} (root : ev.get_type [] = .Tile)
    (below : producer ≠ []) (inner : consumer ≠ []) :
    (∃ paths, findCommonNode ev leaf_vec_ producer consumer = .ok paths) ↔
      ¬ ev.Beside leaf_vec_ producer consumer := by
  obtain ⟨before, common, scan, lowest, split, missed⟩ := scanSource_lowest root below inner
  have cut : before.length = 0 ↔ ∃ parent, get_parent producer = some parent ∧
      ev.get_type parent ≠ .Scope ∧ parent ∈ Rose.ancestors consumer := by
    cases producer with
    | nil => exact absurd rfl below
    | cons i parent =>
      have first : parent :: Rose.ancestors parent = before ++ common :: Rose.ancestors common := split
      constructor
      · intro none
        rw [List.length_eq_zero_iff.mp none] at first
        obtain rfl := (List.cons.inj first).1
        exact ⟨parent, rfl, lowest.plain, lowest.above_consumer⟩
      · rintro ⟨_, same, plain, shared⟩
        cases same
        have under := lowest.deepest parent List.mem_cons_self shared plain
        cases before with
        | nil => rfl
        | cons other before =>
          obtain rfl := (List.cons.inj first).1
          exact absurd under (missed parent List.mem_cons_self)
  simp only [findCommonNode, scan, Evaluator.Beside, ← cut]
  by_cases next : (leaf_vec_.idxOf consumer : Int) - leaf_vec_.idxOf producer = 1
  · by_cases none : before.length = 0
    · simp [next, none]
    · simp only [next, none, if_true, if_false, and_false, not_false_eq_true, iff_true]
      exact ⟨_, rfl⟩
  · simp only [next, if_false, false_and, not_false_eq_true, iff_true]
    exact ⟨_, rfl⟩

theorem initTensor_total {sub : Node} {workload : Workload} (op : ev.get_type node = .Op)
    (call : ev.opWorkload node = .ok workload)
    (known : ∀ tensor ∈ workload.ins_ ++ [workload.out_],
      ∃ dims, Workloads.dimNamesOf ev.workloads_.common_shape_ tensor = .ok dims)
    (found : ∀ name ∈ workload.ins_, ∀ producer, s.producer_map_.lookup name = some producer →
      ∃ paths, findCommonNode ev s.leaf_vec_ producer.2 node = .ok paths)
    (leaf : s.leaf_vec_ ≠ []) : ∃ s', initTensor ev sub node s = .ok s' := by
  obtain ⟨dimName, dims⟩ := Problem.exists_getDimName known
  have names : ev.workloads_.getInOutTensor (nameSub (ev.ori_node_ node).get_name) =
      .ok (workload.ins_ ++ [workload.out_]) := by
    have read : ev.workloads_.get_workload (nameSub (ev.ori_node_ node).get_name) = .ok workload := call
    rw [Workloads.getInOutTensor, read, ok_bind]
  have inputs := @foldlM_total _ _ _ (fun s t =>
      initInputTensor ev ⟨t, (dimName.lookup t).getD [], ∅⟩ node s) workload.ins_
    (SameRest { s with op_num_ := s.op_num_ - 1 }) { s with op_num_ := s.op_num_ - 1 }
    (SameRest.refl _) ?_
  · obtain ⟨mid, first, rest⟩ := inputs
    rw [initTensor, if_pos op]
    simp only [names, dims, ok_bind]
    rw [initTensors_concat, first, ok_bind, initOutputTensor]
    split
    · have last : mid.leaf_vec_.getLast? = some (s.leaf_vec_.getLast leaf) := by
        rw [rest.leaf_vec_]
        exact List.getLast?_eq_some_getLast leaf
      rw [last]
      exact ⟨_, rfl⟩
    · exact ⟨mid, rfl⟩
  · intro name member mid rest
    have dim := @getDimName_eq_ok ev name _ _ dims (List.mem_append_left _ member)
    have completes : ∃ after, initInputTensor ev (ev.blankMap name) node mid = .ok after := by
      rw [initInputTensor]
      cases present : mid.producer_map_.lookup (ev.blankMap name).tensor_name_ with
      | none => exact ⟨_, rfl⟩
      | some producer =>
        rw [rest.producer_map_] at present
        obtain ⟨paths, common⟩ := found name member producer present
        have same : mid.leaf_vec_ = s.leaf_vec_ := rest.leaf_vec_
        simp only [same, common, ok_bind]
        exact ⟨_, rfl⟩
    obtain ⟨after, step⟩ := completes
    rw [dim]
    exact ⟨after, step, rest.trans (initInputTensor_eq_ok step).rest⟩

theorem registers (preparable : ev.Preparable) (inputs : ∀ node, start.input_tensors_ node = ∅)
    (outputs : ∀ node, start.output_tensors_ node = ∅) (producers : start.producer_map_ = ∅) :
    ∃ s, (Rose.postorder [] ev.root_).foldlM
        (fun s ptr => initOpTensor ev (ev.ori_node_ ptr) ptr s) start = .ok s ∧
      Registered ev start (Rose.postorder [] ev.root_) s := by
  refine foldlM_completes (fun done s => Registered ev start done s) ?_ ?_
  · refine ⟨rfl, by simp, by simp, ?_, ?_, ?_⟩
    · simp [producers]
    · simp [inputs]
    · simp [outputs]
  · intro done node rest s split before
    cases kind : ev.get_type node with
    | Op =>
      have order := Rose.postorder_pairwise [] ev.root_
      rw [split, List.pairwise_append] at order
      have op (ptr : NodePtr) (member : ptr ∈ done ++ node :: rest) (kind : ev.get_type ptr = .Op) :
          ev.IsOp ptr := isOp_iff.mpr ⟨split ▸ member, kind⟩
      have here := op node (List.mem_append_right done List.mem_cons_self) kind
      obtain ⟨workload, call, known⟩ := preparable.workloads node here
      have absent : s.producer_map_.lookup workload.out_ = none := by
        cases present : s.producer_map_.lookup workload.out_ with
        | none => rfl
        | some producer =>
          obtain ⟨earlier, other, made, _⟩ := (before.producers _ producer.1 producer.2).mp present
          have same := preparable.producers producer.2 node workload.out_
            (op producer.2 (List.mem_append_left _ earlier) other) here made ⟨workload, call, rfl⟩
          exact absurd (same ▸ List.suffix_rfl)
            (order.2.2 producer.2 earlier node List.mem_cons_self)
      obtain ⟨s', step⟩ := @initOpTensor_total ev s node (ev.ori_node_ node) workload kind call known
        absent
      obtain ⟨workload', made⟩ := initOpTensor_op kind step
      exact ⟨s', step, before.op kind made⟩
    | Trans =>
      refine ⟨{ s with leaf_vec_ := s.leaf_vec_ ++ [node] }, by rw [initOpTensor, kind], ?_⟩
      exact before.other (by simp [kind]) rfl rfl rfl rfl (by simp [isLeaf, kind])
    | Tile =>
      refine ⟨s, by rw [initOpTensor, kind], ?_⟩
      exact before.other (by simp [kind]) rfl rfl rfl rfl (by simp [isLeaf, kind])
    | Scope =>
      refine ⟨s, by rw [initOpTensor, kind], ?_⟩
      exact before.other (by simp [kind]) rfl rfl rfl rfl (by simp [isLeaf, kind])

theorem tags (preparable : ev.Preparable) (leaves : start.leaf_vec_ = ev.leaves)
    (producers : ∀ tensor m node, start.producer_map_.lookup tensor = some (m, node) →
      ev.IsOp node ∧ ev.Produces node tensor) :
    ∃ s, (Rose.postorder [] ev.root_).foldlM
      (fun s ptr => initTensor ev (ev.ori_node_ ptr) ptr s) start = .ok s := by
  have root := preparable.accepted.root
  have completes := @foldlM_completes _ _ _
    (fun s ptr => initTensor ev (ev.ori_node_ ptr) ptr s) (Rose.postorder [] ev.root_) start
    (fun done s => Tagged ev start done s) ?_ ?_
  · exact completes.imp fun s both => both.1
  · refine ⟨rfl, rfl, rfl, by simp [opCount], by simp, ?_, ?_, by simp, id, id⟩
    · simp
    · simp
  · intro done node rest s split before
    have member : node ∈ Rose.postorder [] ev.root_ :=
      split ▸ List.mem_append_right done List.mem_cons_self
    by_cases kind : ev.get_type node = .Op
    · have here : ev.IsOp node := isOp_iff.mpr ⟨member, kind⟩
      obtain ⟨workload, call, known⟩ := preparable.workloads node here
      have found : ∀ name ∈ workload.ins_, ∀ producer,
          s.producer_map_.lookup name = some producer →
            ∃ paths, findCommonNode ev s.leaf_vec_ producer.2 node = .ok paths := by
        intro name used producer present
        rw [before.producer_map_] at present
        rw [before.leaf_vec_, leaves]
        obtain ⟨op, made⟩ := producers name producer.1 producer.2 present
        exact (findCommonNode_completes_iff root (ne_nil_of_op root op) (ne_nil_of_op root here)).mpr
          (preparable.apart producer.2 node name op here made ⟨workload, call, used⟩)
      have leaf : s.leaf_vec_ ≠ [] := by
        rw [before.leaf_vec_, leaves]
        exact List.ne_nil_of_mem (List.mem_filter.mpr ⟨member, by simp [isLeaf, kind]⟩)
      obtain ⟨s', step⟩ := @initTensor_total ev s node (ev.ori_node_ node) workload kind call known
        found leaf
      obtain ⟨workload', made⟩ := initTensor_op kind step
      exact ⟨s', step, before.op kind made⟩
    · exact ⟨s, if_neg kind, before.inner kind⟩

theorem workload_of_run {s₁ s₂ : InitState} {op : NodePtr}
    (run : (Rose.postorder [] ev.root_).foldlM
      (fun s ptr => initOpTensor ev (ev.ori_node_ ptr) ptr s) s₁ = .ok s₂) (here : ev.IsOp op) :
    ∃ workload, ev.opWorkload op = .ok workload ∧ ∀ tensor ∈ workload.ins_ ++ [workload.out_],
      ∃ dims, Workloads.dimNamesOf ev.workloads_.common_shape_ tensor = .ok dims := by
  obtain ⟨done, rest, split⟩ := List.append_of_mem (isOp_iff.mp here).1
  rw [split, List.foldlM_append] at run
  obtain ⟨before, _, later⟩ := bind_eq_ok.mp run
  rw [List.foldlM_cons] at later
  obtain ⟨after, step, _⟩ := bind_eq_ok.mp later
  rw [initOpTensor, here.2] at step
  obtain ⟨names, read, step⟩ := bind_eq_ok.mp step
  obtain ⟨dimName, dims, _⟩ := bind_eq_ok.mp step
  obtain ⟨workload, call, rfl⟩ := getInOutTensor_eq_ok read
  refine ⟨workload, call, fun tensor member => ?_⟩
  obtain ⟨own, _, computed⟩ := getDimName_reads dims member
  exact ⟨own, computed⟩

end InitAnalysis

variable {ev : Evaluator}

theorem Evaluator.preparable_of_prepare {tree : EvaTree} {leaf_vec_ : List NodePtr}
    (ready : ev.prepare = .ok (tree, leaf_vec_)) : ev.Preparable := by
  have looped := (Evaluator.prepare_offsets ready).loopedBelow
  rw [Evaluator.prepare, Evaluator.reset_fresh] at ready
  obtain ⟨counted, count, init⟩ := bind_eq_ok.mp ready
  obtain ⟨accepted, ordered⟩ := GetLoopCount.run_completes_iff.mp ⟨counted, count⟩
  obtain ⟨_, inherits⟩ := GetLoopCount.run_eq_ok (fun _ => rfl) count
  have empty : counted.NoTensors := by
    rw [inherits]
    exact ⟨fun _ => rfl, fun _ => rfl⟩
  obtain ⟨producers, tables⟩ := InitAnalysis.run_tensors empty init
  obtain ⟨s₁, s₂, s₃, s₄, _, _, third, _, _, _⟩ := InitAnalysis.run_eq_ok init
  have root := accepted.root
  refine ⟨accepted, ordered, looped, fun op here => InitAnalysis.workload_of_run third here, ?_, ?_⟩
  · intro op op' tensor here here' made made'
    have first := (tables.producer_map_ tensor _ op).mpr ⟨here, made, rfl⟩
    have second := (tables.producer_map_ tensor _ op').mpr ⟨here', made', rfl⟩
    rw [first] at second
    exact congrArg Prod.snd (Option.some.inj second)
  · intro producer consumer tensor here here' made used
    have present := (tables.producer_map_ tensor _ producer).mpr ⟨here, made, rfl⟩
    have found := tables.found consumer tensor _ here' used present
    rw [tables.leaves] at found
    exact (InitAnalysis.findCommonNode_completes_iff root (InitAnalysis.ne_nil_of_op root here)
      (InitAnalysis.ne_nil_of_op root here')).mp found

/-- `GetLoopCount` and `InitAnalysis` accept a mapping if and only if it is well formed, its counts are
    those of the problem, its dimensions are looped over down to the leaves, its tensors are known and
    written once, and no Op reads from the one right before it under the same Tile. -/
theorem prepare_completes_iff (ev : Evaluator) :
    (∃ tree leaf_vec_, ev.prepare = .ok (tree, leaf_vec_)) ↔ ev.Preparable := by
  constructor
  · rintro ⟨tree, leaf_vec_, ready⟩
    exact Evaluator.preparable_of_prepare ready
  · intro preparable
    obtain ⟨counted, count⟩ := GetLoopCount.run_completes_iff.mpr
      ⟨preparable.accepted, preparable.ordered⟩
    obtain ⟨_, inherits⟩ := GetLoopCount.run_eq_ok (fun _ => rfl) count
    have own : InitAnalysis.OwnDims ev (InitAnalysis.initial counted).toEvaOffsets := by
      rw [inherits]
      exact fun _ _ some => by cases some
    obtain ⟨s₁, s₂, first, second⟩ := InitAnalysis.offsetPasses_total preparable.looped own
    have kept := InitAnalysis.offsetPasses_sameTensors first second
    obtain ⟨s₃, third, registered⟩ := @InitAnalysis.registers ev s₂ preparable
      (by rw [kept.tensors, inherits]; exact fun _ => rfl)
      (by rw [kept.tensors, inherits]; exact fun _ => rfl) kept.producer_map_
    have leaves : s₃.leaf_vec_ = ev.leaves := by
      rw [registered.leaf_vec_, kept.leaf_vec_]
      rfl
    obtain ⟨s₄, fourth⟩ := @InitAnalysis.tags ev s₃ preparable leaves fun tensor m node present => by
      obtain ⟨member, kind, made, _⟩ := (registered.producers tensor m node).mp present
      exact ⟨InitAnalysis.isOp_iff.mpr ⟨member, kind⟩, made⟩
    refine ⟨{ counted with toEvaTensors := s₄.toEvaTensors, toEvaOffsets := s₄.toEvaOffsets },
      s₄.leaf_vec_, ?_⟩
    rw [Evaluator.prepare, Evaluator.reset_fresh, count, ok_bind, InitAnalysis.run_eq, first, ok_bind,
      second, ok_bind, third, ok_bind, fourth, ok_bind]

def chained (subtree : List Node → List Node) : Evaluator :=
  Config.evaluator
    (Config.workloads [("first", ⟨["A"], "B"⟩), ("second", ⟨["B"], "C"⟩)] [("M", 4)]
      [("A", ["M"]), ("B", ["M"]), ("C", ["M"])]) 1 []
    (Config.tile .Temporal "Main" [Config.loop "M" 1 1]
      (subtree [Config.op "Cube" "first" [Config.loop "M" 4 4],
        Config.op "Cube" "second" [Config.loop "M" 4 4]]))

example : (chained id).prepare.isOk = false ∧
    (chained fun ops => [Config.scope .Sequential ops]).prepare.isOk = true :=
  ⟨by decide +kernel, by decide +kernel⟩

end TileExp.Analysis
