import Latias.Analysis.GetLoopCount
import Latias.Analysis.InitAnalysis
import Latias.Analysis.PerfLatency
import Latias.Library.Checked
import Latias.Library.RoseTree

/-! What does not depend on the links: the passes before `PerfAnalysis`, and which links a node uses. -/

namespace TileExp.Analysis

open Checked

def Evaluator.withLinks (ev : Evaluator) (intercon_ : InterCon) : Evaluator :=
  { ev with intercon_ }

variable {σ : Type} {ev : Evaluator} {intercon_ : InterCon} {node : NodePtr}

theorem traverse_withLinks (before after : Node → NodePtr → σ → Exec σ) (sub : Node) :
    traverse (ev.withLinks intercon_) before after sub = traverse ev before after sub := by
  induction sub using Rose.children_induction with
  | step info cs ih =>
    have children : ∀ i, traverseChildren (ev.withLinks intercon_) before after i cs =
        traverseChildren ev before after i cs := by
      induction cs with
      | nil => exact fun i => rfl
      | cons c cs rest =>
        intro i
        have first := ih c List.mem_cons_self
        have others := rest (fun d member => ih d (List.mem_cons_of_mem c member)) (i + 1)
        rw [traverseChildren, traverseChildren, first, others]
        rfl
    rw [traverse, traverse, children]

theorem bfsOffsetLoop_withLinks (offsets : EvaOffsets) (dim_name : String) (fuel : Nat)
    (q : List NodePtr) : bfsOffsetLoop (ev.withLinks intercon_) offsets dim_name fuel q =
      bfsOffsetLoop ev offsets dim_name fuel q := by
  induction fuel generalizing q with
  | zero => rfl
  | succ fuel ih =>
    cases q with
    | nil => rfl
    | cons curr q =>
      rw [bfsOffsetLoop, bfsOffsetLoop, ih]
      rfl

theorem BFSOffsetLoop_withLinks (offsets : EvaOffsets) (node : NodePtr) (dim_name : String) :
    BFSOffsetLoop (ev.withLinks intercon_) offsets node dim_name =
      BFSOffsetLoop ev offsets node dim_name :=
  bfsOffsetLoop_withLinks offsets dim_name _ [node]

theorem GetLoopCount.run_withLinks (ev : Evaluator) (intercon_ : InterCon) (tree : EvaTree) :
    GetLoopCount.run (ev.withLinks intercon_) tree = GetLoopCount.run ev tree := by
  unfold GetLoopCount.run
  rw [traverse_withLinks]
  rfl

namespace InitAnalysis

theorem setOffset_withLinks (current_node_ : NodePtr) (s : InitState) (tmp_loop : Descriptor) :
    setOffset (ev.withLinks intercon_) current_node_ s tmp_loop =
      setOffset ev current_node_ s tmp_loop := by
  have first (children : List NodePtr) :
      firstChildOffset (ev.withLinks intercon_) s.toEvaOffsets tmp_loop.name_ children =
        firstChildOffset ev s.toEvaOffsets tmp_loop.name_ children := by
    induction children with
    | nil => rfl
    | cons eva_child rest ih => rw [firstChildOffset, firstChildOffset, BFSOffsetLoop_withLinks, ih]
  unfold setOffset
  rw [first]
  rfl

theorem getOffset_withLinks (ev : Evaluator) (intercon_ : InterCon) :
    getOffset (ev.withLinks intercon_) = getOffset ev := by
  funext node current_node_ s
  have each : setOffset (ev.withLinks intercon_) current_node_ = setOffset ev current_node_ :=
    funext₂ (setOffset_withLinks current_node_)
  unfold getOffset
  rw [each]

theorem scanTarget_withLinks (source : NodePtr) (j : Nat) (target_path : List NodePtr) :
    scanTarget (ev.withLinks intercon_) source j target_path = scanTarget ev source j target_path := by
  induction target_path generalizing j with
  | nil => rfl
  | cons target rest ih =>
    rw [scanTarget, scanTarget, ih]
    rfl

theorem scanSource_withLinks (target_path source_path : List NodePtr) (i j : Nat) :
    scanSource (ev.withLinks intercon_) target_path i j source_path =
      scanSource ev target_path i j source_path := by
  induction source_path generalizing i j with
  | nil => rfl
  | cons source rest ih =>
    rw [scanSource, scanSource, scanTarget_withLinks]
    simp only [ih]
    rfl

theorem findCommonNode_withLinks (leaf_vec_ : List NodePtr) (source target : NodePtr) :
    findCommonNode (ev.withLinks intercon_) leaf_vec_ source target =
      findCommonNode ev leaf_vec_ source target := by
  unfold findCommonNode
  simp only [scanSource_withLinks]

theorem initTensors_withLinks (dimName : Table (List String)) (current_node_ : NodePtr)
    (tensors : List String) (s : InitState) :
    initTensors (ev.withLinks intercon_) dimName current_node_ tensors s =
      initTensors ev dimName current_node_ tensors s := by
  induction tensors generalizing s with
  | nil => rfl
  | cons tensor rest ih =>
    cases rest with
    | nil => rfl
    | cons next_tensor rest =>
      rw [initTensors, initTensors, initInputTensor, initInputTensor]
      · simp only [findCommonNode_withLinks, ih]
      · simp
      · simp

theorem initTensor_withLinks (ev : Evaluator) (intercon_ : InterCon) :
    initTensor (ev.withLinks intercon_) = initTensor ev := by
  funext node current_node_ s
  unfold initTensor
  simp only [initTensors_withLinks]
  rfl

theorem run_withLinks (ev : Evaluator) (intercon_ : InterCon) (tree : EvaTree) :
    InitAnalysis.run (ev.withLinks intercon_) tree = InitAnalysis.run ev tree := by
  unfold InitAnalysis.run passes
  simp only [traverse_withLinks, getOffset_withLinks, initTensor_withLinks]
  rfl

end InitAnalysis

/-! Which links a node uses does not depend on them. -/

theorem climbToTile_withLinks (node : NodePtr) :
    climbToTile (ev.withLinks intercon_) node = climbToTile ev node := by
  induction node with
  | nil => rfl
  | cons i parent ih =>
    rw [climbToTile, climbToTile, ih]
    rfl

theorem climbToTrans_withLinks (node : NodePtr) :
    climbToTrans (ev.withLinks intercon_) node = climbToTrans ev node := by
  induction node with
  | nil => rfl
  | cons i parent ih =>
    rw [climbToTrans, climbToTrans, ih]
    rfl

theorem parentTileLevel_withLinks (node : NodePtr) :
    parentTileLevel (ev.withLinks intercon_) node = parentTileLevel ev node := by
  unfold parentTileLevel
  cases get_parent node with
  | none => rfl
  | some parent =>
    simp only [climbToTile_withLinks]
    rfl

theorem findTarget_withLinks (node : NodePtr) :
    findTarget (ev.withLinks intercon_) node = findTarget ev node := by
  unfold findTarget
  rw [climbToTrans_withLinks, parentTileLevel_withLinks]
  rfl

theorem findSource_withLinks (node : NodePtr) (position : Nat) :
    findSource (ev.withLinks intercon_) node position = findSource ev node position := by
  have tile : tileSource (ev.withLinks intercon_) node = tileSource ev node := by
    unfold tileSource
    rw [parentTileLevel_withLinks]
  unfold findSource
  rw [tile]
  rfl

end TileExp.Analysis
