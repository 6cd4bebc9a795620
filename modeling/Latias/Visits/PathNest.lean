import Latias.Visits.Local
import Latias.Visits.Refinement
import Latias.Tensors.Outputs

/-! The visits of a node as one loop nest over all the Tiles above it. -/

namespace TileExp.Analysis

open Checked

/-- The loops of the Tiles above a node, the root's first. -/
def Evaluator.tileNests (ev : Evaluator) : NodePtr → List (List Descriptor)
  | [] => []
  | _ :: ptr => ev.tileNests ptr ++ if ev.get_type ptr = .Tile then [ev.loopnests_ ptr] else []

theorem mem_tileNests {ev : Evaluator} {loop : Descriptor} (node : NodePtr) (member : loop ∈ (ev.tileNests node).flatten) :
    ∃ ptr, loop ∈ ev.loopnests_ ptr := by
  induction node with
  | nil => cases member
  | cons i ptr ih =>
    rw [Evaluator.tileNests, List.flatten_append, List.mem_append] at member
    rcases member with above | here
    · exact ih above
    · split at here
      · exact ⟨ptr, by simpa using here⟩
      · cases here

def Evaluator.pathLoops (ev : Evaluator) : NodePtr → List (NodePtr × Descriptor)
  | [] => []
  | _ :: ptr => ev.pathLoops ptr ++
    if ev.get_type ptr = .Tile then (ev.loopnests_ ptr).map (ptr, ·) else []

/-- No Tile above the node has a Scope before the child on the path. -/
def Evaluator.Reached (ev : Evaluator) : NodePtr → Prop
  | [] => True
  | i :: ptr => (ev.get_type ptr = .Tile →
      LoopNest.reachedChild (ev.ori_node_ ptr).children i = true) ∧ ev.Reached ptr

instance Evaluator.decidableReached (ev : Evaluator) : ∀ node, Decidable (ev.Reached node)
  | [] => .isTrue trivial
  | _ :: ptr =>
    have := ev.decidableReached ptr
    inferInstanceAs (Decidable (_ ∧ _))

namespace LoopNest

variable {ev : Evaluator} {ctx : PerfContext} {node : NodePtr} {loops : List LoopState}

theorem mem_childVisits {ptr : NodePtr} {i : Nat} {outer : List LoopState} :
    loops ∈ childVisits ptr (ev.ori_node_ ptr) i outer ↔
      ev.get_type ptr = .Tile ∧ reachedChild (ev.ori_node_ ptr).children i = true ∧
        loops ∈ iterations ptr (ev.loopnests_ ptr) outer ∨
      ev.get_type ptr = .Scope ∧ ev.loopnests_ ptr = [] ∧ loops = outer := by
  rw [childVisits, Evaluator.get_type, Node.get_type, Evaluator.loopnests_, Node.loopnests_]
  cases kind : (ev.ori_node_ ptr).value.kind with
  | Op ops => simp [NodeKind.type_]
  | Trans => simp [NodeKind.type_]
  | Scope type => simp [NodeKind.type_, NodeKind.loopnests_]
  | Tile type dims => by_cases reached : reachedChild (ev.ori_node_ ptr).children i <;>
      simp [NodeKind.type_, NodeKind.loopnests_, reached]

def nest : List (NodePtr × Descriptor) → List LoopState → List (List LoopState)
  | [], loops => [loops]
  | (node, loop) :: rest, loops =>
    (List.range (loopEnd node loop loops - loop.start).toNat).flatMap fun i =>
      nest rest (loopState node loop (loopEnd node loop loops) i :: loops)

theorem nest_append (a b : List (NodePtr × Descriptor)) (loops : List LoopState) :
    nest (a ++ b) loops = (nest a loops).flatMap (nest b) := by
  induction a generalizing loops with
  | nil => simp [nest]
  | cons head a ih =>
    obtain ⟨node, loop⟩ := head
    simp only [List.cons_append, nest, List.flatMap_assoc, ih]

theorem iterations_eq_nest (dims : List Descriptor) (loops : List LoopState) :
    iterations node dims loops = nest (dims.map (node, ·)) loops := by
  induction dims generalizing loops with
  | nil => rfl
  | cons loop dims ih => simp only [iterations, List.map_cons, nest, ih]

theorem map_snd_pathLoops (node : NodePtr) :
    (ev.pathLoops node).map Prod.snd = (ev.tileNests node).flatten := by
  induction node with
  | nil => rfl
  | cons i ptr ih =>
    rw [Evaluator.pathLoops, Evaluator.tileNests, List.map_append, List.flatten_append, ih]
    split <;> simp [Function.comp_def]

theorem visits_eq_nest (leaves : ev.LeafOps) (node : NodePtr)
    (found : (ev.root_.get? node).isSome) (reached : ev.Reached node) :
    visits ev node = nest (ev.pathLoops node) [] := by
  induction node with
  | nil => rfl
  | cons i ptr ih =>
    have above := Evaluator.isSome_get?_parent found
    have inner : InitAnalysis.isLeaf ev ptr = false :=
      InitAnalysis.not_isLeaf_of_ancestor leaves found List.mem_cons_self
    rw [visits, Evaluator.pathLoops, nest_append,
      ih above reached.2]
    refine congrArg (List.flatMap · _) (funext fun loops => ?_)
    have kind_eq : ev.get_type ptr = (ev.ori_node_ ptr).value.kind.type_ := rfl
    rw [childVisits]
    cases kind : (ev.ori_node_ ptr).value.kind with
    | Op ops => simp [InitAnalysis.isLeaf, kind_eq, kind, NodeKind.type_] at inner
    | Trans => simp [InitAnalysis.isLeaf, kind_eq, kind, NodeKind.type_] at inner
    | Scope type => simp [kind_eq, kind, NodeKind.type_, nest]
    | Tile type dims =>
      have tile : ev.get_type ptr = .Tile := by rw [kind_eq, kind]; rfl
      have dims_eq : ev.loopnests_ ptr = dims := by
        rw [Evaluator.loopnests_, Node.loopnests_, kind]
        rfl
      simp only
      rw [if_pos (reached.1 tile), if_pos tile, iterations_eq_nest, dims_eq]

/-- A completed run from idle stacks takes the steps of the root's skeleton. -/
theorem run_marks {tree : EvaTree} {leaf_vec_ : List NodePtr} {s : PerfState}
    (idle : tree.Idle ev) (run : PerfAnalysis.run ev tree leaf_vec_ = .ok s) :
    marks s.tally = skeleton [] ev.root_ [] := by
  rw [PerfAnalysis.run_eq idle] at run
  obtain ⟨t, visited, result⟩ := bind_eq_ok.mp run
  cases result
  exact (visit_marks [] ev.root_ rfl [] _ t visited).1

end LoopNest

end TileExp.Analysis
