import Latias.Counts.OpVisits
import Latias.Visits.Rows

/-! Which Ops a run pays for. -/

namespace TileExp.Analysis

open Checked LoopNest

variable {ev : Evaluator} {state : EvalState} {tree : EvaTree} {t : Tally} {op node : NodePtr}

def Evaluator.nearestTile (ev : Evaluator) : NodePtr → NodePtr
  | [] => []
  | _ :: ptr => if ev.get_type ptr = .Tile then ptr else ev.nearestTile ptr

/-- The Op is visited, and every row of its Tile has the entry made from it. -/
structure Costed (ev : Evaluator) (op : NodePtr) (log : List Event) : Prop where
  visited : 0 < opVisits op log
  entries : ∀ row, Event.row (ev.nearestTile op) row ∈ log → ev.opLatency op ∈ row

/-- The parent is a Tile without Scopes, or a Scope whose own parent is a Tile. -/
def Evaluator.InRow (ev : Evaluator) : NodePtr → Prop
  | [] => False
  | _ :: ptr =>
    if ev.get_type ptr = .Tile then ∀ c ∈ (ev.ori_node_ ptr).children, Node.get_type c ≠ .Scope
    else ∃ i tile, ptr = i :: tile ∧ ev.get_type tile = .Tile

theorem reached_of_visits (node : NodePtr) (visited : visits ev node ≠ []) : ev.Reached node := by
  induction node with
  | nil => trivial
  | cons i ptr ih =>
    rw [visits, ne_eq, List.flatMap_eq_nil_iff, not_forall₂] at visited
    obtain ⟨loops, member, inside⟩ := visited
    refine ⟨fun tile => ?_, ih (List.ne_nil_of_mem member)⟩
    by_contra missed
    have kind_eq : ev.get_type ptr = (ev.ori_node_ ptr).value.kind.type_ := rfl
    apply inside
    rw [childVisits]
    cases kind : (ev.ori_node_ ptr).value.kind with
    | Tile type dims => exact if_neg missed
    | Op ops => rfl
    | Trans => rfl
    | Scope type =>
      rw [kind_eq, kind] at tile
      cases tile

theorem visits_pos_iff (leaves : ev.LeafOps) (found : (ev.root_.get? node).isSome)
    (parsed : ∀ loop ∈ (ev.tileNests node).flatten, Parsed loop) :
    0 < (visits ev node).length ↔ ev.Reached node ∧
      ∀ dim_name, TailLoop.Runs dim_name ((ev.pathLoops node).map pathTail) true := by
  have entries : ∀ entry ∈ ev.pathLoops node, Parsed entry.2 := fun entry member =>
    parsed entry.2 (map_snd_pathLoops node ▸ List.mem_map_of_mem member)
  have runs : ev.Reached node → (0 < (visits ev node).length ↔
      ∀ dim_name, TailLoop.Runs dim_name ((ev.pathLoops node).map pathTail) true) := by
    intro reached
    rw [visits_eq_nest leaves node found reached, length_nest _ entries, TailLoop.count_pos_iff]
    rfl
  constructor
  · intro visited
    have reached := reached_of_visits node (List.ne_nil_of_length_pos visited)
    exact ⟨reached, (runs reached).mp visited⟩
  · exact fun ⟨reached, all⟩ => (runs reached).mpr all

theorem row_of_visits (root : ev.get_type [] = .Tile) (node : NodePtr) (inner : node ≠ [])
    (found : (ev.root_.get? node).isSome) (visited : visits ev node ≠ []) :
    ∃ origins, Mark.row (ev.nearestTile node) origins ∈ skeleton [] ev.root_ [] := by
  induction node with
  | nil => exact absurd rfl inner
  | cons i ptr ih =>
    have above := Evaluator.isSome_get?_parent found
    rw [visits, ne_eq, List.flatMap_eq_nil_iff, not_forall₂] at visited
    obtain ⟨loops, member, inside⟩ := visited
    rw [Evaluator.nearestTile]
    by_cases tile : ev.get_type ptr = .Tile
    · rw [if_pos tile]
      obtain ⟨⟨info, cs⟩, found⟩ := Option.isSome_iff_exists.mp above
      have value : ev.ori_node_ ptr = .mk info cs := Evaluator.ori_node_of_get? found
      have kind_eq : ev.get_type ptr = info.kind.type_ := by
        rw [Evaluator.get_type, value]
        rfl
      refine ⟨tileRow ptr 0 cs [], mem_skeleton_of_visits found member ?_⟩
      rw [value, childVisits] at inside
      rw [skeleton]
      cases kind : info.kind with
      | Tile type dims =>
        simp only [Rose.value_mk, kind] at inside
        split at inside
        · obtain ⟨loops', iteration⟩ := List.exists_mem_of_ne_nil _ inside
          have row : Mark.row ptr (tileRow ptr 0 cs []) ∈ (iterations ptr dims loops).flatMap
              fun loops => firstMarks ptr loops ++
                (tileSkeleton ptr 0 cs loops ++ [.row ptr (tileRow ptr 0 cs [])]) :=
            List.mem_flatMap.mpr ⟨loops', iteration, by simp⟩
          simp only [List.mem_append, List.mem_cons]
          exact Or.inl (Or.inr (Or.inl row))
        · exact absurd rfl inside
      | Op ops => rw [kind_eq, kind] at tile; cases tile
      | Scope type => rw [kind_eq, kind] at tile; cases tile
      | Trans => rw [kind_eq, kind] at tile; cases tile
    · rw [if_neg tile]
      refine ih ?_ above (List.ne_nil_of_mem member)
      rintro rfl
      exact tile root

theorem length_nearestTile (ev : Evaluator) (node : NodePtr) :
    (ev.nearestTile node).length ≤ node.length - 1 := by
  induction node with
  | nil => exact Nat.le_refl 0
  | cons i ptr ih =>
    rw [Evaluator.nearestTile, List.length_cons]
    split
    · omega
    · omega

theorem mem_tileRow_iff (accepted : ev.Accepted) (op_node : ev.IsOp op) (reached : ev.Reached op) :
    op ∈ tileRow (ev.nearestTile op) 0 (ev.ori_node_ (ev.nearestTile op)).children [] ↔
      ev.InRow op := by
  obtain ⟨found, op_kind⟩ := op_node
  cases op with
  | nil => cases accepted.root.symm.trans op_kind
  | cons i ptr =>
    have above := Evaluator.isSome_get?_parent found
    obtain ⟨sub, at_op⟩ := Option.isSome_iff_exists.mp found
    have child : (ev.ori_node_ ptr).children[i]? = some sub := by
      rw [Rose.get?_cons] at at_op
      obtain ⟨parent, at_ptr, child⟩ := Option.bind_eq_some_iff.mp at_op
      rwa [Evaluator.ori_node_of_get? at_ptr]
    have sub_kind : Node.get_type sub = .Op := by
      rw [← Evaluator.ori_node_of_get? at_op]
      exact op_kind
    have inner := InitAnalysis.not_isLeaf_of_ancestor accepted.leaves found List.mem_cons_self
    rw [Evaluator.nearestTile, Evaluator.InRow]
    by_cases tile : ev.get_type ptr = .Tile
    · rw [if_pos tile, if_pos tile]
      constructor
      · intro member c inside scope
        obtain ⟨m, d, place, kind, first⟩ := exists_first_scope _ ⟨c, inside, scope⟩
        rw [tileRow_of_scope _ 0 m [] place kind first, mem_scopeRow] at member
        obtain ⟨j, e, _, _, same⟩ := member
        have lengths := congrArg List.length same
        simp at lengths
      · intro plain
        rw [mem_tileRow_of_plain _ 0 [] plain]
        exact Or.inr ⟨i, (List.getElem?_eq_some_iff.mp child).1, by rw [Nat.zero_add]⟩
    · rw [if_neg tile, if_neg tile]
      cases ptr with
      | nil => exact absurd accepted.root tile
      | cons k tile_ptr =>
        have scope : ev.get_type (k :: tile_ptr) = .Scope := by
          cases kind : ev.get_type (k :: tile_ptr) with
          | Scope => rfl
          | Tile => exact absurd kind tile
          | Op => simp [InitAnalysis.isLeaf, kind] at inner
          | Trans => simp [InitAnalysis.isLeaf, kind] at inner
        rw [Evaluator.nearestTile]
        by_cases outer : ev.get_type tile_ptr = .Tile
        · rw [if_pos outer]
          refine iff_of_true ?_ ⟨k, tile_ptr, rfl, outer⟩
          obtain ⟨holder, at_holder⟩ := Option.isSome_iff_exists.mp above
          have place : (ev.ori_node_ tile_ptr).children[k]? = some holder := by
            rw [Rose.get?_cons] at at_holder
            obtain ⟨parent, at_tile, place⟩ := Option.bind_eq_some_iff.mp at_holder
            rwa [Evaluator.ori_node_of_get? at_tile]
          have value : ev.ori_node_ (k :: tile_ptr) = holder := Evaluator.ori_node_of_get? at_holder
          have kind : Node.get_type holder = .Scope := by
            rw [← value]
            exact scope
          rw [tileRow_of_scope _ 0 k [] place kind (reached.2.1 outer), mem_scopeRow]
          refine ⟨i, sub, ?_, ?_, ?_⟩
          · rwa [← value]
          · rw [sub_kind]
            exact NodeType.noConfusion
          · rw [Nat.zero_add, Nat.zero_add]
        · rw [if_neg outer]
          refine iff_of_false (fun member => ?_) ?_
          · have bound := length_le_of_mem_tileRow member
            have short := length_nearestTile ev tile_ptr
            have inside : tile_ptr ≠ [] := by
              rintro rfl
              exact outer accepted.root
            have positive := List.length_pos_iff.mpr inside
            simp only [List.length_cons] at bound
            omega
          · rintro ⟨j, other, same, kind⟩
            cases same
            exact outer kind

/-- An Op is paid for exactly when no Scope hides it from its Tile and the loops around it run. -/
theorem op_costed_iff (run : ev.evaluate ev.construct = .ok state) (op_node : ev.IsOp op)
    (parsed : ∀ loop ∈ (ev.tileNests op).flatten, Parsed loop) :
    Costed ev op state.log ↔ ev.Reached op ∧ ev.InRow op ∧
      ∀ dim_name, TailLoop.Runs dim_name ((ev.pathLoops op).map pathTail) true := by
  obtain ⟨tree, t, evaluated⟩ := Evaluator.evaluate_eq_ok run
  have accepted := evaluated.accepted
  have counted := opVisits_run evaluated.idle evaluated.perf op_node
  have positive := visits_pos_iff accepted.leaves op_node.1 parsed
  have honest : RowsHonest ev t := by
    refine steps_preserve (fun t t' before step => before.step step) evaluated.steps ?_
    refine ⟨fun node entry member => ?_, fun node row member => by cases member⟩
    rw [PerfAnalysis.initial, evaluated.latencies] at member
    cases member
  have rows : ∀ row, Event.row (ev.nearestTile op) row ∈ t.log → row.map Latency.origin =
      tileRow (ev.nearestTile op) 0 (ev.ori_node_ (ev.nearestTile op)).children [] := by
    intro row member
    have mark : Mark.row (ev.nearestTile op) (row.map Latency.origin) ∈ skeleton [] ev.root_ [] := by
      rw [← evaluated.marks]
      exact List.mem_map_of_mem member
    exact row_mem_skeleton [] ev.root_ rfl [] _ _ mark
  rw [evaluated.log]
  constructor
  · rintro ⟨visited, entries⟩
    rw [counted, positive] at visited
    obtain ⟨reached, runs⟩ := visited
    refine ⟨reached, ?_, runs⟩
    have some := List.ne_nil_of_length_pos (positive.mpr ⟨reached, runs⟩)
    obtain ⟨origins, mark⟩ := row_of_visits accepted.root op
      (InitAnalysis.ne_nil_of_op accepted.root op_node) op_node.1 some
    rw [← evaluated.marks] at mark
    obtain ⟨event, member, same⟩ := List.mem_map.mp mark
    cases event with
    | row eva row =>
      cases same
      rw [← mem_tileRow_iff accepted op_node reached, ← rows row member]
      exact List.mem_map_of_mem (entries row member)
    | enter => cases same
    | charge => cases same
    | opCharge => cases same
    | compute => cases same
    | leave => cases same
  · rintro ⟨reached, in_row, runs⟩
    refine ⟨counted ▸ positive.mpr ⟨reached, runs⟩, fun row member => ?_⟩
    have origin : op ∈ row.map Latency.origin := by
      rw [rows row member]
      exact (mem_tileRow_iff accepted op_node reached).mpr in_row
    obtain ⟨entry, inside, same⟩ := List.mem_map.mp origin
    subst same
    have value := honest.logged _ row member entry inside op_node.2
    rwa [← value]

def hidden : Evaluator :=
  Config.evaluator
    (Config.workloads [("first", ⟨["A"], "B"⟩), ("second", ⟨["A"], "C"⟩)] [("M", 2)]
      [("A", ["M"]), ("B", ["M"]), ("C", ["M"])]) 1 [("Main2Cube", ⟨1, .HD, 1, 1⟩)]
    (Config.tile .Temporal "Main" [Config.loop "M" 2 2]
      [Config.scope .Sequential [Config.op "Cube" "first" [Config.loop "M" 1 1]],
        Config.op "Cube" "second" [Config.loop "M" 1 1]])

theorem hidden_op_is_free :
    ∃ state, hidden.evaluate hidden.construct = .ok state ∧ [1] ∈ state.leaf_vec_ ∧
      hidden.IsOp [1] ∧ ¬ Costed hidden [1] state.log := by
  have visited : ((hidden.evaluate hidden.construct).toOption.map fun state =>
      (decide ([1] ∈ state.leaf_vec_), opVisits [1] state.log)) = some (true, 0) := by
    decide +kernel
  cases run : hidden.evaluate hidden.construct with
  | error fault => rw [run] at visited; cases visited
  | ok state =>
    rw [run] at visited
    obtain ⟨leaf, none⟩ := Prod.mk.inj (Option.some_inj.mp visited)
    refine ⟨state, rfl, of_decide_eq_true leaf, ⟨by decide +kernel, by decide +kernel⟩, ?_⟩
    intro costed
    have positive := costed.visited
    omega

theorem op_costed_iff_hidden :
    ∃ state, hidden.evaluate hidden.construct = .ok state ∧
      (Costed hidden [0, 0] state.log ↔ hidden.Reached [0, 0] ∧ hidden.InRow [0, 0] ∧
        ∀ dim_name, TailLoop.Runs dim_name ((hidden.pathLoops [0, 0]).map pathTail) true) := by
  have completed : (hidden.evaluate hidden.construct).isOk = true := by
    decide +kernel
  obtain ⟨state, run⟩ := exists_of_isOk completed
  exact ⟨state, run, op_costed_iff run ⟨by decide +kernel, by decide +kernel⟩ (by decide +kernel)⟩

end TileExp.Analysis
