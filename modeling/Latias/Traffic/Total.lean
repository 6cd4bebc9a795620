import Latias.Ranges.ExactFootprint
import Latias.Traffic.Tiles

/-! The data movement an evaluation returns, in closed form. -/

namespace TileExp.Analysis

open Checked LoopNest

def Event.moved : Event → Int
  | .charge _ _ _ cs => totalAmount cs
  | .opCharge _ _ input_dm output_dm => output_dm + input_dm
  | _ => 0

def Event.eva (event : Event) : NodePtr := event.mark.node

/-- What a node moves in a run, from the loops above it and its tables. The root moves nothing. -/
def Evaluator.traffic (ev : Evaluator) (tables : EvaTensors) (node : NodePtr) : Int :=
  match ev.get_type node with
  | .Tile =>
    if node = [] then 0
    else
      ∑ name ∈ (tables.table true node).keys.toFinset,
          ev.tileSize node (ev.tensorDims name) * ev.reloads node (ev.tensorDims name) +
        ∑ name ∈ (tables.table false node).keys.toFinset,
          ev.tileSize node (ev.tensorDims name) * ev.roundsAbove node
  | .Op =>
    ev.roundsAbove node * (PerfAnalysis.opMovement (ev.loopnests_ node) (tables.table true node) +
      PerfAnalysis.opMovement (ev.loopnests_ node) (tables.table false node))
  | _ => 0

variable {ev : Evaluator} {ctx : PerfContext} {node : NodePtr} {name : String} {is_input : Bool}
  {state : EvalState} {tree : EvaTree} {t t' : Tally} {log : List Event}

/-! The counter and the log. -/

def Booked (t : Tally) : Prop := t.data_movements_ = (t.log.map Event.moved).sum

theorem Booked.record (booked : Booked t) (event : Event) (moved : event.moved = 0) :
    Booked (t.record event) := by
  show t.data_movements_ = ((t.log ++ [event]).map Event.moved).sum
  rw [List.map_append, List.sum_append, List.map_singleton, List.sum_singleton, moved, Int.add_zero]
  exact booked

theorem Booked.step (booked : Booked t) (step : Step ctx t t') : Booked t' := by
  cases step with
  | enter ptr loops => exact booked.record _ rfl
  | leave ptr => exact booked.record _ rfl
  | op ptr loops =>
    show t.data_movements_ + _ = ((t.log ++ [_]).map Event.moved).sum
    rw [List.map_append, List.sum_append, List.map_singleton, List.sum_singleton, ← booked]
    rfl
  | trans call =>
    rw [transTally_eq_ok call]
    exact booked
  | clearRow => exact booked
  | pushLatency => exact booked
  | copyRow => exact booked
  | finishScope call =>
    unfold finishScope at call
    split at call
    · cases call
    · cases call
      exact booked
  | pushRow call =>
    obtain ⟨_, rfl⟩ := pushRow_eq_ok call
    exact Booked.record booked _ rfl
  | @finishTile ptr _ _ call =>
    obtain ⟨latency, _, rfl⟩ := finishTile_eq_ok call
    split
    · exact booked.record (.compute ptr (t.latency_vec_ ptr)) rfl
    · exact booked.record (.compute ptr (t.latency_vec_ ptr)) rfl
  | charge skew call =>
    obtain ⟨ins, outs, tile, trans, entered⟩ := enterTile_eq_ok call
    rw [entered.result]
    show t.data_movements_ + _ = ((t.log ++ [_, _]).map Event.moved).sum
    rw [List.map_append, List.sum_append, ← booked]
    simp [Event.moved]
  | clearSkew => exact booked
  | advanceSkew => exact booked
  | restoreSkew => exact booked

theorem Evaluator.Evaluated.booked (evaluated : ev.Evaluated state tree t) : Booked t :=
  steps_preserve (fun _ _ before step => before.step step) evaluated.steps rfl

/-! The log, node by node. -/

def Mark.Placed (ev : Evaluator) : Mark → Prop
  | .charge node _ _ => (ev.root_.get? node).isSome ∧ ev.get_type node = .Tile
  | .op node _ => ev.IsOp node
  | _ => True

theorem placed_of_mem_skeleton (ptr : NodePtr) (sub : Node) (found : ev.root_.get? ptr = some sub) :
    ∀ loops, ∀ mark ∈ skeleton ptr sub loops, mark.Placed ev := by
  induction ptr, sub using Rose.position_induction₂
    (S := fun ptr i cs => ChildrenAt ev ptr i cs → ∀ loops, ∀ mark ∈ scopeSkeleton ptr i cs loops,
      mark.Placed ev)
    (T := fun ptr i cs => ChildrenAt ev ptr i cs → ∀ loops, ∀ mark ∈ tileSkeleton ptr i cs loops,
      mark.Placed ev) with
  | node ptr info cs scope tile =>
    intro loops mark member
    have placed := childrenAt_zero found
    have kind_eq : ev.get_type ptr = info.kind.type_ := by
      rw [Evaluator.get_type, Evaluator.ori_node_of_get? found]
      rfl
    have here : (ev.root_.get? ptr).isSome := by
      rw [found]
      rfl
    rw [skeleton, List.mem_append, List.mem_cons, List.mem_singleton] at member
    rcases member with (rfl | inside) | rfl
    · trivial
    · obtain ⟨name_, level, mode, kind⟩ := info
      cases kind with
      | Op ops =>
        cases List.mem_singleton.mp inside
        exact ⟨here, kind_eq⟩
      | Trans => cases inside
      | Scope type => exact scope placed loops mark inside
      | Tile type dims =>
        rcases List.mem_append.mp inside with inside | compute
        · obtain ⟨inner, _, inside⟩ := List.mem_flatMap.mp inside
          rcases List.mem_append.mp inside with first | inside
          · unfold firstMarks at first
            split at first
            · rcases List.mem_cons.mp first with rfl | second
              · exact ⟨here, kind_eq⟩
              · cases List.mem_singleton.mp second
                exact ⟨here, kind_eq⟩
            · cases first
          · rcases List.mem_append.mp inside with children | row
            · exact tile placed inner mark children
            · cases List.mem_singleton.mp row
              trivial
        · cases List.mem_singleton.mp compute
          trivial
    · trivial
  | first_nil ptr i =>
    rename_i placed loops mark member
    cases member
  | first_cons ptr i c cs first rest =>
    rename_i placed loops mark member
    rcases List.mem_append.mp member with here | later
    · exact first placed.head loops mark here
    · exact rest placed.tail loops mark later
  | second_nil ptr i =>
    rename_i placed loops mark member
    cases member
  | second_cons ptr i c cs first rest =>
    rename_i placed loops mark member
    rcases List.mem_append.mp member with here | later
    · exact first placed.head loops mark here
    · split at later
      · cases later
      · exact rest placed.tail loops mark later

def movedAt (node : NodePtr) (log : List Event) : Int :=
  (log.map fun event => if event.eva = node then event.moved else 0).sum

theorem movedAt_cons (node : NodePtr) (event : Event) (log : List Event) :
    movedAt node (event :: log) =
      (if event.eva = node then event.moved else 0) + movedAt node log := by
  rw [movedAt, List.map_cons, List.sum_cons, movedAt]

def movedBy (node : NodePtr) (is_input : Bool) (log : List Event) : Int :=
  ((calls node is_input log).map fun call => totalAmount call.2).sum

def opAmounts (node : NodePtr) (log : List Event) : List Int :=
  log.filterMap fun event => match event with
    | .opCharge eva _ input_dm output_dm => if eva = node then some (output_dm + input_dm) else none
    | _ => none

theorem movedBy_cons_charge (node eva : NodePtr) (is_input input : Bool) (loops : List LoopState)
    (cs : List Charge) (log : List Event) :
    movedBy node is_input (.charge eva input loops cs :: log) =
      (if eva = node ∧ input = is_input then totalAmount cs else 0) + movedBy node is_input log := by
  by_cases here : eva = node ∧ input = is_input
  · simp [movedBy, calls, here]
  · simp [movedBy, calls, here]

theorem movedAt_eq (node : NodePtr) (log : List Event) :
    movedAt node log =
      movedBy node true log + movedBy node false log + (opAmounts node log).sum := by
  have quiet (event : Event) (log : List Event) (nothing : event.moved = 0) :
      movedAt node (event :: log) = movedAt node log := by
    rw [movedAt_cons, nothing, ite_self, Int.zero_add]
  induction log with
  | nil => rfl
  | cons event log ih =>
    cases event with
    | charge eva input loops cs =>
      have ops : opAmounts node (.charge eva input loops cs :: log) = opAmounts node log := rfl
      rw [movedAt_cons, ih, movedBy_cons_charge, movedBy_cons_charge, ops]
      show (if eva = node then totalAmount cs else 0) + _ = _
      by_cases here : eva = node
      · cases input
        · simp only [here, if_true, true_and, Bool.false_eq_true, if_false]
          omega
        · simp only [here, if_true, true_and, Bool.true_eq_false, if_false]
          omega
      · simp only [here, if_false, false_and]
        omega
    | opCharge eva loops input_dm output_dm =>
      rw [movedAt_cons, ih, opAmounts, opAmounts]
      show (if eva = node then output_dm + input_dm else 0) +
        (movedBy node true log + movedBy node false log + _) =
          movedBy node true log + movedBy node false log + _
      by_cases here : eva = node
      · simp only [List.filterMap_cons, here, if_true, List.sum_cons]
        omega
      · simp only [List.filterMap_cons, here, if_false, Int.zero_add]
    | enter => exact (quiet _ log rfl).trans ih
    | row => exact (quiet _ log rfl).trans ih
    | compute => exact (quiet _ log rfl).trans ih
    | leave => exact (quiet _ log rfl).trans ih

/-- The events add up node by node, when those that add anything are at nodes of the tree. -/
theorem sum_moved {nodes : Finset NodePtr}
    (placed : ∀ event ∈ log, event.moved ≠ 0 → event.eva ∈ nodes) :
    (log.map Event.moved).sum = ∑ node ∈ nodes, movedAt node log := by
  induction log with
  | nil => simp [movedAt]
  | cons event log ih =>
    have rest := ih fun e inside => placed e (List.mem_cons_of_mem event inside)
    rw [List.map_cons, List.sum_cons, rest, Finset.sum_congr rfl fun node _ => movedAt_cons node event log,
      Finset.sum_add_distrib, Finset.sum_ite_eq]
    split
    · rfl
    · next outside =>
      have nothing : event.moved = 0 := by
        by_contra some
        exact outside (placed event List.mem_cons_self some)
      rw [nothing]

theorem Evaluator.Evaluated.placed (evaluated : ev.Evaluated state tree t) {event : Event}
    (member : event ∈ t.log) : event.mark.Placed ev := by
  have mark : event.mark ∈ LoopNest.marks t := List.mem_map_of_mem member
  rw [evaluated.marks] at mark
  exact placed_of_mem_skeleton [] ev.root_ rfl [] event.mark mark

theorem Evaluator.Evaluated.sum_nodes (evaluated : ev.Evaluated state tree t) :
    t.data_movements_ = ∑ node ∈ (Rose.postorder [] ev.root_).toFinset, movedAt node t.log := by
  rw [evaluated.booked]
  apply sum_moved
  intro event member moved
  have placed := evaluated.placed member
  rw [List.mem_toFinset, InitAnalysis.mem_positions]
  cases event with
  | charge => exact placed.1
  | opCharge => exact placed.1
  | enter => exact absurd rfl moved
  | row => exact absurd rfl moved
  | compute => exact absurd rfl moved
  | leave => exact absurd rfl moved

/-! The kinds of nodes. -/

theorem Evaluator.Evaluated.no_calls (evaluated : ev.Evaluated state tree t)
    (other : ev.get_type node ≠ .Tile) (is_input : Bool) :
    Analysis.calls node is_input t.log = [] := by
  rw [Analysis.calls, List.filterMap_eq_nil_iff]
  intro event member
  have placed := evaluated.placed member
  cases event with
  | charge eva input loops cs =>
    apply if_neg
    rintro ⟨rfl, _⟩
    exact other placed.2
  | opCharge => rfl
  | enter => rfl
  | row => rfl
  | compute => rfl
  | leave => rfl

theorem Evaluator.Evaluated.no_op (evaluated : ev.Evaluated state tree t)
    (other : ev.get_type node ≠ .Op) : opAmounts node t.log = [] := by
  rw [opAmounts, List.filterMap_eq_nil_iff]
  intro event member
  have placed := evaluated.placed member
  cases event with
  | opCharge eva loops input_dm output_dm =>
    apply if_neg
    rintro rfl
    exact other placed.2
  | charge => rfl
  | enter => rfl
  | row => rfl
  | compute => rfl
  | leave => rfl

theorem Evaluator.Evaluated.op_moved (evaluated : ev.Evaluated state tree t)
    (distinct : ev.DistinctDims) (perfect : ev.PerfectLoops) (lone : ev.LoneScopes)
    (op_node : ev.IsOp node) :
    movedAt node t.log = ev.traffic t.toEvaTensors node := by
  have not_tile : ev.get_type node ≠ .Tile := by
    rw [op_node.2]
    decide
  have visits : (opAmounts node t.log).length = opVisits node t.log := by
    rw [opAmounts, opVisits, List.length_filterMap_eq_countP]
    refine List.countP_congr fun event _ => ?_
    cases event with
    | opCharge eva loops input_dm output_dm => by_cases here : eva = node <;> simp [Event.isOpCharge, here]
    | charge => rfl
    | enter => rfl
    | row => rfl
    | compute => rfl
    | leave => rfl
  have same : ∀ amount ∈ opAmounts node t.log, amount =
      PerfAnalysis.opMovement (ev.loopnests_ node) (t.table true node) +
        PerfAnalysis.opMovement (ev.loopnests_ node) (t.table false node) := by
    intro amount member
    obtain ⟨event, inside, made⟩ := List.mem_filterMap.mp member
    cases event with
    | opCharge eva loops input_dm output_dm =>
      simp only at made
      split at made
      · next here =>
        subst here
        cases made
        obtain ⟨_, inputs, outputs⟩ := evaluated.op_charge distinct.tiles op_node inside
        rw [inputs, outputs, Int.add_comm]
      · cases made
    | charge => cases made
    | enter => cases made
    | row => cases made
    | compute => cases made
    | leave => cases made
  rw [movedAt_eq, movedBy, movedBy, evaluated.no_calls not_tile, evaluated.no_calls not_tile,
    List.eq_replicate_of_mem same, List.sum_replicate, visits, opVisits_run evaluated.idle evaluated.perf op_node,
    nsmul_eq_mul, card_visits perfect evaluated.accepted.leaves lone op_node.1, Evaluator.traffic, op_node.2]
  simp

theorem totalAmount_eq_sum {names : Finset String} {cs : List Charge}
    (inside : ∀ charge ∈ cs, charge.tensor_name ∈ names) : totalAmount cs =
      ∑ name ∈ names, ((cs.filter fun charge => charge.tensor_name = name).map Charge.amount).sum := by
  induction cs with
  | nil => simp [totalAmount]
  | cons charge cs ih =>
    have rest := ih fun c member => inside c (List.mem_cons_of_mem charge member)
    have split : ∀ name,
        (((charge :: cs).filter fun charge => charge.tensor_name = name).map Charge.amount).sum =
          (if charge.tensor_name = name then charge.amount else 0) +
            ((cs.filter fun charge => charge.tensor_name = name).map Charge.amount).sum := by
      intro name
      rw [List.filter_cons]
      by_cases here : charge.tensor_name = name
      · simp [here]
      · simp [here]
    rw [totalAmount, List.map_cons, List.sum_cons, ← totalAmount, rest,
      Finset.sum_congr rfl fun name _ => split name, Finset.sum_add_distrib, Finset.sum_ite_eq,
      if_pos (inside charge List.mem_cons_self)]

theorem movedBy_eq_sum {names : Finset String}
    (inside : ∀ call ∈ calls node is_input log, ∀ charge ∈ call.2, charge.tensor_name ∈ names) :
    movedBy node is_input log = ∑ name ∈ names,
      ((tensorCharges node is_input name log).map fun entry => entry.2.amount).sum := by
  simp only [movedBy, tensorCharges]
  generalize calls node is_input log = made at inside
  induction made with
  | nil => simp
  | cons call made ih =>
    have rest := ih fun c member => inside c (List.mem_cons_of_mem call member)
    simp only [List.map_cons, List.sum_cons, rest, List.flatMap_cons, List.map_append, List.sum_append,
      List.map_map, totalAmount_eq_sum (inside call List.mem_cons_self), Finset.sum_add_distrib]
    rfl

theorem Evaluator.Evaluated.tile_moved (evaluated : ev.Evaluated state tree t)
    (distinct : ev.DistinctDims) (node : NodePtr) (is_input : Bool) :
    movedBy node is_input t.log = ∑ name ∈ (t.table is_input node).keys.toFinset,
      ((tensorCharges node is_input name t.log).map fun entry => entry.2.amount).sum := by
  have tables := evaluated.tables distinct.tiles
  apply movedBy_eq_sum
  intro call member charge inside
  obtain ⟨first, found⟩ := tables.names node is_input call member charge inside
  obtain ⟨last, present, _⟩ := tables.present node is_input charge.tensor_name first found
  rw [List.mem_toFinset, ← AList.mem_keys, ← AList.lookup_isSome, present]
  rfl

theorem Evaluator.Evaluated.root_amount (evaluated : ev.Evaluated state tree t)
    (distinct : ev.DistinctDims) {entry : List LoopState × Charge}
    (member : entry ∈ tensorCharges [] is_input name t.log) : entry.2.amount = 0 := by
  obtain ⟨last, maps, _⟩ := evaluated.map_run distinct.tiles member
  obtain ⟨before, _, charged⟩ := maps.charged member
  exact (Except.ok.inj charged.amount).symm

theorem lookup_of_key {table : Table TensorMap} (member : name ∈ table.keys.toFinset) :
    ∃ map, table.lookup name = some map := by
  rw [← Option.isSome_iff_exists, AList.lookup_isSome, AList.mem_keys]
  exact List.mem_toFinset.mp member

theorem Evaluator.Evaluated.node_moved (evaluated : ev.Evaluated state tree t)
    (distinct : ev.DistinctDims) (perfect : ev.PerfectLoops) (lone : ev.LoneScopes)
    (found : (ev.root_.get? node).isSome) : movedAt node t.log = ev.traffic t.toEvaTensors node := by
  cases kind : ev.get_type node with
  | Op => exact evaluated.op_moved distinct perfect lone ⟨found, kind⟩
  | Tile =>
    rw [movedAt_eq, evaluated.no_op (by rw [kind]; decide), List.sum_nil, Int.add_zero,
      evaluated.tile_moved distinct node true, evaluated.tile_moved distinct node false,
      Evaluator.traffic, kind]
    by_cases root : node = []
    · subst root
      have none : ∀ is_input name,
          ((tensorCharges [] is_input name t.log).map fun entry => entry.2.amount).sum = 0 := by
        intro is_input name
        rw [List.map_congr_left fun entry member => evaluated.root_amount distinct member]
        simp
      simp [none]
    · simp only [if_neg root]
      congr 1
      · refine Finset.sum_congr rfl fun name member => ?_
        obtain ⟨map, present⟩ := lookup_of_key member
        rw [← evaluated.table_eq] at present
        exact evaluated.input_sum distinct perfect lone found kind (parent_ne_none root) present
      · refine Finset.sum_congr rfl fun name member => ?_
        obtain ⟨map, present⟩ := lookup_of_key member
        rw [← evaluated.table_eq] at present
        exact evaluated.output_sum distinct perfect lone found kind (parent_ne_none root) present
  | Scope =>
    rw [movedAt_eq, movedBy, movedBy, evaluated.no_calls (by rw [kind]; decide),
      evaluated.no_calls (by rw [kind]; decide), evaluated.no_op (by rw [kind]; decide),
      Evaluator.traffic, kind]
    rfl
  | Trans =>
    rw [movedAt_eq, movedBy, movedBy, evaluated.no_calls (by rw [kind]; decide),
      evaluated.no_calls (by rw [kind]; decide), evaluated.no_op (by rw [kind]; decide),
      Evaluator.traffic, kind]
    rfl

/-- When every loop divides perfectly, the data movement an evaluation returns is a sum of products
    over the loops: no visit need be simulated to know it. -/
theorem data_movements_closed_form (run : ev.evaluate ev.construct = .ok state)
    (distinct : ev.DistinctDims) (perfect : ev.PerfectLoops) (lone : ev.LoneScopes) :
    state.data_movements_ =
      ∑ node ∈ (Rose.postorder [] ev.root_).toFinset, ev.traffic state.tree.toEvaTensors node := by
  obtain ⟨tree, t, evaluated⟩ := Evaluator.evaluate_eq_ok run
  have tables : state.tree.toEvaTensors = t.toEvaTensors := by
    rw [evaluated.result]
    rfl
  rw [evaluated.data_movements_, evaluated.sum_nodes, tables]
  refine Finset.sum_congr rfl fun node member => ?_
  exact evaluated.node_moved distinct perfect lone
    (InitAnalysis.mem_positions.mp (List.mem_toFinset.mp member))

theorem data_movements_closed_form_fused :
    ∃ state, fused.evaluate fused.construct = .ok state ∧ state.data_movements_ = 64 ∧
      state.data_movements_ = ∑ node ∈ (Rose.postorder [] fused.root_).toFinset,
        fused.traffic state.tree.toEvaTensors node := by
  have moved : ((fused.evaluate fused.construct).toOption.map fun state => state.data_movements_) =
      some 64 := by
    decide +kernel
  cases run : fused.evaluate fused.construct with
  | error fault => rw [run] at moved; cases moved
  | ok state =>
    rw [run] at moved
    exact ⟨state, rfl, Option.some_inj.mp moved, data_movements_closed_form run (by decide +kernel)
      (by decide +kernel) (by decide +kernel)⟩

end TileExp.Analysis
