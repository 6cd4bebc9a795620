import Latias.Ranges.Bounds
import Latias.Ranges.LastVisit

/-! The global indices the Op touches during a visit of a Tile. -/

namespace TileExp.Analysis

open Checked LoopNest TailRadix

variable {ev : Evaluator} {ctx : PerfContext} {node op : NodePtr} {dim_name name : String}
  {state : EvalState} {tree : EvaTree} {t : Tally} {q : Rose.Address} {loop : Descriptor}
  {v u : List LoopState} {dims rest : List Descriptor} {x : Int}

/-- How many indices of a dimension one iteration of a loop of `node` takes, on the way to `op`. -/
def Evaluator.indexStep (ev : Evaluator) (op node : NodePtr) (dim_name : String) : Int :=
  ((ofDim dim_name (ev.loopsBelow node (op.take (op.length - node.length)))).map Descriptor.end_).prod

/-- The first global index of a dimension inside the iterations `u` of the loops above `op`. -/
def Evaluator.globalIndex (ev : Evaluator) (op : NodePtr) (u : List LoopState) (dim_name : String) :
    Int :=
  ((u.filter fun loop => loop.name_ = dim_name).map fun loop =>
    loop.index * ev.indexStep op loop.node dim_name).sum

def Evaluator.executed (ev : Evaluator) (op : NodePtr) (u : List LoopState) (dim_name : String) : Int :=
  ((ofDim dim_name (ev.loopnests_ op)).map fun loop =>
    if isLast u dim_name then loop.residual_end else loop.end_).prod

/-- The global indices of a dimension that the visits of the Op inside the iterations `v` touch. -/
def Evaluator.touched (ev : Evaluator) (op : NodePtr) (v : List LoopState) (dim_name : String) :
    Set Int :=
  {x | ∃ u ∈ visits ev op, v <:+ u ∧ ev.globalIndex op u dim_name ≤ x ∧
    x < ev.globalIndex op u dim_name + ev.executed op u dim_name}

namespace LoopNest

theorem length_iterations (dims : List Descriptor) (member : u ∈ iterations node dims v) :
    v <:+ u ∧ u.length = v.length + dims.length := by
  induction dims generalizing v with
  | nil =>
    cases List.mem_singleton.mp member
    exact ⟨List.suffix_rfl, rfl⟩
  | cons loop dims ih =>
    obtain ⟨i, _, member⟩ := List.mem_flatMap.mp member
    obtain ⟨after, length⟩ := ih member
    refine ⟨(List.suffix_cons _ v).trans after, ?_⟩
    rw [length, List.length_cons, List.length_cons]
    omega

theorem suffix_of_childVisits {i : Nat} (member : u ∈ childVisits node (ev.ori_node_ node) i v) :
    v <:+ u := by
  rcases mem_childVisits.mp member with ⟨_, _, inner⟩ | ⟨_, _, rfl⟩
  · exact (length_iterations _ inner).1
  · exact List.suffix_rfl

theorem length_visits (node : NodePtr) :
    ∀ v ∈ visits ev node, v.length = (ev.tileNests node).flatten.length := by
  induction node with
  | nil =>
    intro v member
    cases List.mem_singleton.mp member
    rfl
  | cons i ptr ih =>
    intro v member
    obtain ⟨outer, visited, member⟩ := List.mem_flatMap.mp member
    rw [Evaluator.tileNests, List.flatten_append, List.length_append, ← ih outer visited]
    rcases mem_childVisits.mp member with ⟨tile, _, inner⟩ | ⟨scope, _, rfl⟩
    · rw [if_pos tile, (length_iterations _ inner).2]
      simp
    · rw [if_neg (by rw [scope]; exact fun same => by cases same)]
      rfl

theorem suffix_of_visits {r : Rose.Address} {i : Nat} {outer : List LoopState}
    (at_v : v ∈ visits ev node) (at_outer : outer ∈ visits ev (r ++ node))
    (member : u ∈ childVisits (r ++ node) (ev.ori_node_ (r ++ node)) i outer) (inside : v <:+ u) :
    v <:+ outer := by
  have longer : ∀ r : Rose.Address, (ev.tileNests node).flatten.length ≤
      (ev.tileNests (r ++ node)).flatten.length := by
    intro r
    induction r with
    | nil => exact Nat.le_refl _
    | cons j r ih =>
      rw [List.cons_append, Evaluator.tileNests, List.flatten_append, List.length_append]
      omega
  apply List.suffix_of_suffix_length_le inside (suffix_of_childVisits member)
  rw [length_visits node v at_v, length_visits _ outer at_outer]
  exact longer r

theorem cellIn_below (proper : ctx.ev.ProperLoops) (distinct : ctx.ev.DistinctDims)
    (at_v : v ∈ visits ctx.ev node) (r : Rose.Address) : ∀ q u,
      OffsetsAlong ctx dim_name (q ++ (r ++ node)) → (ctx.ev.root_.get? (r ++ node)).isSome →
        u ∈ visits ctx.ev (r ++ node) → v <:+ u →
          CellIn ctx dim_name (ctx.ev.remaining dim_name (r ++ node) q) u
            (ctx.ev.remaining dim_name node (q ++ r)) v := by
  induction r with
  | nil =>
    intro q u _ _ at_u inside
    have same : v = u := inside.eq_of_length (by
      rw [length_visits node v at_v, length_visits node u at_u])
    subst same
    rw [List.append_nil]
    exact CellIn.refl _ v
  | cons i r ih =>
    intro q u along found at_u inside
    have path : (q ++ [i]) ++ (r ++ node) = q ++ i :: (r ++ node) := by simp
    have above := Evaluator.isSome_get?_parent found
    obtain ⟨outer, visited, member⟩ := List.mem_flatMap.mp at_u
    have whole := ih (q ++ [i]) outer (path.symm ▸ along) above visited
      (suffix_of_visits at_v visited member inside)
    rw [List.append_assoc] at whole
    rcases mem_childVisits.mp member with ⟨_, _, inner⟩ | ⟨_, none, rfl⟩
    · refine CellIn.trans ?_ whole
      rw [List.cons_append, remaining_child]
      exact cellIn_iterations _ outer (nestSetting proper distinct along above visited) inner
    · rw [show ctx.ev.remaining dim_name (r ++ node) (q ++ [i]) = _ from remaining_of_scope none] at whole
      exact whole

theorem around_of_mem_visits (node : NodePtr) : (ev.root_.get? node).isSome →
    ∀ v ∈ visits ev node, Around ev node v := by
  induction node with
  | nil =>
    intro _ v member
    cases List.mem_singleton.mp member
    exact ⟨rfl, fun _ _ inside => by cases inside⟩
  | cons i ptr ih =>
    intro found v member
    have above := Evaluator.isSome_get?_parent found
    obtain ⟨outer, visited, member⟩ := List.mem_flatMap.mp member
    rcases mem_childVisits.mp member with ⟨tile, _, inner⟩ | ⟨scope, _, rfl⟩
    · exact (ih above outer visited).child_of_tile tile above inner
    · apply (ih above v visited).child_of_other
      rw [scope]
      exact fun same => by cases same

theorem mem_pathLoops (node : NodePtr) : ∀ entry ∈ ev.pathLoops node,
    entry.1 <:+ node ∧ entry.2 ∈ ev.loopnests_ entry.1 := by
  induction node with
  | nil => exact fun entry member => absurd member List.not_mem_nil
  | cons i ptr ih =>
    intro entry member
    rw [Evaluator.pathLoops, List.mem_append] at member
    rcases member with above | own
    · exact ⟨(ih entry above).1.trans (List.suffix_cons i ptr), (ih entry above).2⟩
    · split at own
      · obtain ⟨loop, inside, rfl⟩ := List.mem_map.mp own
        exact ⟨List.suffix_cons i ptr, inside⟩
      · cases own

theorem declared_of_mem_visits (found : (ev.root_.get? node).isSome) (visited : v ∈ visits ev node)
    {outer : LoopState} (inside : outer ∈ v) :
    outer.node <:+ node ∧ outer.name_ ∈ ev.dims outer.node := by
  have around := around_of_mem_visits node found v visited
  have key : outer.key ∈ ev.enclosing node := around.keys ▸ List.mem_map_of_mem inside
  rw [Evaluator.enclosing, List.mem_reverse] at key
  obtain ⟨entry, member, same⟩ := List.mem_map.mp key
  obtain ⟨below, own⟩ := mem_pathLoops node entry member
  obtain ⟨here, name⟩ := Prod.mk.inj same
  rw [← here, ← name]
  exact ⟨below, List.mem_map_of_mem own⟩

end LoopNest

theorem Evaluator.indexStep_eq (node : NodePtr) (q : Rose.Address) (dim_name : String) :
    ev.indexStep (q ++ node) node dim_name = weight (digits dim_name (ev.loopsBelow node q)) := by
  have length : (q ++ node).length - node.length = q.length := by
    rw [List.length_append]
    omega
  rw [Evaluator.indexStep, length, List.take_left, prod_ends_eq]
  rfl

theorem globalIndex_eq (along : OffsetsAlong ctx dim_name op) (zero : ctx.ev.StartsAtZero)
    (found : (ctx.ev.root_.get? op).isSome) (visited : u ∈ visits ctx.ev op) :
    ctx.ev.globalIndex op u dim_name = skewOf ctx u dim_name := by
  rw [Evaluator.globalIndex, skewOf]
  congr 1
  apply List.map_congr_left
  intro outer member
  obtain ⟨inside, name⟩ := List.mem_filter.mp member
  obtain ⟨⟨q, path⟩, declared⟩ := declared_of_mem_visits found visited inside
  have starts := (around_of_mem_visits op found u visited).starts zero outer inside
  rw [of_decide_eq_true name] at declared
  rw [along.offset q outer.node path declared, ← path, Evaluator.indexStep_eq, starts, Int.sub_zero]

theorem executed_eq (distinct : ev.DistinctDims) (found : (ev.root_.get? op).isSome)
    (u : List LoopState) :
    ev.executed op u dim_name = block (ev.remaining dim_name op []) (isLast u dim_name) := by
  rw [Evaluator.executed, Evaluator.remaining, Evaluator.loopsBelow, List.append_nil, digits]
  by_cases own : dim_name ∈ ev.dims op
  · obtain ⟨loop, _, _, single, _⟩ := exists_ofDim_loopnests distinct found own
    rw [single]
    cases isLast u dim_name
    · simp [block, radix]
    · simp [block, extent, radix]
  · rw [ofDim_eq_nil.mpr own]
    cases isLast u dim_name
    · rfl
    · rfl

/-- The visits of the Op inside a visit touch just what the visit covers. -/
theorem mem_touched (setting : RangeSetting ctx) (proper : ctx.ev.ProperLoops)
    (along : OffsetsAlong ctx dim_name (q ++ node)) (op_node : ctx.ev.IsOp (q ++ node))
    (reached : ctx.ev.Reached (q ++ node)) (visited : v ∈ visits ctx.ev node) :
    x ∈ ctx.ev.touched (q ++ node) v dim_name ↔
      Covers ctx dim_name (ctx.ev.remaining dim_name node q) v x := by
  constructor
  · rintro ⟨u, at_u, inside, low, high⟩
    rw [globalIndex_eq along proper.startsAtZero op_node.1 at_u] at low high
    rw [executed_eq setting.distinct op_node.1] at high
    have cell := @cellIn_below ctx node dim_name v proper setting.distinct visited q [] u along
      op_node.1 at_u inside
    exact cell.covers ⟨low, high⟩
  · intro covered
    obtain ⟨u, at_u, inside, covers⟩ := @exists_visit ctx node v [dim_name] (fun _ => x) proper
      setting.distinct setting.accepted.leaves visited q (fun _ => []) op_node.1 reached
      (fun name member => by
        cases List.mem_singleton.mp member
        exact along)
      (fun name member => by
        cases List.mem_singleton.mp member
        exact covered)
    obtain ⟨low, high⟩ := covers dim_name List.mem_cons_self
    refine ⟨u, at_u, inside, ?_, ?_⟩
    · rw [globalIndex_eq along proper.startsAtZero op_node.1 at_u]
      exact low
    · rw [globalIndex_eq along proper.startsAtZero op_node.1 at_u,
        executed_eq setting.distinct op_node.1]
      exact high

theorem digits_even_iff (loops : List Descriptor) :
    (∀ digit ∈ digits dim_name loops, digit.tail = digit.full) ↔
      ∀ loop ∈ loops, loop.name_ = dim_name → loop.residual_end = loop.end_ := by
  constructor
  · intro even loop member name
    have inside : loop ∈ ofDim dim_name loops := List.mem_filter.mpr ⟨member, decide_eq_true name⟩
    exact even (radix loop) (List.mem_map_of_mem inside)
  · intro even digit member
    obtain ⟨loop, inside, rfl⟩ := List.mem_map.mp member
    obtain ⟨own, name⟩ := List.mem_filter.mp inside
    exact even loop own (of_decide_eq_true name)

/-- A range is all of what its visit covers just when it is the last one, or when all loops below
    over its dimension divide evenly. -/
theorem RangeFrom.exact_iff {range : StEd} (distinct : ctx.ev.DistinctDims)
    (proper : ctx.ev.ProperLoops) (visited : v ∈ visits ctx.ev node)
    (given : RangeFrom ctx node v dim_name range q loop rest) :
    range.2 = skewOf ctx v dim_name +
        block (ctx.ev.remaining dim_name node q) (isLast v dim_name) ↔
      isLast v dim_name = true ∨ ∀ loop ∈ ctx.ev.loopsBelow node q, loop.name_ = dim_name →
        loop.residual_end = loop.end_ := by
  have found := Evaluator.isSome_get?_above given.op.1
  have lower : ∀ digit ∈ digits dim_name (ctx.ev.loopsBelow node q), digit.Proper :=
    digits_proper (proper.lower node q)
  have path := given.path
  have high := given.high
  rw [dimCount_eq_extent, prod_ends_eq] at high
  rw [← digits_even_iff, ← extent_eq_block_iff lower, given.remaining_eq, block_cons, high]
  rw [ofDim_append] at path
  by_cases own : dim_name ∈ ctx.ev.dims node
  · obtain ⟨mine, _, _, single, _⟩ := exists_ofDim_loopnests distinct found own
    rw [single, List.singleton_append] at path
    obtain ⟨rfl, below⟩ := List.cons.inj path
    have bound : outerBound ctx.ev node v dim_name mine = (radix mine).rounds (isLast v dim_name) := by
      rw [outerBound, if_pos own, loopEnd, given.name_eq, TailRadix.rounds]
      cases node with
      | nil =>
        cases List.mem_singleton.mp visited
        rfl
      | cons i ptr => cases isLast v dim_name <;> rfl
    rw [bound, ← below, digits]
    constructor <;> intro same <;> omega
  · rw [ofDim_eq_nil.mpr own, List.nil_append] at path
    have bound : outerBound ctx.ev node v dim_name loop = (radix loop).tail := by
      rw [outerBound, if_neg own]
      rfl
    have whole : digits dim_name (ctx.ev.loopsBelow node q) = radix loop :: rest.map radix := by
      rw [digits, path, List.map_cons]
    rw [bound, whole, extent, block_cons]
    constructor <;> intro same <;> omega

def Evaluator.OneChild (ev : Evaluator) : Prop :=
  ∀ node ∈ Rose.postorder [] ev.root_, ev.get_type node = .Tile →
    ((ev.ori_node_ node).children.filter fun c => Node.get_type c ≠ .Trans).length = 1

instance (ev : Evaluator) : Decidable ev.OneChild :=
  inferInstanceAs (Decidable (∀ node ∈ Rose.postorder [] ev.root_, _))

theorem Evaluator.OneChild.reached (one : ev.OneChild) (leaves : ev.LeafOps) (node : NodePtr) :
    (ev.root_.get? node).isSome → ev.get_type node ≠ .Trans → ev.Reached node := by
  induction node with
  | nil => exact fun _ _ => trivial
  | cons i ptr ih =>
    intro found not_trans
    have above := Evaluator.isSome_get?_parent found
    have inner := InitAnalysis.not_isLeaf_of_ancestor leaves found List.mem_cons_self
    refine ⟨fun tile => ?_, ih above fun trans => ?_⟩
    · rw [reachedChild, List.all_eq_true]
      intro c earlier
      rw [decide_eq_true_eq]
      intro scope
      have single := one ptr (InitAnalysis.mem_positions.mpr above) tile
      obtain ⟨child, at_child⟩ := Option.isSome_iff_exists.mp found
      obtain ⟨sub, at_sub⟩ := Option.isSome_iff_exists.mp above
      have place : (ev.ori_node_ ptr).children[i]? = some child := by
        rw [Evaluator.ori_node_of_get? at_sub]
        rwa [Rose.get?_cons, at_sub] at at_child
      have later : child ∈ (ev.ori_node_ ptr).children.drop i :=
        List.mem_iff_getElem?.mpr ⟨0, by rw [List.getElem?_drop, Nat.add_zero, place]⟩
      have child_kind : Node.get_type child ≠ .Trans := by
        rwa [Evaluator.get_type, Evaluator.ori_node_of_get? at_child] at not_trans
      have front : 0 < (((ev.ori_node_ ptr).children.take i).filter fun c =>
          Node.get_type c ≠ .Trans).length := List.length_pos_of_mem
        (List.mem_filter.mpr ⟨earlier, by rw [scope]; rfl⟩)
      have back : 0 < (((ev.ori_node_ ptr).children.drop i).filter fun c =>
          Node.get_type c ≠ .Trans).length := List.length_pos_of_mem
        (List.mem_filter.mpr ⟨later, by simpa using child_kind⟩)
      rw [← List.take_append_drop i (ev.ori_node_ ptr).children, List.filter_append,
        List.length_append] at single
      omega
    · simp [InitAnalysis.isLeaf, trans] at inner

theorem MadeIn.touched_iff (setting : RangeSetting ctx) (proper : ctx.ev.ProperLoops)
    (single : ctx.ev.SingleOperator) (op_node : ctx.ev.IsOp (q ++ node))
    (reached : ctx.ev.Reached (q ++ node)) {entry : List LoopState × Charge}
    (made : MadeIn ctx node name v entry) (inside : dim_name ∈ ctx.ev.tensorDims name) :
    (∀ x, (entry.2.after.range dim_name).1 ≤ x ∧ x < (entry.2.after.range dim_name).2 ↔
        x ∈ ctx.ev.touched (q ++ node) v dim_name) ↔
      isLast v dim_name = true ∨ ∀ loop ∈ ctx.ev.loopsBelow node q, loop.name_ = dim_name →
        loop.residual_end = loop.end_ := by
  have found := Evaluator.isSome_get?_above op_node.1
  have along := offsetsAlong_single setting single op_node dim_name
  obtain ⟨range, computed, recorded⟩ := made.ranges.inside dim_name inside
  rw [skewOf_firstIteration] at computed
  obtain ⟨r, loop, rest, given⟩ := exists_rangeFrom setting found
    (fun loop member => (proper.at member).toParsed) made.outside computed
  have same : r ++ node = q ++ node := single _ (InitAnalysis.mem_positions.mpr given.op.1) _
    (InitAnalysis.mem_positions.mpr op_node.1) given.op.2 op_node.2
  obtain rfl := List.append_cancel_right same
  rw [range_of_lookup recorded, ← given.exact_iff setting.distinct proper made.visit]
  have some := block_pos (proper.remaining dim_name node r) (isLast v dim_name)
  have covered (x : Int) := @mem_touched ctx node dim_name r v x setting proper along op_node reached
    made.visit
  have low := given.low
  have limits := given.range_in proper made.visit
  have positive := limits.some
  constructor
  · intro exact
    have last_touched := (covered (skewOf ctx v dim_name +
      block (ctx.ev.remaining dim_name node r) (isLast v dim_name) - 1)).mpr ⟨by omega, by omega⟩
    have inside_range := (exact _).mpr last_touched
    have upper := limits.high
    simp only at inside_range
    omega
  · intro exact x
    rw [covered x, Covers]
    simp only
    omega

/-- The loops over a dimension run evenly below a Tile, unless the Tile is always in their last
    iteration. -/
def Evaluator.EvenBelow (ev : Evaluator) (op node : NodePtr) (dim_name : String) : Prop :=
  (∀ loop ∈ (ev.tileNests node).flatten, loop.name_ = dim_name → loop.residual_end = 1) ∨
    ∀ loop ∈ ev.loopsBelow node (op.take (op.length - node.length)), loop.name_ = dim_name →
      loop.residual_end = loop.end_

theorem all_touched_iff (setting : RangeSetting ctx) (proper : ctx.ev.ProperLoops)
    (single : ctx.ev.SingleOperator) (op_node : ctx.ev.IsOp (q ++ node))
    (reached : ctx.ev.Reached (q ++ node)) (reached_node : ctx.ev.Reached node)
    {entries : List (List LoopState × Charge)}
    (made : ∀ entry ∈ entries, ∃ v, MadeIn ctx node name v entry)
    (visited : entries.map (fun entry => outer node entry.1) = visits ctx.ev node)
    (inside : dim_name ∈ ctx.ev.tensorDims name) :
    (∀ entry ∈ entries, ∀ x, (entry.2.after.range dim_name).1 ≤ x ∧
        x < (entry.2.after.range dim_name).2 ↔
          x ∈ ctx.ev.touched (q ++ node) (outer node entry.1) dim_name) ↔
      ctx.ev.EvenBelow (q ++ node) node dim_name := by
  have found := Evaluator.isSome_get?_above op_node.1
  have length : (q ++ node).length - node.length = q.length := by
    rw [List.length_append]
    omega
  rw [Evaluator.EvenBelow, length, List.take_left]
  have each : ∀ entry ∈ entries, ((∀ x, (entry.2.after.range dim_name).1 ≤ x ∧
      x < (entry.2.after.range dim_name).2 ↔
        x ∈ ctx.ev.touched (q ++ node) (outer node entry.1) dim_name) ↔
      isLast (outer node entry.1) dim_name = true ∨ ∀ loop ∈ ctx.ev.loopsBelow node q,
        loop.name_ = dim_name → loop.residual_end = loop.end_) := by
    intro entry member
    obtain ⟨v, made⟩ := made entry member
    rw [made.outer_eq]
    exact made.touched_iff setting proper single op_node reached inside
  constructor
  · intro exact
    by_contra uneven
    rw [not_or] at uneven
    obtain ⟨twice, below⟩ := uneven
    push Not at twice
    obtain ⟨loop, above, rfl, more⟩ := twice
    obtain ⟨ptr, own⟩ := mem_tileNests node above
    have positive := (proper.at own).positive
    obtain ⟨v, at_v, early⟩ := exists_early_visit proper setting.accepted.leaves node found
      reached_node loop above (by omega)
    rw [← visited] at at_v
    obtain ⟨entry, member, rfl⟩ := List.mem_map.mp at_v
    rcases (each entry member).mp (exact entry member) with last | even
    · rw [early] at last
      cases last
    · exact below even
  · intro even entry member
    apply (each entry member).mpr
    rcases even with once | even
    · left
      apply isLast_of_mem_visits proper node _ _ once
      rw [← visited]
      exact List.mem_map_of_mem member
    · exact Or.inr even

/-! The volume of a visit of the Op. -/

theorem dimEnd_eq (loops : List Descriptor) (dim_name : String) :
    PerfAnalysis.dimEnd loops dim_name = (lastBounds loops dim_name).1 := by
  unfold PerfAnalysis.dimEnd lastBounds
  suffices ∀ (bounds : StEd), loops.foldl (fun dim_end loop =>
      if loop.name_ = dim_name then loop.end_ else dim_end) bounds.1 = (loops.foldl (fun found loop =>
        if loop.name_ = dim_name then (loop.end_, loop.residual_end) else found) bounds).1 from
    this (0, 0)
  induction loops with
  | nil => exact fun bounds => rfl
  | cons loop loops ih =>
    intro bounds
    rw [List.foldl_cons, List.foldl_cons, ← ih]
    split
    · rfl
    · rfl

theorem dimEnd_absent {loops : List Descriptor} (absent : dim_name ∉ loops.map Descriptor.name_) :
    PerfAnalysis.dimEnd loops dim_name = 0 := by
  rw [dimEnd_eq, lastBounds]
  induction loops with
  | nil => rfl
  | cons loop loops ih =>
    rw [List.map_cons, List.mem_cons, not_or] at absent
    rw [List.foldl_cons, if_neg (fun same => absent.1 same.symm)]
    exact ih absent.2

theorem eq_of_prod_eq {f g : String → Int} (names : List String)
    (smaller : ∀ name ∈ names, 1 ≤ g name ∧ g name ≤ f name)
    (same : (names.map f).prod = (names.map g).prod) : ∀ name ∈ names, f name = g name := by
  have bounds : ∀ names : List String, (∀ name ∈ names, 1 ≤ g name ∧ g name ≤ f name) →
      1 ≤ (names.map g).prod ∧ (names.map g).prod ≤ (names.map f).prod := by
    intro names
    induction names with
    | nil => exact fun _ => ⟨Int.le_refl 1, Int.le_refl 1⟩
    | cons name names ih =>
      intro smaller
      have head := smaller name List.mem_cons_self
      have tail := ih fun n inside => smaller n (List.mem_cons_of_mem name inside)
      rw [List.map_cons, List.map_cons, List.prod_cons, List.prod_cons]
      refine ⟨?_, Int.mul_le_mul head.2 tail.2 (by omega) (by omega)⟩
      exact Int.le_trans tail.1 (le_mul_of_one_le_left (by omega) head.1)
  induction names with
  | nil => exact fun name member => absurd member List.not_mem_nil
  | cons name names ih =>
    have inner : ∀ n ∈ names, 1 ≤ g n ∧ g n ≤ f n := fun n inside =>
      smaller n (List.mem_cons_of_mem name inside)
    have head := smaller name List.mem_cons_self
    have tail := bounds names inner
    rw [List.map_cons, List.map_cons, List.prod_cons, List.prod_cons] at same
    have heads : f name = g name := by
      by_contra different
      have more : g name * (names.map g).prod < f name * (names.map g).prod :=
        Int.mul_lt_mul_of_pos_right (by omega) (by omega)
      have rest : f name * (names.map g).prod ≤ f name * (names.map f).prod :=
        Int.mul_le_mul_of_nonneg_left tail.2 (by omega)
      omega
    rw [heads] at same
    have tails := Int.eq_of_mul_eq_mul_left (by omega) same
    intro n member
    rcases List.mem_cons.mp member with rfl | later
    · exact heads
    · exact ih inner tails n later

def Evaluator.EvenLoop (ev : Evaluator) (op : NodePtr) (dim_name : String) : Prop :=
  ∃ loop ∈ ev.loopnests_ op, loop.name_ = dim_name ∧ loop.residual_end = loop.end_

theorem executed_own (distinct : ev.DistinctDims) (found : (ev.root_.get? op).isSome)
    (own : dim_name ∈ ev.dims op) : ∃ loop ∈ ev.loopnests_ op, loop.name_ = dim_name ∧
      PerfAnalysis.dimEnd (ev.loopnests_ op) dim_name = loop.end_ ∧ ∀ u,
        ev.executed op u dim_name = if isLast u dim_name then loop.residual_end else loop.end_ := by
  obtain ⟨loop, member, name, single, bounds⟩ := exists_ofDim_loopnests distinct found own
  refine ⟨loop, member, name, ?_, fun u => ?_⟩
  · rw [dimEnd_eq, bounds]
  · rw [Evaluator.executed, single]
    simp

theorem executed_pos (proper : ev.ProperLoops) (distinct : ev.DistinctDims)
    (found : (ev.root_.get? op).isSome) (u : List LoopState) (dim_name : String) :
    1 ≤ ev.executed op u dim_name := by
  rw [executed_eq distinct found]
  exact block_pos (proper.remaining dim_name op []) (isLast u dim_name)

theorem volumes_iff (accepted : ev.Accepted) (proper : ev.ProperLoops) (distinct : ev.DistinctDims)
    (op_node : ev.IsOp op) (reached : ev.Reached op) (names : List String) :
    (∀ u ∈ visits ev op, (names.map (PerfAnalysis.dimEnd (ev.loopnests_ op))).prod =
        (names.map (ev.executed op u)).prod) ↔ ∀ dim_name ∈ names, ev.EvenLoop op dim_name := by
  constructor
  · intro exact
    obtain ⟨u, at_u, last⟩ := exists_last_visit proper accepted.leaves op op_node.1 reached
    have same := exact u at_u
    have some : ∀ names : List String, 1 ≤ (names.map (ev.executed op u)).prod := by
      intro names
      induction names with
      | nil => exact Int.le_refl 1
      | cons name names ih =>
        rw [List.map_cons, List.prod_cons]
        exact Int.le_trans ih
          (le_mul_of_one_le_left (by omega) (executed_pos proper distinct op_node.1 u name))
    have own : ∀ dim_name ∈ names, dim_name ∈ ev.dims op := by
      intro dim_name member
      by_contra absent
      have zero : (names.map (PerfAnalysis.dimEnd (ev.loopnests_ op))).prod = 0 :=
        List.prod_eq_zero (List.mem_map.mpr ⟨dim_name, member, dimEnd_absent absent⟩)
      have positive := some names
      omega
    have equal := eq_of_prod_eq names (fun dim_name member => ?_) same
    · intro dim_name member
      obtain ⟨loop, inside, name, ends, runs⟩ := executed_own distinct op_node.1 (own dim_name member)
      have here := equal dim_name member
      rw [ends, runs u, last dim_name, if_pos rfl] at here
      exact ⟨loop, inside, name, here.symm⟩
    · obtain ⟨loop, inside, name, ends, runs⟩ := executed_own distinct op_node.1 (own dim_name member)
      have bounds := proper.at inside
      have positive := bounds.positive
      have bounded := bounds.bounded
      rw [ends, runs u, last dim_name, if_pos rfl]
      omega
  · intro even u _
    congr 1
    apply List.map_congr_left
    intro dim_name member
    obtain ⟨loop, inside, rfl, same⟩ := even dim_name member
    obtain ⟨mine, at_mine, name, ends, runs⟩ := executed_own distinct op_node.1
      (List.mem_map_of_mem inside : loop.name_ ∈ ev.dims op)
    have unique : mine = loop := List.inj_on_of_nodup_map
      (distinct op (InitAnalysis.mem_positions.mpr op_node.1)) at_mine inside name
    subst unique
    rw [ends, runs u, same]
    split
    · rfl
    · rfl

end TileExp.Analysis
