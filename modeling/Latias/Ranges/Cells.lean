import Latias.Library.TailRadix
import Latias.Ranges.FirstRange
import Latias.Ranges.Stationary

/-! The part of a dimension a visit covers, as a number whose digits are the indices of the loops
    above. -/

namespace TileExp.Analysis

open Checked LoopNest TailRadix

def radix (loop : Descriptor) : TailRadix := ⟨loop.end_, loop.residual_end⟩

def digits (dim_name : String) (loops : List Descriptor) : List TailRadix :=
  (ofDim dim_name loops).map radix

def Evaluator.ProperLoops (ev : Evaluator) : Prop :=
  ∀ node ∈ Rose.postorder [] ev.root_, ∀ loop ∈ ev.loopnests_ node, Proper loop

instance (ev : Evaluator) : Decidable ev.ProperLoops :=
  inferInstanceAs (Decidable (∀ node ∈ Rose.postorder [] ev.root_, _))

def Evaluator.SingleOperator (ev : Evaluator) : Prop :=
  ∀ op ∈ Rose.postorder [] ev.root_, ∀ op' ∈ Rose.postorder [] ev.root_,
    ev.get_type op = .Op → ev.get_type op' = .Op → op = op'

instance (ev : Evaluator) : Decidable ev.SingleOperator :=
  inferInstanceAs (Decidable (∀ op ∈ Rose.postorder [] ev.root_, _))

variable {ev : Evaluator} {ctx : PerfContext} {node op : NodePtr} {dim_name : String}
  {q : Rose.Address} {v w v' w' : List LoopState} {loop : Descriptor} {dims below : List Descriptor}

theorem Proper.radix (proper : Proper loop) : (radix loop).Proper :=
  ⟨proper.positive, proper.bounded⟩

theorem digits_proper (proper : ∀ loop ∈ dims, Proper loop) :
    ∀ digit ∈ digits dim_name dims, digit.Proper := by
  intro digit member
  obtain ⟨loop, inside, rfl⟩ := List.mem_map.mp member
  exact (proper loop (List.mem_of_mem_filter inside)).radix

theorem digits_append (a b : List Descriptor) :
    digits dim_name (a ++ b) = digits dim_name a ++ digits dim_name b := by
  rw [digits, ofDim_append, List.map_append, digits, digits]

theorem digits_cons_self (dims : List Descriptor) :
    digits loop.name_ (loop :: dims) = radix loop :: digits loop.name_ dims := by
  rw [digits, ofDim_cons_self, List.map_cons, digits]

theorem digits_cons_ne (apart : loop.name_ ≠ dim_name) (dims : List Descriptor) :
    digits dim_name (loop :: dims) = digits dim_name dims := by
  rw [digits, ofDim_cons_ne apart, digits]

theorem digits_eq_nil (absent : dim_name ∉ dims.map Descriptor.name_) :
    digits dim_name dims = [] := by
  rw [digits, ofDim_eq_nil.mpr absent, List.map_nil]

theorem prod_ends_eq (loops : List Descriptor) :
    (loops.map Descriptor.end_).prod = weight (loops.map radix) := by
  rw [weight, List.map_map]
  rfl

theorem dimCount_eq_extent (loops : List Descriptor) :
    GetLoopCount.dimCount loops = extent (loops.map radix) := by
  induction loops with
  | nil => rfl
  | cons loop loops ih =>
    rw [GetLoopCount.dimCount_cons, ih, prod_ends_eq, List.map_cons, extent]
    rfl

namespace LoopNest

/-- One part of a dimension inside another: the numbers with the digits of `v` and any digits
    `rest` after them. -/
structure CellIn (ctx : PerfContext) (dim_name : String) (rest : List TailRadix) (v : List LoopState)
    (rest' : List TailRadix) (v' : List LoopState) : Prop where
  low : skewOf ctx v' dim_name ≤ skewOf ctx v dim_name
  high : skewOf ctx v dim_name + block rest (isLast v dim_name) ≤
    skewOf ctx v' dim_name + block rest' (isLast v' dim_name)
  last : isLast v dim_name = true → isLast v' dim_name = true ∧
    skewOf ctx v dim_name + block rest true = skewOf ctx v' dim_name + block rest' true

theorem CellIn.refl (rest : List TailRadix) (v : List LoopState) : CellIn ctx dim_name rest v rest v :=
  ⟨Int.le_refl _, Int.le_refl _, fun last => ⟨last, rfl⟩⟩

theorem CellIn.trans {rest rest' rest'' : List TailRadix} {v'' : List LoopState}
    (inner : CellIn ctx dim_name rest v rest' v') (outer : CellIn ctx dim_name rest' v' rest'' v'') :
    CellIn ctx dim_name rest v rest'' v'' := by
  refine ⟨Int.le_trans outer.low inner.low, Int.le_trans inner.high outer.high, fun last => ?_⟩
  obtain ⟨last', same⟩ := inner.last last
  obtain ⟨last'', same'⟩ := outer.last last'
  exact ⟨last'', same.trans same'⟩

def Apart (ctx : PerfContext) (dim_name : String) (rest : List TailRadix) (v w : List LoopState) :
    Prop :=
  skewOf ctx v dim_name + block rest (isLast v dim_name) ≤ skewOf ctx w dim_name ∨
    skewOf ctx w dim_name + block rest (isLast w dim_name) ≤ skewOf ctx v dim_name

theorem Apart.inside {rest rest' : List TailRadix} (apart : Apart ctx dim_name rest' v' w')
    (in_v : CellIn ctx dim_name rest v rest' v') (in_w : CellIn ctx dim_name rest w rest' w') :
    Apart ctx dim_name rest v w := by
  have low_v := in_v.low
  have low_w := in_w.low
  have high_v := in_v.high
  have high_w := in_w.high
  rcases apart with before | after
  · exact Or.inl (by omega)
  · exact Or.inr (by omega)

/-- What a loop over the dimension needs: its offset is the weight of the digits below, and at the
    root no loop over the dimension is around it. -/
structure LoopSetting (ctx : PerfContext) (node : NodePtr) (dim_name : String)
    (rest : List TailRadix) (v : List LoopState) : Prop where
  offset : (ctx.dim_offset_ node dim_name).1 = weight rest
  top : get_parent node = none → isLast v dim_name = true

theorem LoopSetting.loopEnd_eq {rest : List TailRadix}
    (setting : LoopSetting ctx node loop.name_ rest v) :
    loopEnd node loop v = (radix loop).rounds (isLast v loop.name_) := by
  rw [loopEnd, TailRadix.rounds]
  cases parent : get_parent node with
  | some ptr => cases isLast v loop.name_ <;> rfl
  | none =>
    rw [setting.top parent]
    rfl

theorem skewOf_loopState {rest : List TailRadix} (setting : LoopSetting ctx node loop.name_ rest v)
    (loop_end : Int) (i : Nat) : skewOf ctx (loopState node loop loop_end i :: v) loop.name_ =
      skewOf ctx v loop.name_ + i * weight rest := by
  have moved : loop.start + (i : Int) - loop.start = i := by omega
  simp only [skewOf_cons, loopState, Function.update_self, moved, setting.offset]

theorem isLast_stays {rest : List TailRadix} (setting : LoopSetting ctx node loop.name_ rest v)
    (parsed : Parsed loop) (i : Nat) :
    isLast (loopState node loop (loopEnd node loop v) i :: v) loop.name_ =
      (radix loop).stays (isLast v loop.name_) i := by
  rw [isLast_cons, if_pos (show (loopState node loop (loopEnd node loop v) i).name_ = loop.name_ from rfl),
    TailRadix.stays, setting.loopEnd_eq, Bool.and_comm]
  congr 1
  simp only [loopState, parsed.start, parsed.stride]
  apply decide_eq_decide.mpr
  omega

theorem cellIn_loop {rest : List TailRadix} (setting : LoopSetting ctx node loop.name_ rest v)
    (parsed : Parsed loop) (proper : ∀ digit ∈ rest, digit.Proper) {i : Nat}
    (bound : i < (loopEnd node loop v - loop.start).toNat) :
    CellIn ctx loop.name_ rest (loopState node loop (loopEnd node loop v) i :: v)
      (radix loop :: rest) v := by
  have rounds := setting.loopEnd_eq
  rw [parsed.start] at bound
  have inside : (i : Int) < (radix loop).rounds (isLast v loop.name_) := by omega
  have skew := skewOf_loopState setting (loopEnd node loop v) i
  have flag := isLast_stays setting parsed i
  have within := sub_block_le proper inside
  have positive := weight_pos proper
  have forward : 0 ≤ (i : Int) * weight rest := Int.mul_nonneg (by omega) (by omega)
  refine ⟨by omega, by rw [flag, skew]; omega, fun last => ?_⟩
  rw [flag] at last
  have at_end : (i : Int) + 1 = (radix loop).rounds (isLast v loop.name_) := by
    by_contra more
    rw [stays_of_more (by omega)] at last
    cases last
  have whole := @sub_block_last (radix loop) rest (isLast v loop.name_) i at_end
  rw [last] at whole
  rw [stays_of_last (by omega)] at last
  rw [last] at whole
  exact ⟨last, by rw [skew]; omega⟩

theorem skewOf_other {loop_end : Int} {i : Nat} (other : loop.name_ ≠ dim_name) :
    skewOf ctx (loopState node loop loop_end i :: v) dim_name = skewOf ctx v dim_name := by
  rw [skewOf_cons, Function.update_of_ne (show dim_name ≠ (loopState node loop loop_end i).name_ from
    other.symm)]

theorem isLast_other {loop_end : Int} {i : Nat} (other : loop.name_ ≠ dim_name) :
    isLast (loopState node loop loop_end i :: v) dim_name = isLast v dim_name := by
  rw [isLast_cons, if_neg (show (loopState node loop loop_end i).name_ ≠ dim_name from other)]

theorem cellIn_other {loop_end : Int} {i : Nat} (other : loop.name_ ≠ dim_name)
    (rest : List TailRadix) : CellIn ctx dim_name rest (loopState node loop loop_end i :: v) rest v := by
  refine ⟨?_, ?_, ?_⟩
  · rw [skewOf_other other]
  · rw [skewOf_other other, isLast_other other]
  · rw [skewOf_other other, isLast_other other]
    exact fun last => ⟨last, rfl⟩

structure NestSetting (ctx : PerfContext) (node : NodePtr) (dim_name : String)
    (dims below : List Descriptor) (v : List LoopState) : Prop where
  proper : ∀ loop ∈ dims, Proper loop
  names : (dims.map Descriptor.name_).Nodup
  inner : ∀ loop ∈ below, Proper loop
  own : dim_name ∈ dims.map Descriptor.name_ →
    LoopSetting ctx node dim_name (digits dim_name below) v

theorem NestSetting.rest {loop_end : Int} {i : Nat}
    (setting : NestSetting ctx node dim_name (loop :: dims) below v) :
    NestSetting ctx node dim_name dims below (loopState node loop loop_end i :: v) := by
  obtain ⟨absent, names⟩ := List.nodup_cons.mp setting.names
  refine ⟨fun l inside => setting.proper l (List.mem_cons_of_mem loop inside), names, setting.inner,
    fun inside => ?_⟩
  have other : loop.name_ ≠ dim_name := by
    rintro rfl
    exact absent inside
  have own := setting.own (List.mem_cons_of_mem loop.name_ inside)
  exact ⟨own.offset, fun root => (isLast_other other).trans (own.top root)⟩

theorem NestSetting.head (setting : NestSetting ctx node loop.name_ (loop :: dims) below v) :
    digits loop.name_ (dims ++ below) = digits loop.name_ below ∧
      LoopSetting ctx node loop.name_ (digits loop.name_ (dims ++ below)) v := by
  have absent := (List.nodup_cons.mp setting.names).1
  have same : digits loop.name_ (dims ++ below) = digits loop.name_ below := by
    rw [digits_append, digits_eq_nil absent, List.nil_append]
  exact ⟨same, same ▸ setting.own List.mem_cons_self⟩

theorem NestSetting.first (setting : NestSetting ctx node dim_name (loop :: dims) below v) {i : Nat}
    (bound : i < (loopEnd node loop v - loop.start).toNat) :
    CellIn ctx dim_name (digits dim_name (dims ++ below))
      (loopState node loop (loopEnd node loop v) i :: v)
        (digits dim_name (loop :: dims ++ below)) v := by
  by_cases same : loop.name_ = dim_name
  · subst same
    obtain ⟨rest, own⟩ := setting.head
    have proper : ∀ digit ∈ digits loop.name_ (dims ++ below), digit.Proper := by
      rw [rest]
      exact digits_proper setting.inner
    have inside := cellIn_loop own (setting.proper loop List.mem_cons_self).toParsed proper bound
    rwa [← digits_cons_self] at inside
  · rw [List.cons_append, digits_cons_ne same]
    exact cellIn_other same _

theorem cellIn_iterations (dims : List Descriptor) :
    ∀ v', NestSetting ctx node dim_name dims below v' → v ∈ iterations node dims v' →
      CellIn ctx dim_name (digits dim_name below) v (digits dim_name (dims ++ below)) v' := by
  induction dims with
  | nil =>
    intro v' setting member
    cases List.mem_singleton.mp member
    exact CellIn.refl _ v
  | cons loop dims ih =>
    intro v' setting member
    obtain ⟨i, bound, member⟩ := List.mem_flatMap.mp member
    exact (ih _ setting.rest member).trans (setting.first (List.mem_range.mp bound))

def Distinguished (ctx : PerfContext) (dim_name : String) (rest : List TailRadix)
    (v w : List LoopState) : Prop :=
  SameIndices [dim_name] v w ∧ Alike ctx dim_name v w ∨ Apart ctx dim_name rest v w

theorem NestSetting.distinguished (in_v : NestSetting ctx node dim_name (loop :: dims) below v)
    (in_w : NestSetting ctx node dim_name (loop :: dims) below w) {i j : Nat}
    (bound_i : i < (loopEnd node loop v - loop.start).toNat)
    (bound_j : j < (loopEnd node loop w - loop.start).toNat)
    (known : Distinguished ctx dim_name (digits dim_name (loop :: dims ++ below)) v w) :
    Distinguished ctx dim_name (digits dim_name (dims ++ below))
      (loopState node loop (loopEnd node loop v) i :: v)
        (loopState node loop (loopEnd node loop w) j :: w) := by
  rcases known with ⟨same, alike⟩ | apart
  · by_cases name : loop.name_ = dim_name
    · subst name
      by_cases index : i = j
      · subst index
        exact Or.inl ⟨List.Forall₂.cons (fun _ => rfl) same, alike.cons fun _ => rfl⟩
      · right
        obtain ⟨rest, own_v⟩ := in_v.head
        obtain ⟨_, own_w⟩ := in_w.head
        have parsed := (in_v.proper loop List.mem_cons_self).toParsed
        have proper : ∀ digit ∈ digits loop.name_ (dims ++ below), digit.Proper := by
          rw [rest]
          exact digits_proper in_v.inner
        have skew := alike.skew
        rw [Apart, skewOf_loopState own_v, skewOf_loopState own_w, isLast_stays own_v parsed,
          isLast_stays own_w parsed]
        rcases Nat.lt_or_gt_of_ne index with order | order
        · left
          have before := @sub_block_apart (radix loop) _ (isLast v loop.name_) i j proper (by omega)
          omega
        · right
          have before := @sub_block_apart (radix loop) _ (isLast w loop.name_) j i proper (by omega)
          omega
    · left
      refine ⟨List.Forall₂.cons (fun inside => ?_) same, alike.cons fun here => absurd here name⟩
      exact absurd (List.mem_singleton.mp inside) name
  · exact Or.inr (apart.inside (in_v.first bound_i) (in_w.first bound_j))

theorem distinguished_iterations (dims : List Descriptor) :
    ∀ v' w', NestSetting ctx node dim_name dims below v' → NestSetting ctx node dim_name dims below w' →
      v ∈ iterations node dims v' → w ∈ iterations node dims w' →
        Distinguished ctx dim_name (digits dim_name (dims ++ below)) v' w' →
          Distinguished ctx dim_name (digits dim_name below) v w := by
  induction dims with
  | nil =>
    intro v' w' _ _ at_v at_w known
    cases List.mem_singleton.mp at_v
    cases List.mem_singleton.mp at_w
    exact known
  | cons loop dims ih =>
    intro v' w' in_v in_w at_v at_w known
    obtain ⟨i, bound_i, at_v⟩ := List.mem_flatMap.mp at_v
    obtain ⟨j, bound_j, at_w⟩ := List.mem_flatMap.mp at_w
    exact ih _ _ in_v.rest in_w.rest at_v at_w
      (in_v.distinguished in_w (List.mem_range.mp bound_i) (List.mem_range.mp bound_j) known)

end LoopNest

/-- The offsets of the nodes above an Op are the weights of the loops on the way down to it. -/
structure OffsetsAlong (ctx : PerfContext) (dim_name : String) (op : NodePtr) : Prop where
  offset : ∀ q node, q ++ node = op → dim_name ∈ ctx.ev.dims node →
    (ctx.dim_offset_ node dim_name).1 = weight (digits dim_name (ctx.ev.loopsBelow node q))

def Evaluator.remaining (ev : Evaluator) (dim_name : String) (node : NodePtr) (q : Rose.Address) :
    List TailRadix :=
  digits dim_name (ev.loopnests_ node ++ ev.loopsBelow node q)

theorem loopsBelow_child (ptr : NodePtr) (q : Rose.Address) (i : Nat) :
    ev.loopsBelow ptr (q ++ [i]) = ev.loopnests_ (i :: ptr) ++ ev.loopsBelow (i :: ptr) q := by
  rw [loopsBelow_append]
  rfl

theorem remaining_child (dim_name : String) (ptr : NodePtr) (q : Rose.Address) (i : Nat) :
    ev.remaining dim_name ptr (q ++ [i]) = digits dim_name
      (ev.loopnests_ ptr ++ (ev.loopnests_ (i :: ptr) ++ ev.loopsBelow (i :: ptr) q)) := by
  rw [Evaluator.remaining, loopsBelow_child]

theorem Evaluator.ProperLoops.at (proper : ev.ProperLoops)
    (member : loop ∈ ev.loopnests_ node) : Proper loop := by
  cases found : ev.root_.get? node with
  | none =>
    rw [Evaluator.loopnests_, Evaluator.ori_node_, found] at member
    cases member
  | some sub =>
    exact proper node (InitAnalysis.mem_positions.mpr (by rw [found]; rfl)) loop member

theorem Evaluator.ProperLoops.lower (proper : ev.ProperLoops) (node : NodePtr) (q : Rose.Address) :
    ∀ loop ∈ ev.loopsBelow node q, Proper loop := by
  induction q with
  | nil => exact fun loop member => absurd member List.not_mem_nil
  | cons i q ih =>
    intro loop member
    rcases List.mem_append.mp member with above | here
    · exact ih loop above
    · exact proper.at here

theorem Evaluator.ProperLoops.own_below (proper : ev.ProperLoops) (node : NodePtr)
    (q : Rose.Address) : ∀ loop ∈ ev.loopnests_ node ++ ev.loopsBelow node q, Proper loop := by
  intro loop member
  rcases List.mem_append.mp member with own | below
  · exact proper.at own
  · exact proper.lower node q loop below

theorem Evaluator.ProperLoops.remaining (proper : ev.ProperLoops) (dim_name : String)
    (node : NodePtr) (q : Rose.Address) : ∀ digit ∈ ev.remaining dim_name node q, digit.Proper :=
  digits_proper (proper.own_below node q)

namespace LoopNest

theorem nestSetting (proper : ctx.ev.ProperLoops) (distinct : ctx.ev.DistinctDims) {ptr : NodePtr}
    {i : Nat} (along : OffsetsAlong ctx dim_name (q ++ i :: ptr))
    (found : (ctx.ev.root_.get? ptr).isSome) (visited : v ∈ visits ctx.ev ptr) :
    NestSetting ctx ptr dim_name (ctx.ev.loopnests_ ptr)
      (ctx.ev.loopnests_ (i :: ptr) ++ ctx.ev.loopsBelow (i :: ptr) q) v := by
  refine ⟨fun loop member => proper.at member, distinct ptr (InitAnalysis.mem_positions.mpr found),
    proper.own_below (i :: ptr) q, fun own => ⟨?_, fun top => ?_⟩⟩
  · rw [along.offset (q ++ [i]) ptr (by simp) own, loopsBelow_child]
  · cases ptr with
    | nil =>
      cases List.mem_singleton.mp visited
      rfl
    | cons j ptr => cases top

theorem remaining_of_scope {ptr : NodePtr} {i : Nat} (none : ev.loopnests_ ptr = []) :
    ev.remaining dim_name ptr (q ++ [i]) = ev.remaining dim_name (i :: ptr) q := by
  rw [remaining_child, none, List.nil_append, Evaluator.remaining]

/-- A visit covers part of the number line, and the end of it when it is inside last iterations
    only. -/
theorem cellIn_visits (proper : ctx.ev.ProperLoops) (distinct : ctx.ev.DistinctDims)
    (node : NodePtr) : ∀ q v, OffsetsAlong ctx dim_name (q ++ node) →
      (ctx.ev.root_.get? node).isSome → v ∈ visits ctx.ev node →
        CellIn ctx dim_name (ctx.ev.remaining dim_name node q) v
          (ctx.ev.remaining dim_name [] (q ++ node)) [] := by
  induction node with
  | nil =>
    intro q v _ _ member
    cases List.mem_singleton.mp member
    rw [List.append_nil]
    exact CellIn.refl _ []
  | cons i ptr ih =>
    intro q v along found member
    have path : (q ++ [i]) ++ ptr = q ++ i :: ptr := by simp
    have above := Evaluator.isSome_get?_parent found
    obtain ⟨outer, visited, member⟩ := List.mem_flatMap.mp member
    have whole := ih (q ++ [i]) outer (path.symm ▸ along) above visited
    rw [path] at whole
    rcases mem_childVisits.mp member with ⟨_, _, inner⟩ | ⟨_, none, rfl⟩
    · rw [remaining_child] at whole
      exact (cellIn_iterations _ outer (nestSetting proper distinct along above visited) inner).trans
        whole
    · rwa [remaining_of_scope none] at whole

/-- Visits at different indices of a dimension cover parts of it that do not overlap. -/
theorem distinguished_visits (proper : ctx.ev.ProperLoops) (distinct : ctx.ev.DistinctDims)
    (node : NodePtr) : ∀ q v w, OffsetsAlong ctx dim_name (q ++ node) →
      (ctx.ev.root_.get? node).isSome → v ∈ visits ctx.ev node → w ∈ visits ctx.ev node →
        Distinguished ctx dim_name (ctx.ev.remaining dim_name node q) v w := by
  induction node with
  | nil =>
    intro q v w _ _ at_v at_w
    cases List.mem_singleton.mp at_v
    cases List.mem_singleton.mp at_w
    exact Or.inl ⟨List.Forall₂.nil, rfl, rfl⟩
  | cons i ptr ih =>
    intro q v w along found at_v at_w
    have path : (q ++ [i]) ++ ptr = q ++ i :: ptr := by simp
    have above := Evaluator.isSome_get?_parent found
    obtain ⟨v', visited_v, at_v⟩ := List.mem_flatMap.mp at_v
    obtain ⟨w', visited_w, at_w⟩ := List.mem_flatMap.mp at_w
    have known := ih (q ++ [i]) v' w' (path.symm ▸ along) above visited_v visited_w
    rcases mem_childVisits.mp at_v with ⟨tile, _, inner_v⟩ | ⟨scope, none, rfl⟩
    · rcases mem_childVisits.mp at_w with ⟨_, _, inner_w⟩ | ⟨scope, _, _⟩
      · rw [remaining_child] at known
        exact distinguished_iterations _ v' w' (nestSetting proper distinct along above visited_v)
          (nestSetting proper distinct along above visited_w) inner_v inner_w known
      · cases tile.symm.trans scope
    · rcases mem_childVisits.mp at_w with ⟨tile, _, _⟩ | ⟨_, _, rfl⟩
      · cases scope.symm.trans tile
      · rwa [remaining_of_scope none] at known

end LoopNest

theorem offsetsAlong_single (setting : RangeSetting ctx) (single : ctx.ev.SingleOperator)
    (op_node : ctx.ev.IsOp op) (dim_name : String) : OffsetsAlong ctx dim_name op := by
  constructor
  intro q node path own
  have found : (ctx.ev.root_.get? node).isSome :=
    Evaluator.isSome_get?_above (path.symm ▸ op_node.1 : (ctx.ev.root_.get? (q ++ node)).isSome)
  obtain ⟨r, chain⟩ := exists_chain setting.accepted setting.distinct setting.offsets dim_name node
    found own
  have same : r ++ node = q ++ node := by
    rw [path]
    exact single _ (InitAnalysis.mem_positions.mpr chain.op.1) _
      (InitAnalysis.mem_positions.mpr op_node.1) chain.op.2 op_node.2
  obtain rfl := List.append_cancel_right same
  rw [PerfContext.dim_offset_, chain.dim_offset_, prod_ends_eq]
  rfl

end TileExp.Analysis
