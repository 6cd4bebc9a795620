import Latias.Counts.Accepted
import Latias.Offsets.Total
import Latias.Visits.SmallSteps

/-! The offset of a node counts the loops below it, on the way to some Op. -/

namespace TileExp.Analysis

open Checked

variable {ev : Evaluator} {offsets : EvaOffsets} {node : NodePtr} {dim_name : String}
  {q r : Rose.Address}

/-- The loops strictly below a node, on the way to the node `q ++ node`, from the top. -/
def Evaluator.loopsBelow (ev : Evaluator) (node : NodePtr) : Rose.Address → List Descriptor
  | [] => []
  | i :: q => ev.loopsBelow node q ++ ev.loopnests_ (i :: (q ++ node))

theorem loopsBelow_append (r q : Rose.Address) :
    ev.loopsBelow node (r ++ q) = ev.loopsBelow node q ++ ev.loopsBelow (q ++ node) r := by
  induction r with
  | nil => exact (List.append_nil _).symm
  | cons i r ih =>
    rw [List.cons_append, Evaluator.loopsBelow, ih, Evaluator.loopsBelow, List.append_assoc,
      List.append_assoc r q node]

theorem opNests_split (leaves : ev.LeafOps) (found : (ev.root_.get? (q ++ node)).isSome) :
    (ev.opNests (q ++ node)).flatten =
      (ev.tileNests node).flatten ++ (ev.loopnests_ node ++ ev.loopsBelow node q) := by
  induction q with
  | nil => simp [Evaluator.opNests, Evaluator.loopsBelow]
  | cons i q ih =>
    have above := Evaluator.isSome_get?_parent found
    have inner := InitAnalysis.not_isLeaf_of_ancestor leaves found List.mem_cons_self
    have down : (ev.tileNests (i :: (q ++ node))).flatten = (ev.opNests (q ++ node)).flatten := by
      rw [Evaluator.tileNests, Evaluator.opNests]
      cases kind : ev.get_type (q ++ node) with
      | Tile => rfl
      | Scope => simp [InitAnalysis.loopnests_of_scope kind]
      | Op => simp [InitAnalysis.isLeaf, kind] at inner
      | Trans => simp [InitAnalysis.isLeaf, kind] at inner
    rw [List.cons_append, Evaluator.opNests, List.flatten_append, down, ih above, List.append_assoc,
      List.append_assoc, Evaluator.loopsBelow]
    simp

theorem ofDim_loopsBelow_eq_nil
    (absent : ∀ r, r ≠ [] → r <:+ q → dim_name ∉ ev.dims (r ++ node)) :
    ofDim dim_name (ev.loopsBelow node q) = [] := by
  induction q with
  | nil => rfl
  | cons i q ih =>
    have here : ofDim dim_name (ev.loopnests_ (i :: (q ++ node))) = [] :=
      ofDim_eq_nil.mpr (absent (i :: q) (List.cons_ne_nil i q) List.suffix_rfl)
    rw [Evaluator.loopsBelow, ofDim_append, here, List.append_nil]
    exact ih fun r some below => absent r some (below.trans (List.suffix_cons i q))

theorem ofDim_loopsBelow_carrier (carries : ∀ node name,
      (offsets.dim_offset_ node name).isSome ↔ name ∈ ev.dims node) {i : Nat}
    (carrier : Carrier ev offsets dim_name (i :: node) (q ++ node)) :
    ofDim dim_name (ev.loopsBelow node q) = ofDim dim_name (ev.loopnests_ (q ++ node)) := by
  have longer := carrier.under.length_le
  cases q with
  | nil => simp at longer
  | cons j q =>
    have above : ofDim dim_name (ev.loopsBelow node q) = [] := by
      refine ofDim_loopsBelow_eq_nil fun r some below member => ?_
      have path : r ++ node <:+ j :: (q ++ node) := by
        obtain ⟨s, rfl⟩ := below
        exact ⟨j :: s, by simp⟩
      have proper : r ++ node ≠ j :: (q ++ node) := by
        intro same
        have lengths := congrArg List.length same
        have bound := below.length_le
        simp only [List.length_append, List.length_cons] at lengths
        omega
      have lower : (i :: node) <:+ r ++ node := by
        apply List.suffix_of_suffix_length_le carrier.under path
        have positive := List.length_pos_iff.mpr some
        simp only [List.length_append, List.length_cons]
        omega
      have none := carrier.first (r ++ node) lower path proper
      have present := (carries (r ++ node) dim_name).mpr member
      rw [none] at present
      cases present
    rw [Evaluator.loopsBelow, ofDim_append, above, List.nil_append]
    rfl

theorem exists_ofDim_loopnests (distinct : ev.DistinctDims) (found : (ev.root_.get? node).isSome)
    (member : dim_name ∈ ev.dims node) : ∃ loop ∈ ev.loopnests_ node,
      loop.name_ = dim_name ∧ ofDim dim_name (ev.loopnests_ node) = [loop] ∧
        lastBounds (ev.loopnests_ node) dim_name = (loop.end_, loop.residual_end) := by
  obtain ⟨loop, inside, rfl, bounds⟩ := exists_lastBounds (ev.loopnests_ node) member
  refine ⟨loop, inside, rfl, ?_, bounds⟩
  have names := distinct node (InitAnalysis.mem_positions.mpr found)
  have single : (ofDim loop.name_ (ev.loopnests_ node)).length ≤ 1 := by
    have once := List.nodup_iff_count_le_one.mp names loop.name_
    rw [List.count, List.countP_map, List.countP_eq_length_filter] at once
    refine le_trans (le_of_eq (congrArg List.length ?_)) once
    exact List.filter_congr fun l _ => (beq_eq_decide (a := l.name_) (b := loop.name_)).symm
  have here : loop ∈ ofDim loop.name_ (ev.loopnests_ node) := by simp [ofDim, inside]
  obtain ⟨only, same⟩ := List.length_eq_one_iff.mp
    (Nat.le_antisymm single (List.length_pos_of_mem here))
  rw [same] at here ⊢
  rw [List.mem_singleton.mp here]

/-- The offsets of a node count the loops over the dimension on the way down to an Op. -/
structure ChainAt (ev : Evaluator) (offsets : EvaOffsets) (dim_name : String) (node : NodePtr)
    (q : Rose.Address) : Prop where
  op : ev.IsOp (q ++ node)
  dim_offset_ : offsets.dim_offset_ node dim_name =
    some ((ofDim dim_name (ev.loopsBelow node q)).map Descriptor.end_).prod
  last_dim_offset_ : offsets.last_dim_offset_ node dim_name =
    some (GetLoopCount.dimCount (ofDim dim_name (ev.loopsBelow node q)))

theorem isOp_of_childless (accepted : ev.Accepted) (found : (ev.root_.get? node).isSome)
    (leaf : (ev.ori_node_ node).children = []) (member : dim_name ∈ ev.dims node) :
    ev.IsOp node := by
  refine ⟨found, ?_⟩
  have inner := accepted.inner node (InitAnalysis.mem_positions.mpr found)
  cases kind : ev.get_type node with
  | Op => rfl
  | Tile => exact absurd leaf (inner (Or.inl kind))
  | Scope => exact absurd leaf (inner (Or.inr kind))
  | Trans =>
    rw [Evaluator.dims, InitAnalysis.loopnests_of_trans kind] at member
    cases member

structure PathPair (ev : Evaluator) (dim_name : String) (node : NodePtr) (q : Rose.Address)
    (pair : StEd × StEd) : Prop where
  op : ev.IsOp (q ++ node)
  looped : ofDim dim_name (ev.loopsBelow node q) ≠ []
  dim_offset_ : pair.2.1 * pair.1.1 = ((ofDim dim_name (ev.loopsBelow node q)).map Descriptor.end_).prod
  last_dim_offset_ : (pair.2.2 - 1) * pair.1.1 + pair.1.2 =
    GetLoopCount.dimCount (ofDim dim_name (ev.loopsBelow node q))

theorem ChainAt.path {i : Nat} (chain : ChainAt ev offsets dim_name (q ++ node) r)
    (distinct : ev.DistinctDims) (carries : InitAnalysis.Carries ev offsets)
    (carrier : Carrier ev offsets dim_name (i :: node) (q ++ node)) :
    PathPair ev dim_name node (r ++ q) (carrierPair ev offsets dim_name (q ++ node)) := by
  have carried := (carries (q ++ node) dim_name).mp carrier.carries
  obtain ⟨loop, _, _, single, bounds⟩ := exists_ofDim_loopnests distinct carrier.found carried
  have path : ofDim dim_name (ev.loopsBelow node (r ++ q)) =
      loop :: ofDim dim_name (ev.loopsBelow (q ++ node) r) := by
    rw [loopsBelow_append, ofDim_append, ofDim_loopsBelow_carrier carries carrier, single]
    rfl
  have pair : carrierPair ev offsets dim_name (q ++ node) =
      ((((ofDim dim_name (ev.loopsBelow (q ++ node) r)).map Descriptor.end_).prod,
        GetLoopCount.dimCount (ofDim dim_name (ev.loopsBelow (q ++ node) r))),
          (loop.end_, loop.residual_end)) := by
    rw [carrierPair, chain.dim_offset_, chain.last_dim_offset_, bounds]
    rfl
  constructor
  · rw [List.append_assoc]
    exact chain.op
  · rw [path]
    exact List.cons_ne_nil _ _
  · rw [pair, path, List.map_cons, List.prod_cons]
  · rw [pair, path, GetLoopCount.dimCount_cons]

theorem apart_of_carrier {i : Nat} (carrier : Carrier ev offsets dim_name (i :: node) (q ++ node)) :
    q ++ node ≠ node := by
  intro same
  have longer := carrier.under.length_le
  rw [same, List.length_cons] at longer
  omega

theorem exists_chain (accepted : ev.Accepted) (distinct : ev.DistinctDims)
    (init : InitAnalysis.OffsetsInit ev offsets) (dim_name : String) (node : NodePtr)
    (found : (ev.root_.get? node).isSome) :
    dim_name ∈ ev.dims node → ∃ q, ChainAt ev offsets dim_name node q := by
  refine Evaluator.below_induction (fun node found below member => ?_) node found
  by_cases leaf : (ev.ori_node_ node).children = []
  · obtain ⟨dim, last⟩ := (init.settled node found).leaf leaf dim_name member
    exact ⟨[], isOp_of_childless accepted found leaf member, dim, last⟩
  · obtain ⟨i, q, carrier, value⟩ := InitAnalysis.exists_carrier_below init found leaf member
    have carried := (init.carries (q ++ node) dim_name).mp carrier.carries
    obtain ⟨r, chain⟩ := below (q ++ node) (List.suffix_append q node) (apart_of_carrier carrier)
      carrier.found carried
    have path := chain.path distinct init.carries carrier
    exact ⟨r ++ q, path.op, by rw [value.dim_offset_, path.dim_offset_],
      by rw [value.last_dim_offset_, path.last_dim_offset_]⟩

/-- `BFSOffsetLoop` on any child returns what the loops on the way to some Op give. -/
theorem exists_path (accepted : ev.Accepted) (distinct : ev.DistinctDims)
    (init : InitAnalysis.OffsetsInit ev offsets) {i : Nat} {pair : StEd × StEd}
    (found : (ev.root_.get? (i :: node)).isSome)
    (call : BFSOffsetLoop ev offsets (i :: node) dim_name = some pair) :
    ∃ q, PathPair ev dim_name node q pair := by
  obtain ⟨carrier_node, carrier, rfl⟩ := BFSOffsetLoop_eq_some found call
  obtain ⟨q, rfl⟩ := (List.suffix_cons i node).trans carrier.under
  obtain ⟨r, chain⟩ := exists_chain accepted distinct init dim_name (q ++ node) carrier.found
    ((init.carries (q ++ node) dim_name).mp carrier.carries)
  exact ⟨r ++ q, chain.path distinct init.carries carrier⟩

theorem exists_path_below (accepted : ev.Accepted) (distinct : ev.DistinctDims)
    (init : InitAnalysis.OffsetsInit ev offsets) (found : (ev.root_.get? node).isSome)
    (inner : (ev.ori_node_ node).children ≠ []) (member : dim_name ∈ ev.dims node) :
    ∃ q pair, PathPair ev dim_name node q pair ∧
      InitAnalysis.OffsetFrom offsets node dim_name pair := by
  obtain ⟨i, q, carrier, value⟩ := InitAnalysis.exists_carrier_below init found inner member
  obtain ⟨r, chain⟩ := exists_chain accepted distinct init dim_name (q ++ node) carrier.found
    ((init.carries (q ++ node) dim_name).mp carrier.carries)
  exact ⟨r ++ q, _, chain.path distinct init.carries carrier, value⟩

end TileExp.Analysis
