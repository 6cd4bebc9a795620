import Latias.Analysis.Config
import Latias.Library.Reorder
import Latias.Offsets.Chain
import Latias.Offsets.Positive

/-! The offsets of a tree, and of the same tree with the children of its nodes in another order. -/

namespace TileExp.Analysis

open Checked GetLoopCount InitAnalysis

def Evaluator.withRoot (ev : Evaluator) (root_ : Node) : Evaluator := { ev with root_ }

section Moved

variable {ev : Evaluator} {t' : Node} (r : Rose.Reordering ev.root_ t') {node : NodePtr}

theorem info_moved (node : NodePtr) :
    ((ev.withRoot t').ori_node_ (r.moved node)).value = (ev.ori_node_ node).value := by
  have same := r.value node
  unfold Evaluator.ori_node_ Evaluator.withRoot
  cases here : ev.root_.get? node with
  | none =>
    rw [here, Option.map_none, Option.map_eq_none_iff] at same
    rw [same]
  | some sub =>
    rw [here, Option.map_some] at same
    obtain ⟨sub', there, value⟩ := Option.map_eq_some_iff.mp same
    rw [there]
    exact value

theorem get_type_moved (node : NodePtr) :
    (ev.withRoot t').get_type (r.moved node) = ev.get_type node := by
  unfold Evaluator.get_type Node.get_type
  rw [info_moved r]

theorem loopnests_moved (node : NodePtr) :
    (ev.withRoot t').loopnests_ (r.moved node) = ev.loopnests_ node := by
  unfold Evaluator.loopnests_ Node.loopnests_
  rw [info_moved r]

theorem dims_moved (node : NodePtr) : (ev.withRoot t').dims (r.moved node) = ev.dims node := by
  rw [Evaluator.dims, loopnests_moved r, Evaluator.dims]

theorem isSome_moved (node : NodePtr) :
    ((ev.withRoot t').root_.get? (r.moved node)).isSome ↔ (ev.root_.get? node).isSome := by
  have same := r.isSome_get? node
  exact Bool.eq_iff_iff.mp same

theorem exists_child_iff (found : (ev.root_.get? node).isSome) :
    (∃ i, (ev.root_.get? (i :: node)).isSome) ↔ (ev.ori_node_ node).children ≠ [] := by
  obtain ⟨sub, found⟩ := Option.isSome_iff_exists.mp found
  rw [Evaluator.ori_node_of_get? found]
  constructor
  · rintro ⟨i, inside⟩ none
    rw [Rose.get?_cons, found, Option.bind_some, none] at inside
    cases inside
  · intro some
    refine ⟨0, ?_⟩
    rw [Rose.get?_cons, found, Option.bind_some, isSome_getElem?]
    exact List.length_pos_of_ne_nil some

theorem children_moved (found : (ev.root_.get? node).isSome) :
    ((ev.withRoot t').ori_node_ (r.moved node)).children ≠ [] ↔
      (ev.ori_node_ node).children ≠ [] := by
  rw [← exists_child_iff found, ← exists_child_iff ((isSome_moved r node).mpr found)]
  constructor
  · rintro ⟨j, inside⟩
    obtain ⟨i, back⟩ := r.symm.child j (r.moved node)
    rw [r.symm_moved] at back
    refine ⟨i, ?_⟩
    rw [← back, ← isSome_moved r, r.moved_symm]
    exact inside
  · rintro ⟨i, inside⟩
    obtain ⟨j, there⟩ := r.child i node
    exact ⟨j, by rw [← there, isSome_moved r]; exact inside⟩

theorem isOp_moved (node : NodePtr) : (ev.withRoot t').IsOp (r.moved node) ↔ ev.IsOp node := by
  unfold Evaluator.IsOp
  rw [isSome_moved r, get_type_moved r]

theorem tileNests_moved (node : NodePtr) :
    (ev.withRoot t').tileNests (r.moved node) = ev.tileNests node := by
  induction node with
  | nil =>
    rw [r.root]
    rfl
  | cons i parent ih =>
    obtain ⟨j, there⟩ := r.child i parent
    rw [there, Evaluator.tileNests, Evaluator.tileNests, ih, get_type_moved r, loopnests_moved r]

theorem opNests_moved (node : NodePtr) :
    (ev.withRoot t').opNests (r.moved node) = ev.opNests node := by
  rw [Evaluator.opNests, Evaluator.opNests, tileNests_moved r, loopnests_moved r]

theorem loopsBelow_moved (q q' : Rose.Address) (node : NodePtr)
    (below : r.moved (q ++ node) = q' ++ r.moved node) :
    (ev.withRoot t').loopsBelow (r.moved node) q' = ev.loopsBelow node q := by
  induction q generalizing q' with
  | nil =>
    have none : q' = [] := List.append_left_eq_self.mp below.symm
    rw [none]
    rfl
  | cons i q ih =>
    obtain ⟨j, there⟩ := r.child i (q ++ node)
    rw [List.cons_append, there] at below
    cases q' with
    | nil =>
      obtain ⟨q'', deeper, _⟩ := r.moved_append q node
      rw [deeper] at below
      have lengths := congrArg List.length below
      simp only [List.length_cons, List.length_append, List.nil_append] at lengths
      omega
    | cons k q' =>
      injection below with same rest
      rw [Evaluator.loopsBelow, Evaluator.loopsBelow, ih q' rest, ← loopnests_moved r, there, rest,
        same]
      rfl

theorem mem_positions_moved (moved : NodePtr)
    (member : moved ∈ Rose.postorder [] (ev.withRoot t').root_) :
    ∃ node ∈ Rose.postorder [] ev.root_, moved = r.moved node := by
  refine ⟨r.symm.moved moved, ?_, (r.moved_symm moved).symm⟩
  rw [mem_positions, ← isSome_moved r, r.moved_symm]
  exact mem_positions.mp member

include r

theorem Evaluator.DistinctDims.moved (distinct : ev.DistinctDims) :
    (ev.withRoot t').DistinctDims := by
  intro node' member
  obtain ⟨node, inside, rfl⟩ := mem_positions_moved r node' member
  rw [loopnests_moved r]
  exact distinct node inside

theorem Evaluator.Accepted.moved (accepted : ev.Accepted) : (ev.withRoot t').Accepted := by
  constructor
  · rw [← r.root, get_type_moved r]
    exact accepted.root
  · intro node' member kind
    obtain ⟨node, inside, rfl⟩ := mem_positions_moved r node' member
    rw [get_type_moved r] at kind
    have none := List.length_eq_zero_iff.mp (accepted.leaves node inside kind)
    apply List.length_eq_zero_iff.mpr
    by_contra some
    exact (children_moved r (mem_positions.mp inside)).mp some none
  · intro node' member kind
    obtain ⟨node, inside, rfl⟩ := mem_positions_moved r node' member
    rw [get_type_moved r] at kind
    exact (children_moved r (mem_positions.mp inside)).mpr (accepted.inner node inside kind)
  · intro op' op_node' dim_name member
    obtain ⟨op, _, rfl⟩ := mem_positions_moved r op' (mem_positions.mpr op_node'.1)
    rw [opNests_moved r] at member ⊢
    exact accepted.bounded op ((isOp_moved r op).mp op_node') dim_name member

theorem InitAnalysis.LoopedBelow.moved (looped : LoopedBelow ev) : LoopedBelow (ev.withRoot t') := by
  intro node' found inner dim_name member
  obtain ⟨node, inside, rfl⟩ := mem_positions_moved r node' (mem_positions.mpr found)
  have found := mem_positions.mp inside
  rw [dims_moved r] at member
  obtain ⟨ptr, under, apart, own⟩ := looped node found ((children_moved r found).mp inner) dim_name
    member
  exact ⟨r.moved ptr, r.moved_suffix under, r.moved.injective.ne apart, by rwa [dims_moved r]⟩

theorem PathPair.moved {dim_name : String} {q' : Rose.Address} {pair : StEd × StEd}
    (path : PathPair (ev.withRoot t') dim_name (r.moved node) q' pair) :
    ∃ q, PathPair ev dim_name node q pair := by
  obtain ⟨q, back, _⟩ := r.symm.moved_append q' (r.moved node)
  rw [r.symm_moved] at back
  have there : r.moved (q ++ node) = q' ++ r.moved node := by rw [← back, r.moved_symm]
  have loops := loopsBelow_moved r q q' node there
  refine ⟨q, (isOp_moved r _).mp (there ▸ path.op), ?_, ?_, ?_⟩
  · rw [← loops]
    exact path.looped
  · rw [← loops]
    exact path.dim_offset_
  · rw [← loops]
    exact path.last_dim_offset_

end Moved

namespace InitAnalysis

def offsetPasses (ev : Evaluator) (s : NodePtr × InitState) : Exec (NodePtr × InitState) := do
  let s ← traverse ev (initOffset ev) (fun _ _ s => .ok s) ev.root_ s
  traverse ev (fun _ _ s => .ok s) (getOffset ev) ev.root_ s

theorem offsetPasses_eq (ev : Evaluator) (s : InitState) : offsetPasses ev ([], s) = (do
    let s ← (Rose.preorder [] ev.root_).foldlM
      (fun s ptr => initOffset ev (ev.ori_node_ ptr) ptr s) s
    let s ← (Rose.postorder [] ev.root_).foldlM
      (fun s ptr => getOffset ev (ev.ori_node_ ptr) ptr s) s
    .ok ([], s)) := by
  have found : ev.root_.get? [] = some ev.root_ := rfl
  simp only [offsetPasses, traverse_before ev _ [] ev.root_ found,
    traverse_after ev _ [] ev.root_ found, up, get_parent, Option.getD_none, bind_assoc, ok_bind]

theorem offsetPasses_init {ev : Evaluator} {s : InitState} {done : NodePtr × InitState}
    (own : OwnDims ev s.toEvaOffsets) (run : offsetPasses ev ([], s) = .ok done) :
    OffsetsInit ev done.2.toEvaOffsets := by
  rw [offsetPasses_eq] at run
  obtain ⟨s₁, first, run⟩ := bind_eq_ok.mp run
  obtain ⟨s₂, second, result⟩ := bind_eq_ok.mp run
  cases result
  exact getOffsets_settled (initOffsets_carries own first) second

end InitAnalysis

/-- How often the loops over a dimension run down to a Tile, its own included, as `get_loop_count`
    counts. -/
def Evaluator.countDown (ev : Evaluator) (node : NodePtr) (dim_name : String) : Int :=
  dimCount (ofDim dim_name (ev.opNests node).flatten)

/-- Below a Tile the loops over a dimension multiply to the same on the way to every Op that has
    some there. -/
def Evaluator.SameEnds (ev : Evaluator) (node : NodePtr) (dim_name : String) : Prop :=
  ∀ q q', ev.IsOp (q ++ node) → ev.IsOp (q' ++ node) →
    ofDim dim_name (ev.loopsBelow node q) ≠ [] → ofDim dim_name (ev.loopsBelow node q') ≠ [] →
      ((ofDim dim_name (ev.loopsBelow node q)).map Descriptor.end_).prod =
        ((ofDim dim_name (ev.loopsBelow node q')).map Descriptor.end_).prod

def Evaluator.NoTails (ev : Evaluator) (node : NodePtr) (dim_name : String) : Prop :=
  ∀ ptr ∈ Rose.postorder [] ev.root_, node <:+ ptr → ptr ≠ node → ∀ loop ∈ ev.loopnests_ ptr,
    loop.name_ = dim_name → loop.residual_end = loop.end_

instance (ev : Evaluator) (node : NodePtr) (dim_name : String) :
    Decidable (ev.NoTails node dim_name) :=
  inferInstanceAs (Decidable (∀ ptr ∈ Rose.postorder [] ev.root_, _))

/-- What the order of the children does not change: the last index that a Tile's step and its last
    extent reach, and both of them where the ways down agree. -/
structure OrderFree (ev : Evaluator) (offsets offsets' : EvaOffsets) (node node' : NodePtr)
    (dim_name : String) : Prop where
  reach : ∃ step last step' last',
    offsets.dim_offset_ node dim_name = some step ∧
    offsets.last_dim_offset_ node dim_name = some last ∧
    offsets'.dim_offset_ node' dim_name = some step' ∧
    offsets'.last_dim_offset_ node' dim_name = some last' ∧
    (ev.countDown node dim_name - 1) * step + last =
      (ev.countDown node dim_name - 1) * step' + last'
  same : ev.SameEnds node dim_name ∨ ev.NoTails node dim_name →
    offsets'.dim_offset_ node' dim_name = offsets.dim_offset_ node dim_name ∧
      offsets'.last_dim_offset_ node' dim_name = offsets.last_dim_offset_ node dim_name
  every : ev.SameEnds node dim_name ∨ ev.NoTails node dim_name →
    ∀ child ∈ ev.get_children node, ∀ pair, BFSOffsetLoop ev offsets child dim_name = some pair →
      OffsetFrom offsets node dim_name pair

variable {ev : Evaluator} {node : NodePtr} {dim_name : String} {q q' : Rose.Address}
  {pair pair' : StEd × StEd}

theorem PathPair.bound (path : PathPair ev dim_name node q pair) (accepted : ev.Accepted)
    (member : dim_name ∈ ev.dims node) :
    ev.workloads_.factorized_bound dim_name =
      (ev.countDown node dim_name - 1) * (pair.2.1 * pair.1.1) +
        ((pair.2.2 - 1) * pair.1.1 + pair.1.2) := by
  have split : (ev.opNests (q ++ node)).flatten =
      (ev.opNests node).flatten ++ ev.loopsBelow node q := by
    rw [opNests_split accepted.leaves path.op.1, Evaluator.opNests, List.flatten_append,
      List.append_assoc]
    simp
  have counted : dim_name ∈ (ev.opNests (q ++ node)).flatten.map Descriptor.name_ := by
    rw [split, List.map_append]
    apply List.mem_append_left
    simp only [Evaluator.opNests, List.flatten_append, List.map_append, List.mem_append]
    right
    simpa [Evaluator.dims] using member
  rw [accepted.bounded _ path.op dim_name counted, split, ofDim_append, dimCount_append,
    path.dim_offset_, path.last_dim_offset_]
  rfl

theorem dimCount_of_noTails {loops : List Descriptor}
    (full : ∀ loop ∈ loops, loop.residual_end = loop.end_) :
    dimCount loops = (loops.map Descriptor.end_).prod := by
  induction loops with
  | nil => rfl
  | cons loop loops ih =>
    obtain ⟨here, rest⟩ := List.forall_mem_cons.mp full
    rw [dimCount_cons, ih rest, here, List.map_cons, List.prod_cons]
    ring

theorem mem_loopsBelow {loop : Descriptor} (member : loop ∈ ev.loopsBelow node q) :
    ∃ ptr, node <:+ ptr ∧ ptr ≠ node ∧ loop ∈ ev.loopnests_ ptr := by
  induction q with
  | nil => cases member
  | cons i q ih =>
    rcases List.mem_append.mp member with above | here
    · exact ih above
    · refine ⟨i :: (q ++ node), List.suffix_append (i :: q) node, ?_, here⟩
      intro same
      have lengths := congrArg List.length same
      simp only [List.length_cons, List.length_append] at lengths
      omega

theorem PathPair.full (path : PathPair ev dim_name node q pair)
    (full : ev.NoTails node dim_name) :
    (pair.2.2 - 1) * pair.1.1 + pair.1.2 = pair.2.1 * pair.1.1 := by
  rw [path.dim_offset_, path.last_dim_offset_]
  apply dimCount_of_noTails
  intro loop member
  obtain ⟨inside, name⟩ := List.mem_filter.mp member
  obtain ⟨ptr, under, apart, own⟩ := mem_loopsBelow inside
  exact full ptr (mem_positions.mpr (Evaluator.isSome_get?_of_loop own)) under apart loop own
    (of_decide_eq_true name)

theorem countDown_pos (positive : ev.PositiveBounds) (node : NodePtr) (dim_name : String) :
    1 ≤ ev.countDown node dim_name := by
  apply dimCount_pos
  intro loop member
  have inside := List.mem_of_mem_filter member
  rw [Evaluator.opNests, List.flatten_append, List.mem_append] at inside
  rcases inside with above | here
  · obtain ⟨ptr, own⟩ := mem_tileNests node above
    exact (positive.at own).symm
  · have own : loop ∈ ev.loopnests_ node := by simpa using here
    exact (positive.at own).symm

theorem PathPair.same (path : PathPair ev dim_name node q pair)
    (path' : PathPair ev dim_name node q' pair') (accepted : ev.Accepted)
    (positive : ev.PositiveBounds) (member : dim_name ∈ ev.dims node)
    (agree : ev.SameEnds node dim_name ∨ ev.NoTails node dim_name) :
    pair'.2.1 * pair'.1.1 = pair.2.1 * pair.1.1 ∧
      (pair'.2.2 - 1) * pair'.1.1 + pair'.1.2 = (pair.2.2 - 1) * pair.1.1 + pair.1.2 := by
  have bound := path.bound accepted member
  have bound' := path'.bound accepted member
  rw [bound] at bound'
  have products : pair'.2.1 * pair'.1.1 = pair.2.1 * pair.1.1 := by
    rcases agree with ends | full
    · rw [path.dim_offset_, path'.dim_offset_]
      exact ends q' q path'.op path.op path'.looped path.looped
    · have down := countDown_pos positive node dim_name
      rw [path.full full, path'.full full] at bound'
      have scaled : ev.countDown node dim_name * (pair'.2.1 * pair'.1.1) =
          ev.countDown node dim_name * (pair.2.1 * pair.1.1) := by
        calc ev.countDown node dim_name * (pair'.2.1 * pair'.1.1)
            = (ev.countDown node dim_name - 1) * (pair'.2.1 * pair'.1.1) +
                pair'.2.1 * pair'.1.1 := by ring
          _ = (ev.countDown node dim_name - 1) * (pair.2.1 * pair.1.1) + pair.2.1 * pair.1.1 :=
              bound'.symm
          _ = ev.countDown node dim_name * (pair.2.1 * pair.1.1) := by ring
      exact Int.eq_of_mul_eq_mul_left (by omega) scaled
  refine ⟨products, ?_⟩
  rw [products] at bound'
  omega

theorem ownDims_fresh (ev : Evaluator) : OwnDims ev (initial (EvaTree.fresh ev)).toEvaOffsets :=
  fun _ _ some => absurd some (by simp [initial, EvaTree.fresh])

/-- The offset passes on a tree and on the same tree with the children of its nodes in another
    order. -/
theorem offsets_reordered {t' : Node} (r : Rose.Reordering ev.root_ t') {tree : EvaTree}
    (counted : GetLoopCount.run ev (EvaTree.fresh ev) = .ok tree) (distinct : ev.DistinctDims)
    (positive : ev.PositiveBounds) {done : NodePtr × InitState}
    (passed : offsetPasses ev ([], initial (EvaTree.fresh ev)) = .ok done) :
    ∃ done', offsetPasses (ev.withRoot t') ([], initial (EvaTree.fresh (ev.withRoot t'))) =
        .ok done' ∧
      ∀ node, ev.get_type node = .Tile → ∀ dim_name ∈ ev.dims node,
        OrderFree ev done.2.toEvaOffsets done'.2.toEvaOffsets node (r.moved node) dim_name := by
  have accepted := GetLoopCount.run_accepted (fun _ => rfl) counted
  have init := offsetPasses_init (ownDims_fresh ev) passed
  obtain ⟨s₁, s₂, first, second⟩ := @offsetPasses_total _ (initial (EvaTree.fresh (ev.withRoot t')))
    (LoopedBelow.moved r init.loopedBelow) (ownDims_fresh (ev.withRoot t'))
  have passed' : offsetPasses (ev.withRoot t') ([], initial (EvaTree.fresh (ev.withRoot t'))) =
      .ok ([], s₂) := by
    rw [offsetPasses_eq, first, ok_bind, second]
    rfl
  have init' := offsetPasses_init (ownDims_fresh (ev.withRoot t')) passed'
  refine ⟨_, passed', fun node tile dim_name member => ?_⟩
  have found := isSome_get?_of_dims member
  have inner := accepted.inner node (mem_positions.mpr found) (Or.inl tile)
  obtain ⟨q, pair, path, value⟩ := exists_path_below accepted distinct init found inner member
  obtain ⟨q', pair', moved_path, value'⟩ := exists_path_below (accepted.moved r) (distinct.moved r)
    init' ((isSome_moved r node).mpr found) ((children_moved r found).mpr inner)
    (by rwa [dims_moved r])
  obtain ⟨p, path'⟩ := moved_path.moved r
  constructor
  · refine ⟨_, _, _, _, value.dim_offset_, value.last_dim_offset_, value'.dim_offset_,
      value'.last_dim_offset_, ?_⟩
    rw [← path.bound accepted member, ← path'.bound accepted member]
  · intro agree
    obtain ⟨steps, lasts⟩ := path.same path' accepted positive member agree
    rw [value.dim_offset_, value.last_dim_offset_, value'.dim_offset_, value'.last_dim_offset_,
      steps, lasts]
    exact ⟨rfl, rfl⟩
  · intro agree child inside other call
    obtain ⟨i, rfl, present⟩ := (mem_get_children found).mp inside
    obtain ⟨p, other_path⟩ := exists_path accepted distinct init present call
    obtain ⟨steps, lasts⟩ := path.same other_path accepted positive member agree
    constructor
    · rw [value.dim_offset_, steps]
    · rw [value.last_dim_offset_, lasts]

def fusedRoot (first second : Node) : Node :=
  Config.tile .Temporal "Main" [Config.loop "M" 2 2] [Config.scope .Sequential [first, second]]

theorem exists_swap (first second : Node) :
    Nonempty (Rose.Reordering (fusedRoot first second) (fusedRoot second first)) := by
  have found : (fusedRoot first second).get? [0] =
      some (Config.scope .Sequential [first, second]) := rfl
  exact Rose.Reordering.exists_of_perm found (List.Perm.swap second first [])

def fusion (bound : Int) (first second : Node) : Evaluator :=
  Config.evaluator (Config.workloads [("a", ⟨["A"], "B"⟩), ("b", ⟨["B"], "C"⟩)] [("M", bound)]
    [("A", ["M"]), ("B", ["M"]), ("C", ["M"])]) 1 [] (fusedRoot first second)

def evenFusion : Evaluator :=
  fusion 12 (Config.op "Cube" "a" [Config.loop "M" 6 6])
    (Config.tile .Temporal "L1" [Config.loop "M" 2 2] [Config.op "Cube" "b" [Config.loop "M" 3 3]])

theorem offsets_reordered_evenFusion :
    ∃ (t' : Node) (r : Rose.Reordering evenFusion.root_ t') (done done' : NodePtr × InitState),
      offsetPasses evenFusion ([], initial (EvaTree.fresh evenFusion)) = .ok done ∧
      offsetPasses (evenFusion.withRoot t') ([], initial (EvaTree.fresh (evenFusion.withRoot t'))) =
        .ok done' ∧
      OrderFree evenFusion done.2.toEvaOffsets done'.2.toEvaOffsets [] (r.moved []) "M" ∧
      evenFusion.NoTails [] "M" := by
  obtain ⟨r⟩ := exists_swap (Config.op "Cube" "a" [Config.loop "M" 6 6])
    (Config.tile .Temporal "L1" [Config.loop "M" 2 2] [Config.op "Cube" "b" [Config.loop "M" 3 3]])
  obtain ⟨tree, counted⟩ := exists_of_isOk (show (GetLoopCount.run evenFusion
    (EvaTree.fresh evenFusion)).isOk = true by decide +kernel)
  obtain ⟨done, passed⟩ := exists_of_isOk (show (offsetPasses evenFusion
    ([], initial (EvaTree.fresh evenFusion))).isOk = true by decide +kernel)
  obtain ⟨done', passed', free⟩ := @offsets_reordered evenFusion _ r _ counted (by decide +kernel)
    (by decide +kernel) _ passed
  exact ⟨_, r, done, done', passed, passed', free [] (by decide +kernel) "M" (by decide +kernel),
    by decide +kernel⟩

def rootOffsets (ev : Evaluator) : Option (Option Int × Option Int) :=
  (offsetPasses ev ([], initial (EvaTree.fresh ev))).toOption.map fun done =>
    (done.2.dim_offset_ [] "M", done.2.last_dim_offset_ [] "M")

theorem offsetPasses_of_rootOffsets {ev : Evaluator} {offsets : Option Int × Option Int}
    (value : rootOffsets ev = some offsets) :
    ∃ done, offsetPasses ev ([], initial (EvaTree.fresh ev)) = .ok done ∧
      done.2.dim_offset_ [] "M" = offsets.1 ∧ done.2.last_dim_offset_ [] "M" = offsets.2 := by
  rw [rootOffsets] at value
  cases run : offsetPasses ev ([], initial (EvaTree.fresh ev)) with
  | error fault => rw [run] at value; cases value
  | ok done =>
    rw [run] at value
    cases value
    exact ⟨done, rfl, rfl, rfl⟩

def tailedFusion : Evaluator :=
  fusion 6 (Config.op "Cube" "a" [Config.loop "M" 4 2]) (Config.op "Cube" "b" [Config.loop "M" 3 3])

/-- The order of the two operators decides the step and the last extent of the Tile. -/
theorem tailedFusion_order_matters :
    (GetLoopCount.run tailedFusion (EvaTree.fresh tailedFusion)).isOk = true ∧
      tailedFusion.DistinctDims ∧ tailedFusion.PositiveBounds ∧
      (∀ node ∈ Rose.postorder [] tailedFusion.root_, ∀ loop ∈ tailedFusion.loopnests_ node,
        loop.residual_end ≤ loop.end_) ∧
      ¬ ∀ (t' : Node) (r : Rose.Reordering tailedFusion.root_ t') (done done' : NodePtr × InitState),
        offsetPasses tailedFusion ([], initial (EvaTree.fresh tailedFusion)) = .ok done →
        offsetPasses (tailedFusion.withRoot t')
          ([], initial (EvaTree.fresh (tailedFusion.withRoot t'))) = .ok done' →
        ∀ node, tailedFusion.get_type node = .Tile → ∀ dim_name ∈ tailedFusion.dims node,
          done'.2.dim_offset_ (r.moved node) dim_name = done.2.dim_offset_ node dim_name ∧
            done'.2.last_dim_offset_ (r.moved node) dim_name =
              done.2.last_dim_offset_ node dim_name := by
  refine ⟨by decide +kernel, by decide +kernel, by decide +kernel, by decide +kernel, ?_⟩
  intro independent
  have first : rootOffsets tailedFusion = some (some 4, some 2) := by decide +kernel
  have second : rootOffsets (fusion 6 (Config.op "Cube" "b" [Config.loop "M" 3 3])
      (Config.op "Cube" "a" [Config.loop "M" 4 2])) = some (some 3, some 3) := by
    decide +kernel
  obtain ⟨done, passed, step, _⟩ := offsetPasses_of_rootOffsets first
  obtain ⟨done', passed', step', _⟩ := offsetPasses_of_rootOffsets second
  obtain ⟨r⟩ := exists_swap (Config.op "Cube" "a" [Config.loop "M" 4 2])
    (Config.op "Cube" "b" [Config.loop "M" 3 3])
  have same := (independent _ r done done' passed passed' [] (by decide +kernel) "M"
    (by decide +kernel)).1
  rw [r.root, step, step'] at same
  cases same

end TileExp.Analysis
