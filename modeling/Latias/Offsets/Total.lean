import Latias.Offsets.InitOffsets
import Mathlib.Algebra.GroupWithZero.Nat

/-! When the offset passes complete: every dimension of a node with children is looped over again
    below it. -/

namespace TileExp.Analysis

open Checked

variable {ev : Evaluator} {offsets : EvaOffsets} {dim_name : String} {top node ptr : NodePtr}
  {queue : List NodePtr}

def Evaluator.rounds (ev : Evaluator) (queue : List NodePtr) : Nat :=
  (queue.map fun node => (ev.ori_node_ node).size).sum

theorem sizes_eq (cs : List Node) : Rose.size.sizes cs = (cs.map Rose.size).sum := by
  induction cs with
  | nil => rfl
  | cons c cs ih => rw [Rose.size.sizes, ih, List.map_cons, List.sum_cons]

theorem size_pos (sub : Node) : 1 ≤ sub.size := by
  obtain ⟨info, cs⟩ := sub
  rw [Rose.size]
  omega

theorem size_eq_rounds (found : (ev.root_.get? node).isSome) :
    (ev.ori_node_ node).size = ev.rounds (ev.get_children node) + 1 := by
  obtain ⟨⟨info, cs⟩, found⟩ := Option.isSome_iff_exists.mp found
  have children : (ev.get_children node).map (fun child => (ev.ori_node_ child).size) =
      cs.map Rose.size := by
    rw [Evaluator.get_children, Evaluator.ori_node_of_get? found, List.map_map]
    apply List.ext_getElem
    · simp
    · intro i bound bound'
      have inside : i < cs.length := by simpa using bound'
      have child : ev.root_.get? (i :: node) = some cs[i] :=
        Rose.get?_child found (List.getElem?_eq_getElem inside)
      simp [Evaluator.ori_node_of_get? child]
  rw [Evaluator.rounds, children, Evaluator.ori_node_of_get? found, Rose.size, sizes_eq]

theorem exists_child_above (under : node <:+ ptr) (apart : ptr ≠ node)
    (found : (ev.root_.get? ptr).isSome) :
    ∃ i, (i :: node) ∈ ev.get_children node ∧ (i :: node) <:+ ptr := by
  obtain ⟨q, rfl⟩ := under
  rcases List.eq_nil_or_concat q with rfl | ⟨q, i, rfl⟩
  · exact absurd rfl apart
  · have split : q.concat i ++ node = q ++ i :: node := by simp
    rw [split] at found ⊢
    have inside := Evaluator.isSome_get?_above found
    have here := (mem_get_children (Evaluator.isSome_get?_parent inside)).mpr ⟨i, rfl, inside⟩
    exact ⟨i, here, List.suffix_append q (i :: node)⟩

/-- The search misses no carrier under the queue. -/
theorem bfs_isSome {fuel : Nat} (enough : ev.rounds queue ≤ fuel)
    (inside : ∀ top ∈ queue, (ev.root_.get? top).isSome) (member : top ∈ queue)
    (under : top <:+ ptr) (found : (ev.root_.get? ptr).isSome)
    (carries : (offsets.dim_offset_ ptr dim_name).isSome) :
    (bfsOffsetLoop ev offsets dim_name fuel queue).isSome := by
  induction fuel generalizing queue top with
  | zero =>
    cases queue with
    | nil => cases member
    | cons curr queue =>
      have one := size_pos (ev.ori_node_ curr)
      rw [Evaluator.rounds, List.map_cons, List.sum_cons] at enough
      omega
  | succ fuel ih =>
    cases queue with
    | nil => cases member
    | cons curr queue =>
      have here := inside curr List.mem_cons_self
      rw [bfsOffsetLoop]
      cases carried : offsets.dim_offset_ curr dim_name with
      | some offset => rfl
      | none =>
        have size := size_eq_rounds here
        have room : ev.rounds (queue ++ ev.get_children curr) ≤ fuel := by
          unfold Evaluator.rounds at enough size ⊢
          rw [List.map_cons, List.sum_cons] at enough
          rw [List.map_append, List.sum_append]
          omega
        have next : ∀ top ∈ queue ++ ev.get_children curr, (ev.root_.get? top).isSome := by
          intro top member
          rcases List.mem_append.mp member with later | child
          · exact inside top (List.mem_cons_of_mem curr later)
          · obtain ⟨i, rfl, inside⟩ := (mem_get_children here).mp child
            exact inside
        rcases List.mem_cons.mp member with rfl | later
        · have apart : ptr ≠ top := by
            rintro rfl
            rw [carried] at carries
            cases carries
          obtain ⟨i, child, below⟩ := exists_child_above under apart found
          exact ih room next (List.mem_append_right queue child) below
        · exact ih room next (List.mem_append_left _ later) under

namespace InitAnalysis

variable {s s' : InitState}

theorem BFSOffsetLoop_isSome (inside : (ev.root_.get? top).isSome) (under : top <:+ ptr)
    (found : (ev.root_.get? ptr).isSome) (carries : (offsets.dim_offset_ ptr dim_name).isSome) :
    (BFSOffsetLoop ev offsets top dim_name).isSome := by
  refine bfs_isSome ?_ ?_ (List.mem_singleton.mpr rfl) under found carries
  · rw [Evaluator.rounds, List.map_cons, List.map_nil, List.sum_singleton]
  · simpa using inside

theorem firstChildOffset_isSome {children : List NodePtr} (member : top ∈ children)
    (found : (BFSOffsetLoop ev offsets top dim_name).isSome) :
    (firstChildOffset ev offsets dim_name children).isSome := by
  induction children with
  | nil => cases member
  | cons child children ih =>
    rw [firstChildOffset]
    cases here : BFSOffsetLoop ev offsets child dim_name with
    | some pair => rfl
    | none =>
      rcases List.mem_cons.mp member with rfl | later
      · rw [here] at found
        cases found
      · exact ih later

theorem exists_carrier_below (init : OffsetsInit ev offsets)
    (found : (ev.root_.get? node).isSome) (inner : (ev.ori_node_ node).children ≠ [])
    (member : dim_name ∈ ev.dims node) : ∃ i q, Carrier ev offsets dim_name (i :: node) (q ++ node) ∧
      OffsetFrom offsets node dim_name (carrierPair ev offsets dim_name (q ++ node)) := by
  obtain ⟨pair, call, value⟩ := (init.settled node found).inner inner dim_name member
  have tops : ∀ top ∈ ev.get_children node, (ev.root_.get? top).isSome := by
    intro top child
    obtain ⟨i, rfl, inside⟩ := (mem_get_children found).mp child
    exact inside
  obtain ⟨top, child, carrier_node, carrier, rfl⟩ := firstChildOffset_eq_some tops call
  obtain ⟨i, rfl, _⟩ := (mem_get_children found).mp child
  obtain ⟨q, rfl⟩ := (List.suffix_cons i node).trans carrier.under
  exact ⟨i, q, carrier, value⟩

/-- Every dimension of a node with children is looped over again below the node. -/
def LoopedBelow (ev : Evaluator) : Prop :=
  ∀ node, (ev.root_.get? node).isSome → (ev.ori_node_ node).children ≠ [] →
    ∀ dim_name ∈ ev.dims node, ∃ ptr, node <:+ ptr ∧ ptr ≠ node ∧ dim_name ∈ ev.dims ptr

theorem OffsetsInit.loopedBelow (init : OffsetsInit ev offsets) : LoopedBelow ev := by
  intro node found inner dim_name member
  obtain ⟨i, q, carrier, _⟩ := exists_carrier_below init found inner member
  refine ⟨q ++ node, List.suffix_append q node, ?_, (init.carries _ _).mp carrier.carries⟩
  intro same
  have longer := carrier.under.length_le
  rw [same, List.length_cons] at longer
  omega

theorem isSome_get?_of_dims (member : dim_name ∈ ev.dims node) : (ev.root_.get? node).isSome := by
  cases found : ev.root_.get? node with
  | none => rw [dims_of_missing found] at member; cases member
  | some sub => rfl

theorem Carries.add (carries : Carries ev s.toEvaOffsets) {name : String}
    (member : name ∈ ev.dims node) (value last : Int) :
    Carries ev (add_last_dim_offset name last node (add_dim_offset name value node s)).toEvaOffsets := by
  intro ptr dim
  by_cases here : ptr = node
  · subst here
    by_cases same : dim = name
    · subst same
      simp [add_last_dim_offset, add_dim_offset, member]
    · simpa [add_last_dim_offset, add_dim_offset, same] using carries ptr dim
  · simpa [add_last_dim_offset, add_dim_offset, here] using carries ptr dim

theorem getOffset_total (looped : LoopedBelow ev) (found : (ev.root_.get? node).isSome)
    (carries : Carries ev s.toEvaOffsets) :
    ∃ s', getOffset ev (ev.ori_node_ node) node s = .ok s' := by
  unfold getOffset
  by_cases inner : (ev.ori_node_ node).children.length ≠ 0
  · have children : (ev.ori_node_ node).children ≠ [] := fun none => inner (by rw [none]; rfl)
    rw [if_pos inner]
    split
    · exact ⟨s, rfl⟩
    · have completes := @foldlM_total _ _ _ (setOffset ev node) (ev.ori_node_ node).loopnests_
        (fun s => Carries ev s.toEvaOffsets) s carries ?_
      · exact completes.imp fun s' both => both.1
      · intro loop member mid carries
        have own : loop.name_ ∈ ev.dims node := List.mem_map_of_mem member
        obtain ⟨ptr, under, apart, below⟩ := looped node found children loop.name_ own
        have inside := isSome_get?_of_dims below
        obtain ⟨i, child, down⟩ := exists_child_above under apart inside
        obtain ⟨j, same, present⟩ := (mem_get_children found).mp child
        rw [← same] at present
        have here := firstChildOffset_isSome child
          (BFSOffsetLoop_isSome present down inside ((carries ptr loop.name_).mpr below))
        obtain ⟨pair, first⟩ := Option.isSome_iff_exists.mp here
        refine ⟨_, by rw [setOffset, first], carries.add own _ _⟩
  · rw [if_neg inner]
    split
    · exact ⟨s, rfl⟩
    · exact ⟨_, rfl⟩

theorem offsetPasses_total {s₀ : InitState} (looped : LoopedBelow ev)
    (own : OwnDims ev s₀.toEvaOffsets) : ∃ s₁ s₂,
      (Rose.preorder [] ev.root_).foldlM
        (fun s ptr => initOffset ev (ev.ori_node_ ptr) ptr s) s₀ = .ok s₁ ∧
      (Rose.postorder [] ev.root_).foldlM
        (fun s ptr => getOffset ev (ev.ori_node_ ptr) ptr s) s₁ = .ok s₂ := by
  obtain ⟨s₁, first, _⟩ := @foldlM_total _ _ _
    (fun s ptr => initOffset ev (ev.ori_node_ ptr) ptr s) (Rose.preorder [] ev.root_)
    (fun _ => True) s₀ trivial fun ptr _ s _ => ⟨_, rfl, trivial⟩
  have each : ∀ ptr ∈ Rose.postorder [] ev.root_, ∀ s : InitState, Carries ev s.toEvaOffsets →
      ∃ s', getOffset ev (ev.ori_node_ ptr) ptr s = .ok s' ∧ Carries ev s'.toEvaOffsets := by
    intro ptr member s carries
    obtain ⟨s', step⟩ := getOffset_total looped (mem_positions.mp member) carries
    exact ⟨s', step, getOffset_carries carries step⟩
  obtain ⟨s₂, second, _⟩ := @foldlM_total _ _ _
    (fun s ptr => getOffset ev (ev.ori_node_ ptr) ptr s) (Rose.postorder [] ev.root_)
    (fun s => Carries ev s.toEvaOffsets) s₁ (initOffsets_carries own first) each
  exact ⟨s₁, s₂, first, second⟩

end InitAnalysis

end TileExp.Analysis
