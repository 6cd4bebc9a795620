import Latias.Counts.OpVisits
import Latias.Visits.SmallSteps

/-! The first iteration of a visit of a Tile, in which `addCurrentTensor` is called. -/

namespace TileExp.Analysis

namespace LoopNest

variable {ev : Evaluator} {ctx : PerfContext} {node ptr : NodePtr} {loops : List LoopState}
  {dim_name : String}

/-- All loops of a Tile in their first iteration, inside the iterations `loops`. -/
def firstIteration (node : NodePtr) : List Descriptor → List LoopState → List LoopState
  | [], loops => loops
  | loop :: rest, loops =>
    firstIteration node rest (loopState node loop (loopEnd node loop loops) 0 :: loops)

def ownLoops (node : NodePtr) (dim_name : String) (loops : List LoopState) : List LoopState :=
  loops.filter fun loop => loop.node = node ∧ loop.name_ = dim_name

theorem mem_ownLoops {loop : LoopState} : loop ∈ ownLoops node dim_name loops ↔
    loop ∈ loops ∧ loop.node = node ∧ loop.name_ = dim_name := by
  simp [ownLoops]

theorem loopEnd_cons {loop : Descriptor} {outer : LoopState} (apart : outer.name_ ≠ loop.name_) :
    loopEnd node loop (outer :: loops) = loopEnd node loop loops := by
  rw [loopEnd, loopEnd, isLast_cons, if_neg apart]

theorem loopEnd_pos {loop : Descriptor} (positive : 1 ≤ loop.end_ ∧ 1 ≤ loop.residual_end)
    (loops : List LoopState) : 1 ≤ loopEnd node loop loops := by
  rw [loopEnd]
  split
  · exact positive.2
  · exact positive.1

theorem isFirst_cons {loop : Descriptor} {loop_end : Int} {i : Nat} :
    isFirst node (loopState node loop loop_end i :: loops) = (decide (i = 0) && isFirst node loops) := by
  have here : (loopState node loop loop_end i).node = node := rfl
  have index : decide ((loopState node loop loop_end i).ori_start =
      (loopState node loop loop_end i).index) = decide (i = 0) := by
    apply decide_eq_decide.mpr
    simp only [loopState]
    omega
  rw [isFirst, List.filter_cons_of_pos (by simp [here]), List.all_cons, index]
  rfl

theorem filter_isFirst_eq_nil (dims : List Descriptor) (later : isFirst node loops = false) :
    (iterations node dims loops).filter (isFirst node) = [] := by
  induction dims generalizing loops with
  | nil => simp [iterations, later]
  | cons loop rest ih =>
    rw [iterations, List.filter_flatMap, List.flatMap_eq_nil_iff]
    intro i _
    apply ih
    rw [isFirst_cons, later, Bool.and_false]

theorem filter_isFirst (dims : List Descriptor)
    (running : ∀ loop ∈ dims, ∀ loops, loop.start < loopEnd node loop loops)
    (first : isFirst node loops = true) :
    (iterations node dims loops).filter (isFirst node) = [firstIteration node dims loops] := by
  induction dims generalizing loops with
  | nil => simp [iterations, firstIteration, first]
  | cons loop rest ih =>
    have rounds := running loop List.mem_cons_self loops
    have inner := fun outer => @ih outer fun l inside =>
      running l (List.mem_cons_of_mem loop inside)
    obtain ⟨n, count⟩ : ∃ n, (loopEnd node loop loops - loop.start).toNat = n + 1 :=
      Nat.exists_eq_succ_of_ne_zero (by omega)
    rw [iterations, count, List.range_succ_eq_map, List.flatMap_cons, List.filter_append,
      inner _ (by rw [isFirst_cons, first]; rfl), List.filter_flatMap]
    have none : (List.map Nat.succ (List.range n)).flatMap (fun i => (iterations node rest
        (loopState node loop (loopEnd node loop loops) i :: loops)).filter (isFirst node)) = [] := by
      rw [List.flatMap_eq_nil_iff]
      intro i member
      obtain ⟨j, _, rfl⟩ := List.mem_map.mp member
      apply filter_isFirst_eq_nil
      rw [isFirst_cons]
      rfl
    rw [none, List.append_nil, firstIteration]

theorem eq_firstIteration {dims : List Descriptor} {inner : List LoopState}
    (member : inner ∈ (iterations node dims loops).filter (isFirst node)) :
    inner = firstIteration node dims loops := by
  induction dims generalizing loops with
  | nil =>
    rw [iterations] at member
    exact List.mem_singleton.mp (List.mem_of_mem_filter member)
  | cons loop rest ih =>
    rw [iterations, List.filter_flatMap] at member
    obtain ⟨i, _, member⟩ := List.mem_flatMap.mp member
    cases i with
    | zero => exact ih member
    | succ i =>
      rw [filter_isFirst_eq_nil] at member
      · cases member
      · rw [isFirst_cons]
        rfl

theorem isFirst_of_outside (outside : ∀ loop ∈ loops, loop.node ≠ node) :
    isFirst node loops = true := by
  rw [isFirst, List.filter_eq_nil_iff.mpr fun loop member => by simp [outside loop member]]
  rfl

theorem ownLoops_of_outside (outside : ∀ loop ∈ loops, loop.node ≠ node) (dim_name : String) :
    ownLoops node dim_name loops = [] := by
  rw [ownLoops, List.filter_eq_nil_iff]
  intro loop member
  simp [outside loop member]

theorem ownLoops_firstIteration (dims : List Descriptor)
    (distinct : (dims.map Descriptor.name_).Nodup) (dim_name : String) (loops : List LoopState) :
    ownLoops node dim_name (firstIteration node dims loops) =
      ((ofDim dim_name dims).map fun loop => loopState node loop (loopEnd node loop loops) 0) ++
        ownLoops node dim_name loops := by
  induction dims generalizing loops with
  | nil => rfl
  | cons loop rest ih =>
    obtain ⟨absent, distinct⟩ := List.nodup_cons.mp distinct
    rw [firstIteration, ih distinct]
    by_cases same : loop.name_ = dim_name
    · subst same
      rw [ofDim_cons_self, ofDim_eq_nil.mpr absent, List.map_nil, List.nil_append, List.map_cons,
        List.map_nil, ownLoops, List.filter_cons_of_pos (by simp [loopState])]
      rfl
    · have others : ∀ l ∈ ofDim dim_name rest,
          loopState node l (loopEnd node l (loopState node loop (loopEnd node loop loops) 0 :: loops)) 0
            = loopState node l (loopEnd node l loops) 0 := by
        intro l member
        have name : l.name_ = dim_name := of_decide_eq_true (List.mem_filter.mp member).2
        rw [loopEnd_cons (by simpa [loopState, name] using same)]
      rw [ofDim_cons_ne same, List.map_congr_left others, ownLoops,
        List.filter_cons_of_neg (by simp [loopState, same])]
      rfl

theorem skewOf_firstIteration (dims : List Descriptor) (loops : List LoopState) :
    skewOf ctx (firstIteration node dims loops) = skewOf ctx loops := by
  induction dims generalizing loops with
  | nil => rfl
  | cons loop rest ih =>
    rw [firstIteration, ih, skewOf_cons]
    simp [loopState]

theorem node_of_mem_iterations {dims : List Descriptor} {inner : List LoopState}
    (member : inner ∈ iterations node dims loops) {loop : LoopState} (inside : loop ∈ inner) :
    loop ∈ loops ∨ loop.node = node := by
  induction dims generalizing loops with
  | nil =>
    cases List.mem_singleton.mp member
    exact Or.inl inside
  | cons dim rest ih =>
    obtain ⟨i, _, member⟩ := List.mem_flatMap.mp member
    rcases ih member with earlier | own
    · rcases List.mem_cons.mp earlier with rfl | earlier
      · exact Or.inr rfl
      · exact Or.inl earlier
    · exact Or.inr own

theorem node_of_mem_visits (node : NodePtr) (member : loops ∈ visits ev node) {loop : LoopState}
    (inside : loop ∈ loops) : loop.node <:+ node ∧ loop.node ≠ node := by
  induction node generalizing loops with
  | nil =>
    cases List.mem_singleton.mp member
    cases inside
  | cons i ptr ih =>
    obtain ⟨outer, above, member⟩ := List.mem_flatMap.mp member
    have under : loop.node <:+ ptr := by
      rw [childVisits] at member
      split at member
      · split at member
        · rcases node_of_mem_iterations member inside with earlier | own
          · exact (ih above earlier).1
          · exact own ▸ List.suffix_rfl
        · cases member
      · cases List.mem_singleton.mp member
        exact (ih above inside).1
      · cases member
    refine ⟨under.trans (List.suffix_cons i ptr), ?_⟩
    intro same
    have longer := under.length_le
    rw [same] at longer
    simp at longer

end LoopNest

end TileExp.Analysis
