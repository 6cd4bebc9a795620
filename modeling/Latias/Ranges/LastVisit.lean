import Latias.Ranges.Coverage

/-! Visits inside last iterations only, and visits that are not. -/

namespace TileExp.Analysis

namespace LoopNest

variable {ev : Evaluator} {node : NodePtr} {dim_name : String} {loop : Descriptor}
  {v u : List LoopState}

theorem isLast_of_suffix (inside : v <:+ u) (last : isLast u dim_name = true) :
    isLast v dim_name = true := by
  rw [isLast, List.all_eq_true] at last ⊢
  exact fun loop member => last loop ((inside.filter _).subset member)

theorem isLast_round (parsed : Parsed loop) (loop_end : Int) (i : Nat) :
    isLast (loopState node loop loop_end i :: v) dim_name =
      if loop.name_ = dim_name then decide (loop_end ≤ (i : Int) + 1) && isLast v dim_name
      else isLast v dim_name := by
  have flag : (loopState node loop loop_end i).is_last = decide (loop_end ≤ (i : Int) + 1) := by
    simp only [loopState, parsed.start, parsed.stride]
    apply decide_eq_decide.mpr
    omega
  rw [isLast_cons, flag]
  rfl

theorem last_round (proper : Proper loop) (last : ∀ dim_name, isLast v dim_name = true) :
    ∃ i < (loopEnd node loop v - loop.start).toNat,
      ∀ dim_name, isLast (loopState node loop (loopEnd node loop v) i :: v) dim_name = true := by
  have some : 1 ≤ loopEnd node loop v := loopEnd_of_proper proper v
  refine ⟨(loopEnd node loop v).toNat - 1, by rw [proper.start]; omega, fun dim_name => ?_⟩
  rw [isLast_round proper.toParsed, last dim_name]
  split
  · rw [decide_eq_true (by omega)]
    rfl
  · rfl

theorem exists_inner_iteration (dims : List Descriptor) : (∀ loop ∈ dims, Proper loop) → ∀ v,
    ∃ u ∈ iterations node dims v, v <:+ u := by
  induction dims with
  | nil => exact fun _ v => ⟨v, List.mem_singleton_self v, List.suffix_rfl⟩
  | cons loop dims ih =>
    intro proper v
    have head := proper loop List.mem_cons_self
    have some : 1 ≤ loopEnd node loop v := loopEnd_of_proper head v
    obtain ⟨u, member, after⟩ := ih (fun l inside => proper l (List.mem_cons_of_mem loop inside))
      (loopState node loop (loopEnd node loop v) 0 :: v)
    refine ⟨u, List.mem_flatMap.mpr ⟨0, List.mem_range.mpr ?_, member⟩, ?_⟩
    · rw [head.start]
      omega
    · exact (List.suffix_cons _ v).trans after

theorem exists_last_iteration (dims : List Descriptor) : (∀ loop ∈ dims, Proper loop) → ∀ v,
    (∀ dim_name, isLast v dim_name = true) →
      ∃ u ∈ iterations node dims v, ∀ dim_name, isLast u dim_name = true := by
  induction dims with
  | nil => exact fun _ v last => ⟨v, List.mem_singleton_self v, last⟩
  | cons loop dims ih =>
    intro proper v last
    obtain ⟨i, bound, stays⟩ := last_round (proper loop List.mem_cons_self) last
    obtain ⟨u, member, all⟩ := ih (fun l inside => proper l (List.mem_cons_of_mem loop inside)) _ stays
    exact ⟨u, List.mem_flatMap.mpr ⟨i, List.mem_range.mpr bound, member⟩, all⟩

theorem exists_early_iteration (dims : List Descriptor) : (∀ loop ∈ dims, Proper loop) → ∀ v,
    (∀ dim_name, isLast v dim_name = true) → ∀ loop ∈ dims, 1 < loop.residual_end →
      ∃ u ∈ iterations node dims v, isLast u loop.name_ = false := by
  induction dims with
  | nil => exact fun _ v _ loop member => absurd member List.not_mem_nil
  | cons first dims ih =>
    intro proper v last loop member more
    have head := proper first List.mem_cons_self
    have rest : ∀ loop ∈ dims, Proper loop := fun l inside =>
      proper l (List.mem_cons_of_mem first inside)
    rcases List.mem_cons.mp member with rfl | later
    · have tail : loopEnd node loop v = loop.residual_end := by
        rw [loopEnd, last, Bool.or_true, if_pos rfl]
      obtain ⟨u, inner, after⟩ := exists_inner_iteration dims rest
        (loopState node loop (loopEnd node loop v) 0 :: v)
      refine ⟨u, List.mem_flatMap.mpr ⟨0, List.mem_range.mpr ?_, inner⟩, ?_⟩
      · rw [tail, head.start]
        omega
      · rw [← Bool.not_eq_true]
        intro all
        have here := isLast_of_suffix after all
        rw [isLast_round head.toParsed, if_pos rfl, tail, decide_eq_false (by omega)] at here
        cases here
    · obtain ⟨i, bound, stays⟩ := last_round head last
      obtain ⟨u, inner, early⟩ := ih rest _ stays loop later more
      exact ⟨u, List.mem_flatMap.mpr ⟨i, List.mem_range.mpr bound, inner⟩, early⟩

theorem exists_child_visit {i : Nat} {ptr : NodePtr} (leaves : ev.LeafOps)
    (found : (ev.root_.get? (i :: ptr)).isSome) (reached : ev.Reached (i :: ptr))
    (visited : v ∈ visits ev ptr) {P : List LoopState → Prop}
    (own : ∃ u ∈ iterations ptr (ev.loopnests_ ptr) v, P u) (scope : ev.loopnests_ ptr = [] → P v) :
    ∃ u ∈ visits ev (i :: ptr), P u := by
  have inner := InitAnalysis.not_isLeaf_of_ancestor leaves found List.mem_cons_self
  have child : ∀ w, w ∈ childVisits ptr (ev.ori_node_ ptr) i v → w ∈ visits ev (i :: ptr) :=
    fun w here => List.mem_flatMap.mpr ⟨v, visited, here⟩
  by_cases tile : ev.get_type ptr = .Tile
  · obtain ⟨u, iteration, property⟩ := own
    exact ⟨u, child u (mem_childVisits.mpr (Or.inl ⟨tile, reached.1 tile, iteration⟩)), property⟩
  · have kind : ev.get_type ptr = .Scope := by
      cases kind : ev.get_type ptr with
      | Tile => exact absurd kind tile
      | Scope => rfl
      | Op => simp [InitAnalysis.isLeaf, kind] at inner
      | Trans => simp [InitAnalysis.isLeaf, kind] at inner
    have none := InitAnalysis.loopnests_of_scope kind
    exact ⟨v, child v (mem_childVisits.mpr (Or.inr ⟨kind, none, rfl⟩)), scope none⟩

/-- Some visit is inside last iterations only. -/
theorem exists_last_visit (proper : ev.ProperLoops) (leaves : ev.LeafOps) (node : NodePtr) :
    (ev.root_.get? node).isSome → ev.Reached node →
      ∃ v ∈ visits ev node, ∀ dim_name, isLast v dim_name = true := by
  induction node with
  | nil => exact fun _ _ => ⟨[], List.mem_singleton_self [], fun _ => rfl⟩
  | cons i ptr ih =>
    intro found reached
    obtain ⟨v, visited, last⟩ := ih (Evaluator.isSome_get?_parent found) reached.2
    apply exists_child_visit leaves found reached visited
    · exact exists_last_iteration _ (fun loop member => proper.at member) v last
    · exact fun _ => last

theorem exists_early_visit (proper : ev.ProperLoops) (leaves : ev.LeafOps) (node : NodePtr) :
    (ev.root_.get? node).isSome → ev.Reached node → ∀ loop ∈ (ev.tileNests node).flatten,
      1 < loop.residual_end → ∃ v ∈ visits ev node, isLast v loop.name_ = false := by
  induction node with
  | nil => exact fun _ _ loop member => absurd member List.not_mem_nil
  | cons i ptr ih =>
    intro found reached loop member more
    have above := Evaluator.isSome_get?_parent found
    rw [Evaluator.tileNests, List.flatten_append, List.mem_append] at member
    rcases member with outside | own
    · obtain ⟨v, visited, early⟩ := ih above reached.2 loop outside more
      apply exists_child_visit leaves found reached visited
      · obtain ⟨u, inner, after⟩ := @exists_inner_iteration ptr (ev.loopnests_ ptr)
          (fun loop member => proper.at member) v
        refine ⟨u, inner, ?_⟩
        rw [← Bool.not_eq_true] at early ⊢
        exact fun all => early (isLast_of_suffix after all)
      · exact fun _ => early
    · obtain ⟨v, visited, last⟩ := exists_last_visit proper leaves ptr above reached.2
      have mine : loop ∈ ev.loopnests_ ptr := by
        split at own
        · simpa using own
        · cases own
      apply exists_child_visit leaves found reached visited
      · exact exists_early_iteration _ (fun loop member => proper.at member) v last loop mine more
      · intro none
        rw [none] at mine
        cases mine

theorem isLast_of_mem_iterations (dims : List Descriptor) :
    (∀ loop ∈ dims, Proper loop) → (∀ loop ∈ dims, loop.name_ = dim_name → loop.residual_end = 1) →
      ∀ v, isLast v dim_name = true → u ∈ iterations node dims v → isLast u dim_name = true := by
  induction dims with
  | nil =>
    intro _ _ v last member
    cases List.mem_singleton.mp member
    exact last
  | cons loop dims ih =>
    intro proper once v last member
    obtain ⟨i, _, member⟩ := List.mem_flatMap.mp member
    apply ih (fun l inside => proper l (List.mem_cons_of_mem loop inside))
      (fun l inside => once l (List.mem_cons_of_mem loop inside)) _ _ member
    rw [isLast_round (proper loop List.mem_cons_self).toParsed, last]
    split
    · next same =>
      have tail := once loop List.mem_cons_self same
      rw [loopEnd, same, last, Bool.or_true, if_pos rfl, decide_eq_true (by omega)]
      rfl
    · rfl

theorem isLast_of_mem_visits (proper : ev.ProperLoops) (node : NodePtr) : ∀ v ∈ visits ev node,
    (∀ loop ∈ (ev.tileNests node).flatten, loop.name_ = dim_name → loop.residual_end = 1) →
      isLast v dim_name = true := by
  induction node with
  | nil =>
    intro v member _
    cases List.mem_singleton.mp member
    rfl
  | cons i ptr ih =>
    intro v member once
    obtain ⟨outer, visited, member⟩ := List.mem_flatMap.mp member
    rw [Evaluator.tileNests, List.flatten_append] at once
    have last := ih outer visited fun loop inside => once loop (List.mem_append_left _ inside)
    rcases mem_childVisits.mp member with ⟨tile, _, inner⟩ | ⟨_, _, rfl⟩
    · apply isLast_of_mem_iterations _ (fun loop own => proper.at own) _ outer last inner
      intro loop own
      apply once loop
      rw [if_pos tile]
      exact List.mem_append_right _ (by simpa using own)
    · exact last

end LoopNest

end TileExp.Analysis
