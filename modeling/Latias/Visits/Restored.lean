import Latias.Visits.Refinement
import Latias.Visits.SmallSteps

/-! A visit puts the stacks and the skew back, whatever state it starts from. -/

namespace TileExp.Analysis

open Checked

namespace Walk

theorem setStart_setStart (w : Walk) (node : NodePtr) (idx : Nat) (a b : Int) :
    (w.setStart node idx a).setStart node idx b = w.setStart node idx b := by
  simp [setStart]

theorem setStart_start (w : Walk) (node : NodePtr) (idx : Nat) :
    w.setStart node idx (w.start node idx) = w := by
  simp [setStart]

theorem setStart_moveTo (w : Walk) (node ptr : NodePtr) (idx : Nat) (value : Int) :
    (w.setStart node idx value).moveTo ptr = (w.moveTo ptr).setStart node idx value := rfl

end Walk

namespace PerfAnalysis

open LoopNest

variable {ctx : PerfContext} {node ptr : NodePtr} {s s' : PerfState} {t t' : Tally} {w : Walk}
  {names : List String}

structure Kept (ctx : PerfContext) (node : NodePtr) (names : List String) (s s' : PerfState) :
    Prop where
  walk : s'.walk = s.walk
  skew : ctx.ev.DistinctTileDims → SameSkew node names s.tally s'.tally
  outside : ∀ ptr, ¬ node <:+ ptr → s'.tally.current_dim_skew_ ptr = s.tally.current_dim_skew_ ptr

theorem Kept.refl (s : PerfState) : Kept ctx node names s s :=
  ⟨rfl, fun _ => SameSkew.refl node names s.tally, fun _ _ => rfl⟩

theorem Kept.trans {s₁ s₂ s₃ : PerfState} (first : Kept ctx node names s₁ s₂)
    (second : Kept ctx node names s₂ s₃) : Kept ctx node names s₁ s₃ :=
  ⟨second.walk.trans first.walk,
    fun distinct => (first.skew distinct).trans (second.skew distinct),
    fun ptr apart => (second.outside ptr apart).trans (first.outside ptr apart)⟩

theorem Kept.of_skews (dim_skew : t'.dim_skew = t.dim_skew)
    (current : t'.current_dim_skew_ = t.current_dim_skew_) : Kept ctx node names ⟨w, t⟩ ⟨w, t'⟩ :=
  ⟨rfl, fun _ => ⟨dim_skew, fun name _ => by rw [current]⟩, fun ptr _ => by rw [current]⟩

theorem addCurrentTensor_skews {is_input : Bool} {tile trans : Int}
    (call : addCurrentTensor ctx w is_input t = .ok (t', tile, trans)) :
    t'.dim_skew = t.dim_skew ∧ t'.current_dim_skew_ = t.current_dim_skew_ := by
  obtain ⟨name, _, call⟩ := bind_eq_ok.mp call
  cases is_input with
  | true =>
    obtain ⟨cs, _, call⟩ := bind_eq_ok.mp call
    cases call
    exact ⟨rfl, rfl⟩
  | false =>
    obtain ⟨cs, _, call⟩ := bind_eq_ok.mp call
    cases call
    exact ⟨rfl, rfl⟩

theorem enterTile_skews (call : enterTile ctx w t = .ok t') :
    t'.dim_skew = t.dim_skew ∧ t'.current_dim_skew_ = t.current_dim_skew_ := by
  obtain ⟨⟨t₁, tile, trans⟩, first, call⟩ := bind_eq_ok.mp call
  obtain ⟨⟨t₂, output_tile, output_trans⟩, second, call⟩ := bind_eq_ok.mp call
  have before := addCurrentTensor_skews first
  have after := addCurrentTensor_skews second
  suffices t'.dim_skew = t₂.dim_skew ∧ t'.current_dim_skew_ = t₂.current_dim_skew_ from
    ⟨this.1.trans (after.1.trans before.1), this.2.trans (after.2.trans before.2)⟩
  by_cases root : get_parent w.current_node_ = none
  · simp only [if_pos root, ok_bind] at call
    cases call
    exact ⟨rfl, rfl⟩
  · simp only [if_neg root] at call
    obtain ⟨input_latency, _, call⟩ := bind_eq_ok.mp call
    obtain ⟨output_latency, _, call⟩ := bind_eq_ok.mp call
    cases call
    exact ⟨rfl, rfl⟩

theorem transTally_skews (call : transTally ctx w t = .ok t') :
    t'.dim_skew = t.dim_skew ∧ t'.current_dim_skew_ = t.current_dim_skew_ := by
  have here : transTally ctx (walkAt ctx w.current_node_ []) t = .ok t' := call
  rw [transTally_eq_ok here]
  exact ⟨rfl, rfl⟩

/-- What a part of a visit at `node` leaves as it was, from any state. -/
def Keeps (ctx : PerfContext) (node : NodePtr) (names : List String)
    (run : PerfState → Exec PerfState) : Prop :=
  ∀ s s', s.walk.current_node_ = node → run s = .ok s' → Kept ctx node names s s'

/-- After `i` iterations of a loop only its start and its own skews have moved. -/
structure Iterated (ctx : PerfContext) (node : NodePtr) (idx : Nat) (loop : Descriptor)
    (names : List String) (s : PerfState) (i : Nat) (s' : PerfState) : Prop where
  walk : ∃ value, s'.walk = s.walk.setStart node idx value
  skew : ctx.ev.DistinctTileDims → Advanced ctx node loop s.tally names i s'.tally
  outside : ∀ ptr, ¬ node <:+ ptr → s'.tally.current_dim_skew_ ptr = s.tally.current_dim_skew_ ptr

theorem runInner_kept {innermost : Prop} [Decidable innermost]
    {inner : PerfState → Exec PerfState} (keeps : Keeps ctx node names inner)
    (here : w.current_node_ = node) (run : runInner ctx node innermost inner w t = .ok s') :
    ∃ t', (t'.dim_skew = t.dim_skew ∧ t'.current_dim_skew_ = t.current_dim_skew_) ∧
      Kept ctx node names ⟨w, t'⟩ s' := by
  unfold runInner at run
  split at run
  · obtain ⟨t', first, nested⟩ := bind_eq_ok.mp run
    exact ⟨t', enterTile_skews first, keeps _ s' here nested⟩
  · exact ⟨t, ⟨rfl, rfl⟩, keeps _ s' here run⟩

theorem tileIteration_iterated {idx dim_bound i : Nat} {loop : Descriptor}
    {ori_start loop_end : Int} {inner : PerfState → Exec PerfState} {s₀ : PerfState}
    (keeps : Keeps ctx node names inner) (absent : ctx.ev.DistinctTileDims → loop.name_ ∉ names)
    (here : s₀.walk.current_node_ = node) (before : Iterated ctx node idx loop names s₀ i s)
    (run : tileIteration ctx node idx dim_bound loop ori_start loop_end inner s = .ok s') :
    Iterated ctx node idx loop names s₀ (i + 1) s' := by
  obtain ⟨value, walk⟩ := before.walk
  have current : s.walk.current_node_ = node := by
    rw [walk]
    exact here
  rw [tileIteration_eq s current] at run
  obtain ⟨s₁, nested, result⟩ := bind_eq_ok.mp run
  obtain ⟨t, entered, kept⟩ := runInner_kept keeps
    (show (s.walk.push _ _).current_node_ = node from current) nested
  have inside : ctx.ev.DistinctTileDims → SameSkew node names s.tally s₁.tally := fun distinct =>
    SameSkew.trans ⟨entered.1, fun name _ => by rw [entered.2]⟩ (kept.skew distinct)
  have same : s₁.walk.current_node_ = node := by
    rw [kept.walk]
    exact current
  have popped : s₁.walk.pop loop.name_ = s.walk := by
    rw [kept.walk]
    exact Walk.pop_push s.walk ⟨s.walk.current_node_, loop.name_, ori_start, loop_end,
      s.walk.start node idx, _⟩ _
  simp only [popped] at result
  cases result
  refine ⟨⟨s.walk.start node idx + loop.stride, ?_⟩, fun distinct => ?_, fun ptr apart => ?_⟩
  · rw [walk, Walk.setStart_setStart]
  · simp only [same]
    exact (before.skew distinct).next (absent distinct) (inside distinct)
  · have other : ptr ≠ node := by
      rintro rfl
      exact apart List.suffix_rfl
    simp only [same, Tally.advanceSkew, Function.update_of_ne other]
    rw [kept.outside ptr apart, entered.2, before.outside ptr apart]

/-- After the loops from one dimension on, the walk is at the parent if all of them are done. -/
structure Looped (ctx : PerfContext) (node : NodePtr) (idx : Nat) (s s' : PerfState) : Prop where
  walk : s'.walk = if idx = 0 then s.walk.moveTo (up node) else s.walk
  skew : ctx.ev.DistinctTileDims →
    SameSkew node (((ctx.ev.loopnests_ node).drop idx).map Descriptor.name_) s.tally s'.tally
  outside : ∀ ptr, ¬ node <:+ ptr → s'.tally.current_dim_skew_ ptr = s.tally.current_dim_skew_ ptr

theorem finishTile_skews (call : finishTile ctx node t = .ok t') :
    t'.dim_skew = t.dim_skew ∧ t'.current_dim_skew_ = t.current_dim_skew_ := by
  obtain ⟨latency, _, rfl⟩ := finishTile_eq_ok call
  split
  · exact ⟨rfl, rfl⟩
  · exact ⟨rfl, rfl⟩

theorem visitTileLoop_looped_step {is_root : Bool} {children : PerfState → Exec PerfState}
    {idx rest : Nat} (position : idx + (rest + 1) = (ctx.ev.loopnests_ node).length)
    (distinct : ctx.ev.DistinctTileDims → ((ctx.ev.loopnests_ node).map Descriptor.name_).Nodup)
    (inner : Keeps ctx node (((ctx.ev.loopnests_ node).drop (idx + 1)).map Descriptor.name_)
      (if rest = 0 then children
        else visitTileLoop ctx is_root (ctx.ev.loopnests_ node).length children rest))
    (here : s.walk.current_node_ = node) (run : visitTileLoop ctx is_root
      (ctx.ev.loopnests_ node).length children (rest + 1) s = .ok s') :
    Looped ctx node idx s s' := by
  have number : (ctx.ev.loopnests_ node).length - (rest + 1) = idx := by omega
  rw [visitTileLoop] at run
  simp only [here, number] at run
  cases found : (ctx.ev.loopnests_ node)[idx]? with
  | none => rw [found] at run; cases run
  | some loop =>
    have dims : (ctx.ev.loopnests_ node).drop idx = loop :: (ctx.ev.loopnests_ node).drop (idx + 1) :=
      List.drop_eq_getElem?_toList_append.trans (by rw [found]; rfl)
    have absent : ctx.ev.DistinctTileDims → loop.name_ ∉
        ((ctx.ev.loopnests_ node).drop (idx + 1)).map Descriptor.name_ := by
      intro tiles
      have tail := (distinct tiles).sublist ((List.drop_sublist idx _).map Descriptor.name_)
      rw [dims, List.map_cons] at tail
      exact (List.nodup_cons.mp tail).1
    simp only [found] at run
    obtain ⟨_, _, run⟩ := bind_eq_ok.mp run
    obtain ⟨s₁, looped, run⟩ := bind_eq_ok.mp run
    have iterated := iterate_induction looped
      (Iterated ctx node idx loop (((ctx.ev.loopnests_ node).drop (idx + 1)).map Descriptor.name_) s)
      ?_ ?_
    · obtain ⟨value, walk⟩ := iterated.walk
      have current : s₁.walk.current_node_ = node := by
        rw [walk]
        exact here
      have restored : ctx.ev.DistinctTileDims → SameSkew node
          (((ctx.ev.loopnests_ node).drop idx).map Descriptor.name_) s.tally
            (s₁.tally.restoreSkew node loop.name_) := by
        intro tiles
        rw [dims]
        exact (iterated.skew tiles).restored
      simp only [current] at run
      by_cases outer : idx = 0
      · rw [if_pos outer] at run
        obtain ⟨t, finish, result⟩ := bind_eq_ok.mp run
        cases result
        have skews := finishTile_skews finish
        refine ⟨?_, fun tiles => ?_, fun ptr apart => ?_⟩
        · simp only
          rw [if_pos outer, walk, Walk.setStart_moveTo, Walk.setStart_setStart]
          exact Walk.setStart_start (s.walk.moveTo (up node)) node idx
        · exact (restored tiles).trans ⟨skews.1, fun name _ => by rw [skews.2]⟩
        · simp only
          rw [skews.2]
          exact iterated.outside ptr apart
      · rw [if_neg outer] at run
        cases run
        refine ⟨?_, restored, iterated.outside⟩
        simp only
        rw [if_neg outer, walk, Walk.setStart_setStart, Walk.setStart_start]
    · refine ⟨⟨s.walk.start node idx, (Walk.setStart_start s.walk node idx).symm⟩,
        fun _ => advanced_zero loop, fun ptr apart => ?_⟩
      have other : ptr ≠ node := by
        rintro rfl
        exact apart List.suffix_rfl
      simp only [Tally.clearSkew, Function.update_of_ne other]
    · exact fun i s s' _ before step => tileIteration_iterated inner absent here before step

theorem visitTileLoop_looped {is_root : Bool} {children : PerfState → Exec PerfState}
    (distinct : ctx.ev.DistinctTileDims → ((ctx.ev.loopnests_ node).map Descriptor.name_).Nodup)
    (keeps : Keeps ctx node [] children) (rest : Nat) :
    ∀ idx, idx + (rest + 1) = (ctx.ev.loopnests_ node).length → ∀ s s',
      s.walk.current_node_ = node → visitTileLoop ctx is_root (ctx.ev.loopnests_ node).length children
        (rest + 1) s = .ok s' → Looped ctx node idx s s' := by
  induction rest with
  | zero =>
    intro idx position s s' here run
    refine visitTileLoop_looped_step position distinct ?_ here run
    rw [if_pos rfl, List.drop_of_length_le (by omega)]
    exact keeps
  | succ rest ih =>
    intro idx position s s' here run
    refine visitTileLoop_looped_step position distinct ?_ here run
    rw [if_neg (Nat.succ_ne_zero rest)]
    intro s s' here run
    have looped := ih (idx + 1) (by omega) s s' here run
    have walk := looped.walk
    rw [if_neg (Nat.succ_ne_zero idx)] at walk
    exact ⟨walk, looped.skew, looped.outside⟩

structure Restored (ctx : PerfContext) (ptr : NodePtr) (s s' : PerfState) : Prop where
  walk : s'.walk = s.walk.moveTo (up ptr)
  dim_skew : ctx.ev.DistinctTileDims → s'.tally.dim_skew = s.tally.dim_skew
  outside : ∀ node, ¬ ptr <:+ node → s'.tally.current_dim_skew_ node = s.tally.current_dim_skew_ node

theorem Restored.child {i : Nat} {s₁ : PerfState} (here : s.walk.current_node_ = ptr)
    (restored : Restored ctx (i :: ptr) ⟨s.walk.moveTo (i :: ptr), s.tally⟩ s₁) :
    Kept ctx ptr [] s s₁ := by
  refine ⟨?_, fun distinct => ⟨restored.dim_skew distinct, fun name _ => ?_⟩, fun node apart => ?_⟩
  · rw [restored.walk, ← here]
    rfl
  · rw [restored.outside ptr fun inside => absurd inside.length_le (by simp)]
  · exact restored.outside node fun inside => apart ((List.suffix_cons i ptr).trans inside)

theorem descend_child {i : Nat} {c : Node} (found : ctx.ev.root_.get? (i :: ptr) = some c)
    (here : s.walk.current_node_ = ptr) :
    descend ctx i s = .ok ⟨s.walk.moveTo (i :: ptr), s.tally⟩ := by
  rw [descend, here, Evaluator.child_of_get? found, ok_bind]

/-- A visit leaves no trace in the stacks, the starts and the skew. -/
theorem visit_restored (ptr : NodePtr) (sub : Node) (found : ctx.ev.root_.get? ptr = some sub) :
    ∀ s s', s.walk.current_node_ = ptr → visit ctx ptr sub s = .ok s' → Restored ctx ptr s s' := by
  induction ptr, sub using Rose.position_induction₂
    (S := fun ptr i cs => ChildrenAt ctx.ev ptr i cs →
      Keeps ctx ptr [] (scopeChildren ctx ptr i cs))
    (T := fun ptr i cs => ChildrenAt ctx.ev ptr i cs →
      Keeps ctx ptr [] (tileChildren ctx ptr i cs)) with
  | node ptr info cs scope tile =>
    intro s s' here run
    have placed := childrenAt_zero found
    rw [visit] at run
    obtain ⟨name_, level, mode, kind⟩ := info
    cases kind with
    | Op ops =>
      cases run
      refine ⟨?_, fun _ => rfl, fun _ _ => rfl⟩
      rw [← here]
      rfl
    | Trans =>
      simp only at run
      obtain ⟨t, moved, result⟩ := bind_eq_ok.mp run
      cases result
      have skews := transTally_skews moved
      refine ⟨?_, fun _ => skews.1, fun node _ => congrFun skews.2 node⟩
      rw [← here]
      rfl
    | Scope type =>
      simp only at run
      obtain ⟨after, children, finish⟩ := bind_eq_ok.mp run
      have kept := scope placed ⟨s.walk, (s.tally.record (.enter ptr s.walk.current_node_
        s.walk.current_loop_state_ s.tally.dim_skew)).setRow s.walk.current_node_ []⟩ after here children
      split at finish
      · cases finish
      · cases finish
        refine ⟨?_, fun distinct => (kept.skew distinct).dim_skew, kept.outside⟩
        simp only [ascend, kept.walk, here]
    | Tile type dims =>
      have dims_eq : ctx.ev.loopnests_ ptr = dims := by
        rw [Evaluator.loopnests_, Evaluator.ori_node_of_get? found]
        rfl
      have kind_eq : ctx.ev.get_type ptr = .Tile := by
        rw [Evaluator.get_type, Evaluator.ori_node_of_get? found]
        rfl
      simp only at run
      obtain ⟨mid, inside, result⟩ := bind_eq_ok.mp run
      cases result
      cases dims with
      | nil => cases inside
      | cons loop rest =>
        have member : ptr ∈ Rose.postorder [] ctx.ev.root_ :=
          (Rose.mem_postorder [] ctx.ev.root_ ptr).mpr
            ⟨ptr, (List.append_nil ptr).symm, by rw [found]; rfl⟩
        have body : Keeps ctx ptr [] (fun s => do
            let s ← tileChildren ctx ptr 0 cs ⟨s.walk, s.tally.setRow s.walk.current_node_ []⟩
            let t ← pushRow s.walk.current_node_ s.tally
            .ok ⟨s.walk, t⟩) := by
          intro s s' here run
          obtain ⟨after, children, run⟩ := bind_eq_ok.mp run
          obtain ⟨t, push, result⟩ := bind_eq_ok.mp run
          cases result
          have kept := tile placed ⟨s.walk, s.tally.setRow s.walk.current_node_ []⟩ after here children
          obtain ⟨_, rfl⟩ := pushRow_eq_ok push
          exact ⟨kept.walk, fun names => ⟨(kept.skew names).dim_skew,
            (kept.skew names).current_dim_skew_⟩, kept.outside⟩
        have looped := @visitTileLoop_looped ctx ptr (get_parent ptr).isNone _
          (fun distinct => distinct ptr member kind_eq) body rest.length 0
          (by rw [dims_eq, List.length_cons, Nat.zero_add])
          ⟨s.walk, s.tally.record (.enter ptr s.walk.current_node_ s.walk.current_loop_state_
            s.tally.dim_skew)⟩ mid here (by
            rw [dims_eq]
            exact inside)
        refine ⟨?_, fun distinct => (looped.skew distinct).dim_skew, looped.outside⟩
        have walk := looped.walk
        rwa [if_pos rfl] at walk
  | first_nil ptr i =>
    rename_i placed
    intro s s' here run
    cases run
    exact Kept.refl s
  | first_cons ptr i c cs first rest =>
    rename_i placed
    intro s s' here run
    rw [scopeChildren] at run
    simp only [descend_child placed.head here, ok_bind] at run
    obtain ⟨mid, child, run⟩ := bind_eq_ok.mp run
    have kept := (first placed.head ⟨s.walk.moveTo (i :: ptr), s.tally⟩ mid rfl child).child here
    have current : mid.walk.current_node_ = ptr := by rw [kept.walk, here]
    simp only [current, Evaluator.child_of_get? placed.head, ok_bind] at run
    split at run
    · exact kept.trans (rest placed.tail _ s' current run)
    · have pushed : Kept ctx ptr [] mid ⟨mid.walk, mid.tally.setRow ptr
          (mid.tally.latency_sub_vec_ ptr ++ [mid.tally.latencyOf (i :: ptr)])⟩ :=
        Kept.of_skews rfl rfl
      exact (kept.trans pushed).trans (rest placed.tail _ s' current run)
  | second_nil ptr i =>
    rename_i placed
    intro s s' here run
    cases run
    exact Kept.refl s
  | second_cons ptr i c cs first rest =>
    rename_i placed
    intro s s' here run
    rw [tileChildren] at run
    simp only [descend_child placed.head here, ok_bind] at run
    obtain ⟨mid, child, run⟩ := bind_eq_ok.mp run
    have kept := (first placed.head ⟨s.walk.moveTo (i :: ptr), s.tally⟩ mid rfl child).child here
    have current : mid.walk.current_node_ = ptr := by rw [kept.walk, here]
    simp only [current, Evaluator.child_of_get? placed.head, ok_bind] at run
    split at run
    · cases run
      exact kept.trans (Kept.of_skews rfl rfl)
    · have pushed : Kept ctx ptr [] mid ⟨mid.walk, mid.tally.setRow ptr
          (mid.tally.latency_sub_vec_ ptr ++ [mid.tally.latencyOf (i :: ptr)])⟩ :=
        Kept.of_skews rfl rfl
      exact (kept.trans pushed).trans (rest placed.tail _ s' current run)

end PerfAnalysis

end TileExp.Analysis
