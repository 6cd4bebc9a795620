import Latias.Ranges.Cells

/-! The visits below a visit cover all of its part of each dimension. -/

namespace TileExp.Analysis

open Checked LoopNest TailRadix

namespace LoopNest

variable {ev : Evaluator} {ctx : PerfContext} {node : NodePtr} {dim_name : String}
  {v v' : List LoopState} {loop : Descriptor} {dims : List Descriptor} {names : List String}
  {p : String → Int}

/-- A number is in the part of the dimension that a visit covers. -/
def Covers (ctx : PerfContext) (dim_name : String) (rest : List TailRadix) (v : List LoopState)
    (x : Int) : Prop :=
  skewOf ctx v dim_name ≤ x ∧ x < skewOf ctx v dim_name + block rest (isLast v dim_name)

theorem CellIn.covers {rest rest' : List TailRadix} {x : Int}
    (inside : CellIn ctx dim_name rest v rest' v') (covered : Covers ctx dim_name rest v x) :
    Covers ctx dim_name rest' v' x := by
  have low := inside.low
  have high := inside.high
  obtain ⟨above, below⟩ := covered
  exact ⟨by omega, by omega⟩

theorem loopEnd_of_proper (proper : Proper loop) (v : List LoopState) : 1 ≤ loopEnd node loop v := by
  have positive := proper.positive
  have bounded := proper.bounded
  exact loopEnd_pos ⟨by omega, by omega⟩ v

theorem exists_round {rest : List TailRadix} (setting : LoopSetting ctx node loop.name_ rest v)
    (loop_proper : Proper loop) (proper : ∀ digit ∈ rest, digit.Proper) {x : Int}
    (covered : Covers ctx loop.name_ (radix loop :: rest) v x) :
    ∃ i < (loopEnd node loop v - loop.start).toNat,
      Covers ctx loop.name_ rest (loopState node loop (loopEnd node loop v) i :: v) x := by
  obtain ⟨above, below⟩ := covered
  have offset : x - skewOf ctx v loop.name_ < block (radix loop :: rest) (isLast v loop.name_) := by
    omega
  obtain ⟨i, nonneg, bound, low, high⟩ := exists_sub_block proper loop_proper.radix
    (show 0 ≤ x - skewOf ctx v loop.name_ by omega) offset
  obtain ⟨n, rfl⟩ := Int.eq_ofNat_of_zero_le nonneg
  refine ⟨n, ?_, ?_, ?_⟩
  · rw [loop_proper.start, setting.loopEnd_eq]
    omega
  · rw [skewOf_loopState setting]
    omega
  · rw [skewOf_loopState setting, isLast_stays setting loop_proper.toParsed]
    omega

theorem exists_first (below : String → List Descriptor)
    (settings : ∀ dim_name ∈ names,
      NestSetting ctx node dim_name (loop :: dims) (below dim_name) v)
    (proper : Proper loop) (covered : ∀ dim_name ∈ names,
      Covers ctx dim_name (digits dim_name (loop :: dims ++ below dim_name)) v (p dim_name)) :
    ∃ i < (loopEnd node loop v - loop.start).toNat, ∀ dim_name ∈ names,
      Covers ctx dim_name (digits dim_name (dims ++ below dim_name))
        (loopState node loop (loopEnd node loop v) i :: v) (p dim_name) := by
  have others : ∀ i, ∀ dim_name ∈ names, loop.name_ ≠ dim_name →
      Covers ctx dim_name (digits dim_name (dims ++ below dim_name))
        (loopState node loop (loopEnd node loop v) i :: v) (p dim_name) := by
    intro i dim_name inside other
    have here := covered dim_name inside
    rw [List.cons_append, digits_cons_ne other] at here
    rw [Covers, skewOf_other other, isLast_other other]
    exact here
  by_cases own : loop.name_ ∈ names
  · have setting := settings loop.name_ own
    obtain ⟨rest, head⟩ := setting.head
    have here := covered loop.name_ own
    rw [List.cons_append, digits_cons_self] at here
    obtain ⟨i, bound, inside⟩ := exists_round head proper
      (by rw [rest]; exact digits_proper setting.inner) here
    refine ⟨i, bound, fun dim_name member => ?_⟩
    by_cases same : loop.name_ = dim_name
    · subst same
      exact inside
    · exact others i dim_name member same
  · have some : 1 ≤ loopEnd node loop v := loopEnd_of_proper proper v
    refine ⟨0, by rw [proper.start]; omega, fun dim_name member => others 0 dim_name member ?_⟩
    rintro rfl
    exact own member

theorem exists_iteration (below : String → List Descriptor) (dims : List Descriptor) :
    (∀ loop ∈ dims, Proper loop) → ∀ v, (∀ dim_name ∈ names,
      NestSetting ctx node dim_name dims (below dim_name) v) → (∀ dim_name ∈ names,
        Covers ctx dim_name (digits dim_name (dims ++ below dim_name)) v (p dim_name)) →
          ∃ u ∈ iterations node dims v, v <:+ u ∧ ∀ dim_name ∈ names,
            Covers ctx dim_name (digits dim_name (below dim_name)) u (p dim_name) := by
  induction dims with
  | nil => exact fun _ v _ covered => ⟨v, List.mem_singleton_self v, List.suffix_rfl, covered⟩
  | cons loop dims ih =>
    intro proper v settings covered
    obtain ⟨i, bound, inside⟩ := exists_first below settings (proper loop List.mem_cons_self) covered
    obtain ⟨u, member, after, inner⟩ := ih
      (fun l inside => proper l (List.mem_cons_of_mem loop inside)) _
      (fun dim_name member => (settings dim_name member).rest) inside
    refine ⟨u, ?_, (List.suffix_cons _ v).trans after, inner⟩
    exact List.mem_flatMap.mpr ⟨i, List.mem_range.mpr bound, member⟩

/-- Some visit of a node below covers the numbers of all dimensions, inside the same iterations. -/
theorem exists_visit (proper : ctx.ev.ProperLoops) (distinct : ctx.ev.DistinctDims)
    (leaves : ctx.ev.LeafOps) (visited : v ∈ visits ctx.ev node) (r : Rose.Address) :
    ∀ q : String → Rose.Address, (ctx.ev.root_.get? (r ++ node)).isSome → ctx.ev.Reached (r ++ node) →
      (∀ dim_name ∈ names, OffsetsAlong ctx dim_name (q dim_name ++ (r ++ node))) →
        (∀ dim_name ∈ names, Covers ctx dim_name
          (ctx.ev.remaining dim_name node (q dim_name ++ r)) v (p dim_name)) →
            ∃ u ∈ visits ctx.ev (r ++ node), v <:+ u ∧ ∀ dim_name ∈ names, Covers ctx dim_name
              (ctx.ev.remaining dim_name (r ++ node) (q dim_name)) u (p dim_name) := by
  induction r with
  | nil =>
    intro q _ _ _ covered
    refine ⟨v, visited, List.suffix_rfl, fun dim_name member => ?_⟩
    have here := covered dim_name member
    rwa [List.append_nil] at here
  | cons i r ih =>
    intro q found reached along covered
    have above := Evaluator.isSome_get?_parent found
    obtain ⟨u, member, after, inside⟩ := ih (fun dim_name => q dim_name ++ [i]) above reached.2
      (fun dim_name member => by
        rw [List.append_assoc]
        exact along dim_name member)
      (fun dim_name member => by
        rw [List.append_assoc]
        exact covered dim_name member)
    have inner := InitAnalysis.not_isLeaf_of_ancestor leaves found List.mem_cons_self
    have child : ∀ w, w ∈ childVisits (r ++ node) (ctx.ev.ori_node_ (r ++ node)) i u →
        w ∈ visits ctx.ev (i :: (r ++ node)) := fun w here => List.mem_flatMap.mpr ⟨u, member, here⟩
    by_cases tile : ctx.ev.get_type (r ++ node) = .Tile
    · obtain ⟨w, iteration, later, covers⟩ := exists_iteration
        (fun dim_name => ctx.ev.loopnests_ (i :: (r ++ node)) ++
          ctx.ev.loopsBelow (i :: (r ++ node)) (q dim_name)) (ctx.ev.loopnests_ (r ++ node))
        (fun loop member => proper.at member) u
        (fun dim_name inside => nestSetting proper distinct (along dim_name inside) above member)
        (fun dim_name within => by
          rw [← remaining_child]
          exact inside dim_name within)
      have here := mem_childVisits.mpr (Or.inl ⟨tile, reached.1 tile, iteration⟩)
      exact ⟨w, child w here, after.trans later, covers⟩
    · have scope : ctx.ev.get_type (r ++ node) = .Scope := by
        cases kind : ctx.ev.get_type (r ++ node) with
        | Tile => exact absurd kind tile
        | Scope => rfl
        | Op => simp [InitAnalysis.isLeaf, kind] at inner
        | Trans => simp [InitAnalysis.isLeaf, kind] at inner
      have none := InitAnalysis.loopnests_of_scope scope
      refine ⟨u, child u (mem_childVisits.mpr (Or.inr ⟨scope, none, rfl⟩)), after, fun dim_name within => ?_⟩
      have covers := inside dim_name within
      rwa [remaining_of_scope none] at covers

end LoopNest

end TileExp.Analysis
