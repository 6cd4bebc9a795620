import Latias.Library.Odometer
import Latias.Ranges.Compulsory
import Latias.Ranges.Footprint

/-! How often the visits of a Tile take another part of a tensor than the visit before, from the
    order of the loops above. -/

namespace TileExp.Analysis

open LoopNest

def idleLoop (dims : List String) (loop : Descriptor) : Bool :=
  !decide (loop.name_ ∈ dims) || loop.end_ == 1

/-- The rounds of the loops above a node, without those inside the innermost loop that changes the
    part taken. -/
def Evaluator.reloads (ev : Evaluator) (node : NodePtr) (dims : List String) : Int :=
  (((ev.tileNests node).flatten.rdropWhile (idleLoop dims)).map Descriptor.end_).prod

def Evaluator.roundsAbove (ev : Evaluator) (node : NodePtr) : Int :=
  ((ev.tileNests node).flatten.map Descriptor.end_).prod

theorem Evaluator.PerfectLoops.above {ev : Evaluator} (perfect : ev.PerfectLoops) (node : NodePtr) :
    ∀ loop ∈ (ev.tileNests node).flatten, Perfect loop := by
  intro loop member
  obtain ⟨ptr, own⟩ := mem_tileNests node member
  cases found : ev.root_.get? ptr with
  | none =>
    rw [Evaluator.loopnests_, Evaluator.ori_node_, found] at own
    cases own
  | some sub =>
    exact perfect ptr (InitAnalysis.mem_positions.mpr (by rw [found]; rfl)) loop own

namespace LoopNest

variable {ev : Evaluator} {node : NodePtr} {dims : List String} {v w : List LoopState}

def shown (dims : List String) (v : List LoopState) : List (Option Int) :=
  v.map fun loop => if loop.name_ ∈ dims then some loop.index else none

theorem shown_cons (dims : List String) (a : LoopState) (v : List LoopState) :
    shown dims (a :: v) = (if a.name_ ∈ dims then some a.index else none) :: shown dims v := rfl

theorem sameIndices_of_shown (same : shown dims v = shown dims w) : SameIndices dims v w := by
  induction v generalizing w with
  | nil =>
    cases w with
    | nil => exact List.Forall₂.nil
    | cons b w => cases same
  | cons a v ih =>
    cases w with
    | nil => cases same
    | cons b w =>
      rw [shown_cons, shown_cons] at same
      obtain ⟨head, tail⟩ := List.cons.inj same
      apply List.Forall₂.cons _ (ih tail)
      intro inside
      rw [if_pos inside] at head
      split at head
      · exact Option.some_inj.mp head
      · cases head

theorem exists_moved (keys : v.map LoopState.key = w.map LoopState.key)
    (moved : shown dims v ≠ shown dims w) : ∃ dim_name ∈ dims, ¬ SameIndices [dim_name] v w := by
  by_contra none
  apply moved
  have still : ∀ dim_name ∈ dims, SameIndices [dim_name] v w := by
    intro dim_name inside
    by_contra different
    exact none ⟨dim_name, inside, different⟩
  clear none moved
  induction v generalizing w with
  | nil =>
    cases w with
    | nil => rfl
    | cons b w => cases keys
  | cons a v ih =>
    cases w with
    | nil => cases keys
    | cons b w =>
      obtain ⟨head, tail⟩ := List.cons.inj keys
      have names : a.name_ = b.name_ := congrArg Prod.snd head
      have rest : shown dims v = shown dims w := ih tail fun dim_name inside =>
        (List.forall₂_cons.mp (still dim_name inside)).2
      rw [shown_cons, shown_cons, rest, ← names]
      split
      · next inside =>
        rw [(List.forall₂_cons.mp (still a.name_ inside)).1 (List.mem_singleton_self _)]
      · rfl

def dialOf (dims : List String) (loop : Descriptor) : Odometer.Dial :=
  ⟨loop.end_.toNat, decide (loop.name_ ∈ dims)⟩

theorem loopEnd_of_perfect {loop : Descriptor} (perfect : Perfect loop) (v : List LoopState) :
    loopEnd node loop v = loop.end_ := by
  rw [loopEnd, perfect.even]
  split <;> rfl

theorem shown_nest {entries : List (NodePtr × Descriptor)}
    (perfect : ∀ entry ∈ entries, Perfect entry.2) (v : List LoopState) :
    (nest entries v).map (shown dims) =
      Odometer.displays (entries.map fun entry => dialOf dims entry.2) (shown dims v) := by
  induction entries generalizing v with
  | nil => rfl
  | cons entry entries ih =>
    have head := perfect entry List.mem_cons_self
    have rest := ih fun e inside => perfect e (List.mem_cons_of_mem entry inside)
    rw [nest, List.map_flatMap, List.map_cons, Odometer.displays, loopEnd_of_perfect head,
      head.start, Int.sub_zero]
    refine congrArg (List.flatMap · _) (funext fun i => ?_)
    rw [rest]
    congr 1
    simp [shown, loopState, dialOf, Odometer.Dial.mark, head.start]

theorem idle_dialOf (dims : List String) (loop : Descriptor) :
    (dialOf dims loop).idle = idleLoop dims loop := by
  have one : (loop.end_.toNat == 1) = (loop.end_ == 1) := by
    rw [Bool.eq_iff_iff, beq_iff_eq, beq_iff_eq]
    omega
  rw [Odometer.Dial.idle, dialOf, one, idleLoop]

theorem turns_dials {loops : List Descriptor} (positive : ∀ loop ∈ loops, 1 ≤ loop.end_)
    (dims : List String) : (Odometer.turns (loops.map (dialOf dims)) : Int) =
      ((loops.rdropWhile (idleLoop dims)).map Descriptor.end_).prod := by
  have idle : Odometer.Dial.idle ∘ dialOf dims = idleLoop dims := funext (idle_dialOf dims)
  have busy : ∀ loop ∈ loops.rdropWhile (idleLoop dims), ((dialOf dims loop).bound : Int) = loop.end_ := by
    intro loop member
    have bound := positive loop ((List.rdropWhile_prefix _ _).subset member)
    show (loop.end_.toNat : Int) = loop.end_
    omega
  rw [Odometer.turns, List.rdropWhile, ← List.map_reverse, List.dropWhile_map, idle,
    ← List.map_reverse, ← List.rdropWhile, List.map_map, Nat.cast_list_prod, List.map_map]
  exact congrArg List.prod (List.map_congr_left busy)

/-- The visits of a node whose loops above divide perfectly take another part of a tensor as often as
    the loops outside the innermost loop over its dimensions run. -/
theorem refreshes_visits (perfect : ev.PerfectLoops) (leaves : ev.LeafOps) (lone : ev.LoneScopes)
    (found : (ev.root_.get? node).isSome) (dims : List String) :
    (Odometer.refreshes ((visits ev node).map (shown dims)) : Int) = ev.reloads node dims := by
  have entries : ∀ entry ∈ ev.pathLoops node, Perfect entry.2 := fun entry member =>
    perfect.above node entry.2 (map_snd_pathLoops node ▸ List.mem_map_of_mem member)
  have positive : ∀ loop ∈ (ev.tileNests node).flatten, 1 ≤ loop.end_ := fun loop member =>
    (perfect.above node loop member).positive
  have dials : (ev.pathLoops node).map (fun entry => dialOf dims entry.2) =
      (ev.tileNests node).flatten.map (dialOf dims) := by
    rw [← map_snd_pathLoops, List.map_map]
    rfl
  have running : ∀ dial ∈ (ev.tileNests node).flatten.map (dialOf dims), 0 < dial.bound := by
    intro dial member
    obtain ⟨loop, inside, rfl⟩ := List.mem_map.mp member
    have bound := positive loop inside
    show 0 < loop.end_.toNat
    omega
  rw [visits_eq_nest leaves node found (lone.reached node found), shown_nest entries, dials,
    Odometer.refreshes_displays running, turns_dials positive, Evaluator.reloads]

theorem length_nest_perfect {entries : List (NodePtr × Descriptor)}
    (perfect : ∀ entry ∈ entries, Perfect entry.2) (v : List LoopState) :
    ((nest entries v).length : Int) = (entries.map fun entry => entry.2.end_).prod := by
  induction entries generalizing v with
  | nil => rfl
  | cons entry entries ih =>
    have head := perfect entry List.mem_cons_self
    have bound := head.positive
    have rest := ih fun e inside => perfect e (List.mem_cons_of_mem entry inside)
    rw [nest, List.length_flatMap, loopEnd_of_perfect head, head.start, Int.sub_zero, Nat.cast_list_sum,
      List.map_map]
    simp only [Function.comp_def, rest, List.map_const', List.sum_replicate, List.length_range,
      List.map_cons, List.prod_cons, nsmul_eq_mul]
    rw [Int.toNat_of_nonneg (by omega)]

theorem card_visits (perfect : ev.PerfectLoops) (leaves : ev.LeafOps) (lone : ev.LoneScopes)
    (found : (ev.root_.get? node).isSome) : ((visits ev node).length : Int) = ev.roundsAbove node := by
  have entries : ∀ entry ∈ ev.pathLoops node, Perfect entry.2 := fun entry member =>
    perfect.above node entry.2 (map_snd_pathLoops node ▸ List.mem_map_of_mem member)
  rw [visits_eq_nest leaves node found (lone.reached node found), length_nest_perfect entries,
    Evaluator.roundsAbove, ← map_snd_pathLoops, List.map_map]
  rfl

end LoopNest

end TileExp.Analysis
