import Latias.Counts.LoopCount
import Latias.Visits.PathNest
import Latias.Tensors.Inputs
import Latias.Analysis.Config
import Mathlib.Algebra.BigOperators.Ring.Finset
import Mathlib.Data.Int.Cast.Lemmas

/-! How often a run visits an Op, against the count that `GetLoopCount` checks. -/

namespace TileExp.Analysis

open Checked

/-- A loop as the mapping's parser makes it. -/
structure Parsed (loop : Descriptor) : Prop where
  start : loop.start = 0
  stride : loop.stride = 1

instance (loop : Descriptor) : Decidable (Parsed loop) :=
  decidable_of_iff (loop.start = 0 ∧ loop.stride = 1)
    ⟨fun ⟨a, b⟩ => ⟨a, b⟩, fun ⟨a, b⟩ => ⟨a, b⟩⟩

structure Proper (loop : Descriptor) : Prop extends Parsed loop where
  positive : 1 ≤ loop.residual_end
  bounded : loop.residual_end ≤ loop.end_

instance (loop : Descriptor) : Decidable (Proper loop) :=
  decidable_of_iff (Parsed loop ∧ 1 ≤ loop.residual_end ∧ loop.residual_end ≤ loop.end_)
    ⟨fun ⟨a, b, c⟩ => ⟨a, b, c⟩, fun ⟨a, b, c⟩ => ⟨a, b, c⟩⟩

def tailLoop (loop : Descriptor) : TailLoop String :=
  ⟨loop.name_, loop.end_.toNat, loop.residual_end.toNat⟩

theorem Proper.tail_positive {loop : Descriptor} (proper : Proper loop) :
    (tailLoop loop).Positive := by
  have positive := proper.positive
  have bounded := proper.bounded
  constructor <;> simp only [tailLoop] <;> omega

theorem Proper.tail_bounded {loop : Descriptor} (proper : Proper loop) :
    (tailLoop loop).tail ≤ (tailLoop loop).full :=
  Int.toNat_le_toNat proper.bounded

namespace GetLoopCount

theorem dimCount_eq_extent (loops : List Descriptor) (proper : ∀ loop ∈ loops, Proper loop)
    (dim_name : String) :
    dimCount (ofDim dim_name loops) = TailLoop.extent dim_name (loops.map tailLoop) true ∧
      ((ofDim dim_name loops).map Descriptor.end_).prod =
        TailLoop.extent dim_name (loops.map tailLoop) false := by
  induction loops with
  | nil => exact ⟨rfl, rfl⟩
  | cons loop loops ih =>
    obtain ⟨counted, full⟩ := ih fun l member => proper l (List.mem_cons_of_mem loop member)
    have head := proper loop List.mem_cons_self
    have positive := head.positive
    have bounded := head.bounded
    rcases eq_or_ne loop.name_ dim_name with rfl | apart
    · rw [ofDim_cons_self, dimCount_cons]
      simp only [List.map_cons, List.prod_cons, full, counted]
      rw [TailLoop.extent_cons_false (k := loop.name_) head.tail_positive rfl, TailLoop.extent,
        if_pos (show (tailLoop loop).key = loop.name_ from rfl)]
      have tail : (((tailLoop loop).rounds true - 1 : Nat) : Int) = loop.residual_end - 1 := by
        simp only [TailLoop.rounds, tailLoop, if_true]
        omega
      have all : (((tailLoop loop).full : Nat) : Int) = loop.end_ := by
        simp only [tailLoop]
        omega
      push_cast
      rw [tail, all]
      exact ⟨rfl, rfl⟩
    · rw [ofDim_cons_ne apart, List.map_cons, TailLoop.extent, TailLoop.extent,
        if_neg (show (tailLoop loop).key ≠ dim_name from apart),
        if_neg (show (tailLoop loop).key ≠ dim_name from apart)]
      exact ⟨counted, full⟩

end GetLoopCount

namespace LoopNest

/-- The root runs its tails only. -/
def pathTail (entry : NodePtr × Descriptor) : TailLoop String :=
  if entry.1 = [] then (tailLoop entry.2).sealed else tailLoop entry.2

theorem rounds_pathTail {entry : NodePtr × Descriptor} (parsed : Parsed entry.2)
    (loops : List LoopState) :
    (loopEnd entry.1 entry.2 loops - entry.2.start).toNat =
      (pathTail entry).rounds (isLast loops entry.2.name_) := by
  obtain ⟨node, loop⟩ := entry
  rw [parsed.start, Int.sub_zero, loopEnd, pathTail, TailLoop.rounds]
  cases node with
  | nil => cases isLast loops loop.name_ <;> rfl
  | cons i ptr => cases isLast loops loop.name_ <;> rfl

@[simp] theorem pathTail_key (entry : NodePtr × Descriptor) :
    (pathTail entry).key = entry.2.name_ := by
  unfold pathTail
  split <;> rfl

theorem isLast_loopState {entry : NodePtr × Descriptor} (parsed : Parsed entry.2)
    (loops : List LoopState) {i : Nat}
    (bound : i < (pathTail entry).rounds (isLast loops entry.2.name_)) :
    isLast (loopState entry.1 entry.2 (loopEnd entry.1 entry.2 loops) i :: loops) =
      (pathTail entry).flags (isLast loops) i := by
  have rounds := rounds_pathTail parsed loops
  rw [parsed.start] at rounds
  funext dim_name
  rw [isLast_cons, TailLoop.flags, pathTail_key]
  simp only [loopState, parsed.start, parsed.stride]
  by_cases more : i + 1 < (pathTail entry).rounds (isLast loops entry.2.name_)
  · rw [if_pos more]
    rcases eq_or_ne entry.2.name_ dim_name with rfl | apart
    · rw [if_pos rfl, Function.update_self]
      simp only [Bool.and_eq_false_imp, decide_eq_true_eq]
      omega
    · rw [if_neg apart, Function.update_of_ne apart.symm]
  · rw [if_neg more]
    split
    · next same =>
      subst same
      have last : decide (¬ (0 : Int) + i + 1 < loopEnd entry.1 entry.2 loops) = true :=
        decide_eq_true (by omega)
      rw [last, Bool.true_and]
    · rfl

theorem length_nest (entries : List (NodePtr × Descriptor))
    (parsed : ∀ entry ∈ entries, Parsed entry.2) (loops : List LoopState) :
    (nest entries loops).length = TailLoop.count (entries.map pathTail) (isLast loops) := by
  induction entries generalizing loops with
  | nil => rfl
  | cons entry entries ih =>
    have head := parsed entry List.mem_cons_self
    rw [nest, List.length_flatMap, List.map_cons, TailLoop.count, rounds_pathTail head, pathTail_key]
    refine congrArg List.sum (List.map_congr_left fun i member => ?_)
    rw [ih (fun e inside => parsed e (List.mem_cons_of_mem entry inside)),
      isLast_loopState head loops (List.mem_range.mp member)]

end LoopNest

def Event.isOpCharge (node : NodePtr) : Event → Bool
  | .opCharge eva _ _ _ => eva = node
  | _ => false

def opVisits (node : NodePtr) (log : List Event) : Nat := log.countP (Event.isOpCharge node)

def Mark.isOp (node : NodePtr) : Mark → Bool
  | .op eva _ => eva = node
  | _ => false

theorem opVisits_eq (node : NodePtr) (t : Tally) :
    opVisits node t.log = (LoopNest.marks t).countP (Mark.isOp node) := by
  rw [opVisits, LoopNest.marks, List.countP_map]
  refine List.countP_congr fun event _ => ?_
  cases event <;> rfl

variable {ev : Evaluator} {tree : EvaTree} {leaf_vec_ : List NodePtr} {s : PerfState}
  {op : NodePtr}

theorem Evaluator.IsOp.found (op_node : ev.IsOp op) :
    ∃ info cs ops, ev.root_.get? op = some (.mk info cs) ∧ info.kind = .Op ops := by
  obtain ⟨present, kind⟩ := op_node
  obtain ⟨sub, found⟩ := Option.isSome_iff_exists.mp present
  rw [Evaluator.get_type, Evaluator.ori_node_of_get? found] at kind
  obtain ⟨info, cs⟩ := sub
  refine ⟨info, cs, ?_⟩
  cases inner : info.kind with
  | Op ops => exact ⟨ops, found, rfl⟩
  | Tile => simp [Node.get_type, inner, NodeKind.type_] at kind
  | Scope => simp [Node.get_type, inner, NodeKind.type_] at kind
  | Trans => simp [Node.get_type, inner, NodeKind.type_] at kind

theorem opVisits_run (idle : tree.Idle ev) (run : PerfAnalysis.run ev tree leaf_vec_ = .ok s)
    (op_node : ev.IsOp op) : opVisits op s.tally.log = (LoopNest.visits ev op).length := by
  obtain ⟨info, cs, ops, found, kind⟩ := op_node.found
  have under : ∀ mark : Mark, mark.isOp op = true → mark.under op = true := by
    intro mark hit
    rw [Mark.under_iff]
    cases mark with
    | op eva loops =>
      rw [show op = eva from (of_decide_eq_true hit).symm]
      exact List.suffix_rfl
    | enter => cases hit
    | charge => cases hit
    | row => cases hit
    | compute => cases hit
    | leave => cases hit
  have filtered : (LoopNest.marks s.tally).countP (Mark.isOp op) =
      ((LoopNest.marks s.tally).filter (Mark.under op)).countP (Mark.isOp op) := by
    rw [List.countP_filter]
    refine List.countP_congr fun mark _ => ?_
    by_cases hit : mark.isOp op
    · simp [hit, under mark hit]
    · simp [hit]
  have once : ∀ loops, (LoopNest.skeleton op (.mk info cs) loops).countP (Mark.isOp op) = 1 := by
    intro loops
    simp [LoopNest.skeleton, kind, Mark.isOp]
  rw [opVisits_eq, filtered, LoopNest.run_marks idle run,
    LoopNest.filter_skeleton op (.mk info cs) found, List.countP_flatMap]
  simp [Function.comp_def, once]

theorem pathLoops_root (root : ev.get_type [] = .Tile) {node : NodePtr} (inner : node ≠ []) :
    ∃ below, ev.pathLoops node = (ev.loopnests_ []).map ([], ·) ++ below ∧
      ∀ entry ∈ below, entry.1 ≠ [] := by
  induction node with
  | nil => exact absurd rfl inner
  | cons i ptr ih =>
    cases ptr with
    | nil => exact ⟨[], by simp [Evaluator.pathLoops, root], by simp⟩
    | cons j ptr =>
      obtain ⟨below, split, lower⟩ := ih (List.cons_ne_nil j ptr)
      rw [Evaluator.pathLoops, split]
      refine ⟨_, List.append_assoc _ _ _, ?_⟩
      intro entry member
      rcases List.mem_append.mp member with earlier | here
      · exact lower entry earlier
      · split at here
        · obtain ⟨loop, _, rfl⟩ := List.mem_map.mp here
          exact List.cons_ne_nil j ptr
        · cases here

theorem totalCount_eq_prod_extent {nests : List (List Descriptor)} {table : Table Int}
    (proper : ∀ loop ∈ nests.flatten, Proper loop)
    (call : GetLoopCount.get_loop_count nests = .ok table) :
    GetLoopCount.totalCount table =
      ((∏ dim_name ∈ (nests.flatten.map Descriptor.name_).toFinset,
        TailLoop.extent dim_name (nests.flatten.map tailLoop) true : Nat) : Int) := by
  rw [GetLoopCount.totalCount_eq call, Nat.cast_prod]
  exact Finset.prod_congr rfl fun dim_name _ =>
    (GetLoopCount.dimCount_eq_extent nests.flatten proper dim_name).1

/-- An Op is visited as often as its loop count says exactly when no loop of the root with a
    shorter tail is inside a loop of the root over the same dimension that runs more than once. -/
theorem op_visits_eq_total_count_iff (root : ev.get_type [] = .Tile) (leaves : ev.LeafOps)
    (idle : tree.Idle ev) (run : PerfAnalysis.run ev tree leaf_vec_ = .ok s) (op_node : ev.IsOp op)
    (proper : ∀ loop ∈ (ev.tileNests op).flatten, Proper loop) (reached : ev.Reached op) :
    ∃ table, GetLoopCount.get_loop_count (ev.tileNests op) = .ok table ∧
      ((opVisits op s.tally.log : Int) = GetLoopCount.totalCount table ↔
        (ev.loopnests_ []).Pairwise fun outer inner => outer.name_ = inner.name_ →
          1 < outer.residual_end → inner.end_ = inner.residual_end) := by
  obtain ⟨table, call⟩ := @GetLoopCount.get_loop_count_total (ev.tileNests op)
    fun loop member => (proper loop member).bounded
  refine ⟨table, call, ?_⟩
  obtain ⟨below, split, lower⟩ := pathLoops_root root (InitAnalysis.ne_nil_of_op root op_node)
  have flat : (ev.tileNests op).flatten = ev.loopnests_ [] ++ below.map Prod.snd := by
    rw [← LoopNest.map_snd_pathLoops, split]
    simp [Function.comp_def]
  have entries_proper : ∀ entry ∈ ev.pathLoops op, Proper entry.2 := fun entry member =>
    proper entry.2 (LoopNest.map_snd_pathLoops op ▸ List.mem_map_of_mem member)
  have root_proper : ∀ loop ∈ ev.loopnests_ [], Proper loop := fun loop member =>
    proper loop (flat ▸ List.mem_append_left _ member)
  have below_proper : ∀ entry ∈ below, Proper entry.2 := fun entry member =>
    entries_proper entry (split ▸ List.mem_append_right _ member)
  have tails : (ev.pathLoops op).map LoopNest.pathTail =
      ((ev.loopnests_ []).map tailLoop).map TailLoop.sealed ++
        below.map fun entry => tailLoop entry.2 := by
    rw [split, List.map_append, List.map_map, List.map_map]
    refine congrArg₂ _ rfl (List.map_congr_left fun entry member => ?_)
    rw [LoopNest.pathTail, if_neg (lower entry member)]
  have all_tails : (ev.tileNests op).flatten.map tailLoop =
      (ev.loopnests_ []).map tailLoop ++ below.map fun entry => tailLoop entry.2 := by
    rw [flat, List.map_append, List.map_map]
    rfl
  rw [opVisits_run idle run op_node, LoopNest.visits_eq_nest leaves op op_node.1 reached,
    LoopNest.length_nest _ fun entry member => (entries_proper entry member).toParsed, tails, totalCount_eq_prod_extent proper call,
    Nat.cast_inj, all_tails]
  refine (TailLoop.count_sealed_iff ?_ ?_ ?_ _ ?_).trans ?_
  · intro tail member
    obtain ⟨loop, inside, rfl⟩ := List.mem_map.mp member
    exact (root_proper loop inside).tail_positive
  · intro tail member
    obtain ⟨entry, inside, rfl⟩ := List.mem_map.mp member
    exact (below_proper entry inside).tail_positive
  · intro tail member
    obtain ⟨loop, inside, rfl⟩ := List.mem_map.mp member
    exact (root_proper loop inside).tail_bounded
  · intro tail member
    rw [← all_tails] at member
    obtain ⟨loop, inside, rfl⟩ := List.mem_map.mp member
    exact List.mem_toFinset.mpr (List.mem_map_of_mem inside)
  · rw [List.pairwise_map]
    refine ⟨fun pairs => ?_, fun pairs => ?_⟩
    · refine (List.Pairwise.and_mem.mp pairs).imp ?_
      rintro outer inner ⟨outside, inside, rule⟩ same more
      have bounds := root_proper inner inside
      have positive := bounds.positive
      have bounded := bounds.bounded
      have equal := rule same (by simp only [tailLoop]; omega)
      simp only [tailLoop] at equal
      omega
    · refine pairs.imp ?_
      intro outer inner rule same more
      simp only [tailLoop] at more ⊢
      rw [rule same (by omega)]

def doubled : Evaluator :=
  Config.evaluator (Config.workloads [("copy", ⟨["A"], "B"⟩)] [("M", 6)] [("A", ["M"]), ("B", ["M"])])
    1 [("Main2Cube", ⟨1, .HD, 1, 1⟩)]
    (Config.tile .Temporal "Main" [Config.loop "M" 4 2, Config.loop "M" 4 2]
      [Config.op "Cube" "copy" [Config.loop "M" 1 1]])

theorem doubled_visits :
    ((∀ loop ∈ (doubled.tileNests [0]).flatten, Proper loop) ∧ doubled.Reached [0]) ∧
      ∃ s table, PerfAnalysis.run doubled (EvaTree.fresh doubled) [] = .ok s ∧
        GetLoopCount.get_loop_count (doubled.tileNests [0]) = .ok table ∧
        (opVisits [0] s.tally.log : Int) ≠ GetLoopCount.totalCount table := by
  refine ⟨by decide +kernel, ?_⟩
  have visited : ((PerfAnalysis.run doubled (EvaTree.fresh doubled) []).toOption.map fun s =>
      opVisits [0] s.tally.log) = some 4 := by
    decide +kernel
  have counted : ((GetLoopCount.get_loop_count (doubled.tileNests [0])).toOption.map
      GetLoopCount.totalCount) = some 6 := by
    decide +kernel
  cases run : PerfAnalysis.run doubled (EvaTree.fresh doubled) [] with
  | error fault => rw [run] at visited; cases visited
  | ok s =>
    cases call : GetLoopCount.get_loop_count (doubled.tileNests [0]) with
    | error fault => rw [call] at counted; cases counted
    | ok table =>
      rw [run] at visited
      rw [call] at counted
      have visits : opVisits [0] s.tally.log = 4 := Option.some_inj.mp visited
      have count : GetLoopCount.totalCount table = 6 := Option.some_inj.mp counted
      refine ⟨s, table, rfl, rfl, ?_⟩
      rw [visits, count]
      decide

def split : Evaluator :=
  Config.evaluator
    (Config.workloads [("copy", ⟨["A"], "B"⟩)] [("M", 2), ("N", 2)]
      [("A", ["M", "N"]), ("B", ["M", "N"])])
    1 [("Main2Cube", ⟨1, .HD, 1, 1⟩)]
    (Config.tile .Temporal "Main" [Config.loop "M" 4 2, Config.loop "N" 4 2]
      [Config.op "Cube" "copy" [Config.loop "M" 1 1, Config.loop "N" 1 1]])

theorem op_visits_eq_total_count_split :
    ∃ s, PerfAnalysis.run split (EvaTree.fresh split) [] = .ok s ∧
      ∃ table, GetLoopCount.get_loop_count (split.tileNests [0]) = .ok table ∧
        ((opVisits [0] s.tally.log : Int) = GetLoopCount.totalCount table ↔
          (split.loopnests_ []).Pairwise fun outer inner => outer.name_ = inner.name_ →
            1 < outer.residual_end → inner.end_ = inner.residual_end) := by
  have completed : (PerfAnalysis.run split (EvaTree.fresh split) []).isOk = true := by
    decide +kernel
  obtain ⟨s, run⟩ := exists_of_isOk completed
  exact ⟨s, run, op_visits_eq_total_count_iff (by decide) (by decide +kernel) rfl run
    ⟨by decide +kernel, by decide +kernel⟩ (by decide +kernel) (by decide +kernel)⟩

end TileExp.Analysis
