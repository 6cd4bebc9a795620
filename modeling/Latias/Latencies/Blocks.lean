import Latias.Analysis.PerfLatency
import Latias.Library.Checked
import Mathlib.Algebra.Order.Ring.Int
import Mathlib.Tactic.Ring

/-! What `computeLatency` makes of the rows of a Tile without a Scope. -/

namespace TileExp.Analysis

open Checked

structure NonnegEntry (entry : Latency) : Prop where
  input_latency_ : 0 ≤ entry.input_latency_
  output_latency_ : 0 ≤ entry.output_latency_
  process_latency_ : 0 ≤ entry.process_latency_

def NonnegRow (row : List Latency) : Prop := ∀ entry ∈ row, NonnegEntry entry

def NonnegRows (rows : List (List Latency)) : Prop := ∀ row ∈ rows, NonnegRow row

def processSum (row : List Latency) : Int := (row.map Latency.process_latency_).sum

def rowsSum (rows : List (List Latency)) : Int := (rows.map processSum).sum

@[simp] theorem processSum_cons (entry : Latency) (row : List Latency) :
    processSum (entry :: row) = entry.process_latency_ + processSum row := rfl

@[simp] theorem rowsSum_cons (row : List Latency) (rows : List (List Latency)) :
    rowsSum (row :: rows) = processSum row + rowsSum rows := rfl

theorem rowsSum_append (a b : List (List Latency)) : rowsSum (a ++ b) = rowsSum a + rowsSum b := by
  rw [rowsSum, List.map_append, List.sum_append]
  rfl

theorem processSum_nonneg {row : List Latency} (nonneg : NonnegRow row) : 0 ≤ processSum row := by
  induction row with
  | nil => exact Int.le_refl 0
  | cons entry row ih =>
    have head := (nonneg entry List.mem_cons_self).process_latency_
    have tail := ih fun e member => nonneg e (List.mem_cons_of_mem entry member)
    rw [processSum_cons]
    omega

theorem rowsSum_nonneg {rows : List (List Latency)} (nonneg : NonnegRows rows) :
    0 ≤ rowsSum rows := by
  induction rows with
  | nil => exact Int.le_refl 0
  | cons row rows ih =>
    have head := processSum_nonneg (nonneg row List.mem_cons_self)
    have tail := ih fun r member => nonneg r (List.mem_cons_of_mem row member)
    rw [rowsSum_cons]
    omega

variable {ev : Evaluator} {node : NodePtr}

/-- The exact transfer of a child over its link, where the link has one. -/
def exactTransfer (con_type : ConType) (latency : Latency) : Option Int :=
  match con_type with
  | .HD => some (latency.input_latency_ + latency.output_latency_)
  | .FD => some (max latency.input_latency_ latency.output_latency_)
  | _ => none

def Evaluator.Converts (ev : Evaluator) (con_type : ConType) (latency : Latency) : Prop :=
  ∀ exact_ ∈ exactTransfer con_type latency, ev.toInt exact_ = exact_

theorem linkLatency_of_transfer {con_type : ConType} {latency : Latency} {exact_ : Int}
    (transfer : exactTransfer con_type latency = some exact_) (dm_latency : Int) :
    linkLatency ev con_type dm_latency latency = ev.toInt exact_ := by
  cases con_type with
  | HD =>
    cases transfer
    rfl
  | FD =>
    cases transfer
    rfl
  | UC => cases transfer
  | BC => cases transfer
  | Ring => cases transfer
  | Mesh => cases transfer

theorem converts_of_exact (exact : ∀ n, ev.toInt n = n) (con_type : ConType) (entry : Latency) :
    ev.Converts con_type entry := fun exact_ _ => exact exact_

theorem Evaluator.Converts.half {entry : Latency} (converts : ev.Converts .HD entry) :
    ev.toInt (entry.input_latency_ + entry.output_latency_) =
      entry.input_latency_ + entry.output_latency_ := converts _ rfl

theorem Evaluator.Converts.full {entry : Latency} (converts : ev.Converts .FD entry) :
    ev.toInt (max entry.input_latency_ entry.output_latency_) =
      max entry.input_latency_ entry.output_latency_ := converts _ rfl

theorem linkLatency_nonneg {con_type : ConType} {dm_latency : Int} {entry : Latency}
    (converts : ev.Converts con_type entry) (before : 0 ≤ dm_latency) (nonneg : NonnegEntry entry) :
    0 ≤ linkLatency ev con_type dm_latency entry := by
  have input := nonneg.input_latency_
  have output := nonneg.output_latency_
  cases con_type with
  | HD =>
    rw [linkLatency, converts.half]
    omega
  | FD =>
    rw [linkLatency, converts.full]
    omega
  | UC => exact before
  | BC => exact before
  | Ring => exact before
  | Mesh => exact before

theorem scopeLatencyLoop_pipeline (exact : ∀ n, ev.toInt n = n) {row : List Latency} {child_num : Nat}
    {dm_latency : Int} {result block : BlockLatency} (nonneg : NonnegRow row)
    (before : 0 ≤ dm_latency)
    (run : scopeLatencyLoop ev node .Pipeline child_num dm_latency result row = .ok block) :
    block.process_latency_ = result.process_latency_ + processSum row ∧
      result.input_latency_ ≤ block.input_latency_ ∧
      result.output_latency_ ≤ block.output_latency_ := by
  induction row generalizing child_num dm_latency result with
  | nil =>
    cases run
    exact ⟨(Int.add_zero _).symm, Int.le_refl _, Int.le_refl _⟩
  | cons entry row ih =>
    rw [scopeLatencyLoop] at run
    obtain ⟨link, _, rest⟩ := bind_eq_ok.mp run
    have link_nonneg := linkLatency_nonneg (converts_of_exact exact link.con_type_ entry) before
      (nonneg entry List.mem_cons_self)
    obtain ⟨process, input, output⟩ :=
      ih (fun e member => nonneg e (List.mem_cons_of_mem entry member)) link_nonneg rest
    simp only [addChildLatency] at process input output
    refine ⟨?_, by omega, by omega⟩
    rw [process, processSum_cons]
    omega

theorem computeScopeLatency_pipeline (exact : ∀ n, ev.toInt n = n) {row : List Latency}
    {block : BlockLatency} (nonneg : NonnegRow row)
    (run : computeScopeLatency ev node row .Pipeline = .ok block) :
    block.process_latency_ = processSum row ∧ 0 ≤ block.input_latency_ ∧
      0 ≤ block.output_latency_ := by
  obtain ⟨_, _, run⟩ := bind_eq_ok.mp run
  obtain ⟨process, input, output⟩ :=
    scopeLatencyLoop_pipeline exact nonneg (Int.le_refl 0) run
  exact ⟨process.trans (Int.zero_add _), input, output⟩

theorem temporalLatency_pipeline (exact : ∀ n, ev.toInt n = n) {rows : List (List Latency)}
    {total result : BlockLatency} (nonneg : NonnegRows rows)
    (run : temporalLatency ev node .Pipeline total rows = .ok result) :
    result.process_latency_ = total.process_latency_ + rowsSum rows := by
  induction rows generalizing total with
  | nil =>
    cases run
    exact (Int.add_zero _).symm
  | cons row rows ih =>
    rw [temporalLatency] at run
    obtain ⟨block, here, rest⟩ := bind_eq_ok.mp run
    obtain ⟨process, _, _⟩ := computeScopeLatency_pipeline exact (nonneg row List.mem_cons_self) here
    rw [ih (fun r member => nonneg r (List.mem_cons_of_mem row member)) rest, process, rowsSum_cons]
    exact Int.add_assoc _ _ _

theorem groupLatency_broadcast (exact : ∀ n, ev.toInt n = n) {rows : List (List Latency)}
    {total total' : BlockLatency} {core core' : Int} (nonneg : NonnegRows rows) (start : 0 ≤ core)
    (run : groupLatency ev node .Pipeline .BC (total, core) rows = .ok (total', core')) :
    core ≤ core' ∧ rowsSum rows ≤ rows.length * core' := by
  induction rows generalizing total core with
  | nil =>
    cases run
    exact ⟨Int.le_refl _, by simp [rowsSum]⟩
  | cons row rows ih =>
    rw [groupLatency] at run
    obtain ⟨block, here, rest⟩ := bind_eq_ok.mp run
    obtain ⟨process, input, output⟩ :=
      computeScopeLatency_pipeline exact (nonneg row List.mem_cons_self) here
    obtain ⟨grown, bound⟩ := ih (fun r member => nonneg r (List.mem_cons_of_mem row member))
      (by omega) rest
    refine ⟨by omega, ?_⟩
    rw [rowsSum_cons, List.length_cons, Nat.cast_add, Nat.cast_one, Int.add_mul, Int.one_mul]
    omega

/-- Rounds of a Spatial tile: together they take at least as long as a fair share of their rows. -/
theorem spatialLatency_broadcast (exact : ∀ n, ev.toInt n = n) {rows : List (List Latency)}
    {fanout_ repeat_ i rounds : Nat} {total : BlockLatency} {result latency : Int}
    (nonneg : NonnegRows rows)
    (run : spatialLatency ev node .Pipeline .BC fanout_ repeat_ rows i total result rounds =
      .ok latency) :
    result ≤ latency ∧
      rowsSum ((rows.drop (i * fanout_)).take (rounds * fanout_)) ≤ fanout_ * (latency - result) := by
  induction rounds generalizing i total result with
  | zero =>
    cases run
    exact ⟨Int.le_refl _, by simp [rowsSum]⟩
  | succ rounds ih =>
    rw [spatialLatency] at run
    obtain ⟨⟨total', core⟩, group, rest⟩ := bind_eq_ok.mp run
    have inside : NonnegRows ((rows.drop (i * fanout_)).take fanout_) := fun row member =>
      nonneg row (List.mem_of_mem_drop (List.mem_of_mem_take member))
    obtain ⟨positive, bound⟩ := groupLatency_broadcast exact inside (Int.le_refl 0) group
    obtain ⟨grown, later⟩ := ih rest
    simp only [reduceCtorEq, if_false] at grown later
    have split : (rows.drop (i * fanout_)).take ((rounds + 1) * fanout_) =
        (rows.drop (i * fanout_)).take fanout_ ++
          (rows.drop ((i + 1) * fanout_)).take (rounds * fanout_) := by
      rw [Nat.add_mul, Nat.one_mul, Nat.add_comm (rounds * fanout_), List.take_add, List.drop_drop,
        Nat.add_mul, Nat.one_mul]
    have size : ((((rows.drop (i * fanout_)).take fanout_).length : Nat) : Int) * core ≤
        fanout_ * core :=
      Int.mul_le_mul_of_nonneg_right (by exact_mod_cast List.length_take_le _ _) positive
    refine ⟨by omega, ?_⟩
    rw [split, rowsSum_append]
    have expand : (fanout_ : Int) * (latency - result) =
        fanout_ * core + fanout_ * (latency - (result + core)) := by ring
    rw [expand]
    omega

def Evaluator.tileFanout (ev : Evaluator) (node : NodePtr) : Nat :=
  if ev.get_type node = .Tile ∧ isTemporal (ev.ori_node_ node) = false then
    match getInterConNode ev node 0 with
    | .ok link => link.fanout_
    | .error _ => 1
  else 1

def Evaluator.Broadcast (ev : Evaluator) (node : NodePtr) : Prop :=
  ev.get_type node = .Tile → isTemporal (ev.ori_node_ node) = false →
    ∃ link, getInterConNode ev node 0 = .ok link ∧ link.con_type_ = .BC ∧ 1 ≤ link.fanout_

theorem tileFanout_pos (broadcast : ev.Broadcast node) : 1 ≤ ev.tileFanout node := by
  unfold Evaluator.tileFanout
  split
  · next spatial =>
    obtain ⟨link, found, _, positive⟩ := broadcast spatial.1 spatial.2
    rw [found]
    exact positive
  · exact Nat.le_refl 1

theorem ceil_div_mul_ge (n : Nat) {d : Nat} (positive : d ≠ 0) : n ≤ (n + d - 1) / d * d := by
  have division := Nat.div_add_mod (n + d - 1) d
  have remainder := Nat.mod_lt (n + d - 1) (Nat.pos_of_ne_zero positive)
  rw [Nat.mul_comm] at division
  omega

/-- The latency of a Tile without Scopes, times its fanout, covers the process latencies of its
    rows. -/
theorem computeLatency_covers (exact : ∀ n, ev.toInt n = n) (tile : ev.get_type node = .Tile)
    (broadcast : ev.Broadcast node) (plain : ∀ child, ev.child node 0 = .ok child →
      scopeTypeOf (ev.ori_node_ child) = .Pipeline) {rows : List (List Latency)} {latency : Int}
    (nonneg : NonnegRows rows) (run : computeLatency ev node rows = .ok latency) :
    0 ≤ latency ∧ rowsSum rows ≤ latency * ev.tileFanout node := by
  obtain ⟨_, _, run⟩ := bind_eq_ok.mp run
  obtain ⟨child, first, run⟩ := bind_eq_ok.mp run
  obtain ⟨link, found, run⟩ := bind_eq_ok.mp run
  rw [plain child first] at run
  have sum_nonneg := rowsSum_nonneg nonneg
  by_cases temporal : isTemporal (ev.ori_node_ node) = true
  · rw [if_pos temporal] at run
    obtain ⟨total, walked, result⟩ := bind_eq_ok.mp run
    cases result
    have process := temporalLatency_pipeline exact nonneg walked
    simp only [Int.zero_add] at process
    have single : ev.tileFanout node = 1 := if_neg fun both => by simp [temporal] at both
    rw [single, maxOf, ← process]
    omega
  · have spatial : isTemporal (ev.ori_node_ node) = false := Bool.eq_false_iff.mpr temporal
    obtain ⟨link', found', kind, positive⟩ := broadcast tile spatial
    cases found.symm.trans found'
    have width : link.fanout_ ≠ 0 := by omega
    rw [if_neg temporal, if_neg width, kind] at run
    obtain ⟨grown, bound⟩ := spatialLatency_broadcast exact nonneg run
    have all : (rows.drop (0 * link.fanout_)).take
        ((rows.length + link.fanout_ - 1) / link.fanout_ * link.fanout_) = rows := by
      rw [Nat.zero_mul, List.drop_zero, List.take_of_length_le (ceil_div_mul_ge rows.length width)]
    have cores : ev.tileFanout node = link.fanout_ := by
      rw [Evaluator.tileFanout, if_pos ⟨tile, spatial⟩, found]
    rw [all, Int.sub_zero, Int.mul_comm] at bound
    rw [cores]
    exact ⟨grown, bound⟩

end TileExp.Analysis
