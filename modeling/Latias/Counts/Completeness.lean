import Latias.Counts.Accepted
import Latias.Analysis.Config
import Mathlib.Algebra.BigOperators.Ring.Finset

/-! What `visitOp` accepts, against the index values that the loops execute. -/

namespace TileExp.Analysis

open Checked GetLoopCount

def dimLoop (loop : Descriptor) : TailLoop Unit :=
  ⟨(), loop.end_.toNat, loop.residual_end.toNat⟩

def executed (loops : List Descriptor) : Nat := TailLoop.count (loops.map dimLoop) fun _ => true

/-- What the formula of `get_loop_count` counts beyond the executed values: everything from the first
    loop without a tail on, and the negative bounds inside the others. -/
def excess : List Descriptor → Int
  | [] => 0
  | loop :: rest =>
    if 1 ≤ loop.residual_end then
      (loop.residual_end - 1) * ((rest.map Descriptor.end_).prod -
        ((rest.map fun inner => inner.end_.toNat).prod : Nat)) + excess rest
    else (loop.residual_end - 1) * (rest.map Descriptor.end_).prod + dimCount rest

theorem count_full (loops : List Descriptor) :
    TailLoop.count (loops.map dimLoop) (fun _ => false) =
      (loops.map fun loop => loop.end_.toNat).prod := by
  induction loops with
  | nil => rfl
  | cons loop loops ih =>
    have still (i : Nat) : (dimLoop loop).flags (fun _ => false) i = fun _ => false := by
      unfold TailLoop.flags
      split
      · funext key
        rfl
      · rfl
    have rounds : (dimLoop loop).rounds false = loop.end_.toNat := rfl
    rw [List.map_cons, TailLoop.count, List.map_cons, List.prod_cons, rounds]
    simp only [still, ih, List.map_const', List.length_range, List.sum_replicate_nat]

theorem executed_cons (loop : Descriptor) (rest : List Descriptor) :
    executed (loop :: rest) = if 1 ≤ loop.residual_end then
      (loop.residual_end - 1).toNat * (rest.map fun inner => inner.end_.toNat).prod + executed rest
    else 0 := by
  have rounds : (dimLoop loop).rounds true = loop.residual_end.toNat := rfl
  rw [executed, List.map_cons, TailLoop.count, rounds]
  split
  · next positive =>
    have each (i : Nat) : TailLoop.count (rest.map dimLoop) ((dimLoop loop).flags (fun _ => true) i) =
        if i + 1 < loop.residual_end.toNat then (rest.map fun inner => inner.end_.toNat).prod
        else executed rest := by
      unfold TailLoop.flags
      rw [rounds]
      split
      · rw [← count_full]
        congr 1
      · rfl
    have before : loop.residual_end.toNat - 1 = (loop.residual_end - 1).toNat := by omega
    simp only [each]
    rw [TailLoop.sum_range_last (by omega), before]
  · next none =>
    have zero : loop.residual_end.toNat = 0 := by omega
    rw [zero]
    rfl

/-- The formula counts the executed values and the excess. -/
theorem dimCount_eq_executed (loops : List Descriptor) :
    dimCount loops = executed loops + excess loops := by
  induction loops with
  | nil => rfl
  | cons loop rest ih =>
    rw [dimCount_cons, executed_cons, excess]
    split
    · next positive =>
      have tail : (((loop.residual_end - 1).toNat : Nat) : Int) = loop.residual_end - 1 := by omega
      rw [ih]
      push_cast
      rw [tail]
      ring
    · push_cast
      ring

theorem excess_of_positive {loops : List Descriptor}
    (positive : ∀ loop ∈ loops, 1 ≤ loop.residual_end)
    (bounded : ∀ loop ∈ loops.tail, loop.residual_end ≤ loop.end_) : excess loops = 0 := by
  induction loops with
  | nil => rfl
  | cons loop rest ih =>
    obtain ⟨here, inner⟩ := List.forall_mem_cons.mp positive
    have full : ((rest.map fun inner => inner.end_.toNat).prod : Nat) =
        (rest.map Descriptor.end_).prod := by
      have ends : ∀ inner ∈ rest, ((inner.end_.toNat : Nat) : Int) = inner.end_ := by
        intro loop' member
        have tail := inner loop' member
        have bound := bounded loop' member
        omega
      rw [Nat.cast_list_prod, List.map_map]
      exact congrArg List.prod (List.map_congr_left ends)
    rw [excess, if_pos here, full, Int.sub_self, Int.mul_zero, Int.zero_add]
    exact ih inner fun loop' member => bounded loop' (List.mem_of_mem_tail member)

namespace GetLoopCount

theorem bounded_of_count {nests : List (List Descriptor)} {table : Table Int}
    (call : get_loop_count nests = .ok table) (dim_name : String) :
    ∀ loop ∈ (ofDim dim_name nests.flatten).tail, loop.residual_end ≤ loop.end_ := by
  obtain ⟨ends, pushed, _⟩ := bind_eq_ok.mp call
  have both := foldlM_induction pushed (fun done ends => Collected done ends ∧
    ∀ loop ∈ (ofDim dim_name done).tail, loop.residual_end ≤ loop.end_) ⟨Collected.nil, by simp⟩ ?_
  · exact both.2
  · intro done loop rest before after _ held step
    obtain ⟨collected, bounded⟩ := held
    refine ⟨collected.snoc step, fun loop' member => ?_⟩
    rw [ofDim_append] at member
    by_cases own : loop.name_ = dim_name
    · subst own
      have last : ofDim loop.name_ [loop] = [loop] := ofDim_cons_self []
      rw [last] at member
      cases earlier : ofDim loop.name_ done with
      | nil =>
        rw [earlier] at member
        cases member
      | cons first others =>
        rw [earlier, List.cons_append, List.tail_cons, List.mem_append] at member
        rcases member with old | new
        · exact bounded loop' (by rw [earlier]; exact old)
        · cases List.mem_singleton.mp new
          have present : loop.name_ ∈ done.map Descriptor.name_ := by
            by_contra absent
            rw [ofDim_eq_nil.mpr absent] at earlier
            cases earlier
          unfold pushDim at step
          simp only [collected.dim_ends, if_pos present] at step
          obtain ⟨_, checked, _⟩ := bind_eq_ok.mp step
          exact tileexpAssert_eq_ok.mp checked
    · have none : ofDim dim_name [loop] = [] := ofDim_cons_ne own []
      rw [none, List.append_nil] at member
      exact bounded loop' member

variable {ev : Evaluator} {op : NodePtr} {done rest : List NodePtr} {s s' : Inherit}

theorem passed_before (order : Rose.preorder [] ev.root_ = done ++ rest)
    (passed : done.foldlM (fun s node => visit ev (ev.ori_node_ node) node s) (fun _ => []) = .ok s) :
    Passed ev done s := by
  refine foldlM_induction passed (fun done s => Passed ev done s) ⟨by simp, by simp⟩ ?_
  intro before node after t t' split held step
  have whole : Rose.preorder [] ev.root_ = before ++ node :: (after ++ rest) := by
    rw [order, split, List.append_assoc, List.cons_append]
  exact held.step whole step

/-- The loops that `visitOp` counts are those on the path from the root, with the Op's own. -/
theorem visitOp_counts (order : Rose.preorder [] ev.root_ = done ++ op :: rest)
    (passed : done.foldlM (fun s node => visit ev (ev.ori_node_ node) node s) (fun _ => []) = .ok s)
    (accepts : visitOp ev (ev.ori_node_ op) op s = .ok s') :
    ∃ table, get_loop_count (ev.opNests op) = .ok table ∧
      ∀ dim_name ∈ (ev.opNests op).flatten.map Descriptor.name_,
        ev.workloads_.factorized_bound dim_name =
          dimCount (ofDim dim_name (ev.opNests op).flatten) := by
  have before := passed_before order passed
  obtain ⟨fresh, above⟩ := before.fresh_above order
  obtain ⟨_, read, step⟩ := bind_eq_ok.mp accepts
  obtain ⟨_, _, step⟩ := bind_eq_ok.mp step
  obtain ⟨table, counted, step⟩ := bind_eq_ok.mp step
  obtain ⟨_, compared, _⟩ := bind_eq_ok.mp step
  cases op with
  | nil => cases read
  | cons i parent =>
    cases read
    have nests : ((s (i :: parent) ++ s parent) ++ [(ev.ori_node_ (i :: parent)).loopnests_]) =
        ev.opNests (i :: parent) := by
      rw [fresh, above i parent rfl]
      rfl
    simp only [add_inherit_loopnest, Function.update_self, nests] at counted
    refine ⟨table, counted, fun dim_name present => ?_⟩
    apply checkBounds_iff.mp compared
    rw [lookup_get_loop_count counted, if_pos present]

end GetLoopCount

def Evaluator.dimLoops (ev : Evaluator) (op : NodePtr) (dim_name : String) : List Descriptor :=
  ofDim dim_name (ev.opNests op).flatten

/-- An accepted Op executes the index values of its dimensions just when every dimension without
    loops has the bound 1, and nothing was counted in excess for the others. Where all tails are
    positive there is no excess. -/
theorem counts_complete_iff (ev : Evaluator) (op : NodePtr) (dims : List String)
    (done rest : List NodePtr) (s s' : Inherit)
    (order : Rose.preorder [] ev.root_ = done ++ op :: rest)
    (passed : done.foldlM (fun s node => visit ev (ev.ori_node_ node) node s) (fun _ => []) = .ok s)
    (accepts : visitOp ev (ev.ori_node_ op) op s = .ok s') :
    ((∀ dim_name ∈ dims,
        (executed (ev.dimLoops op dim_name) : Int) = ev.workloads_.factorized_bound dim_name) ↔
      ∀ dim_name ∈ dims,
        if ev.dimLoops op dim_name = [] then ev.workloads_.factorized_bound dim_name = 1
        else excess (ev.dimLoops op dim_name) = 0) ∧
    ∀ dim_name, (∀ loop ∈ ev.dimLoops op dim_name, 1 ≤ loop.residual_end) →
      excess (ev.dimLoops op dim_name) = 0 := by
  obtain ⟨table, counted, bounds⟩ := visitOp_counts order passed accepts
  constructor
  · refine forall₂_congr fun dim_name _ => ?_
    split
    · next none =>
      have one : executed [] = 1 := rfl
      rw [none, one]
      exact eq_comm
    · next some =>
      have present : dim_name ∈ (ev.opNests op).flatten.map Descriptor.name_ := by
        by_contra absent
        exact some (ofDim_eq_nil.mpr absent)
      have formula := dimCount_eq_executed (ev.dimLoops op dim_name)
      rw [bounds dim_name present]
      show (executed (ev.dimLoops op dim_name) : Int) = dimCount (ev.dimLoops op dim_name) ↔ _
      omega
  · intro dim_name positive
    exact excess_of_positive positive (bounded_of_count counted dim_name)

theorem accepts_of_isOk {ev : Evaluator}
    (accepted : ([[]].foldlM (fun s node => visit ev (ev.ori_node_ node) node s) (fun _ => []) >>=
      fun s => visitOp ev (ev.ori_node_ [0]) [0] s).isOk = true) :
    ∃ s s', [[]].foldlM (fun s node => visit ev (ev.ori_node_ node) node s) (fun _ => []) = .ok s ∧
      visitOp ev (ev.ori_node_ [0]) [0] s = .ok s' := by
  obtain ⟨s', both⟩ := exists_of_isOk accepted
  obtain ⟨s, passed, accepts⟩ := bind_eq_ok.mp both
  exact ⟨s, s', passed, accepts⟩

def reduced (loops : List Descriptor) : Evaluator :=
  Config.evaluator
    (Config.workloads [("sum", ⟨["A"], "B"⟩)] [("M", 4), ("K", 8)] [("A", ["M", "K"]), ("B", ["M"])])
    1 [] (Config.tile .Temporal "Main" loops [Config.op "Cube" "sum" [Config.loop "M" 1 1]])

theorem counts_complete_reduced : ∃ s s',
    [[]].foldlM (fun s node => visit (reduced [Config.loop "M" 4 4, Config.loop "K" 8 8])
      ((reduced [Config.loop "M" 4 4, Config.loop "K" 8 8]).ori_node_ node) node s) (fun _ => []) =
        .ok s ∧
    visitOp (reduced [Config.loop "M" 4 4, Config.loop "K" 8 8])
      ((reduced [Config.loop "M" 4 4, Config.loop "K" 8 8]).ori_node_ [0]) [0] s = .ok s' ∧
    ∀ dim_name ∈ ["M", "K"], (executed
      ((reduced [Config.loop "M" 4 4, Config.loop "K" 8 8]).dimLoops [0] dim_name) : Int) =
        (reduced [Config.loop "M" 4 4, Config.loop "K" 8 8]).workloads_.factorized_bound dim_name := by
  obtain ⟨s, s', passed, accepts⟩ := @accepts_of_isOk
    (reduced [Config.loop "M" 4 4, Config.loop "K" 8 8]) (by decide +kernel)
  have complete := counts_complete_iff _ [0] ["M", "K"] [[]] [] s s' (by decide +kernel) passed accepts
  exact ⟨s, s', passed, accepts, complete.1.mpr (by decide +kernel)⟩

/-- Without a loop over `K` the Op is accepted, and executes one of its eight values. -/
theorem uncounted_dimension : ∃ s s',
    [[]].foldlM (fun s node => visit (reduced [Config.loop "M" 4 4])
      ((reduced [Config.loop "M" 4 4]).ori_node_ node) node s) (fun _ => []) = .ok s ∧
    visitOp (reduced [Config.loop "M" 4 4]) ((reduced [Config.loop "M" 4 4]).ori_node_ [0]) [0] s =
      .ok s' ∧
    (reduced [Config.loop "M" 4 4]).workloads_.factorized_bound "K" = 8 ∧
    executed ((reduced [Config.loop "M" 4 4]).dimLoops [0] "K") = 1 := by
  obtain ⟨s, s', passed, accepts⟩ := @accepts_of_isOk (reduced [Config.loop "M" 4 4])
    (by decide +kernel)
  exact ⟨s, s', passed, accepts, by decide +kernel, by decide +kernel⟩

end TileExp.Analysis
