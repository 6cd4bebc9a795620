import Latias.Latencies.LoneRows

/-! A transfer of 2^31 cycles over a duplex link. `dm_latency` is an `int`, so a Pipeline takes it for
    -2^31, and for the children after it that have other links once more. -/

namespace TileExp.Analysis

open Machine

/-- A block whose transfers have wrapped around. -/
structure BlockLatency.Wrapped (process : Int) (block : BlockLatency) : Prop where
  input_latency_ : block.input_latency_ ≤ -2 ^ 31
  output_latency_ : block.output_latency_ ≤ -2 ^ 31
  process_latency_ : block.process_latency_ = process

theorem BlockLatency.Wrapped.all {process : Int} {block : BlockLatency}
    (wrapped : block.Wrapped process) (short : process ≤ 1) : block.all < 0 := by
  obtain ⟨input, output, same⟩ := wrapped
  rw [BlockLatency.all, same]
  omega

variable {ev : Evaluator} {node : NodePtr} {transfers : Transfers} {shape : List Nat} {j k n : Nat}
  {entry : Latency}

/-- A transfer that no `int` holds can be cut to 2^31 cycles. -/
theorem exists_cut {con_type : ConType} {exact_ : Int} (nonneg : NonnegEntry entry)
    (transfer : exactTransfer con_type entry = some exact_) (outside : ¬ InInt exact_) :
    ∃ input output, 0 ≤ input ∧ input ≤ entry.input_latency_ ∧ 0 ≤ output ∧
      output ≤ entry.output_latency_ ∧
      ∀ process, exactTransfer con_type ⟨input, output, process, []⟩ = some (2 ^ 31) := by
  obtain ⟨input, output, _⟩ := nonneg
  unfold InInt at outside
  cases con_type with
  | HD =>
    cases transfer
    refine ⟨min entry.input_latency_ (2 ^ 31), 2 ^ 31 - min entry.input_latency_ (2 ^ 31),
      by omega, by omega, by omega, by omega, fun process => ?_⟩
    simp only [exactTransfer]
    congr 1
    omega
  | FD =>
    cases transfer
    by_cases long : 2 ^ 31 ≤ entry.input_latency_
    · exact ⟨2 ^ 31, 0, by decide, long, Int.le_refl 0, output, fun _ => rfl⟩
    · exact ⟨0, 2 ^ 31, Int.le_refl 0, input, by decide, by omega, fun _ => rfl⟩
  | UC => cases transfer
  | BC => cases transfer
  | Ring => cases transfer
  | Mesh => cases transfer

theorem exists_overflow (unfit : ¬ transfers.Fit ev node shape) :
    ∃ (j n k : Nat) (input output : Int), shape[j]? = some n ∧ k < n ∧ 0 ≤ input ∧ 0 ≤ output ∧
      transfers.admits k input output ∧ ∀ process,
        exactTransfer (ev.linkType node k) ⟨input, output, process, []⟩ = some (2 ^ 31) := by
  simp only [Transfers.Fit, Transfers.Each, not_forall] at unfit
  obtain ⟨n, member, k, bound, entry, nonneg, admitted, exact_, transfer, outside⟩ := unfit
  obtain ⟨j, place⟩ := List.mem_iff_getElem?.mp member
  obtain ⟨input, output, low, inside, low', inside', whole⟩ := exists_cut nonneg transfer outside
  exact ⟨j, n, k, input, output, place, bound, low, low',
    transfers.lower admitted low inside low' inside', whole⟩

theorem rowLatency_sinks (zero : ev.toInt 0 = 0) {row : List Latency} {child_num : Nat}
    {dm_latency : Int} {result : BlockLatency} {process : Int} (before : dm_latency ≤ 0)
    (idle : ∀ entry ∈ row, entry = still) (wrapped : result.Wrapped process) :
    (rowLatency ev node .Pipeline child_num dm_latency result row).Wrapped process := by
  induction row generalizing child_num dm_latency result with
  | nil => exact wrapped
  | cons entry row ih =>
    obtain ⟨rfl, rest⟩ := List.forall_mem_cons.mp idle
    have carried : linkLatency ev (ev.linkType node child_num) dm_latency still ≤ 0 := by
      cases ev.linkType node child_num with
      | HD => exact Int.le_of_eq zero
      | FD => exact Int.le_of_eq zero
      | UC => exact before
      | BC => exact before
      | Ring => exact before
      | Mesh => exact before
    obtain ⟨input, output, same⟩ := wrapped
    apply ih carried rest
    constructor
    · exact (Int.add_le_add input carried).trans (Int.le_of_eq (Int.add_zero _))
    · exact (Int.add_le_add output carried).trans (Int.le_of_eq (Int.add_zero _))
    · exact (Int.add_zero _).trans same

theorem lone_wraps (narrow : ∀ n, ev.toInt n = toInt32 n) (inside : k < n)
    (transfer : exactTransfer (ev.linkType node k) entry = some (2 ^ 31)) :
    (blockOf ev node .Pipeline ((List.range n).map (lone entry j k j))).Wrapped
      entry.process_latency_ := by
  obtain ⟨before, after, row, length, idle, idle'⟩ := @lone_row entry j k n inside
  have converts : ev.ConvertsRow node 0 before := by
    intro i e found
    rw [idle e (List.mem_of_getElem? found)]
    exact converts_still (narrow 0) _
  have link : linkLatency ev (ev.linkType node k) 0 entry = -2 ^ 31 := by
    rw [linkLatency_of_transfer transfer, narrow]
    decide
  rw [blockOf, row, rowLatency_append_still converts idle, length, Nat.zero_add, rowLatency, link]
  apply rowLatency_sinks (narrow 0) (by decide) idle'
  exact ⟨Int.le_of_eq (Int.zero_add _), Int.le_of_eq (Int.zero_add _), Int.zero_add _⟩

theorem lone_blocks (narrow : ∀ n, ev.toInt n = toInt32 n) (place : shape[j]? = some n)
    (inside : k < n) (transfer : exactTransfer (ev.linkType node k) entry = some (2 ^ 31)) :
    ∀ block ∈ (rowsOf shape (lone entry j k)).map (blockOf ev node .Pipeline),
      block = ⟨0, 0, 0⟩ ∨ block.Wrapped entry.process_latency_ := by
  intro block member
  obtain ⟨row, own, rfl⟩ := List.mem_map.mp member
  obtain ⟨j', n', place', rfl⟩ := mem_rowsOf own
  by_cases same : j' = j
  · subst same
    cases place.symm.trans place'
    exact Or.inr (lone_wraps narrow inside transfer)
  · have idle : ∀ e ∈ (List.range n').map (lone entry j k j'), e = still := by
      intro e member
      obtain ⟨k', _, rfl⟩ := List.mem_map.mp member
      exact if_neg fun both => same both.1
    left
    apply blockOf_still _ idle
    intro _ i e found
    rw [idle e (List.mem_of_getElem? found)]
    exact converts_still (narrow 0) _

end TileExp.Analysis
