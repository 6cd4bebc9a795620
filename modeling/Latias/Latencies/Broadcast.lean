import Latias.Analysis.Config
import Latias.Latencies.Overflow

/-! What a Spatial tile takes over a broadcast link. -/

namespace TileExp.Analysis

open Checked Machine

structure Conserves (fanout_ : Nat) (costs : List Int) (latency : Int) : Prop where
  slowest : ∀ cost ∈ costs, cost ≤ latency
  total : latency ≤ costs.sum
  shared : costs.sum ≤ fanout_ * latency
  even : ∀ cost, (∀ c ∈ costs, c = cost) → latency = Rounds.count costs.length fanout_ * cost

def RowCost (ev : Evaluator) (node : NodePtr) (row : List Latency) (cost : Int) : Prop :=
  ∃ block, computeScopeLatency ev node row (ev.scopeType node) = .ok block ∧
    cost = block.input_latency_ + block.output_latency_ + block.process_latency_

/-- The rounds of `computeLatency`: each row is in one of them, and a round takes as long as its
    slowest row. -/
structure InRounds (fanout_ : Nat) (rows : List (List Latency)) (costs : List Int) (latency : Int) :
    Prop where
  each_once : ((List.range (Rounds.count rows.length fanout_)).map fun i =>
    Rounds.round fanout_ i rows).flatten = rows
  sum_of_rounds : latency = ∑ i ∈ Finset.range (Rounds.count rows.length fanout_),
    Rounds.peak (Rounds.round fanout_ i costs)

theorem conserves_slowest {fanout_ : Nat} (positive : fanout_ ≠ 0) {costs : List Int}
    (some : costs ≠ []) (nonneg : ∀ cost ∈ costs, 0 ≤ cost) :
    Conserves fanout_ costs (Rounds.slowest fanout_ (Rounds.count costs.length fanout_) costs) := by
  constructor
  · exact fun cost member => le_trans (Rounds.le_peak member) (Rounds.le_slowest positive costs)
  · exact Rounds.slowest_le_sum positive nonneg
  · exact Rounds.sum_le_width_mul_slowest positive costs
  · intro cost equal
    obtain ⟨first, rest, rfl⟩ := List.exists_cons_of_ne_nil some
    have positive_cost : 0 ≤ cost := by
      rw [← equal first List.mem_cons_self]
      exact nonneg first List.mem_cons_self
    exact Rounds.slowest_of_equal positive positive_cost equal

def Evaluator.ConservesWork (ev : Evaluator) (node : NodePtr) (fanout_ : Nat)
    (rows : List (List Latency)) : Prop :=
  ∃ costs latency, List.Forall₂ (RowCost ev node) rows costs ∧
    computeLatency ev node rows = .ok latency ∧ InRounds fanout_ rows costs latency ∧
      Conserves fanout_ costs latency

variable {ev : Evaluator} {node : NodePtr} {link : InterConNode} {transfers : Transfers}
  {rows rows₀ : List (List Latency)} {blocks : List BlockLatency}

theorem tileLatency_broadcast (spatial : isTemporal (ev.ori_node_ node) = false)
    (broadcast : link.con_type_ = .BC) (blocks : List BlockLatency) :
    tileLatency (isTemporal (ev.ori_node_ node)) link blocks =
      Rounds.slowest link.fanout_ (Rounds.count blocks.length link.fanout_)
        (blocks.map BlockLatency.all) := by
  rw [tileLatency, spatial, broadcast]
  rfl

theorem conservesWork_of_nonneg (computable : ev.Computable node link rows)
    (spatial : isTemporal (ev.ori_node_ node) = false) (broadcast : link.con_type_ = .BC)
    (nonneg : ∀ row ∈ rows, 0 ≤ (blockOf ev node (ev.scopeType node) row).all) :
    ev.ConservesWork node link.fanout_ rows := by
  have positive : link.fanout_ ≠ 0 :=
    computable.cores.resolve_left (Bool.not_eq_true _ ▸ spatial)
  have first : ∃ child, ev.child node 0 = .ok child :=
    ⟨_, child_of_getInterConNode computable.linked_first⟩
  let blocks := rows.map (blockOf ev node (ev.scopeType node))
  have length : (blocks.map BlockLatency.all).length = rows.length := by simp [blocks]
  have value : tileLatency (isTemporal (ev.ori_node_ node)) link blocks =
      Rounds.slowest link.fanout_ (Rounds.count rows.length link.fanout_)
        (blocks.map BlockLatency.all) := by
    rw [tileLatency_broadcast spatial broadcast, List.length_map]
  refine ⟨blocks.map BlockLatency.all, _, ?_, computeLatency_iff.mpr ⟨link, computable, rfl⟩,
    ⟨?_, ?_⟩, ?_⟩
  · apply List.forall₂_iff_get.mpr
    refine ⟨length.symm, fun i bound bound' => ?_⟩
    refine ⟨_, computeScopeLatency_iff.mpr
      ⟨first, computable.linked _ (List.get_mem rows ⟨i, bound⟩), rfl⟩, ?_⟩
    simp [blocks, BlockLatency.all]
  · exact Rounds.flatten_rounds positive rows
  · rw [value]
    rfl
  · rw [value, ← length]
    apply conserves_slowest positive
    · simpa [blocks] using computable.nonempty
    · intro cost member
      obtain ⟨block, inside, rfl⟩ := List.mem_map.mp member
      obtain ⟨row, own, rfl⟩ := List.mem_map.mp inside
      exact nonneg row own

theorem rowCosts_eq {costs : List Int} (each : List.Forall₂ (RowCost ev node) rows costs) :
    costs = (rows.map (blockOf ev node (ev.scopeType node))).map BlockLatency.all := by
  induction each with
  | nil => rfl
  | cons here _ ih =>
    obtain ⟨block, run, rfl⟩ := here
    obtain ⟨_, _, rfl⟩ := computeScopeLatency_iff.mp run
    rw [ih]
    rfl

theorem conserves_transfers_iff (narrow : ∀ n, ev.toInt n = toInt32 n) (transfers : Transfers)
    (computable : ev.Computable node link rows₀)
    (spatial : isTemporal (ev.ori_node_ node) = false) (broadcast : link.con_type_ = .BC) :
    (∀ rows, shapeOf rows = shapeOf rows₀ → NonnegRows rows → transfers.Admits rows →
        ev.ConservesWork node link.fanout_ rows) ↔
      (ev.scopeType node = .Pipeline → transfers.Fit ev node (shapeOf rows₀)) := by
  constructor
  · intro conserves pipeline
    by_contra unfit
    obtain ⟨j, n, k, input, output, place, inside, low, low', admitted, transfer⟩ :=
      exists_overflow unfit
    obtain ⟨costs, latency, each, run, rounds, conserved⟩ :=
      conserves (rowsOf (shapeOf rows₀) (lone ⟨input, output, 0, []⟩ j k)) (shapeOf_rowsOf _ _)
        (rowsOf_nonneg (lone_nonneg ⟨low, low', Int.le_refl 0⟩)) (lone_admits admitted)
    have same := rowCosts_eq each
    rw [pipeline] at same
    have wrapped := @lone_blocks ev node _ j k n _ narrow place inside (transfer 0)
    have own := @lone_wraps ev node j k n _ narrow inside (transfer 0)
    have nonpos : ∀ c ∈ costs, c ≤ 0 := by
      intro c member
      rw [same] at member
      obtain ⟨block, here, rfl⟩ := List.mem_map.mp member
      rcases wrapped block here with rfl | sunk
      · exact Int.le_refl 0
      · exact Int.le_of_lt (sunk.all zero_le_one)
    have member : (blockOf ev node .Pipeline ((List.range n).map
        (lone ⟨input, output, 0, []⟩ j k j))).all ∈ costs := by
      rw [same]
      exact List.mem_map_of_mem (List.mem_map_of_mem
        (List.mem_of_getElem? (getElem?_rowsOf place)))
    have negative := Rounds.sum_neg nonpos member (own.all zero_le_one)
    have total := conserved.total
    have positive : 0 ≤ latency := by
      rw [rounds.sum_of_rounds]
      exact Finset.sum_nonneg fun _ _ => Rounds.peak_nonneg _
    omega
  · intro fits rows same nonneg admitted
    apply conservesWork_of_nonneg (computable.of_shape same) spatial broadcast
    intro row member
    have converts := convertsRows_of_each
      (fun pipeline => same ▸ (fits pipeline).each narrow) nonneg admitted row member
    exact (blockOf_nonneg converts (nonneg row member)).all

/-- Over a broadcast link costs are conserved just where the transfers of a Pipeline fit an `int`. -/
theorem broadcast_conserves_iff (narrow : ∀ n, ev.toInt n = toInt32 n) (transfers : Transfers)
    (computable : ev.Computable node link rows₀)
    (spatial : isTemporal (ev.ori_node_ node) = false) (broadcast : link.con_type_ = .BC) :
    ((∀ rows, shapeOf rows = shapeOf rows₀ → NonnegRows rows → transfers.Admits rows →
        ev.ConservesWork node link.fanout_ rows) ↔
      (ev.scopeType node = .Pipeline → transfers.Fit ev node (shapeOf rows₀))) ∧
    ∀ rows, shapeOf rows = shapeOf rows₀ → NonnegRows rows →
      (ev.scopeType node = .Pipeline → ev.FitRows node rows) →
        ev.ConservesWork node link.fanout_ rows := by
  refine ⟨conserves_transfers_iff narrow transfers computable spatial broadcast, ?_⟩
  intro rows same nonneg fits
  have own := conserves_transfers_iff narrow (Transfers.ofRows rows) computable spatial broadcast
  exact own.mpr (fun pipeline => Transfers.ofRows_fit (fits pipeline)) rows same nonneg
    (Transfers.ofRows_admits rows)

def twoCores : Evaluator :=
  Config.int32 (Config.evaluator
    (Config.workloads [("copy", ⟨["A"], "B"⟩), ("scale", ⟨["B"], "C"⟩)] [("M", 3)]
      [("A", ["M"]), ("B", ["M"]), ("C", ["M"])])
    1 [("Main2Cube", ⟨1, .BC, 0, 2⟩), ("Main2Vec", ⟨1, .HD, 0, 1⟩)]
    (Config.tile .Spatial "Main" [Config.loop "M" 3 3]
      [Config.scope .Pipeline [Config.op "Cube" "copy" [Config.loop "M" 1 1],
        Config.op "Vec" "scale" [Config.loop "M" 1 1]]]))

theorem twoCores_linked : twoCores.Linked [] 2 := by
  intro k bound
  have cases : k = 0 ∨ k = 1 := by omega
  rcases cases with rfl | rfl
  · exact ⟨⟨1, .BC, 0, 2⟩, by decide +kernel⟩
  · exact ⟨⟨1, .HD, 0, 1⟩, by decide +kernel⟩

theorem twoCores_computable : twoCores.Computable [] ⟨1, .BC, 0, 2⟩
    [[still, still], [still, still], [still, still]] := by
  refine ⟨by decide, by decide +kernel, Or.inr (by decide), fun row member => ?_⟩
  have same : row = [still, still] := by simpa using member
  rw [same]
  exact twoCores_linked

theorem broadcast_conserves_twoCores :
    twoCores.ConservesWork [] 2 (List.replicate 3 [⟨0, 0, 5, []⟩, ⟨100, 100, 0, []⟩]) := by
  have fits : (Transfers.upTo 100 100 (by decide) (by decide)).Fit twoCores [] [2, 2, 2] :=
    Transfers.upTo_fit _ _ (by decide)
  have conserves := (broadcast_conserves_iff (fun _ => rfl) _ twoCores_computable
    (by decide +kernel) rfl).1.mpr fun _ => fits
  have entries : ∀ row ∈ List.replicate 3 ([⟨0, 0, 5, []⟩, ⟨100, 100, 0, []⟩] : List Latency),
      ∀ entry ∈ row, NonnegEntry entry ∧ entry.input_latency_ ≤ 100 ∧ entry.output_latency_ ≤ 100 := by
    intro row member entry inside
    rw [List.eq_of_mem_replicate member] at inside
    rcases List.mem_pair.mp inside with rfl | rfl
    · exact ⟨⟨by decide, by decide, by decide⟩, by decide, by decide⟩
    · exact ⟨⟨by decide, by decide, by decide⟩, by decide, by decide⟩
  apply conserves
  · rfl
  · exact fun row member entry inside => (entries row member entry inside).1
  · exact fun row member k entry found =>
      (entries row member entry (List.mem_of_getElem? found)).2

/-- Two transfers of 2^30 cycles over the half duplex link make a cost below zero. -/
theorem broadcast_wraps :
    computeLatency twoCores [] [[⟨0, 0, 5, []⟩, ⟨2 ^ 30, 2 ^ 30, 0, []⟩]] = .ok 0 ∧
      RowCost twoCores [] [⟨0, 0, 5, []⟩, ⟨2 ^ 30, 2 ^ 30, 0, []⟩] (-4294967291) ∧
      ¬ twoCores.ConservesWork [] 2 [[⟨0, 0, 5, []⟩, ⟨2 ^ 30, 2 ^ 30, 0, []⟩]] := by
  have block : computeScopeLatency twoCores [] [⟨0, 0, 5, []⟩, ⟨2 ^ 30, 2 ^ 30, 0, []⟩]
      (twoCores.scopeType []) = .ok ⟨-2 ^ 31, 5, -2 ^ 31⟩ := by decide +kernel
  have latency : computeLatency twoCores [] [[⟨0, 0, 5, []⟩, ⟨2 ^ 30, 2 ^ 30, 0, []⟩]] = .ok 0 := by
    decide +kernel
  refine ⟨latency, ⟨_, block, by decide⟩, ?_⟩
  rintro ⟨costs, result, each, run, _, conserved⟩
  cases latency.symm.trans run
  obtain ⟨cost, _, ⟨_, here, rfl⟩, rest, rfl⟩ := List.forall₂_cons_left_iff.mp each
  cases List.forall₂_nil_left_iff.mp rest
  cases block.symm.trans here
  exact absurd conserved.total (by decide)

end TileExp.Analysis
