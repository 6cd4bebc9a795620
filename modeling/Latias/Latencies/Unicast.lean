import Latias.Latencies.LoneRows

/-! A Spatial tile over a unicast link weighs the transfers of a round by the rounds and cores that
    are left. Where the weights add up to less than nothing, transfers make the tile faster. -/

namespace TileExp.Analysis

open Checked

def Evaluator.CountedRound (ev : Evaluator) (node : NodePtr) (fanout_ : Nat) (shape : List Nat)
    (i : Nat) : Prop :=
  ∃ n ∈ Rounds.round fanout_ i shape, ∃ k < n, ev.CountsTransfer node (ev.scopeType node) k

instance (ev : Evaluator) (node : NodePtr) (fanout_ : Nat) (shape : List Nat) (i : Nat) :
    Decidable (ev.CountedRound node fanout_ shape i) :=
  inferInstanceAs (Decidable (∃ n ∈ Rounds.round fanout_ i shape, _))

/-- From a round whose transfers count, the weights do not add up to less than nothing. -/
def Evaluator.SteadyRounds (ev : Evaluator) (node : NodePtr) (fanout_ : Nat) (shape : List Nat) :
    Prop :=
  ∀ i < Rounds.count shape.length fanout_, ev.CountedRound node fanout_ shape i →
    fanout_ * (i + Rounds.count shape.length fanout_ - 1) ≤
      2 * Rounds.count shape.length fanout_

instance (ev : Evaluator) (node : NodePtr) (fanout_ : Nat) (shape : List Nat) :
    Decidable (ev.SteadyRounds node fanout_ shape) :=
  inferInstanceAs (Decidable (∀ i < _, _ → _))

variable {ev : Evaluator} {node : NodePtr} {scope_type : ScopeType} {rows rows' : List (List Latency)}
  {blocks blocks' : List BlockLatency} {link : InterConNode} {fanout_ repeat_ g : Nat}

def Evaluator.tileBlocks (ev : Evaluator) (node : NodePtr) (rows : List (List Latency)) :
    List BlockLatency :=
  rows.map (blockOf ev node (ev.scopeType node))

theorem forall₂_take_map {β : Type} {R : β → β → Prop} {l l' : List β} (related : List.Forall₂ R l l')
    (n : Nat) (f : β → Int) (keeps : ∀ a b, R a b → f a ≤ f b) :
    Rounds.peak ((l.take n).map f) ≤ Rounds.peak ((l'.take n).map f) := by
  apply Rounds.peak_mono
  rw [List.forall₂_map_left_iff, List.forall₂_map_right_iff]
  exact (List.forall₂_take n related).imp keeps

theorem peaks_take_mono (below : List.Forall₂ BlockLatency.Below blocks blocks') (n : Nat) :
    (BlockLatency.peaks (blocks.take n)).Below (BlockLatency.peaks (blocks'.take n)) := by
  constructor
  · exact forall₂_take_map below _ _ fun _ _ below => below.input_latency_
  · exact forall₂_take_map below _ _ fun _ _ below => below.process_latency_
  · exact forall₂_take_map below _ _ fun _ _ below => below.output_latency_

theorem peak_append_zeros (l l' : List Int) (zeros : ∀ n ∈ l', n = 0) :
    Rounds.peak (l ++ l') = Rounds.peak l := by
  have positive := Rounds.peak_nonneg l
  rw [Rounds.peak_append, Rounds.peak_of_zeros zeros]
  omega

theorem transfer_settled {a b : Nat} (order : a ≤ b)
    (idle : ∀ i, a ≤ i → i < b → ¬ ev.CountedRound node fanout_ (shapeOf rows) i) :
    (BlockLatency.peaks ((ev.tileBlocks node rows).take (b * fanout_))).transfer =
      (BlockLatency.peaks ((ev.tileBlocks node rows).take (a * fanout_))).transfer := by
  induction b, order using Nat.le_induction with
  | base => rfl
  | succ b above ih =>
    rw [← ih fun i from_a bound => idle i from_a (by omega)]
    have none (row : List Latency) (member : row ∈ Rounds.round fanout_ b rows) :
        (blockOf ev node (ev.scopeType node) row).input_latency_ = 0 ∧
          (blockOf ev node (ev.scopeType node) row).output_latency_ = 0 := by
      apply transfer_of_not_counts
      intro k _ short counts
      apply idle b above (Nat.lt_succ_self b)
      refine ⟨row.length, ?_, k, by omega, counts⟩
      rw [← Rounds.map_round]
      exact List.mem_map_of_mem member
    have zeros (f : BlockLatency → Int)
        (zero : ∀ row ∈ Rounds.round fanout_ b rows,
          f (blockOf ev node (ev.scopeType node) row) = 0) :
        Rounds.peak (((ev.tileBlocks node rows).take ((b + 1) * fanout_)).map f) =
          Rounds.peak (((ev.tileBlocks node rows).take (b * fanout_)).map f) := by
      rw [Rounds.take_succ_mul, List.map_append]
      apply peak_append_zeros
      intro n member
      rw [Evaluator.tileBlocks, ← Rounds.map_round, List.map_map] at member
      obtain ⟨row, inside, rfl⟩ := List.mem_map.mp member
      exact zero row inside
    rw [BlockLatency.transfer, BlockLatency.transfer, BlockLatency.peaks, BlockLatency.peaks,
      zeros _ fun row member => (none row member).1, zeros _ fun row member => (none row member).2]

def transferSum (fanout_ repeat_ : Nat) (blocks : List BlockLatency) : Int :=
  ∑ i ∈ Finset.range repeat_,
    (BlockLatency.peaks (Rounds.upTo fanout_ i blocks)).transfer * Rounds.weight fanout_ repeat_ i

def processRounds (fanout_ repeat_ : Nat) (blocks : List BlockLatency) : Int :=
  ∑ i ∈ Finset.range repeat_, (BlockLatency.peaks (Rounds.upTo fanout_ i blocks)).process_latency_

theorem roundsLatency_unicast (fanout_ repeat_ : Nat) (blocks : List BlockLatency) :
    roundsLatency .UC fanout_ repeat_ blocks =
      transferSum fanout_ repeat_ blocks + processRounds fanout_ repeat_ blocks := by
  rw [roundsLatency, transferSum, processRounds, ← Finset.sum_add_distrib]
  rfl

theorem processRounds_mono (below : List.Forall₂ BlockLatency.Below blocks blocks') :
    processRounds fanout_ repeat_ blocks ≤ processRounds fanout_ repeat_ blocks' :=
  Finset.sum_le_sum fun _ _ => (peaks_take_mono below _).process_latency_

/-- Sums that change only in rounds that count: steady weights do not make them negative. -/
theorem weighted_steady {T : Nat → Int} {shape : List Nat} (zero : T 0 = 0) (nonneg : ∀ b, 0 ≤ T b)
    (settled : ∀ {a b}, a ≤ b →
      (∀ i, a ≤ i → i < b → ¬ ev.CountedRound node fanout_ shape i) → T b = T a)
    (steady : ev.SteadyRounds node fanout_ shape) :
    0 ≤ ∑ i ∈ Finset.range (Rounds.count shape.length fanout_),
      T (i + 1) * Rounds.weight fanout_ (Rounds.count shape.length fanout_) i := by
  by_cases some : ∃ i < Rounds.count shape.length fanout_, ev.CountedRound node fanout_ shape i
  · obtain ⟨g, bound, counted, idle⟩ := Rounds.exists_last some
    refine Rounds.weighted_nonneg (fun i => nonneg (i + 1)) bound (steady g bound counted) ?_
    intro i from_g inside
    exact settled (Nat.succ_le_succ from_g) fun j above below => idle j above (by omega)
  · apply Int.le_of_eq
    symm
    apply Finset.sum_eq_zero
    intro i member
    have bound := Finset.mem_range.mp member
    have idle : ∀ j, 0 ≤ j → j < i + 1 → ¬ ev.CountedRound node fanout_ shape j :=
      fun j _ below counted => some ⟨j, by omega, counted⟩
    rw [settled (Nat.zero_le (i + 1)) idle, zero, Int.zero_mul]

theorem transferSum_nonneg (steady : ev.SteadyRounds node fanout_ (shapeOf rows)) :
    0 ≤ transferSum fanout_ (Rounds.count rows.length fanout_) (ev.tileBlocks node rows) := by
  have total := weighted_steady (T := fun b =>
      (BlockLatency.peaks ((ev.tileBlocks node rows).take (b * fanout_))).transfer)
    (by rw [Nat.zero_mul, List.take_zero]; rfl)
    (fun b => (Rounds.peak_nonneg _).trans (le_max_left _ _)) transfer_settled steady
  rwa [List.length_map] at total

theorem transferSum_mono (same : shapeOf rows = shapeOf rows')
    (below : List.Forall₂ BlockLatency.Below (ev.tileBlocks node rows) (ev.tileBlocks node rows'))
    (steady : ev.SteadyRounds node fanout_ (shapeOf rows)) :
    transferSum fanout_ (Rounds.count rows.length fanout_) (ev.tileBlocks node rows) ≤
      transferSum fanout_ (Rounds.count rows.length fanout_) (ev.tileBlocks node rows') := by
  have total := weighted_steady (T := fun b =>
      (BlockLatency.peaks ((ev.tileBlocks node rows').take (b * fanout_))).transfer -
        (BlockLatency.peaks ((ev.tileBlocks node rows).take (b * fanout_))).transfer)
    (by rw [Nat.zero_mul, List.take_zero, List.take_zero]; rfl)
    (fun b => Int.sub_nonneg_of_le (peaks_take_mono below _).transfer)
    (fun order idle => by
      rw [transfer_settled order (same ▸ idle), transfer_settled order idle]) steady
  simp only [Int.sub_mul, Finset.sum_sub_distrib, List.length_map] at total
  exact Int.le_of_sub_nonneg total

/-! One child of one row that waits for its input makes unsteady rounds faster. -/

variable {shape : List Nat} {j k n : Nat}

theorem rowLatency_idle {row : List Latency} {child_num : Nat} {dm_latency : Int}
    {result : BlockLatency} (positive : 0 ≤ result.process_latency_)
    (idle : ∀ entry ∈ row, entry.process_latency_ = 0) :
    (rowLatency ev node scope_type child_num dm_latency result row).process_latency_ =
      result.process_latency_ := by
  induction row generalizing child_num dm_latency result with
  | nil => rfl
  | cons entry row ih =>
    obtain ⟨here, rest⟩ := List.forall_mem_cons.mp idle
    have added (dm : Int) : (addChildLatency scope_type dm entry result).process_latency_ =
        result.process_latency_ := by
      cases scope_type <;> simp only [addChildLatency, here] <;> omega
    rw [rowLatency, ih (by rw [added]; exact positive) rest, added]

theorem peaks_of_still (zeros : ∀ block ∈ blocks, block = ⟨0, 0, 0⟩) :
    BlockLatency.peaks blocks = ⟨0, 0, 0⟩ := by
  have none (f : BlockLatency → Int) (zero : f ⟨0, 0, 0⟩ = 0) : Rounds.peak (blocks.map f) = 0 := by
    apply Rounds.peak_of_zeros
    intro n member
    obtain ⟨block, inside, rfl⟩ := List.mem_map.mp member
    rw [zeros block inside, zero]
  rw [BlockLatency.peaks, none _ rfl, none _ rfl, none _ rfl]

theorem transfer_of_single {block : BlockLatency} (nonneg : block.Nonneg) (member : block ∈ blocks)
    (others : ∀ b ∈ blocks, b = ⟨0, 0, 0⟩ ∨ b = block) :
    (BlockLatency.peaks blocks).transfer = block.transfer := by
  have single (f : BlockLatency → Int) (zero : f ⟨0, 0, 0⟩ = 0) (positive : 0 ≤ f block) :
      Rounds.peak (blocks.map f) = f block := by
    apply Int.le_antisymm
    · apply Rounds.peak_le positive
      intro n inside
      obtain ⟨b, own, rfl⟩ := List.mem_map.mp inside
      rcases others b own with rfl | rfl
      · rwa [zero]
      · exact Int.le_refl _
    · exact Rounds.le_peak (List.mem_map_of_mem member)
  rw [BlockLatency.transfer, BlockLatency.peaks, single _ rfl nonneg.input_latency_,
    single _ rfl nonneg.output_latency_]
  rfl

theorem tileBlocks_still (converts : ev.ConvertsRows node (rowsOf shape fun _ _ => still)) :
    ∀ block ∈ ev.tileBlocks node (rowsOf shape fun _ _ => still), block = ⟨0, 0, 0⟩ := by
  intro block member
  obtain ⟨row, inside, rfl⟩ := List.mem_map.mp member
  apply blockOf_still (converts row inside)
  obtain ⟨j, n, _, rfl⟩ := mem_rowsOf inside
  intro entry own
  obtain ⟨k, _, rfl⟩ := List.mem_map.mp own
  rfl

theorem roundsLatency_still (converts : ev.ConvertsRows node (rowsOf shape fun _ _ => still))
    (repeat_ : Nat) :
    roundsLatency .UC fanout_ repeat_ (ev.tileBlocks node (rowsOf shape fun _ _ => still)) = 0 := by
  apply Finset.sum_eq_zero
  intro i _
  have none : BlockLatency.peaks (Rounds.upTo fanout_ i
      (ev.tileBlocks node (rowsOf shape fun _ _ => still))) = ⟨0, 0, 0⟩ :=
    peaks_of_still fun block member => tileBlocks_still converts block (List.mem_of_mem_take member)
  rw [unicastRound, none]
  simp [BlockLatency.transfer]

def waitingBlock (ev : Evaluator) (node : NodePtr) (j k n : Nat) : BlockLatency :=
  blockOf ev node (ev.scopeType node) ((List.range n).map (oneInput j k j))

theorem oneInput_row_nonneg (j k n : Nat) : NonnegRow ((List.range n).map (oneInput j k j)) := by
  intro entry own
  obtain ⟨k', _, rfl⟩ := List.mem_map.mp own
  exact oneInput_nonneg j k j k'

theorem waitingBlock_waits
    (converts : ev.scopeType node = .Pipeline →
      ev.ConvertsRow node 0 ((List.range n).map (oneInput j k j))) (inside : k < n)
    (counts : ev.CountsTransfer node (ev.scopeType node) k) :
    1 ≤ (waitingBlock ev node j k n).transfer := by
  have found : ((List.range n).map (oneInput j k j))[k]? = some ⟨1, 0, 0, []⟩ := by
    rw [List.getElem?_map, List.getElem?_range inside, Option.map_some]
    exact congrArg some (if_pos ⟨rfl, rfl⟩)
  have input := input_le_blockOf converts (oneInput_row_nonneg j k n) found counts
  exact le_trans input (le_max_left _ _)

theorem tileBlocks_oneInput_self (place : shape[j]? = some n) :
    (ev.tileBlocks node (rowsOf shape (oneInput j k)))[j]? = some (waitingBlock ev node j k n) := by
  rw [Evaluator.tileBlocks, List.getElem?_map, getElem?_rowsOf place]
  rfl

theorem tileBlocks_oneInput_ne (converts : ev.ConvertsRows node (rowsOf shape (oneInput j k)))
    {l : Nat} {block : BlockLatency}
    (found : (ev.tileBlocks node (rowsOf shape (oneInput j k)))[l]? = some block) (apart : l ≠ j) :
    block = ⟨0, 0, 0⟩ := by
  rw [Evaluator.tileBlocks, List.getElem?_map] at found
  obtain ⟨row, at_l, rfl⟩ := Option.map_eq_some_iff.mp found
  apply blockOf_still (converts row (List.mem_of_getElem? at_l))
  rw [rowsOf, List.getElem?_mapIdx] at at_l
  obtain ⟨n', _, rfl⟩ := Option.map_eq_some_iff.mp at_l
  intro entry own
  obtain ⟨k', _, rfl⟩ := List.mem_map.mp own
  exact if_neg fun both => apart both.1

theorem transfer_oneInput (converts : ev.ConvertsRows node (rowsOf shape (oneInput j k)))
    (place : shape[j]? = some n) {i : Nat}
    (from_i : i * fanout_ ≤ j) (before : j < (i + 1) * fanout_) (l : Nat) :
    (BlockLatency.peaks (Rounds.upTo fanout_ l
      (ev.tileBlocks node (rowsOf shape (oneInput j k))))).transfer =
        if l < i then 0 else (waitingBlock ev node j k n).transfer := by
  split
  · next early =>
    rw [peaks_of_still]
    · rfl
    · intro block own
      obtain ⟨m, found⟩ := List.mem_iff_getElem?.mp own
      rw [Rounds.upTo, List.getElem?_take] at found
      split at found
      · next low =>
        have step : (l + 1) * fanout_ ≤ i * fanout_ := Nat.mul_le_mul_right fanout_ early
        exact tileBlocks_oneInput_ne converts found (by omega)
      · cases found
  · next late =>
    have own := converts _ (List.mem_of_getElem? (getElem?_rowsOf place))
    apply transfer_of_single (blockOf_nonneg own (oneInput_row_nonneg j k n))
    · have step : (i + 1) * fanout_ ≤ (l + 1) * fanout_ := Nat.mul_le_mul_right fanout_ (by omega)
      have inside : (Rounds.upTo fanout_ l (ev.tileBlocks node (rowsOf shape (oneInput j k))))[j]? =
          some (waitingBlock ev node j k n) := by
        rw [Rounds.upTo, List.getElem?_take_of_lt (by omega), tileBlocks_oneInput_self place]
      exact List.mem_of_getElem? inside
    · intro block own
      obtain ⟨m, found⟩ := List.mem_iff_getElem?.mp (List.mem_of_mem_take own)
      by_cases same : m = j
      · subst same
        rw [tileBlocks_oneInput_self place] at found
        exact Or.inr (Option.some_inj.mp found).symm
      · exact Or.inl (tileBlocks_oneInput_ne converts found same)

theorem processRounds_oneInput (repeat_ : Nat) :
    processRounds fanout_ repeat_ (ev.tileBlocks node (rowsOf shape (oneInput j k))) = 0 := by
  apply Finset.sum_eq_zero
  intro l _
  apply Rounds.peak_of_zeros
  intro time member
  obtain ⟨block, own, rfl⟩ := List.mem_map.mp member
  obtain ⟨row, inside, rfl⟩ := List.mem_map.mp (List.mem_of_mem_take own)
  obtain ⟨j', n', _, rfl⟩ := mem_rowsOf inside
  refine rowLatency_idle (Int.le_refl 0) fun entry own => ?_
  obtain ⟨k', _, rfl⟩ := List.mem_map.mp own
  exact oneInput_process j k j' k'

theorem roundsLatency_oneInput
    (converts : ∀ j k, ev.ConvertsRows node (rowsOf shape (oneInput j k))) {i : Nat}
    (bound : i < Rounds.count shape.length fanout_)
    (counted : ev.CountedRound node fanout_ shape i)
    (short : 2 * Rounds.count shape.length fanout_ <
      fanout_ * (i + Rounds.count shape.length fanout_ - 1)) :
    ∃ j k, roundsLatency .UC fanout_ (Rounds.count shape.length fanout_)
      (ev.tileBlocks node (rowsOf shape (oneInput j k))) < 0 := by
  obtain ⟨n, member, k, inside, counts⟩ := counted
  obtain ⟨j, place, from_i, before⟩ := Rounds.exists_place member
  refine ⟨j, k, ?_⟩
  have own := converts j k _ (List.mem_of_getElem? (getElem?_rowsOf place))
  have waits := @waitingBlock_waits ev node j k n own inside counts
  have transfers := @transfer_oneInput ev node fanout_ shape j k n (converts j k) place i from_i before
  have sum : transferSum fanout_ (Rounds.count shape.length fanout_)
      (ev.tileBlocks node (rowsOf shape (oneInput j k))) = (waitingBlock ev node j k n).transfer *
        ∑ l ∈ Finset.Ico i (Rounds.count shape.length fanout_),
          Rounds.weight fanout_ (Rounds.count shape.length fanout_) l := by
    simp only [transferSum, transfers]
    rw [← Finset.sum_range_add_sum_Ico _ (Nat.le_of_lt bound), Finset.mul_sum]
    have first : ∑ l ∈ Finset.range i, (if l < i then 0
        else (waitingBlock ev node j k n).transfer) *
          Rounds.weight fanout_ (Rounds.count shape.length fanout_) l = 0 := by
      apply Finset.sum_eq_zero
      intro l own
      rw [if_pos (Finset.mem_range.mp own), Int.zero_mul]
    rw [first, Int.zero_add]
    apply Finset.sum_congr rfl
    intro l own
    rw [if_neg (Nat.not_lt.mpr (Finset.mem_Ico.mp own).1)]
  rw [roundsLatency_unicast, processRounds_oneInput, sum, Int.add_zero]
  exact Int.mul_neg_of_pos_of_neg (by omega) (Rounds.sum_weights_neg bound short)

end TileExp.Analysis
