import Latias.Latencies.Monotone

/-! Parallel, Pipeline and Sequential scopes under a Temporal tile, one against the other. -/

namespace TileExp.Analysis

open Checked Machine

/-- What `computeLatency` returns for a Temporal tile whose rows are combined by `scope_type`. -/
def temporalTile (ev : Evaluator) (node : NodePtr) (scope_type : ScopeType)
    (latency_vec : List (List Latency)) : Exec Int := do
  let total_latency ← temporalLatency ev node scope_type ⟨0, 0, 0⟩ latency_vec
  .ok (maxOf total_latency)

/-- Parallel is at most Pipeline and Pipeline at most Sequential. -/
def Evaluator.OrderedRows (ev : Evaluator) (node : NodePtr) (rows : List (List Latency)) : Prop :=
  ∃ parallel pipeline sequential, temporalTile ev node .Parallel rows = .ok parallel ∧
    temporalTile ev node .Pipeline rows = .ok pipeline ∧
    temporalTile ev node .Sequential rows = .ok sequential ∧
    parallel ≤ pipeline ∧ pipeline ≤ sequential

def Evaluator.OrderedScopes (ev : Evaluator) (node : NodePtr) (transfers : Transfers)
    (shape : List Nat) : Prop :=
  ∀ rows, shapeOf rows = shape → NonnegRows rows → transfers.Admits rows → ev.OrderedRows node rows

def Evaluator.Duplex (ev : Evaluator) (node : NodePtr) (k : Nat) : Prop :=
  ev.linkType node k = .HD ∨ ev.linkType node k = .FD

instance (ev : Evaluator) (node : NodePtr) (k : Nat) : Decidable (ev.Duplex node k) :=
  inferInstanceAs (Decidable (_ ∨ _))

variable {ev : Evaluator} {node : NodePtr} {scope_type : ScopeType} {link : InterConNode}
  {rows : List (List Latency)} {row : List Latency} {entry : Latency} {child_num : Nat}
  {dm_latency dm_latency' : Int} {result result' : BlockLatency} {blocks : List BlockLatency}
  {transfers : Transfers} {shape : List Nat} {j k n : Nat}

theorem computeLatency_temporal (temporal : isTemporal (ev.ori_node_ node) = true)
    (computable : ev.Computable node link rows) :
    computeLatency ev node rows = temporalTile ev node (ev.scopeType node) rows := by
  have first : ∃ child, ev.child node 0 = .ok child :=
    ⟨_, child_of_getInterConNode computable.linked_first⟩
  have walked := (@temporalLatency_iff ev node (ev.scopeType node) rows ⟨0, 0, 0⟩ _ first).mpr
    ⟨computable.linked, rfl⟩
  rw [computeLatency_of_shape computable rfl, temporalTile, walked, ok_bind, tileLatency, temporal]
  simp only [Int.zero_add, if_true, Evaluator.tileBlocks]

theorem temporalTile_eq (first : ∃ child, ev.child node 0 = .ok child)
    (linked : ev.RowsLinked node rows) :
    temporalTile ev node scope_type rows =
      .ok (maxOf (BlockLatency.total (rows.map (blockOf ev node scope_type)))) := by
  have walked := (@temporalLatency_iff ev node scope_type rows ⟨0, 0, 0⟩ _ first).mpr ⟨linked, rfl⟩
  rw [temporalTile, walked, ok_bind]
  simp only [Int.zero_add]

/-- A duplex link takes at least as long as each transfer, and at most as long as both. -/
theorem linkLatency_duplex (duplex : ev.Duplex node child_num)
    (converts : ev.Converts (ev.linkType node child_num) entry) (nonneg : NonnegEntry entry)
    (dm_latency : Int) :
    entry.input_latency_ ≤ linkLatency ev (ev.linkType node child_num) dm_latency entry ∧
      entry.output_latency_ ≤ linkLatency ev (ev.linkType node child_num) dm_latency entry ∧
      linkLatency ev (ev.linkType node child_num) dm_latency entry ≤
        entry.output_latency_ + entry.input_latency_ := by
  obtain ⟨input, output, _⟩ := nonneg
  rcases duplex with half | full
  · rw [half] at converts ⊢
    simp only [linkLatency, converts.half]
    omega
  · rw [full] at converts ⊢
    simp only [linkLatency, converts.full]
    omega

theorem duplex_cons (duplex : ∀ k < (entry :: row).length, ev.Duplex node (child_num + k)) :
    ev.Duplex node child_num ∧ ∀ k < row.length, ev.Duplex node (child_num + 1 + k) := by
  refine ⟨duplex 0 (Nat.succ_pos _), fun k bound => ?_⟩
  have other := duplex (k + 1) (Nat.succ_lt_succ bound)
  rwa [← Nat.succ_add_eq_add_succ] at other

theorem parallel_below_pipeline (converts : ev.ConvertsRow node child_num row)
    (nonneg : NonnegRow row) (duplex : ∀ k < row.length, ev.Duplex node (child_num + k))
    (positive : result'.Nonneg) (below : result.Below result') :
    (rowLatency ev node .Parallel child_num dm_latency result row).Below
      (rowLatency ev node .Pipeline child_num dm_latency' result' row) := by
  induction row generalizing child_num dm_latency dm_latency' result result' with
  | nil => exact below
  | cons entry row ih =>
    obtain ⟨here, rest⟩ := List.forall_mem_cons.mp nonneg
    obtain ⟨own, later⟩ := duplex_cons duplex
    have link := linkLatency_duplex own converts.head here dm_latency'
    obtain ⟨input, output, process⟩ := here
    obtain ⟨total_input, total_process, total_output⟩ := below
    obtain ⟨some_input, some_process, some_output⟩ := positive
    simp only at some_input some_process some_output
    apply ih converts.tail rest later
    · constructor <;> simp only [addChildLatency] <;> omega
    · constructor <;> simp only [addChildLatency] <;> omega

theorem pipeline_below_sequential (converts : ev.ConvertsRow node child_num row)
    (nonneg : NonnegRow row) (duplex : ∀ k < row.length, ev.Duplex node (child_num + k))
    (below : result.Below result') :
    (rowLatency ev node .Pipeline child_num dm_latency result row).Below
      (rowLatency ev node .Sequential child_num dm_latency' result' row) := by
  induction row generalizing child_num dm_latency dm_latency' result result' with
  | nil => exact below
  | cons entry row ih =>
    obtain ⟨here, rest⟩ := List.forall_mem_cons.mp nonneg
    obtain ⟨own, later⟩ := duplex_cons duplex
    have link := linkLatency_duplex own converts.head here dm_latency
    obtain ⟨total_input, total_process, total_output⟩ := below
    apply ih converts.tail rest later
    constructor <;> simp only [addChildLatency] <;> omega

theorem total_blocks_below {scope_type scope_type' : ScopeType}
    (each : ∀ row ∈ rows, (blockOf ev node scope_type row).Below (blockOf ev node scope_type' row)) :
    maxOf (BlockLatency.total (rows.map (blockOf ev node scope_type))) ≤
      maxOf (BlockLatency.total (rows.map (blockOf ev node scope_type'))) := by
  apply maxOf_below
  apply total_below
  rw [List.forall₂_map_left_iff, List.forall₂_map_right_iff]
  exact List.forall₂_same.mpr each

theorem rowLatency_unlinked (converts : ev.ConvertsRow node child_num row)
    (idle : ∀ i entry, row[i]? = some entry → entry = still ∨
      entry.process_latency_ = 0 ∧ ¬ ev.Duplex node (child_num + i)) :
    rowLatency ev node .Pipeline child_num 0 ⟨0, 0, 0⟩ row = ⟨0, 0, 0⟩ := by
  induction row generalizing child_num with
  | nil => rfl
  | cons entry row ih =>
    have here := idle 0 entry rfl
    have later := @ih (child_num + 1) converts.tail fun i e found => by
      have other := idle (i + 1) e found
      rwa [← Nat.succ_add_eq_add_succ] at other
    rw [Nat.add_zero] at here
    have process : entry.process_latency_ = 0 := by
      rcases here with rfl | ⟨none, _⟩
      · rfl
      · exact none
    have link : linkLatency ev (ev.linkType node child_num) 0 entry = 0 := by
      rcases here with rfl | ⟨_, other⟩
      · exact linkLatency_still converts.head
      · unfold linkLatency
        cases kind : ev.linkType node child_num with
        | HD => exact absurd (Or.inl kind) other
        | FD => exact absurd (Or.inr kind) other
        | UC => rfl
        | BC => rfl
        | Ring => rfl
        | Mesh => rfl
    rw [rowLatency, link, addChildLatency, process]
    exact later

theorem pipeline_passes (narrow : ∀ n, ev.toInt n = toInt32 n) (other : ¬ ev.Duplex node k)
    (j' : Nat) : blockOf ev node .Pipeline ((List.range n).map (oneInput j k j')) = ⟨0, 0, 0⟩ := by
  apply rowLatency_unlinked
  · intro i entry found
    rw [(getElem?_range_map found).2]
    exact lone_cases (P := fun k entry => ev.Converts (ev.linkType node (0 + k)) entry)
      (fun _ => converts_still (narrow 0) _) (converts_waiting (narrow 1) _) j' i
  · intro i entry found
    rw [(getElem?_range_map found).2, Nat.zero_add]
    by_cases here : j' = j ∧ i = k
    · rw [here.2]
      exact Or.inr ⟨oneInput_process j k j' k, other⟩
    · exact Or.inl (if_neg here)

theorem parallel_above : result.Below
    (rowLatency ev node .Parallel child_num dm_latency result row) := by
  induction row generalizing child_num dm_latency result with
  | nil => exact BlockLatency.Below.refl result
  | cons entry row ih =>
    exact BlockLatency.Below.trans ⟨le_max_left _ _, le_max_left _ _, le_max_left _ _⟩ ih

theorem parallel_covers (member : entry ∈ row) :
    max entry.input_latency_ entry.output_latency_ ≤
      maxOf (rowLatency ev node .Parallel child_num dm_latency result row) := by
  induction row generalizing child_num dm_latency result with
  | nil => cases member
  | cons first row ih =>
    rcases List.mem_cons.mp member with rfl | later
    · have above := @parallel_above ev node row (child_num + 1)
        (linkLatency ev (ev.linkType node child_num) dm_latency entry)
        (addChildLatency .Parallel (linkLatency ev (ev.linkType node child_num) dm_latency entry)
          entry result)
      have input := (le_max_right _ _).trans above.input_latency_
      have output := (le_max_right _ _).trans above.output_latency_
      exact max_le (input.trans ((le_max_left _ _).trans (le_max_left _ _)))
        (output.trans (le_max_right _ _))
    · exact ih later

theorem parallel_waits (place : shape[j]? = some n) (inside : k < n) :
    max entry.input_latency_ entry.output_latency_ ≤ maxOf (BlockLatency.total
      ((rowsOf shape (lone entry j k)).map (blockOf ev node .Parallel))) := by
  have member := List.mem_map_of_mem (f := blockOf ev node .Parallel)
    (List.mem_of_getElem? (@getElem?_rowsOf shape (lone entry j k) j n place))
  have positive : ∀ block ∈ (rowsOf shape (lone entry j k)).map (blockOf ev node .Parallel),
      block.Nonneg := by
    intro block own
    obtain ⟨row, here, rfl⟩ := List.mem_map.mp own
    exact parallel_above
  have own : entry ∈ (List.range n).map (lone entry j k j) :=
    List.mem_map.mpr ⟨k, List.mem_range.mpr inside, if_pos ⟨rfl, rfl⟩⟩
  exact (parallel_covers own).trans (le_maxOf_total positive member)

theorem maxOf_total_nonpos (below : ∀ block ∈ blocks, block.Below ⟨0, 0, 0⟩) :
    maxOf (BlockLatency.total blocks) ≤ 0 := by
  have sum (f : BlockLatency → Int) (keeps : ∀ block : BlockLatency, block.Below ⟨0, 0, 0⟩ →
      f block ≤ 0) : (blocks.map f).sum ≤ 0 := by
    apply Rounds.sum_nonpos
    intro n member
    obtain ⟨block, own, rfl⟩ := List.mem_map.mp member
    exact keeps block (below block own)
  exact max_le (max_le (sum _ fun _ here => here.input_latency_)
    (sum _ fun _ here => here.process_latency_)) (sum _ fun _ here => here.output_latency_)

theorem pipeline_idle (narrow : ∀ n, ev.toInt n = toInt32 n) (shape : List Nat) {j k : Nat}
    (other : ¬ ev.Duplex node k) : maxOf (BlockLatency.total
      ((rowsOf shape (oneInput j k)).map (blockOf ev node .Pipeline))) ≤ 0 := by
  apply maxOf_total_nonpos
  intro block own
  obtain ⟨row, here, rfl⟩ := List.mem_map.mp own
  obtain ⟨j', n, _, rfl⟩ := mem_rowsOf here
  rw [pipeline_passes narrow other j']
  exact BlockLatency.Below.refl _

theorem pipeline_wraps (narrow : ∀ n, ev.toInt n = toInt32 n) (place : shape[j]? = some n)
    (inside : k < n) (process : entry.process_latency_ = 0)
    (transfer : exactTransfer (ev.linkType node k) entry = some (2 ^ 31)) :
    maxOf (BlockLatency.total
      ((rowsOf shape (lone entry j k)).map (blockOf ev node .Pipeline))) ≤ 0 := by
  apply maxOf_total_nonpos
  intro block own
  rcases lone_blocks narrow place inside transfer block own with rfl | wrapped
  · exact BlockLatency.Below.refl _
  · obtain ⟨input, output, same⟩ := wrapped
    exact ⟨input.trans (by decide), Int.le_of_eq (same.trans process), output.trans (by decide)⟩

theorem exactTransfer_pos {con_type : ConType} (nonneg : NonnegEntry entry)
    (transfer : exactTransfer con_type entry = some (2 ^ 31)) :
    0 < max entry.input_latency_ entry.output_latency_ := by
  obtain ⟨input, output, _⟩ := nonneg
  unfold exactTransfer at transfer
  cases con_type with
  | HD =>
    have sum := Option.some_inj.mp transfer
    omega
  | FD =>
    have longest := Option.some_inj.mp transfer
    omega
  | UC => cases transfer
  | BC => cases transfer
  | Ring => cases transfer
  | Mesh => cases transfer

theorem not_ordered (first : ∃ child, ev.child node 0 = .ok child)
    (linked : ev.RowsLinked node rows) (nonneg : NonnegRows rows) (admitted : transfers.Admits rows)
    (longer : maxOf (BlockLatency.total (rows.map (blockOf ev node .Pipeline))) <
      maxOf (BlockLatency.total (rows.map (blockOf ev node .Parallel)))) :
    ¬ ev.OrderedScopes node transfers (shapeOf rows) := by
  intro ordered
  obtain ⟨parallel, pipeline, _, first_run, second_run, _, order, _⟩ :=
    ordered rows rfl nonneg admitted
  rw [temporalTile_eq first linked, Except.ok.injEq] at first_run second_run
  omega

theorem ordered_transfers_iff (narrow : ∀ n, ev.toInt n = toInt32 n) (transfers : Transfers)
    (first : ∃ child, ev.child node 0 = .ok child) (linked : ∀ n ∈ shape, ev.Linked node n) :
    ev.OrderedScopes node transfers shape ↔
      (∀ n ∈ shape, ∀ k < n, ev.Duplex node k) ∧ transfers.Fit ev node shape := by
  have rowsLinked {rows : List (List Latency)} (same : shapeOf rows = shape) :
      ev.RowsLinked node rows := fun row member =>
    linked row.length (same ▸ List.mem_map_of_mem member)
  constructor
  · intro ordered
    constructor
    · intro n member k inside
      by_contra other
      obtain ⟨j, place⟩ := List.mem_iff_getElem?.mp member
      have same := shapeOf_rowsOf shape (oneInput j k)
      have waits := @parallel_waits ev node ⟨1, 0, 0, []⟩ shape j k n place inside
      have passes := @pipeline_idle ev node narrow shape j k other
      refine not_ordered first (rowsLinked same) (rowsOf_nonneg (oneInput_nonneg j k))
        (oneInput_admits transfers shape j k) ?_ (same.symm ▸ ordered)
      exact lt_of_le_of_lt passes (lt_of_lt_of_le (by decide) waits)
    · by_contra unfit
      obtain ⟨j, n, k, input, output, place, inside, low, low', admitted, transfer⟩ :=
        exists_overflow unfit
      have positive : NonnegEntry ⟨input, output, 0, []⟩ := ⟨low, low', Int.le_refl 0⟩
      have same := shapeOf_rowsOf shape (lone ⟨input, output, 0, []⟩ j k)
      have waits := @parallel_waits ev node ⟨input, output, 0, []⟩ shape j k n place inside
      have wraps := pipeline_wraps narrow place inside rfl (transfer 0)
      refine not_ordered first (rowsLinked same) (rowsOf_nonneg (lone_nonneg positive))
        (lone_admits admitted) ?_ (same.symm ▸ ordered)
      exact lt_of_le_of_lt wraps (lt_of_lt_of_le (exactTransfer_pos positive (transfer 0)) waits)
  · rintro ⟨duplex, fit⟩ rows same nonneg admitted
    have inside (row : List Latency) (member : row ∈ rows) :
        ∀ k < row.length, ev.Duplex node (0 + k) := by
      intro k bound
      rw [Nat.zero_add]
      exact duplex row.length (same ▸ List.mem_map_of_mem member) k bound
    have converts (row : List Latency) (member : row ∈ rows) : ev.ConvertsRow node 0 row :=
      convertsRow_of_each (same ▸ fit.each narrow) nonneg admitted member
    refine ⟨_, _, _, temporalTile_eq first (rowsLinked same), temporalTile_eq first (rowsLinked same),
      temporalTile_eq first (rowsLinked same), ?_, ?_⟩
    · apply total_blocks_below
      intro row member
      exact parallel_below_pipeline (converts row member) (nonneg row member) (inside row member)
        (BlockLatency.Below.refl _) (BlockLatency.Below.refl _)
    · apply total_blocks_below
      intro row member
      exact pipeline_below_sequential (converts row member) (nonneg row member) (inside row member)
        (BlockLatency.Below.refl _)

/-- Scope types are ordered just where all links are duplex and all transfers fit an `int`. -/
theorem orderedScopes_iff (narrow : ∀ n, ev.toInt n = toInt32 n) (transfers : Transfers)
    (first : ∃ child, ev.child node 0 = .ok child) (linked : ∀ n ∈ shape, ev.Linked node n) :
    (isTemporal (ev.ori_node_ node) = true → ∀ link rows, ev.Computable node link rows →
      computeLatency ev node rows = temporalTile ev node (ev.scopeType node) rows) ∧
    (ev.OrderedScopes node transfers shape ↔
      (∀ n ∈ shape, ∀ k < n, ev.Duplex node k) ∧ transfers.Fit ev node shape) ∧
    ∀ rows, shapeOf rows = shape → NonnegRows rows → (∀ n ∈ shape, ∀ k < n, ev.Duplex node k) →
      ev.FitRows node rows → ev.OrderedRows node rows := by
  refine ⟨fun temporal link rows computable => computeLatency_temporal temporal computable,
    ordered_transfers_iff narrow transfers first linked, ?_⟩
  intro rows same nonneg duplex fits
  have own := ordered_transfers_iff narrow (Transfers.ofRows rows) first linked
  exact own.mpr ⟨duplex, Transfers.ofRows_fit fits⟩ rows same nonneg (Transfers.ofRows_admits rows)

def mixedLinks (second : ConType) : Evaluator :=
  Config.int32 (Config.evaluator
    (Config.workloads [("copy", ⟨["A"], "B"⟩), ("scale", ⟨["B"], "C"⟩)] [("M", 4)]
      [("A", ["M"]), ("B", ["M"]), ("C", ["M"])])
    1 [("Main2Cube", ⟨1, .HD, 0, 1⟩), ("Main2Vec", ⟨1, second, 0, 1⟩)]
    (Config.tile .Temporal "Main" [Config.loop "M" 4 4]
      [Config.scope .Pipeline [Config.op "Cube" "copy" [Config.loop "M" 1 1],
        Config.op "Vec" "scale" [Config.loop "M" 1 1]]]))

theorem mixedLinks_linked (second : ConType) : (mixedLinks second).Linked [] 2 := by
  intro k bound
  have cases : k = 0 ∨ k = 1 := by omega
  rcases cases with rfl | rfl
  · exact ⟨⟨1, .HD, 0, 1⟩, rfl⟩
  · exact ⟨⟨1, second, 0, 1⟩, rfl⟩

theorem orderedScopes_duplex : (mixedLinks .FD).OrderedScopes []
    (Transfers.upTo 100 100 (by decide) (by decide)) [2, 1, 2] := by
  refine (orderedScopes_iff (fun _ => rfl) _ ⟨[0], by decide +kernel⟩ ?_).2.1.mpr
    ⟨by decide +kernel, Transfers.upTo_fit _ _ (by decide)⟩
  intro n member k bound
  simp only [List.mem_cons, List.not_mem_nil, or_false] at member
  exact mixedLinks_linked .FD k (by omega)

/-- After a half duplex link, a Pipeline charges the transfers of the first child twice. -/
theorem temporalTile_stale :
    temporalTile (mixedLinks .UC) [] .Pipeline [[⟨1, 1, 0, []⟩, ⟨0, 0, 0, []⟩]] = .ok 4 ∧
      temporalTile (mixedLinks .UC) [] .Sequential [[⟨1, 1, 0, []⟩, ⟨0, 0, 0, []⟩]] = .ok 2 := by
  exact ⟨by decide +kernel, by decide +kernel⟩

end TileExp.Analysis
