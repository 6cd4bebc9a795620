import Latias.Analysis.Config
import Latias.Latencies.Broadcast
import Latias.Latencies.Unicast

/-! Which tiles get slower when their sub-tiles do, and which cover the work of their sub-tiles. -/

namespace TileExp.Analysis

open Checked Machine

/-- No sub-tile that gets slower makes the tile faster, whatever the rows of the shape hold. -/
def Evaluator.MonotoneLatency (ev : Evaluator) (node : NodePtr) (transfers : Transfers)
    (shape : List Nat) : Prop :=
  ∀ rows rows', shapeOf rows = shape → NonnegRows rows → SlowerRows rows rows' →
    transfers.Admits rows' → ∃ latency latency', computeLatency ev node rows = .ok latency ∧
      computeLatency ev node rows' = .ok latency' ∧ latency ≤ latency'

/-- The tile takes at least as long as any sub-tile computes. -/
def Evaluator.CoversRows (ev : Evaluator) (node : NodePtr) (rows : List (List Latency)) : Prop :=
  ∃ latency, computeLatency ev node rows = .ok latency ∧
    ∀ row ∈ rows, ∀ entry ∈ row, entry.process_latency_ ≤ latency

def Evaluator.CoversWork (ev : Evaluator) (node : NodePtr) (transfers : Transfers)
    (shape : List Nat) : Prop :=
  ∀ rows, shapeOf rows = shape → NonnegRows rows → transfers.Admits rows → ev.CoversRows node rows

variable {ev : Evaluator} {node : NodePtr} {link : InterConNode} {rows rows' rows₀ : List (List Latency)}
  {blocks blocks' : List BlockLatency} {transfers : Transfers}

theorem shapeOf_slower (slower : SlowerRows rows rows') : shapeOf rows = shapeOf rows' := by
  induction slower with
  | nil => rfl
  | cons here _ ih => exact congrArg₂ List.cons here.length_eq ih

theorem SlowerRows.admits (slower : SlowerRows rows rows') (nonneg : NonnegRows rows)
    (admitted : transfers.Admits rows') : transfers.Admits rows := by
  intro row member k entry found
  obtain ⟨j, bound, rfl⟩ := List.getElem_of_mem member
  have bound' : j < rows'.length := slower.length_eq ▸ bound
  have here : List.Forall₂ SlowerEntry rows[j] rows'[j] := slower.get bound bound'
  obtain ⟨inside, rfl⟩ := List.getElem?_eq_some_iff.mp found
  have inside' : k < rows'[j].length := here.length_eq ▸ inside
  have entry : SlowerEntry rows[j][k] rows'[j][k] := here.get inside inside'
  have positive := nonneg _ (List.getElem_mem bound) _ (List.getElem_mem inside)
  exact transfers.lower
    (admitted _ (List.getElem_mem bound') k _ (List.getElem?_eq_getElem inside'))
    positive.input_latency_ entry.input_latency_ positive.output_latency_ entry.output_latency_

theorem NonnegRows.slower (nonneg : NonnegRows rows) (slower : SlowerRows rows rows') :
    NonnegRows rows' := by
  intro row' member entry' inside
  obtain ⟨j, bound', rfl⟩ := List.getElem_of_mem member
  have bound : j < rows.length := slower.length_eq.symm ▸ bound'
  have here : List.Forall₂ SlowerEntry rows[j] rows'[j] := slower.get bound bound'
  obtain ⟨k, long', rfl⟩ := List.getElem_of_mem inside
  have long : k < rows[j].length := here.length_eq.symm ▸ long'
  have entry : SlowerEntry rows[j][k] rows'[j][k] := here.get long long'
  have positive := nonneg _ (List.getElem_mem bound) _ (List.getElem_mem long)
  exact ⟨positive.input_latency_.trans entry.input_latency_,
    positive.output_latency_.trans entry.output_latency_,
    positive.process_latency_.trans entry.process_latency_⟩

theorem tileBlocks_slower (slower : SlowerRows rows rows') (converts : ev.ConvertsRows node rows)
    (converts' : ev.ConvertsRows node rows') :
    List.Forall₂ BlockLatency.Below (ev.tileBlocks node rows) (ev.tileBlocks node rows') := by
  induction slower with
  | nil => exact .nil
  | cons here _ ih =>
    obtain ⟨first, rest⟩ := List.forall_mem_cons.mp converts
    obtain ⟨first', rest'⟩ := List.forall_mem_cons.mp converts'
    exact .cons (blockOf_mono here first first') (ih rest rest')

theorem sum_below (below : List.Forall₂ BlockLatency.Below blocks blocks') (f : BlockLatency → Int)
    (keeps : ∀ a b : BlockLatency, a.Below b → f a ≤ f b) :
    (blocks.map f).sum ≤ (blocks'.map f).sum := by
  induction below with
  | nil => exact Int.le_refl _
  | cons here _ ih =>
    rw [List.map_cons, List.map_cons, List.sum_cons, List.sum_cons]
    exact Int.add_le_add (keeps _ _ here) ih

theorem total_below (below : List.Forall₂ BlockLatency.Below blocks blocks') :
    (BlockLatency.total blocks).Below (BlockLatency.total blocks') := by
  constructor
  · exact sum_below below _ fun _ _ here => here.input_latency_
  · exact sum_below below _ fun _ _ here => here.process_latency_
  · exact sum_below below _ fun _ _ here => here.output_latency_

theorem maxOf_below {block block' : BlockLatency} (below : block.Below block') :
    maxOf block ≤ maxOf block' :=
  max_le_max (max_le_max below.input_latency_ below.process_latency_) below.output_latency_

theorem BlockLatency.Below.all {block block' : BlockLatency} (below : block.Below block') :
    block.all ≤ block'.all := by
  have input := below.input_latency_
  have process := below.process_latency_
  have output := below.output_latency_
  rw [BlockLatency.all, BlockLatency.all]
  omega

theorem slowest_below (below : List.Forall₂ BlockLatency.Below blocks blocks') (width rounds : Nat) :
    Rounds.slowest width rounds (blocks.map BlockLatency.all) ≤
      Rounds.slowest width rounds (blocks'.map BlockLatency.all) := by
  apply Rounds.slowest_mono
  rw [List.forall₂_map_left_iff, List.forall₂_map_right_iff]
  exact below.imp fun _ _ here => here.all

/-- Where the weights of the rounds are steady, slower blocks make a slower tile. -/
theorem tileLatency_mono (slower : SlowerRows rows rows') (converts : ev.ConvertsRows node rows)
    (converts' : ev.ConvertsRows node rows') {temporal : Bool} (steady : temporal = true ∨
      link.con_type_ ≠ .UC ∨ ev.SteadyRounds node link.fanout_ (shapeOf rows)) :
    tileLatency temporal link (ev.tileBlocks node rows) ≤
      tileLatency temporal link (ev.tileBlocks node rows') := by
  have below := tileBlocks_slower slower converts converts'
  unfold tileLatency
  cases temporal with
  | true => exact maxOf_below (total_below below)
  | false =>
    have same : (ev.tileBlocks node rows').length = (ev.tileBlocks node rows).length :=
      below.length_eq.symm
    have length : (ev.tileBlocks node rows).length = rows.length := List.length_map _
    rw [if_neg Bool.false_ne_true, if_neg Bool.false_ne_true, same, length]
    cases kind : link.con_type_ with
    | UC =>
      have enough : ev.SteadyRounds node link.fanout_ (shapeOf rows) := by
        rcases steady with impossible | other | steady
        · cases impossible
        · exact absurd kind other
        · exact steady
      rw [roundsLatency_unicast, roundsLatency_unicast]
      apply Int.add_le_add
      · exact transferSum_mono (shapeOf_slower slower) below enough
      · exact processRounds_mono below
    | BC => exact slowest_below below _ _
    | HD => exact Int.le_refl 0
    | FD => exact Int.le_refl 0
    | Ring => exact Int.le_refl 0
    | Mesh => exact Int.le_refl 0

theorem exists_faster {shape : List Nat} {fanout_ : Nat}
    (converts : ∀ j k, ev.ConvertsRows node (rowsOf shape (oneInput j k)))
    (unsteady : ¬ ev.SteadyRounds node fanout_ shape) :
    ∃ j k, roundsLatency .UC fanout_ (Rounds.count shape.length fanout_)
      (ev.tileBlocks node (rowsOf shape (oneInput j k))) < 0 := by
  unfold Evaluator.SteadyRounds at unsteady
  simp only [not_forall] at unsteady
  obtain ⟨i, bound, counted, short⟩ := unsteady
  exact roundsLatency_oneInput converts bound counted (Nat.lt_of_not_le short)

theorem computeLatency_of_shape (computable : ev.Computable node link rows₀)
    (same : shapeOf rows = shapeOf rows₀) :
    computeLatency ev node rows = .ok
      (tileLatency (isTemporal (ev.ori_node_ node)) link (ev.tileBlocks node rows)) :=
  computeLatency_iff.mpr ⟨link, computable.of_shape same, rfl⟩

theorem computeLatency_unicast (computable : ev.Computable node link rows₀)
    (spatial : isTemporal (ev.ori_node_ node) = false) (unicast : link.con_type_ = .UC)
    (value : Nat → Nat → Latency) :
    computeLatency ev node (rowsOf (shapeOf rows₀) value) = .ok
      (roundsLatency .UC link.fanout_ (Rounds.count (shapeOf rows₀).length link.fanout_)
        (ev.tileBlocks node (rowsOf (shapeOf rows₀) value))) := by
  have length : (ev.tileBlocks node (rowsOf (shapeOf rows₀) value)).length =
      (shapeOf rows₀).length := by
    simp [Evaluator.tileBlocks, rowsOf]
  rw [computeLatency_of_shape computable (shapeOf_rowsOf _ _), tileLatency, spatial, unicast, length]
  rfl

theorem computeLatency_monotone_iff (transfers : Transfers)
    (computable : ev.Computable node link rows₀)
    (converted : ev.scopeType node = .Pipeline →
      transfers.Each ev node (shapeOf rows₀) fun n => ev.toInt n = n) :
    ev.MonotoneLatency node transfers (shapeOf rows₀) ↔ isTemporal (ev.ori_node_ node) = true ∨
      link.con_type_ ≠ .UC ∨ ev.SteadyRounds node link.fanout_ (shapeOf rows₀) := by
  have converts {rows : List (List Latency)} (same : shapeOf rows = shapeOf rows₀)
      (nonneg : NonnegRows rows) (admitted : transfers.Admits rows) : ev.ConvertsRows node rows :=
    convertsRows_of_each (same ▸ converted) nonneg admitted
  have nonneg (j k : Nat) : NonnegRows (rowsOf (shapeOf rows₀) (oneInput j k)) :=
    rowsOf_nonneg (oneInput_nonneg j k)
  constructor
  · intro monotone
    by_contra unsteady
    simp only [not_or, not_not, Bool.not_eq_true] at unsteady
    obtain ⟨spatial, unicast, unsteady⟩ := unsteady
    obtain ⟨j, k, faster⟩ := exists_faster (fun j k =>
      converts (shapeOf_rowsOf _ _) (nonneg j k) (oneInput_admits transfers _ j k)) unsteady
    obtain ⟨latency, latency', first, second, order⟩ := monotone _ _
      (shapeOf_rowsOf _ _) (rowsOf_nonneg fun _ _ => still_nonneg)
      (rowsOf_slower (oneInput_slower j k)) (oneInput_admits transfers _ j k)
    rw [computeLatency_unicast computable spatial unicast, Except.ok.injEq] at first second
    rw [roundsLatency_still (converts (shapeOf_rowsOf _ _) (rowsOf_nonneg fun _ _ => still_nonneg)
      (rowsOf_admits fun _ => transfers.admits_still))] at first
    omega
  · intro steady rows rows' same nonneg slower admitted
    have same' : shapeOf rows' = shapeOf rows₀ := (shapeOf_slower slower).symm.trans same
    refine ⟨_, _, computeLatency_of_shape computable same,
      computeLatency_of_shape computable same', tileLatency_mono slower
        (converts same nonneg (slower.admits nonneg admitted))
        (converts same' (nonneg.slower slower) admitted) ?_⟩
    rwa [same]

def threeCores : Evaluator :=
  Config.int32 (Config.evaluator (Config.workloads [("copy", ⟨["A"], "B"⟩)] [("M", 4)]
      [("A", ["M"]), ("B", ["M"])])
    1 [("Main2Cube", ⟨1, .UC, 0, 3⟩)]
    (Config.tile .Spatial "Main" [Config.loop "M" 4 4]
      [Config.scope .Sequential [Config.op "Cube" "copy" [Config.loop "M" 1 1]]]))

theorem computable_of_single {n : Nat} (found : getInterConNode ev node 0 = .ok link)
    (cores : link.fanout_ ≠ 0) (entry : Latency) :
    ev.Computable node link (List.replicate (n + 1) [entry]) := by
  refine ⟨List.cons_ne_nil _ _, found, Or.inr cores, fun row member k bound => ?_⟩
  rw [List.eq_of_mem_replicate member, List.length_singleton, Nat.lt_one_iff] at bound
  exact ⟨link, bound ▸ found⟩

theorem computeLatency_monotone_three :
    threeCores.MonotoneLatency [] (Transfers.upTo 100 100 (by decide) (by decide)) [1, 1, 1] := by
  have found : getInterConNode threeCores [] 0 = .ok ⟨1, .UC, 0, 3⟩ := by decide +kernel
  have computable := @computable_of_single threeCores [] _ 2 found (by decide) still
  exact (computeLatency_monotone_iff _ computable fun pipeline => absurd pipeline (by decide)).mpr
    (Or.inr (Or.inr (by decide +kernel)))

/-- A fourth iteration that also waits for an input makes the tile faster. -/
theorem computeLatency_faster :
    SlowerRows [[⟨0, 0, 5, []⟩], [⟨0, 0, 5, []⟩], [⟨0, 0, 5, []⟩], [⟨0, 0, 5, []⟩]]
        [[⟨0, 0, 5, []⟩], [⟨0, 0, 5, []⟩], [⟨0, 0, 5, []⟩], [⟨1, 0, 5, []⟩]] ∧
      computeLatency threeCores []
        [[⟨0, 0, 5, []⟩], [⟨0, 0, 5, []⟩], [⟨0, 0, 5, []⟩], [⟨0, 0, 5, []⟩]] = .ok 10 ∧
      computeLatency threeCores []
        [[⟨0, 0, 5, []⟩], [⟨0, 0, 5, []⟩], [⟨0, 0, 5, []⟩], [⟨1, 0, 5, []⟩]] = .ok 9 := by
  have same : SlowerEntry ⟨0, 0, 5, []⟩ ⟨0, 0, 5, []⟩ := ⟨by decide, by decide, by decide⟩
  have slower : SlowerEntry ⟨0, 0, 5, []⟩ ⟨1, 0, 5, []⟩ := ⟨by decide, by decide, by decide⟩
  refine ⟨?_, by decide +kernel, by decide +kernel⟩
  have row {entry entry' : Latency} (here : SlowerEntry entry entry') :
      List.Forall₂ SlowerEntry [entry] [entry'] := .cons here .nil
  exact .cons (row same) (.cons (row same) (.cons (row same) (.cons (row slower) .nil)))

/-! The work of the sub-tiles. -/

def Evaluator.KeepsWork (ev : Evaluator) (node : NodePtr) (link : InterConNode) (shape : List Nat) :
    Prop :=
  Combines (ev.scopeType node) ∧ (isTemporal (ev.ori_node_ node) = true ∨ link.con_type_ = .BC ∨
    link.con_type_ = .UC ∧ ev.SteadyRounds node link.fanout_ shape)

def busy : Latency := ⟨0, 0, 1, []⟩

theorem busy_nonneg : NonnegEntry busy := ⟨by decide, by decide, by decide⟩

theorem tileBlocks_nonneg (converts : ev.ConvertsRows node rows) (nonneg : NonnegRows rows) :
    ∀ block ∈ ev.tileBlocks node rows, block.Nonneg := by
  intro block member
  obtain ⟨row, inside, rfl⟩ := List.mem_map.mp member
  exact blockOf_nonneg (converts row inside) (nonneg row inside)

theorem le_sum_blocks (nonneg : ∀ block ∈ blocks, block.Nonneg) {block : BlockLatency}
    (member : block ∈ blocks) (f : BlockLatency → Int)
    (positive : ∀ b : BlockLatency, b.Nonneg → 0 ≤ f b) :
    f block ≤ (blocks.map f).sum := by
  apply List.single_le_sum
  · intro n inside
    obtain ⟨b, own, rfl⟩ := List.mem_map.mp inside
    exact positive b (nonneg b own)
  · exact List.mem_map_of_mem member

theorem le_maxOf_total (nonneg : ∀ block ∈ blocks, block.Nonneg) {block : BlockLatency}
    (member : block ∈ blocks) : maxOf block ≤ maxOf (BlockLatency.total blocks) := by
  apply maxOf_below
  constructor
  · exact le_sum_blocks nonneg member _ fun _ here => here.input_latency_
  · exact le_sum_blocks nonneg member _ fun _ here => here.process_latency_
  · exact le_sum_blocks nonneg member _ fun _ here => here.output_latency_

theorem process_le_all {block : BlockLatency} (nonneg : block.Nonneg) :
    block.process_latency_ ≤ block.all := by
  have input := nonneg.input_latency_
  have output := nonneg.output_latency_
  simp only at input output
  rw [BlockLatency.all]
  omega

theorem process_le_processRounds {fanout_ : Nat} (cores : fanout_ ≠ 0) {block : BlockLatency}
    (member : block ∈ blocks) :
    block.process_latency_ ≤ processRounds fanout_ (Rounds.count blocks.length fanout_) blocks := by
  obtain ⟨j, bound, rfl⟩ := List.getElem_of_mem member
  have round := Rounds.div_lt_count cores bound
  have reached : j < (j / fanout_ + 1) * fanout_ := by
    have split := Nat.div_add_mod j fanout_
    have inside := Nat.mod_lt j (Nat.pos_of_ne_zero cores)
    rw [Nat.add_mul, Nat.one_mul, Nat.mul_comm]
    omega
  have early : blocks[j] ∈ Rounds.upTo fanout_ (j / fanout_) blocks := by
    apply List.mem_of_getElem? (i := j)
    rw [Rounds.upTo, List.getElem?_take_of_lt reached, List.getElem?_eq_getElem bound]
  calc blocks[j].process_latency_
      ≤ (BlockLatency.peaks (Rounds.upTo fanout_ (j / fanout_) blocks)).process_latency_ :=
        Rounds.le_peak (List.mem_map_of_mem early)
    _ ≤ processRounds fanout_ (Rounds.count blocks.length fanout_) blocks :=
        Finset.single_le_sum
          (f := fun i => (BlockLatency.peaks (Rounds.upTo fanout_ i blocks)).process_latency_)
          (fun _ _ => Rounds.peak_nonneg _) (Finset.mem_range.mpr round)

theorem blocks_of_not_combines (idle : ¬ Combines (ev.scopeType node)) :
    ∀ block ∈ ev.tileBlocks node rows, block = ⟨0, 0, 0⟩ := by
  intro block member
  obtain ⟨row, _, rfl⟩ := List.mem_map.mp member
  exact rowLatency_of_not_combines idle

theorem map_of_still (zeros : ∀ block ∈ blocks, block = ⟨0, 0, 0⟩) (f : BlockLatency → Int)
    (zero : f ⟨0, 0, 0⟩ = 0) : ∀ n ∈ blocks.map f, n = 0 := by
  intro n member
  obtain ⟨block, inside, rfl⟩ := List.mem_map.mp member
  rw [zeros block inside, zero]

theorem maxOf_total_of_still (zeros : ∀ block ∈ blocks, block = ⟨0, 0, 0⟩) :
    maxOf (BlockLatency.total blocks) = 0 := by
  have none := map_of_still zeros
  rw [BlockLatency.total, List.sum_eq_zero (none _ rfl), List.sum_eq_zero (none _ rfl),
    List.sum_eq_zero (none _ rfl)]
  rfl

theorem tileLatency_of_still (temporal : Bool) (link : InterConNode)
    (zeros : ∀ block ∈ blocks, block = ⟨0, 0, 0⟩) : tileLatency temporal link blocks = 0 := by
  unfold tileLatency
  cases temporal with
  | true => exact maxOf_total_of_still zeros
  | false =>
    rw [if_neg Bool.false_ne_true]
    have rounds (i : Nat) : BlockLatency.peaks (Rounds.upTo link.fanout_ i blocks) = ⟨0, 0, 0⟩ :=
      peaks_of_still fun block member => zeros block (List.mem_of_mem_take member)
    cases link.con_type_ with
    | UC =>
      apply Finset.sum_eq_zero
      intro i _
      rw [unicastRound, rounds]
      simp [BlockLatency.transfer]
    | BC =>
      rw [roundsLatency, Rounds.slowest]
      apply Finset.sum_eq_zero
      intro i _
      exact Rounds.peak_of_zeros fun n member =>
        map_of_still zeros _ rfl n (Rounds.mem_of_mem_round member)
    | HD => rfl
    | FD => rfl
    | Ring => rfl
    | Mesh => rfl

theorem process_le_total (nonneg : ∀ block ∈ blocks, 0 ≤ block.process_latency_)
    {block : BlockLatency} (member : block ∈ blocks) :
    block.process_latency_ ≤ maxOf (BlockLatency.total blocks) := by
  have sum : block.process_latency_ ≤ (blocks.map BlockLatency.process_latency_).sum := by
    apply List.single_le_sum
    · intro n inside
      obtain ⟨b, own, rfl⟩ := List.mem_map.mp inside
      exact nonneg b own
    · exact List.mem_map_of_mem member
  exact sum.trans ((le_max_right _ _).trans (le_max_left _ _))

theorem work_le_tileLatency (computable : ev.Computable node link rows)
    (keeps : ev.KeepsWork node link (shapeOf rows))
    (converts : isTemporal (ev.ori_node_ node) = false → link.con_type_ = .BC →
      ev.ConvertsRows node rows) (nonneg : NonnegRows rows)
    {row : List Latency} (member : row ∈ rows) {entry : Latency} (inside : entry ∈ row) :
    entry.process_latency_ ≤
      tileLatency (isTemporal (ev.ori_node_ node)) link (ev.tileBlocks node rows) := by
  obtain ⟨combines, kind⟩ := keeps
  have own : blockOf ev node (ev.scopeType node) row ∈ ev.tileBlocks node rows :=
    List.mem_map_of_mem member
  have work := @process_le_blockOf ev node _ _ _ (nonneg row member) combines inside
  apply work.trans
  by_cases temporal : isTemporal (ev.ori_node_ node) = true
  · rw [temporal]
    refine process_le_total (fun block here => ?_) own
    obtain ⟨row', member', rfl⟩ := List.mem_map.mp here
    exact blockOf_process_nonneg (nonneg row' member')
  · have cores := computable.cores.resolve_left temporal
    have length : (ev.tileBlocks node rows).length = rows.length := List.length_map _
    have spatial := Bool.eq_false_iff.mpr temporal
    unfold tileLatency
    rw [if_neg temporal]
    rcases kind.resolve_left temporal with broadcast | ⟨unicast, steady⟩
    · have positive := tileBlocks_nonneg (converts spatial broadcast) nonneg
      rw [broadcast]
      have slow := Rounds.le_slowest cores ((ev.tileBlocks node rows).map BlockLatency.all)
      rw [List.length_map] at slow
      exact (process_le_all (positive _ own)).trans
        ((Rounds.le_peak (List.mem_map_of_mem own)).trans slow)
    · rw [unicast, roundsLatency_unicast]
      have transfers := transferSum_nonneg steady
      rw [← length] at transfers
      have process := process_le_processRounds cores own
      omega

theorem exists_entry (filled : rows₀ ≠ []) (entries : ∀ row ∈ rows₀, row ≠ [])
    (value : Nat → Nat → Latency) :
    ∃ row ∈ rowsOf (shapeOf rows₀) value, value 0 0 ∈ row := by
  obtain ⟨row₀, rest, rfl⟩ := List.exists_cons_of_ne_nil filled
  have length : row₀.length ≠ 0 := fun none =>
    entries row₀ List.mem_cons_self (List.length_eq_zero_iff.mp none)
  have place : (shapeOf (row₀ :: rest))[0]? = some row₀.length := rfl
  refine ⟨_, List.mem_of_getElem? (getElem?_rowsOf place), List.mem_map.mpr ⟨0, ?_, rfl⟩⟩
  exact List.mem_range.mpr (Nat.pos_of_ne_zero length)

theorem roundsLatency_other {kind : ConType} (unicast : kind ≠ .UC) (broadcast : kind ≠ .BC)
    (fanout_ repeat_ : Nat) : roundsLatency kind fanout_ repeat_ blocks = 0 := by
  cases kind with
  | UC => exact absurd rfl unicast
  | BC => exact absurd rfl broadcast
  | HD => rfl
  | FD => rfl
  | Ring => rfl
  | Mesh => rfl

theorem idle_of_not_keeps (lost : ¬ ev.KeepsWork node link (shapeOf rows))
    (steady : isTemporal (ev.ori_node_ node) = true ∨ link.con_type_ ≠ .UC ∨
      ev.SteadyRounds node link.fanout_ (shapeOf rows)) :
    tileLatency (isTemporal (ev.ori_node_ node)) link (ev.tileBlocks node rows) = 0 := by
  by_cases combines : Combines (ev.scopeType node)
  · have others : ¬ _ := fun kind => lost ⟨combines, kind⟩
    simp only [not_or, not_and] at others
    obtain ⟨spatial, broadcast, unicast⟩ := others
    rw [tileLatency, if_neg spatial]
    apply roundsLatency_other _ broadcast
    intro kind
    rcases steady with temporal | other | steady
    · exact spatial temporal
    · exact other kind
    · exact unicast kind steady
  · exact tileLatency_of_still _ _ (blocks_of_not_combines combines)

theorem broadcast_loses (narrow : ∀ n, ev.toInt n = toInt32 n)
    (computable : ev.Computable node link rows₀)
    (spatial : isTemporal (ev.ori_node_ node) = false) (broadcast : link.con_type_ = .BC)
    (pipeline : ev.scopeType node = .Pipeline)
    (unfit : ¬ transfers.Fit ev node (shapeOf rows₀)) :
    ¬ ev.CoversWork node transfers (shapeOf rows₀) := by
  intro covers
  obtain ⟨j, n, k, input, output, place, inside, low, low', admitted, transfer⟩ :=
    exists_overflow unfit
  have positive : NonnegEntry ⟨input, output, 1, []⟩ := ⟨low, low', zero_le_one⟩
  obtain ⟨latency, run, above⟩ := covers _ (shapeOf_rowsOf _ _)
    (rowsOf_nonneg (lone_nonneg (j := j) (k := k) positive)) (lone_admits admitted)
  have work := above _ (List.mem_of_getElem? (getElem?_rowsOf place)) ⟨input, output, 1, []⟩
    (List.mem_map.mpr ⟨k, List.mem_range.mpr inside, if_pos ⟨rfl, rfl⟩⟩)
  rw [computeLatency_of_shape computable (shapeOf_rowsOf _ _), tileLatency_broadcast spatial broadcast,
    Except.ok.injEq, Evaluator.tileBlocks, pipeline] at run
  have wrapped := @lone_blocks ev node _ j k n _ narrow place inside (transfer 1)
  have none : latency ≤ 0 := by
    rw [← run]
    apply Finset.sum_nonpos
    intro i _
    apply Rounds.peak_le (Int.le_refl 0)
    intro cost member
    obtain ⟨block, own, rfl⟩ := List.mem_map.mp (Rounds.mem_of_mem_round member)
    rcases wrapped block own with rfl | sunk
    · exact Int.le_refl 0
    · exact Int.le_of_lt (sunk.all (Int.le_refl 1))
  exact absurd (work.trans none) Int.one_pos.not_ge

theorem covers_transfers_iff (narrow : ∀ n, ev.toInt n = toInt32 n) (transfers : Transfers)
    (computable : ev.Computable node link rows₀) (entries : ∀ row ∈ rows₀, row ≠ []) :
    ev.CoversWork node transfers (shapeOf rows₀) ↔ ev.KeepsWork node link (shapeOf rows₀) ∧
      (isTemporal (ev.ori_node_ node) = false → link.con_type_ = .BC →
        ev.scopeType node = .Pipeline → transfers.Fit ev node (shapeOf rows₀)) := by
  constructor
  · intro covers
    refine ⟨?_, fun spatial broadcast pipeline => ?_⟩
    · by_contra lost
      by_cases steady : isTemporal (ev.ori_node_ node) = true ∨ link.con_type_ ≠ .UC ∨
          ev.SteadyRounds node link.fanout_ (shapeOf rows₀)
      · -- the work of busy sub-tiles is lost
        have shape := shapeOf_rowsOf (shapeOf rows₀) fun _ _ => busy
        obtain ⟨latency, run, above⟩ := covers _ shape (rowsOf_nonneg fun _ _ => busy_nonneg)
          (rowsOf_admits fun _ => transfers.admits_still)
        rw [computeLatency_of_shape computable shape, idle_of_not_keeps (by rwa [shape])
          (by rwa [shape]), Except.ok.injEq] at run
        obtain ⟨row, member, inside⟩ := exists_entry computable.nonempty entries fun _ _ => busy
        have work := above row member _ inside
        rw [← run] at work
        exact absurd work (by decide)
      · -- one input makes the latency negative
        simp only [not_or, not_not, Bool.not_eq_true] at steady
        obtain ⟨spatial, unicast, unsteady⟩ := steady
        obtain ⟨j, k, negative⟩ := exists_faster (oneInput_converts narrow _) unsteady
        obtain ⟨latency, run, above⟩ := covers _ (shapeOf_rowsOf _ _)
          (rowsOf_nonneg (oneInput_nonneg j k)) (oneInput_admits transfers _ j k)
        rw [computeLatency_unicast computable spatial unicast, Except.ok.injEq] at run
        obtain ⟨row, member, inside⟩ := exists_entry computable.nonempty entries (oneInput j k)
        have work := above row member _ inside
        rw [oneInput_process] at work
        omega
    · by_contra unfit
      exact broadcast_loses narrow computable spatial broadcast pipeline unfit covers
  · rintro ⟨keeps, fits⟩ rows same nonneg admitted
    refine ⟨_, computeLatency_of_shape computable same, fun row member entry inside => ?_⟩
    have converts (spatial : isTemporal (ev.ori_node_ node) = false)
        (broadcast : link.con_type_ = .BC) : ev.ConvertsRows node rows :=
      convertsRows_of_each (fun pipeline => same ▸ (fits spatial broadcast pipeline).each narrow)
        nonneg admitted
    exact work_le_tileLatency (computable.of_shape same) (same ▸ keeps) converts nonneg member inside

theorem computeLatency_covers_iff (narrow : ∀ n, ev.toInt n = toInt32 n) (transfers : Transfers)
    (computable : ev.Computable node link rows₀) (entries : ∀ row ∈ rows₀, row ≠ []) :
    (ev.CoversWork node transfers (shapeOf rows₀) ↔ ev.KeepsWork node link (shapeOf rows₀) ∧
      (isTemporal (ev.ori_node_ node) = false → link.con_type_ = .BC →
        ev.scopeType node = .Pipeline → transfers.Fit ev node (shapeOf rows₀))) ∧
    ∀ rows, shapeOf rows = shapeOf rows₀ → NonnegRows rows →
      ev.KeepsWork node link (shapeOf rows₀) →
        (isTemporal (ev.ori_node_ node) = false → link.con_type_ = .BC →
          ev.scopeType node = .Pipeline → ev.FitRows node rows) → ev.CoversRows node rows := by
  refine ⟨covers_transfers_iff narrow transfers computable entries, ?_⟩
  intro rows same nonneg keeps fits
  have own := covers_transfers_iff narrow (Transfers.ofRows rows) computable entries
  refine own.mpr ⟨keeps, ?_⟩ rows same nonneg (Transfers.ofRows_admits rows)
  intro spatial broadcast pipeline
  exact Transfers.ofRows_fit (fits spatial broadcast pipeline)

theorem computeLatency_covers_three :
    threeCores.CoversWork [] (Transfers.upTo 100 100 (by decide) (by decide)) [1, 1, 1] := by
  have found : getInterConNode threeCores [] 0 = .ok ⟨1, .UC, 0, 3⟩ := by decide +kernel
  have computable := @computable_of_single threeCores [] _ 2 found (by decide) still
  have entries : ∀ row ∈ List.replicate 3 [still], row ≠ [] := by simp
  exact (computeLatency_covers_iff (fun _ => rfl) _ computable entries).1.mpr
    ⟨⟨by decide +kernel, Or.inr (Or.inr ⟨rfl, by decide +kernel⟩)⟩,
      fun _ broadcast => ConType.noConfusion broadcast⟩

def sharedCore : Evaluator :=
  Config.int32 (Config.evaluator (Config.workloads [("copy", ⟨["A"], "B"⟩)] [("M", 4)]
      [("A", ["M"]), ("B", ["M"])])
    1 [("Main2Cube", ⟨1, .HD, 0, 1⟩)]
    (Config.tile .Temporal "Main" [Config.loop "M" 4 4]
      [Config.scope .Sharing [Config.op "Cube" "copy" [Config.loop "M" 1 1]]]))

theorem computeLatency_drops : computeLatency sharedCore [] [[⟨0, 0, 5, []⟩]] = .ok 0 := by
  decide +kernel

end TileExp.Analysis
