import Latias.Analysis.PerfLatency
import Latias.Library.Checked
import Latias.Library.Rounds

/-! The latency of a Tile as a function of its rows: what `computeLatency` returns whenever it
    returns. -/

namespace TileExp.Analysis

open Checked

def Evaluator.linkType (ev : Evaluator) (node : NodePtr) (k : Nat) : ConType :=
  match getInterConNode ev node k with
  | .ok link => link.con_type_
  | .error _ => .HD

def Evaluator.Linked (ev : Evaluator) (node : NodePtr) (n : Nat) : Prop :=
  ∀ k < n, ∃ link, getInterConNode ev node k = .ok link

def Evaluator.scopeType (ev : Evaluator) (node : NodePtr) : ScopeType :=
  scopeTypeOf (ev.ori_node_ (0 :: node))

/-- What the entries of a row make of a block, the first of them at `child_num`. -/
def rowLatency (ev : Evaluator) (node : NodePtr) (scope_type : ScopeType) :
    Nat → Int → BlockLatency → List Latency → BlockLatency
  | _, _, result, [] => result
  | child_num, dm_latency, result, latency :: rest =>
    let dm_latency := linkLatency ev (ev.linkType node child_num) dm_latency latency
    rowLatency ev node scope_type (child_num + 1) dm_latency
      (addChildLatency scope_type dm_latency latency result) rest

def blockOf (ev : Evaluator) (node : NodePtr) (scope_type : ScopeType) (row : List Latency) :
    BlockLatency :=
  rowLatency ev node scope_type 0 0 ⟨0, 0, 0⟩ row

def BlockLatency.total (blocks : List BlockLatency) : BlockLatency where
  input_latency_ := (blocks.map BlockLatency.input_latency_).sum
  process_latency_ := (blocks.map BlockLatency.process_latency_).sum
  output_latency_ := (blocks.map BlockLatency.output_latency_).sum

def BlockLatency.peaks (blocks : List BlockLatency) : BlockLatency where
  input_latency_ := Rounds.peak (blocks.map BlockLatency.input_latency_)
  process_latency_ := Rounds.peak (blocks.map BlockLatency.process_latency_)
  output_latency_ := Rounds.peak (blocks.map BlockLatency.output_latency_)

/-- What a broadcast link counts of a block. -/
def BlockLatency.all (block : BlockLatency) : Int :=
  block.input_latency_ + block.output_latency_ + block.process_latency_

def BlockLatency.transfer (block : BlockLatency) : Int :=
  max block.input_latency_ block.output_latency_

def unicastRound (fanout_ repeat_ : Nat) (blocks : List BlockLatency) (i : Nat) : Int :=
  (BlockLatency.peaks (Rounds.upTo fanout_ i blocks)).transfer * Rounds.weight fanout_ repeat_ i +
    (BlockLatency.peaks (Rounds.upTo fanout_ i blocks)).process_latency_

def roundsLatency (kind : ConType) (fanout_ repeat_ : Nat) (blocks : List BlockLatency) : Int :=
  match kind with
  | .UC => ∑ i ∈ Finset.range repeat_, unicastRound fanout_ repeat_ blocks i
  | .BC => Rounds.slowest fanout_ repeat_ (blocks.map BlockLatency.all)
  | _ => 0

/-- The latency of the blocks of a tile. -/
def tileLatency (temporal : Bool) (link : InterConNode) (blocks : List BlockLatency) : Int :=
  if temporal then maxOf (BlockLatency.total blocks)
  else roundsLatency link.con_type_ link.fanout_ (Rounds.count blocks.length link.fanout_) blocks

variable {ev : Evaluator} {node : NodePtr} {scope_type : ScopeType} {rows : List (List Latency)}

theorem linkType_of_ok {k : Nat} {link : InterConNode} (found : getInterConNode ev node k = .ok link) :
    ev.linkType node k = link.con_type_ := by
  rw [Evaluator.linkType, found]

theorem scopeLatencyLoop_iff {row : List Latency} {child_num : Nat} {dm_latency : Int}
    {result block : BlockLatency} :
    scopeLatencyLoop ev node scope_type child_num dm_latency result row = .ok block ↔
      (∀ k < row.length, ∃ link, getInterConNode ev node (child_num + k) = .ok link) ∧
        block = rowLatency ev node scope_type child_num dm_latency result row := by
  induction row generalizing child_num dm_latency result with
  | nil =>
    rw [scopeLatencyLoop, rowLatency, Except.ok.injEq]
    constructor
    · intro same
      exact ⟨fun k bound => absurd bound (Nat.not_lt_zero k), same.symm⟩
    · exact fun both => both.2.symm
  | cons entry row ih =>
    rw [scopeLatencyLoop, rowLatency, bind_eq_ok]
    constructor
    · rintro ⟨link, found, rest⟩
      obtain ⟨linked, value⟩ := ih.mp rest
      refine ⟨fun k bound => ?_, by rw [value, linkType_of_ok found]⟩
      cases k with
      | zero => exact ⟨link, found⟩
      | succ k =>
        rw [← Nat.succ_add_eq_add_succ]
        exact linked k (Nat.lt_of_succ_lt_succ bound)
    · rintro ⟨linked, value⟩
      obtain ⟨link, found⟩ := linked 0 (Nat.succ_pos _)
      rw [Nat.add_zero] at found
      refine ⟨link, found, ih.mpr ⟨fun k bound => ?_, ?_⟩⟩
      · have later := linked (k + 1) (Nat.succ_lt_succ bound)
        rwa [← Nat.succ_add_eq_add_succ] at later
      · rw [value, linkType_of_ok found]

theorem computeScopeLatency_iff {row : List Latency} {block : BlockLatency} :
    computeScopeLatency ev node row scope_type = .ok block ↔
      (∃ child, ev.child node 0 = .ok child) ∧ ev.Linked node row.length ∧
        block = blockOf ev node scope_type row := by
  unfold computeScopeLatency Evaluator.Linked
  rw [bind_eq_ok]
  constructor
  · rintro ⟨child, here, run⟩
    obtain ⟨linked, value⟩ := scopeLatencyLoop_iff.mp run
    simp only [Nat.zero_add] at linked
    exact ⟨⟨child, here⟩, linked, value⟩
  · rintro ⟨⟨child, here⟩, linked, value⟩
    refine ⟨child, here, scopeLatencyLoop_iff.mpr ⟨?_, value⟩⟩
    simpa only [Nat.zero_add] using linked

def Evaluator.RowsLinked (ev : Evaluator) (node : NodePtr) (rows : List (List Latency)) : Prop :=
  ∀ row ∈ rows, ev.Linked node row.length

theorem temporalLatency_iff {total result : BlockLatency}
    (first : ∃ child, ev.child node 0 = .ok child) :
    temporalLatency ev node scope_type total rows = .ok result ↔ ev.RowsLinked node rows ∧
      result = ⟨total.input_latency_ +
          (BlockLatency.total (rows.map (blockOf ev node scope_type))).input_latency_,
        total.process_latency_ +
          (BlockLatency.total (rows.map (blockOf ev node scope_type))).process_latency_,
        total.output_latency_ +
          (BlockLatency.total (rows.map (blockOf ev node scope_type))).output_latency_⟩ := by
  induction rows generalizing total with
  | nil =>
    rw [temporalLatency, Except.ok.injEq]
    simp [BlockLatency.total, Evaluator.RowsLinked, eq_comm]
  | cons row rows ih =>
    rw [temporalLatency, bind_eq_ok]
    constructor
    · rintro ⟨block, here, rest⟩
      obtain ⟨_, linked, rfl⟩ := computeScopeLatency_iff.mp here
      obtain ⟨later, rfl⟩ := ih.mp rest
      refine ⟨List.forall_mem_cons.mpr ⟨linked, later⟩, ?_⟩
      simp only [BlockLatency.total, List.map_cons, List.sum_cons, Int.add_assoc]
    · rintro ⟨linked, rfl⟩
      obtain ⟨here, later⟩ := List.forall_mem_cons.mp linked
      refine ⟨_, computeScopeLatency_iff.mpr ⟨first, here, rfl⟩, ih.mpr ⟨later, ?_⟩⟩
      simp only [BlockLatency.total, List.map_cons, List.sum_cons, Int.add_assoc]

theorem peaks_snoc (blocks : List BlockLatency) (block : BlockLatency) :
    BlockLatency.peaks (blocks ++ [block]) =
      ⟨max block.input_latency_ (BlockLatency.peaks blocks).input_latency_,
        max block.process_latency_ (BlockLatency.peaks blocks).process_latency_,
        max block.output_latency_ (BlockLatency.peaks blocks).output_latency_⟩ := by
  have last (f : BlockLatency → Int) : Rounds.peak ((blocks ++ [block]).map f) =
      max (f block) (Rounds.peak (blocks.map f)) := by
    have positive := Rounds.peak_nonneg (blocks.map f)
    rw [List.map_append, Rounds.peak_append, List.map_cons, List.map_nil, Rounds.peak_cons,
      Rounds.peak_nil]
    omega
  simp only [BlockLatency.peaks, last]

theorem peak_snoc (l : List Int) (n : Int) :
    Rounds.peak (l ++ [n]) = max (Rounds.peak l) n := by
  have positive := Rounds.peak_nonneg l
  rw [Rounds.peak_append, Rounds.peak_cons, Rounds.peak_nil]
  omega

theorem groupLatency_unicast_iff {done : List BlockLatency} {core : Int}
    {result : BlockLatency × Int} (first : ∃ child, ev.child node 0 = .ok child) :
    groupLatency ev node scope_type .UC (BlockLatency.peaks done, core) rows = .ok result ↔
      ev.RowsLinked node rows ∧
        result = (BlockLatency.peaks (done ++ rows.map (blockOf ev node scope_type)), core) := by
  induction rows generalizing done with
  | nil =>
    rw [groupLatency, Except.ok.injEq]
    simp [Evaluator.RowsLinked, eq_comm]
  | cons row rows ih =>
    have step : done ++ (row :: rows).map (blockOf ev node scope_type) =
        done ++ [blockOf ev node scope_type row] ++ rows.map (blockOf ev node scope_type) := by
      simp
    rw [groupLatency, bind_eq_ok, step]
    constructor
    · rintro ⟨block, here, rest⟩
      obtain ⟨_, linked, rfl⟩ := computeScopeLatency_iff.mp here
      simp only [← peaks_snoc] at rest
      obtain ⟨later, value⟩ := ih.mp rest
      exact ⟨List.forall_mem_cons.mpr ⟨linked, later⟩, value⟩
    · rintro ⟨linked, value⟩
      obtain ⟨here, later⟩ := List.forall_mem_cons.mp linked
      refine ⟨_, computeScopeLatency_iff.mpr ⟨first, here, rfl⟩, ?_⟩
      simp only [← peaks_snoc]
      exact ih.mpr ⟨later, value⟩

theorem groupLatency_broadcast_iff {done : List Int} {total : BlockLatency}
    {result : BlockLatency × Int} (first : ∃ child, ev.child node 0 = .ok child) :
    groupLatency ev node scope_type .BC (total, Rounds.peak done) rows = .ok result ↔
      ev.RowsLinked node rows ∧ result = (total, Rounds.peak
        (done ++ rows.map fun row => (blockOf ev node scope_type row).all)) := by
  induction rows generalizing done with
  | nil =>
    rw [groupLatency, Except.ok.injEq]
    simp [Evaluator.RowsLinked, eq_comm]
  | cons row rows ih =>
    have step : (done ++ (row :: rows).map fun row => (blockOf ev node scope_type row).all) =
        done ++ [(blockOf ev node scope_type row).all] ++
          rows.map fun row => (blockOf ev node scope_type row).all := by
      simp
    rw [groupLatency, bind_eq_ok, step]
    constructor
    · rintro ⟨block, here, rest⟩
      obtain ⟨_, linked, rfl⟩ := computeScopeLatency_iff.mp here
      have merged := peak_snoc done (blockOf ev node scope_type row).all
      rw [BlockLatency.all] at merged
      simp only [← merged] at rest
      obtain ⟨later, value⟩ := ih.mp rest
      exact ⟨List.forall_mem_cons.mpr ⟨linked, later⟩, value⟩
    · rintro ⟨linked, value⟩
      obtain ⟨here, later⟩ := List.forall_mem_cons.mp linked
      refine ⟨_, computeScopeLatency_iff.mpr ⟨first, here, rfl⟩, ?_⟩
      have merged := peak_snoc done (blockOf ev node scope_type row).all
      rw [BlockLatency.all] at merged
      simp only [← merged]
      exact ih.mpr ⟨later, value⟩

theorem groupLatency_other_cons {kind : ConType} (unicast : kind ≠ .UC) (broadcast : kind ≠ .BC)
    (totals : BlockLatency × Int) (row : List Latency) :
    groupLatency ev node scope_type kind totals (row :: rows) = (do
      let _ ← computeScopeLatency ev node row scope_type
      groupLatency ev node scope_type kind totals rows) := by
  rw [groupLatency]
  cases kind with
  | UC => exact absurd rfl unicast
  | BC => exact absurd rfl broadcast
  | HD => rfl
  | FD => rfl
  | Ring => rfl
  | Mesh => rfl

theorem groupLatency_other_iff {kind : ConType} (unicast : kind ≠ .UC) (broadcast : kind ≠ .BC)
    {totals result : BlockLatency × Int} (first : ∃ child, ev.child node 0 = .ok child) :
    groupLatency ev node scope_type kind totals rows = .ok result ↔
      ev.RowsLinked node rows ∧ result = totals := by
  induction rows with
  | nil =>
    rw [groupLatency, Except.ok.injEq]
    simp [Evaluator.RowsLinked, eq_comm]
  | cons row rows ih =>
    rw [groupLatency_other_cons unicast broadcast, bind_eq_ok]
    constructor
    · rintro ⟨block, here, rest⟩
      obtain ⟨_, linked, _⟩ := computeScopeLatency_iff.mp here
      obtain ⟨later, value⟩ := ih.mp rest
      exact ⟨List.forall_mem_cons.mpr ⟨linked, later⟩, value⟩
    · rintro ⟨linked, value⟩
      obtain ⟨here, later⟩ := List.forall_mem_cons.mp linked
      exact ⟨_, computeScopeLatency_iff.mpr ⟨first, here, rfl⟩, ih.mpr ⟨later, value⟩⟩

def roundsLinked (ev : Evaluator) (node : NodePtr) (fanout_ i rounds : Nat)
    (rows : List (List Latency)) : Prop :=
  ∀ j, i ≤ j → j < i + rounds → ev.RowsLinked node (Rounds.round fanout_ j rows)

theorem roundsLinked_succ {fanout_ i rounds : Nat} :
    roundsLinked ev node fanout_ i (rounds + 1) rows ↔
      ev.RowsLinked node (Rounds.round fanout_ i rows) ∧
        roundsLinked ev node fanout_ (i + 1) rounds rows := by
  constructor
  · intro all
    exact ⟨all i (Nat.le_refl i) (by omega), fun j from_i bound => all j (by omega) (by omega)⟩
  · rintro ⟨here, later⟩ j from_i bound
    by_cases first : j = i
    · rw [first]
      exact here
    · exact later j (by omega) (by omega)

theorem spatialLatency_unicast_iff {fanout_ repeat_ i rounds : Nat} {result latency : Int}
    (first : ∃ child, ev.child node 0 = .ok child) :
    spatialLatency ev node scope_type .UC fanout_ repeat_ rows i
        (BlockLatency.peaks ((rows.take (i * fanout_)).map (blockOf ev node scope_type))) result
        rounds = .ok latency ↔
      roundsLinked ev node fanout_ i rounds rows ∧
        latency = result + ∑ j ∈ Finset.Ico i (i + rounds),
          unicastRound fanout_ repeat_ (rows.map (blockOf ev node scope_type)) j := by
  induction rounds generalizing i result with
  | zero =>
    rw [spatialLatency, Except.ok.injEq, Nat.add_zero, Finset.Ico_self, Finset.sum_empty]
    constructor
    · rintro rfl
      exact ⟨fun j from_i bound => by omega, (Int.add_zero _).symm⟩
    · rintro ⟨_, rfl⟩
      exact (Int.add_zero _).symm
  | succ rounds ih =>
    have grown : (rows.take (i * fanout_)).map (blockOf ev node scope_type) ++
        ((rows.drop (i * fanout_)).take fanout_).map (blockOf ev node scope_type) =
          (rows.take ((i + 1) * fanout_)).map (blockOf ev node scope_type) := by
      rw [← List.map_append, Rounds.take_succ_mul]
      rfl
    have so_far : BlockLatency.peaks ((rows.take ((i + 1) * fanout_)).map
        (blockOf ev node scope_type)) = BlockLatency.peaks
          (Rounds.upTo fanout_ i (rows.map (blockOf ev node scope_type))) := by
      rw [Rounds.upTo, List.map_take]
    have head : ∑ j ∈ Finset.Ico i (i + (rounds + 1)),
        unicastRound fanout_ repeat_ (rows.map (blockOf ev node scope_type)) j =
          unicastRound fanout_ repeat_ (rows.map (blockOf ev node scope_type)) i +
            ∑ j ∈ Finset.Ico (i + 1) (i + 1 + rounds),
              unicastRound fanout_ repeat_ (rows.map (blockOf ev node scope_type)) j := by
      rw [Finset.sum_eq_sum_Ico_succ_bot (by omega), Nat.add_right_comm i 1 rounds]
      rfl
    rw [spatialLatency, bind_eq_ok, roundsLinked_succ, head]
    constructor
    · rintro ⟨totals, group, rest⟩
      obtain ⟨linked, rfl⟩ := (groupLatency_unicast_iff first).mp group
      rw [grown] at rest
      obtain ⟨later, value⟩ := ih.mp rest
      refine ⟨⟨linked, later⟩, ?_⟩
      rw [value, unicastRound, ← so_far]
      simp only [if_true, BlockLatency.transfer, Rounds.weight]
      omega
    · rintro ⟨⟨linked, later⟩, value⟩
      refine ⟨_, (groupLatency_unicast_iff first).mpr ⟨linked, rfl⟩, ?_⟩
      rw [grown]
      refine ih.mpr ⟨later, ?_⟩
      rw [value, unicastRound, ← so_far]
      simp only [if_true, BlockLatency.transfer, Rounds.weight]
      omega

theorem spatialLatency_broadcast_iff {fanout_ repeat_ i rounds : Nat} {total : BlockLatency}
    {result latency : Int} (first : ∃ child, ev.child node 0 = .ok child) :
    spatialLatency ev node scope_type .BC fanout_ repeat_ rows i total result rounds = .ok latency ↔
      roundsLinked ev node fanout_ i rounds rows ∧
        latency = result + ∑ j ∈ Finset.Ico i (i + rounds), Rounds.peak (Rounds.round fanout_ j
          (rows.map fun row => (blockOf ev node scope_type row).all)) := by
  induction rounds generalizing i result with
  | zero =>
    rw [spatialLatency, Except.ok.injEq, Nat.add_zero, Finset.Ico_self, Finset.sum_empty]
    constructor
    · rintro rfl
      exact ⟨fun j from_i bound => by omega, (Int.add_zero _).symm⟩
    · rintro ⟨_, rfl⟩
      exact (Int.add_zero _).symm
  | succ rounds ih =>
    have group_iff := @groupLatency_broadcast_iff ev node scope_type (Rounds.round fanout_ i rows) []
      total
    have head : ∑ j ∈ Finset.Ico i (i + (rounds + 1)), Rounds.peak (Rounds.round fanout_ j
        (rows.map fun row => (blockOf ev node scope_type row).all)) =
          Rounds.peak (Rounds.round fanout_ i
            (rows.map fun row => (blockOf ev node scope_type row).all)) +
          ∑ j ∈ Finset.Ico (i + 1) (i + 1 + rounds), Rounds.peak (Rounds.round fanout_ j
            (rows.map fun row => (blockOf ev node scope_type row).all)) := by
      rw [Finset.sum_eq_sum_Ico_succ_bot (by omega), Nat.add_right_comm i 1 rounds]
      rfl
    rw [spatialLatency, bind_eq_ok, roundsLinked_succ, head]
    constructor
    · rintro ⟨totals, group, rest⟩
      obtain ⟨linked, rfl⟩ := (group_iff first).mp group
      obtain ⟨later, value⟩ := ih.mp rest
      refine ⟨⟨linked, later⟩, ?_⟩
      rw [value, ← Rounds.map_round]
      simp only [reduceCtorEq, if_false, List.nil_append]
      omega
    · rintro ⟨⟨linked, later⟩, value⟩
      refine ⟨_, (group_iff first).mpr ⟨linked, rfl⟩, ih.mpr ⟨later, ?_⟩⟩
      rw [value, ← Rounds.map_round]
      simp only [reduceCtorEq, if_false, List.nil_append]
      omega

theorem spatialLatency_other_iff {kind : ConType} (unicast : kind ≠ .UC) (broadcast : kind ≠ .BC)
    {fanout_ repeat_ i rounds : Nat} {total : BlockLatency} {result latency : Int}
    (first : ∃ child, ev.child node 0 = .ok child) :
    spatialLatency ev node scope_type kind fanout_ repeat_ rows i total result rounds = .ok latency ↔
      roundsLinked ev node fanout_ i rounds rows ∧ latency = result := by
  induction rounds generalizing i total result with
  | zero =>
    rw [spatialLatency, Except.ok.injEq]
    constructor
    · rintro rfl
      exact ⟨fun j from_i bound => by omega, rfl⟩
    · exact fun both => both.2.symm
  | succ rounds ih =>
    have group_iff := @groupLatency_other_iff ev node scope_type (Rounds.round fanout_ i rows) kind
      unicast broadcast
    rw [spatialLatency, bind_eq_ok, roundsLinked_succ]
    constructor
    · rintro ⟨totals, group, rest⟩
      obtain ⟨linked, rfl⟩ := (group_iff first).mp group
      obtain ⟨later, value⟩ := ih.mp rest
      refine ⟨⟨linked, later⟩, ?_⟩
      rw [value, if_neg unicast, Int.add_zero]
    · rintro ⟨⟨linked, later⟩, value⟩
      refine ⟨_, (group_iff first).mpr ⟨linked, rfl⟩, ih.mpr ⟨later, ?_⟩⟩
      rw [value, if_neg unicast, Int.add_zero]

theorem roundsLinked_all {fanout_ : Nat} (positive : fanout_ ≠ 0) :
    roundsLinked ev node fanout_ 0 (Rounds.count rows.length fanout_) rows ↔
      ev.RowsLinked node rows := by
  constructor
  · intro all row member
    obtain ⟨j, bound, rfl⟩ := List.getElem_of_mem member
    have inside := Rounds.mem_round positive (List.getElem?_eq_getElem bound)
    have round := Rounds.div_lt_count positive bound
    exact all (j / fanout_) (Nat.zero_le _) (by omega) _ inside
  · intro linked j _ _ row member
    exact linked row (Rounds.mem_of_mem_round member)

theorem spatialLatency_iff (kind : ConType) {fanout_ repeat_ : Nat} {latency : Int}
    (first : ∃ child, ev.child node 0 = .ok child) :
    spatialLatency ev node scope_type kind fanout_ repeat_ rows 0 ⟨0, 0, 0⟩ 0 repeat_ =
        .ok latency ↔
      roundsLinked ev node fanout_ 0 repeat_ rows ∧
        latency = roundsLatency kind fanout_ repeat_ (rows.map (blockOf ev node scope_type)) := by
  have start : (⟨0, 0, 0⟩ : BlockLatency) =
      BlockLatency.peaks ((rows.take (0 * fanout_)).map (blockOf ev node scope_type)) := by
    rw [Nat.zero_mul]
    rfl
  cases kind with
  | UC =>
    rw [start, spatialLatency_unicast_iff first, Int.zero_add, Nat.zero_add, roundsLatency,
      Finset.range_eq_Ico]
  | BC =>
    rw [spatialLatency_broadcast_iff first, Int.zero_add, Nat.zero_add, roundsLatency,
      Rounds.slowest, Finset.range_eq_Ico, List.map_map]
    rfl
  | HD => exact spatialLatency_other_iff (by simp) (by simp) first
  | FD => exact spatialLatency_other_iff (by simp) (by simp) first
  | Ring => exact spatialLatency_other_iff (by simp) (by simp) first
  | Mesh => exact spatialLatency_other_iff (by simp) (by simp) first

/-- What `computeLatency` needs: rows, links for their entries, and cores for a Spatial tile. -/
structure Evaluator.Computable (ev : Evaluator) (node : NodePtr) (link : InterConNode)
    (rows : List (List Latency)) : Prop where
  nonempty : rows ≠ []
  linked_first : getInterConNode ev node 0 = .ok link
  cores : isTemporal (ev.ori_node_ node) = true ∨ link.fanout_ ≠ 0
  linked : ev.RowsLinked node rows

theorem child_of_getInterConNode {link : InterConNode} (found : getInterConNode ev node 0 = .ok link) :
    ev.child node 0 = .ok (0 :: node) := by
  obtain ⟨child, here, _⟩ := bind_eq_ok.mp found
  unfold Evaluator.child at here ⊢
  split at here
  · next bound => rw [if_pos bound]
  · cases here

/-- `computeLatency` as a function of the rows. -/
theorem computeLatency_iff {latency : Int} :
    computeLatency ev node rows = .ok latency ↔ ∃ link, ev.Computable node link rows ∧
      latency = tileLatency (isTemporal (ev.ori_node_ node)) link
        (rows.map (blockOf ev node (ev.scopeType node))) := by
  unfold computeLatency tileLatency
  rw [List.length_map]
  constructor
  · intro run
    obtain ⟨_, some, run⟩ := bind_eq_ok.mp run
    obtain ⟨child, here, run⟩ := bind_eq_ok.mp run
    obtain ⟨link, found, run⟩ := bind_eq_ok.mp run
    have first := child_of_getInterConNode found
    cases here.symm.trans first
    have nonempty : rows ≠ [] := by
      have length := tileexpAssert_eq_ok.mp some
      exact fun none => length (by rw [none]; rfl)
    refine ⟨link, ?_⟩
    by_cases temporal : isTemporal (ev.ori_node_ node) = true
    · rw [if_pos temporal] at run ⊢
      obtain ⟨total, walked, result⟩ := bind_eq_ok.mp run
      obtain ⟨linked, rfl⟩ := (temporalLatency_iff ⟨_, first⟩).mp walked
      cases result
      refine ⟨⟨nonempty, found, Or.inl temporal, linked⟩, ?_⟩
      simp only [Int.zero_add]
      rfl
    · rw [if_neg temporal] at run ⊢
      by_cases width : link.fanout_ = 0
      · rw [if_pos width] at run
        cases run
      · rw [if_neg width] at run
        obtain ⟨linked, value⟩ := (spatialLatency_iff link.con_type_ ⟨_, first⟩).mp run
        exact ⟨⟨nonempty, found, Or.inr width, (roundsLinked_all width).mp linked⟩, value⟩
  · rintro ⟨link, computable, value⟩
    have first := child_of_getInterConNode computable.linked_first
    have some : rows.length ≠ 0 := fun none => computable.nonempty (List.length_eq_zero_iff.mp none)
    rw [tileexpAssert, if_pos some, ok_bind, first, ok_bind, computable.linked_first, ok_bind]
    by_cases temporal : isTemporal (ev.ori_node_ node) = true
    · rw [if_pos temporal] at value ⊢
      have walked := (@temporalLatency_iff ev node (ev.scopeType node) rows ⟨0, 0, 0⟩ _
        ⟨_, first⟩).mpr ⟨computable.linked, rfl⟩
      simp only [Int.zero_add] at walked
      exact bind_eq_ok.mpr ⟨_, walked, by rw [value]⟩
    · have width := computable.cores.resolve_left temporal
      rw [if_neg temporal] at value ⊢
      rw [if_neg width]
      exact (spatialLatency_iff link.con_type_ ⟨_, first⟩).mpr
        ⟨(roundsLinked_all width).mpr computable.linked, value⟩

end TileExp.Analysis
