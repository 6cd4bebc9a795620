import Latias.Latencies.RowBlocks

/-! Rows of one shape in which one child takes time, and no other. -/

namespace TileExp.Analysis

def still : Latency := ⟨0, 0, 0, []⟩

def rowsOf (shape : List Nat) (value : Nat → Nat → Latency) : List (List Latency) :=
  shape.mapIdx fun j n => (List.range n).map (value j)

/-- Only the `k`-th child of the `j`-th row takes time. -/
def lone (entry : Latency) (j k : Nat) : Nat → Nat → Latency := fun j' k' =>
  if j' = j ∧ k' = k then entry else still

def oneInput : Nat → Nat → Nat → Nat → Latency := lone ⟨1, 0, 0, []⟩

variable {ev : Evaluator} {node : NodePtr} {transfers : Transfers} {scope_type : ScopeType}
  {shape : List Nat} {value value' : Nat → Nat → Latency} {entry : Latency} {j k n : Nat}

theorem shapeOf_rowsOf (shape : List Nat) (value : Nat → Nat → Latency) :
    shapeOf (rowsOf shape value) = shape := by
  apply List.ext_getElem
  · simp [rowsOf]
  · intro i bound bound'
    simp [rowsOf]

theorem getElem?_rowsOf (found : shape[j]? = some n) :
    (rowsOf shape value)[j]? = some ((List.range n).map (value j)) := by
  rw [rowsOf, List.getElem?_mapIdx, found]
  rfl

theorem mem_rowsOf {row : List Latency} (member : row ∈ rowsOf shape value) :
    ∃ j n, shape[j]? = some n ∧ row = (List.range n).map (value j) := by
  obtain ⟨j, bound, same⟩ := List.mem_mapIdx.mp member
  exact ⟨j, shape[j], List.getElem?_eq_getElem bound, same.symm⟩

theorem rowsOf_nonneg (nonneg : ∀ j k, NonnegEntry (value j k)) : NonnegRows (rowsOf shape value) := by
  intro row member entry inside
  obtain ⟨j, n, _, rfl⟩ := mem_rowsOf member
  obtain ⟨k, _, rfl⟩ := List.mem_map.mp inside
  exact nonneg j k

theorem rowsOf_slower (slower : ∀ j k, SlowerEntry (value j k) (value' j k)) :
    SlowerRows (rowsOf shape value) (rowsOf shape value') := by
  apply List.forall₂_iff_get.mpr
  refine ⟨by simp [rowsOf], fun j bound bound' => ?_⟩
  apply List.forall₂_iff_get.mpr
  refine ⟨by simp [rowsOf], fun k inside inside' => ?_⟩
  simpa [rowsOf] using slower j k

theorem getElem?_range_map {f : Nat → Latency} {i : Nat}
    (found : ((List.range n).map f)[i]? = some entry) : i < n ∧ entry = f i := by
  rw [List.getElem?_map] at found
  obtain ⟨i', at_i, rfl⟩ := Option.map_eq_some_iff.mp found
  obtain ⟨bound, same⟩ := List.getElem?_eq_some_iff.mp at_i
  rw [List.getElem_range] at same
  rw [List.length_range] at bound
  exact ⟨bound, congrArg f same.symm⟩

theorem rowsOf_admits (each : ∀ j k,
    transfers.admits k (value j k).input_latency_ (value j k).output_latency_) :
    transfers.Admits (rowsOf shape value) := by
  intro row member k entry found
  obtain ⟨j, n, _, rfl⟩ := mem_rowsOf member
  rw [(getElem?_range_map found).2]
  exact each j k

theorem rowsOf_converts (each : ∀ j k, ev.Converts (ev.linkType node k) (value j k)) :
    ev.ConvertsRows node (rowsOf shape value) := by
  intro row member _ k entry found
  obtain ⟨j, n, _, rfl⟩ := mem_rowsOf member
  rw [(getElem?_range_map found).2, Nat.zero_add]
  exact each j k

theorem still_nonneg : NonnegEntry still := ⟨Int.le_refl 0, Int.le_refl 0, Int.le_refl 0⟩

theorem Transfers.admits_still (transfers : Transfers) (k : Nat) : transfers.admits k 0 0 :=
  transfers.lower (transfers.waiting k) (Int.le_refl 0) (by decide) (Int.le_refl 0) (Int.le_refl 0)

theorem lone_cases {P : Nat → Latency → Prop} (idle : ∀ k, P k still) (own : P k entry)
    (j' k' : Nat) : P k' (lone entry j k j' k') := by
  unfold lone
  split
  · next same => exact same.2 ▸ own
  · exact idle k'

theorem lone_nonneg (nonneg : NonnegEntry entry) (j' k' : Nat) :
    NonnegEntry (lone entry j k j' k') :=
  lone_cases (P := fun _ => NonnegEntry) (k := k) (fun _ => still_nonneg) nonneg j' k'

theorem lone_slower (nonneg : NonnegEntry entry) (j' k' : Nat) :
    SlowerEntry still (lone entry j k j' k') := by
  have here := @lone_nonneg entry j k nonneg j' k'
  exact ⟨here.input_latency_, here.output_latency_, here.process_latency_⟩

theorem lone_process (process : entry.process_latency_ = 0) (j' k' : Nat) :
    (lone entry j k j' k').process_latency_ = 0 :=
  lone_cases (P := fun _ entry => entry.process_latency_ = 0) (k := k) (fun _ => rfl) process j' k'

theorem lone_admits (own : transfers.admits k entry.input_latency_ entry.output_latency_) :
    transfers.Admits (rowsOf shape (lone entry j k)) :=
  rowsOf_admits (lone_cases (P := fun k entry =>
    transfers.admits k entry.input_latency_ entry.output_latency_) transfers.admits_still own)

theorem waiting_nonneg : NonnegEntry ⟨1, 0, 0, []⟩ := ⟨by decide, by decide, by decide⟩

theorem oneInput_nonneg (j k j' k' : Nat) : NonnegEntry (oneInput j k j' k') :=
  lone_nonneg waiting_nonneg j' k'

theorem oneInput_slower (j k j' k' : Nat) : SlowerEntry still (oneInput j k j' k') :=
  lone_slower waiting_nonneg j' k'

theorem oneInput_process (j k j' k' : Nat) : (oneInput j k j' k').process_latency_ = 0 :=
  lone_process rfl j' k'

theorem oneInput_admits (transfers : Transfers) (shape : List Nat) (j k : Nat) :
    transfers.Admits (rowsOf shape (oneInput j k)) :=
  lone_admits (transfers.waiting k)

theorem converts_waiting (one : ev.toInt 1 = 1) (con_type : ConType) :
    ev.Converts con_type ⟨1, 0, 0, []⟩ := by
  intro exact_ transfer
  cases con_type <;> cases transfer <;> exact one

theorem converts_still (zero : ev.toInt 0 = 0) (con_type : ConType) : ev.Converts con_type still := by
  intro exact_ transfer
  cases con_type <;> cases transfer <;> exact zero

theorem oneInput_converts (narrow : ∀ n, ev.toInt n = Machine.toInt32 n) (shape : List Nat)
    (j k : Nat) : ev.ConvertsRows node (rowsOf shape (oneInput j k)) :=
  rowsOf_converts (lone_cases (P := fun k entry => ev.Converts (ev.linkType node k) entry)
    (fun _ => converts_still (narrow 0) _) (converts_waiting (narrow 1) _))

theorem lone_row (inside : k < n) : ∃ before after,
    (List.range n).map (lone entry j k j) = before ++ entry :: after ∧ before.length = k ∧
      (∀ e ∈ before, e = still) ∧ ∀ e ∈ after, e = still := by
  obtain ⟨m, rfl⟩ := Nat.exists_eq_add_of_lt inside
  have split : List.range (k + m + 1) =
      List.range k ++ k :: (List.range m).map fun i => k + (i + 1) := by
    rw [Nat.add_assoc, List.range_add, List.range_succ_eq_map, List.map_cons, List.map_map]
    rfl
  refine ⟨(List.range k).map (lone entry j k j),
    ((List.range m).map fun i => k + (i + 1)).map (lone entry j k j), ?_, by simp, ?_, ?_⟩
  · rw [split, List.map_append, List.map_cons]
    congr 2
    exact if_pos ⟨rfl, rfl⟩
  · intro e member
    obtain ⟨i, low, rfl⟩ := List.mem_map.mp member
    have bound := List.mem_range.mp low
    exact if_neg fun same => by omega
  · intro e member
    obtain ⟨_, high, rfl⟩ := List.mem_map.mp member
    obtain ⟨i, _, rfl⟩ := List.mem_map.mp high
    exact if_neg fun same => by omega

theorem linkLatency_still {con_type : ConType} (converts : ev.Converts con_type still) :
    linkLatency ev con_type 0 still = 0 := by
  cases con_type with
  | HD => exact converts.half
  | FD => exact converts.full
  | UC => rfl
  | BC => rfl
  | Ring => rfl
  | Mesh => rfl

theorem rowLatency_append_still {before after : List Latency} {child_num : Nat}
    (converts : ev.ConvertsRow node child_num before) (idle : ∀ entry ∈ before, entry = still) :
    rowLatency ev node scope_type child_num 0 ⟨0, 0, 0⟩ (before ++ after) =
      rowLatency ev node scope_type (child_num + before.length) 0 ⟨0, 0, 0⟩ after := by
  induction before generalizing child_num with
  | nil => rfl
  | cons entry before ih =>
    obtain ⟨rfl, rest⟩ := List.forall_mem_cons.mp idle
    have added : addChildLatency scope_type 0 still ⟨0, 0, 0⟩ = ⟨0, 0, 0⟩ := by
      cases scope_type <;> rfl
    rw [List.cons_append, rowLatency, linkLatency_still converts.head, added, ih converts.tail rest,
      List.length_cons, Nat.succ_add_eq_add_succ]

/-- Children that take no time make no block. -/
theorem rowLatency_still {row : List Latency} {child_num : Nat} {dm_latency : Int}
    (converts : scope_type = .Pipeline → ev.ConvertsRow node child_num row)
    (before : scope_type = .Pipeline → dm_latency = 0) (idle : ∀ entry ∈ row, entry = still) :
    rowLatency ev node scope_type child_num dm_latency ⟨0, 0, 0⟩ row = ⟨0, 0, 0⟩ := by
  induction row generalizing child_num dm_latency with
  | nil => rfl
  | cons entry row ih =>
    obtain ⟨rfl, rest⟩ := List.forall_mem_cons.mp idle
    have link (pipeline : scope_type = .Pipeline) :
        linkLatency ev (ev.linkType node child_num) dm_latency still = 0 := by
      rw [before pipeline]
      exact linkLatency_still (converts pipeline).head
    have added : addChildLatency scope_type
        (linkLatency ev (ev.linkType node child_num) dm_latency still) still ⟨0, 0, 0⟩ =
          ⟨0, 0, 0⟩ := by
      cases scope_type with
      | Pipeline =>
        rw [link rfl]
        rfl
      | Sequential => rfl
      | Parallel => rfl
      | Sharing => rfl
      | Ring => rfl
      | Mesh => rfl
    rw [rowLatency, added]
    exact ih (fun pipeline => (converts pipeline).tail) link rest

theorem blockOf_still {row : List Latency}
    (converts : scope_type = .Pipeline → ev.ConvertsRow node 0 row)
    (idle : ∀ entry ∈ row, entry = still) : blockOf ev node scope_type row = ⟨0, 0, 0⟩ :=
  rowLatency_still converts (fun _ => rfl) idle

end TileExp.Analysis
