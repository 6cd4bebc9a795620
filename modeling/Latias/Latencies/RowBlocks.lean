import Latias.Latencies.Transfers

/-! How the block of a row depends on its entries. -/

namespace TileExp.Analysis

open Checked

structure BlockLatency.Below (block block' : BlockLatency) : Prop where
  input_latency_ : block.input_latency_ ≤ block'.input_latency_
  process_latency_ : block.process_latency_ ≤ block'.process_latency_
  output_latency_ : block.output_latency_ ≤ block'.output_latency_

def BlockLatency.Nonneg (block : BlockLatency) : Prop := BlockLatency.Below ⟨0, 0, 0⟩ block

structure SlowerEntry (entry entry' : Latency) : Prop where
  input_latency_ : entry.input_latency_ ≤ entry'.input_latency_
  output_latency_ : entry.output_latency_ ≤ entry'.output_latency_
  process_latency_ : entry.process_latency_ ≤ entry'.process_latency_

def SlowerRows : List (List Latency) → List (List Latency) → Prop :=
  List.Forall₂ (List.Forall₂ SlowerEntry)

theorem BlockLatency.Below.refl (block : BlockLatency) : block.Below block :=
  ⟨Int.le_refl _, Int.le_refl _, Int.le_refl _⟩

theorem BlockLatency.Below.trans {a b c : BlockLatency} (first : a.Below b) (second : b.Below c) :
    a.Below c :=
  ⟨first.input_latency_.trans second.input_latency_,
    first.process_latency_.trans second.process_latency_,
    first.output_latency_.trans second.output_latency_⟩

theorem BlockLatency.Below.transfer {block block' : BlockLatency} (below : block.Below block') :
    block.transfer ≤ block'.transfer :=
  max_le_max below.input_latency_ below.output_latency_

theorem BlockLatency.Nonneg.all {block : BlockLatency} (nonneg : block.Nonneg) : 0 ≤ block.all := by
  have input := nonneg.input_latency_
  have process := nonneg.process_latency_
  have output := nonneg.output_latency_
  simp only at input process output
  rw [BlockLatency.all]
  omega

/-- The scope types that put the latencies of their children together. -/
def Combines (scope_type : ScopeType) : Prop :=
  scope_type = .Sequential ∨ scope_type = .Parallel ∨ scope_type = .Pipeline

instance (scope_type : ScopeType) : Decidable (Combines scope_type) :=
  inferInstanceAs (Decidable (_ ∨ _))

def Evaluator.CountsTransfer (ev : Evaluator) (node : NodePtr) (scope_type : ScopeType) (k : Nat) :
    Prop :=
  scope_type = .Sequential ∨ scope_type = .Parallel ∨
    scope_type = .Pipeline ∧ (ev.linkType node k = .HD ∨ ev.linkType node k = .FD)

instance (ev : Evaluator) (node : NodePtr) (scope_type : ScopeType) (k : Nat) :
    Decidable (ev.CountsTransfer node scope_type k) :=
  inferInstanceAs (Decidable (_ ∨ _))

variable {ev : Evaluator} {node : NodePtr} {scope_type : ScopeType} {row row' : List Latency}
  {entry entry' : Latency} {child_num : Nat} {dm_latency dm_latency' : Int}
  {result result' : BlockLatency}

theorem linkLatency_mono {con_type : ConType} (converts : ev.Converts con_type entry)
    (converts' : ev.Converts con_type entry') (before : dm_latency ≤ dm_latency')
    (slower : SlowerEntry entry entry') :
    linkLatency ev con_type dm_latency entry ≤ linkLatency ev con_type dm_latency' entry' := by
  have input := slower.input_latency_
  have output := slower.output_latency_
  cases con_type with
  | HD =>
    rw [linkLatency, linkLatency, converts.half, converts'.half]
    omega
  | FD =>
    rw [linkLatency, linkLatency, converts.full, converts'.full]
    omega
  | UC => exact before
  | BC => exact before
  | Ring => exact before
  | Mesh => exact before

theorem addChildLatency_mono (before : scope_type = .Pipeline → dm_latency ≤ dm_latency')
    (slower : SlowerEntry entry entry') (below : result.Below result') :
    (addChildLatency scope_type dm_latency entry result).Below
      (addChildLatency scope_type dm_latency' entry' result') := by
  obtain ⟨input, output, process⟩ := slower
  obtain ⟨total_input, total_process, total_output⟩ := below
  cases scope_type with
  | Sequential => constructor <;> simp only [addChildLatency] <;> omega
  | Parallel => constructor <;> simp only [addChildLatency] <;> omega
  | Pipeline =>
    have carried := before rfl
    constructor <;> simp only [addChildLatency] <;> omega
  | Sharing => exact ⟨total_input, total_process, total_output⟩
  | Ring => exact ⟨total_input, total_process, total_output⟩
  | Mesh => exact ⟨total_input, total_process, total_output⟩

theorem addChildLatency_below (before : scope_type = .Pipeline → 0 ≤ dm_latency)
    (nonneg : NonnegEntry entry) (result : BlockLatency) :
    result.Below (addChildLatency scope_type dm_latency entry result) := by
  obtain ⟨input, output, process⟩ := nonneg
  cases scope_type with
  | Sequential => constructor <;> simp only [addChildLatency] <;> omega
  | Parallel => constructor <;> simp only [addChildLatency] <;> omega
  | Pipeline =>
    have carried := before rfl
    constructor <;> simp only [addChildLatency] <;> omega
  | Sharing => exact BlockLatency.Below.refl result
  | Ring => exact BlockLatency.Below.refl result
  | Mesh => exact BlockLatency.Below.refl result

/-- Slower entries make a slower block. Only a Pipeline adds what `dm_latency` holds. -/
theorem rowLatency_mono (slower : List.Forall₂ SlowerEntry row row')
    (converts : scope_type = .Pipeline → ev.ConvertsRow node child_num row)
    (converts' : scope_type = .Pipeline → ev.ConvertsRow node child_num row')
    (before : scope_type = .Pipeline → dm_latency ≤ dm_latency') (below : result.Below result') :
    (rowLatency ev node scope_type child_num dm_latency result row).Below
      (rowLatency ev node scope_type child_num dm_latency' result' row') := by
  induction slower generalizing child_num dm_latency dm_latency' result result' with
  | nil => exact below
  | cons here _ ih =>
    have link := fun pipeline => linkLatency_mono (converts pipeline).head (converts' pipeline).head
      (before pipeline) here
    exact ih (fun pipeline => (converts pipeline).tail) (fun pipeline => (converts' pipeline).tail)
      link (addChildLatency_mono link here below)

theorem rowLatency_below (converts : scope_type = .Pipeline → ev.ConvertsRow node child_num row)
    (nonneg : NonnegRow row) (before : scope_type = .Pipeline → 0 ≤ dm_latency)
    (result : BlockLatency) :
    result.Below (rowLatency ev node scope_type child_num dm_latency result row) := by
  induction row generalizing child_num dm_latency result with
  | nil => exact BlockLatency.Below.refl result
  | cons entry row ih =>
    obtain ⟨here, rest⟩ := List.forall_mem_cons.mp nonneg
    have link := fun pipeline =>
      linkLatency_nonneg (converts pipeline).head (before pipeline) here
    exact (addChildLatency_below link here result).trans
      (ih (fun pipeline => (converts pipeline).tail) rest link _)

theorem rowLatency_at {before after : List Latency}
    (converts : scope_type = .Pipeline → ev.ConvertsRow node child_num (before ++ entry :: after))
    (nonneg : NonnegRow (before ++ entry :: after))
    (start : scope_type = .Pipeline → 0 ≤ dm_latency) (positive : result.Nonneg) :
    ∃ dm block, BlockLatency.Nonneg block ∧ (addChildLatency scope_type
        (linkLatency ev (ev.linkType node (child_num + before.length)) dm entry) entry block).Below
      (rowLatency ev node scope_type child_num dm_latency result (before ++ entry :: after)) := by
  induction before generalizing child_num dm_latency result with
  | nil =>
    obtain ⟨here, rest⟩ := List.forall_mem_cons.mp nonneg
    have link := fun pipeline => linkLatency_nonneg (converts pipeline).head (start pipeline) here
    exact ⟨dm_latency, result, positive,
      rowLatency_below (fun pipeline => (converts pipeline).tail) rest link _⟩
  | cons first before ih =>
    obtain ⟨here, rest⟩ := List.forall_mem_cons.mp nonneg
    have link := fun pipeline => linkLatency_nonneg (converts pipeline).head (start pipeline) here
    obtain ⟨dm, block, nonneg_block, below⟩ := @ih (child_num + 1) _
      (addChildLatency scope_type (linkLatency ev (ev.linkType node child_num) dm_latency first)
        first result) (fun pipeline => (converts pipeline).tail) rest link
      (positive.trans (addChildLatency_below link here result))
    refine ⟨dm, block, nonneg_block, ?_⟩
    rw [List.length_cons, ← Nat.add_assoc, Nat.add_right_comm]
    exact below

theorem blockOf_nonneg (converts : scope_type = .Pipeline → ev.ConvertsRow node 0 row)
    (nonneg : NonnegRow row) : (blockOf ev node scope_type row).Nonneg :=
  rowLatency_below converts nonneg (fun _ => Int.le_refl 0) _

theorem blockOf_mono (slower : List.Forall₂ SlowerEntry row row')
    (converts : scope_type = .Pipeline → ev.ConvertsRow node 0 row)
    (converts' : scope_type = .Pipeline → ev.ConvertsRow node 0 row') :
    (blockOf ev node scope_type row).Below (blockOf ev node scope_type row') :=
  rowLatency_mono slower converts converts' (fun _ => Int.le_refl 0) (BlockLatency.Below.refl _)

/-! The process latency of a block does not depend on the links. -/

theorem addChildLatency_process_le (nonneg : NonnegEntry entry) (dm_latency : Int)
    (result : BlockLatency) : result.process_latency_ ≤
      (addChildLatency scope_type dm_latency entry result).process_latency_ := by
  have process := nonneg.process_latency_
  cases scope_type <;> simp only [addChildLatency] <;> omega

theorem rowLatency_process_le (nonneg : NonnegRow row) : result.process_latency_ ≤
    (rowLatency ev node scope_type child_num dm_latency result row).process_latency_ := by
  induction row generalizing child_num dm_latency result with
  | nil => exact Int.le_refl _
  | cons entry row ih =>
    obtain ⟨here, rest⟩ := List.forall_mem_cons.mp nonneg
    exact (addChildLatency_process_le here _ result).trans (ih rest)

theorem process_le_rowLatency (nonneg : NonnegRow row) (combines : Combines scope_type)
    (positive : 0 ≤ result.process_latency_) (member : entry ∈ row) : entry.process_latency_ ≤
      (rowLatency ev node scope_type child_num dm_latency result row).process_latency_ := by
  induction row generalizing child_num dm_latency result with
  | nil => cases member
  | cons first row ih =>
    obtain ⟨here, rest⟩ := List.forall_mem_cons.mp nonneg
    rcases List.mem_cons.mp member with rfl | later
    · rw [rowLatency]
      refine Int.le_trans ?_ (rowLatency_process_le rest)
      rcases combines with rfl | rfl | rfl <;> simp only [addChildLatency] <;> omega
    · exact ih rest (positive.trans (addChildLatency_process_le here _ result)) later

theorem blockOf_process_nonneg (nonneg : NonnegRow row) :
    0 ≤ (blockOf ev node scope_type row).process_latency_ :=
  rowLatency_process_le nonneg

theorem process_le_blockOf (nonneg : NonnegRow row) (combines : Combines scope_type)
    (member : entry ∈ row) :
    entry.process_latency_ ≤ (blockOf ev node scope_type row).process_latency_ :=
  process_le_rowLatency nonneg combines (Int.le_refl 0) member

theorem input_le_blockOf (converts : scope_type = .Pipeline → ev.ConvertsRow node 0 row)
    (nonneg : NonnegRow row) {k : Nat} (found : row[k]? = some entry)
    (counts : ev.CountsTransfer node scope_type k) :
    entry.input_latency_ ≤ (blockOf ev node scope_type row).input_latency_ := by
  have own := fun pipeline => converts pipeline k entry found
  simp only [Nat.zero_add] at own
  obtain ⟨bound, rfl⟩ := List.getElem?_eq_some_iff.mp found
  have output := (nonneg _ (List.getElem_mem bound)).output_latency_
  have split : row = row.take k ++ row[k] :: row.drop (k + 1) := by
    rw [List.cons_getElem_drop_succ, List.take_append_drop]
  have length : (row.take k).length = k := List.length_take_of_le (Nat.le_of_lt bound)
  obtain ⟨dm, block, positive, below⟩ := @rowLatency_at ev node scope_type row[k] 0 0 ⟨0, 0, 0⟩
    (row.take k) (row.drop (k + 1)) (split ▸ converts) (split ▸ nonneg) (fun _ => Int.le_refl 0)
    (BlockLatency.Below.refl _)
  rw [← split, length, Nat.zero_add] at below
  have added := below.input_latency_
  have input := positive.input_latency_
  rw [blockOf]
  rcases counts with rfl | rfl | ⟨rfl, half | full⟩
  · simp only [addChildLatency] at added input
    omega
  · simp only [addChildLatency] at added input
    omega
  · have held := own rfl
    rw [half] at added held
    simp only [addChildLatency, linkLatency, held.half] at added input
    omega
  · have held := own rfl
    rw [full] at added held
    simp only [addChildLatency, linkLatency, held.full] at added input
    omega

theorem rowLatency_of_not_combines (idle : ¬ Combines scope_type) :
    rowLatency ev node scope_type child_num dm_latency result row = result := by
  have same (dm : Int) (entry : Latency) (block : BlockLatency) :
      addChildLatency scope_type dm entry block = block := by
    cases scope_type with
    | Sequential => exact absurd (Or.inl rfl) idle
    | Parallel => exact absurd (Or.inr (Or.inl rfl)) idle
    | Pipeline => exact absurd (Or.inr (Or.inr rfl)) idle
    | Sharing => rfl
    | Ring => rfl
    | Mesh => rfl
  induction row generalizing child_num dm_latency result with
  | nil => rfl
  | cons entry row ih => rw [rowLatency, ih, same]

theorem transfer_of_not_counts
    (idle : ∀ k, child_num ≤ k → k < child_num + row.length → ¬ ev.CountsTransfer node scope_type k) :
    (rowLatency ev node scope_type child_num 0 result row).input_latency_ = result.input_latency_ ∧
      (rowLatency ev node scope_type child_num 0 result row).output_latency_ =
        result.output_latency_ := by
  induction row generalizing child_num result with
  | nil => exact ⟨rfl, rfl⟩
  | cons entry row ih =>
    have here := idle child_num (Nat.le_refl _) (by simp)
    have later := @ih (child_num + 1) (addChildLatency scope_type 0 entry result) fun k above bound =>
      idle k (by omega) (by rw [List.length_cons]; omega)
    have kept : linkLatency ev (ev.linkType node child_num) 0 entry = 0 ∨ ¬ Combines scope_type := by
      by_cases combines : Combines scope_type
      · rcases combines with sequential | parallel | pipeline
        · exact absurd (Or.inl sequential) here
        · exact absurd (Or.inr (Or.inl parallel)) here
        · left
          unfold linkLatency
          cases kind : ev.linkType node child_num with
          | HD => exact absurd (Or.inr (Or.inr ⟨pipeline, Or.inl kind⟩)) here
          | FD => exact absurd (Or.inr (Or.inr ⟨pipeline, Or.inr kind⟩)) here
          | UC => rfl
          | BC => rfl
          | Ring => rfl
          | Mesh => rfl
      · exact Or.inr combines
    rcases kept with zero | idle_scope
    · rw [rowLatency, zero]
      have unchanged : (addChildLatency scope_type 0 entry result).input_latency_ =
          result.input_latency_ ∧ (addChildLatency scope_type 0 entry result).output_latency_ =
            result.output_latency_ := by
        cases scope_type with
        | Sequential => exact absurd (Or.inl rfl) here
        | Parallel => exact absurd (Or.inr (Or.inl rfl)) here
        | Pipeline => exact ⟨Int.add_zero _, Int.add_zero _⟩
        | Sharing => exact ⟨rfl, rfl⟩
        | Ring => exact ⟨rfl, rfl⟩
        | Mesh => exact ⟨rfl, rfl⟩
      exact ⟨later.1.trans unchanged.1, later.2.trans unchanged.2⟩
    · rw [rowLatency_of_not_combines idle_scope]
      exact ⟨rfl, rfl⟩

end TileExp.Analysis
