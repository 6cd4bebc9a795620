import Latias.Analysis.GetLoopCount
import Latias.Library.Checked
import Latias.Library.TailNest
import Mathlib.Tactic.Ring

/-! What `get_loop_count` computes: one number for each dimension, from the loops over it. -/

namespace TileExp.Analysis

open Checked

def ofDim (dim_name : String) (loops : List Descriptor) : List Descriptor :=
  loops.filter fun loop => loop.name_ = dim_name

@[simp] theorem ofDim_nil (dim_name : String) : ofDim dim_name [] = [] := rfl

theorem ofDim_append (dim_name : String) (a b : List Descriptor) :
    ofDim dim_name (a ++ b) = ofDim dim_name a ++ ofDim dim_name b :=
  List.filter_append a b

theorem ofDim_cons_self {loop : Descriptor} (loops : List Descriptor) :
    ofDim loop.name_ (loop :: loops) = loop :: ofDim loop.name_ loops := by
  simp [ofDim]

theorem ofDim_cons_ne {loop : Descriptor} {dim_name : String} (apart : loop.name_ ≠ dim_name)
    (loops : List Descriptor) : ofDim dim_name (loop :: loops) = ofDim dim_name loops := by
  simp [ofDim, apart]

theorem ofDim_eq_nil {dim_name : String} {loops : List Descriptor} :
    ofDim dim_name loops = [] ↔ dim_name ∉ loops.map Descriptor.name_ := by
  simp [ofDim, List.filter_eq_nil_iff]

namespace GetLoopCount

def dimCount (loops : List Descriptor) : Int :=
  dimResult (loops.map Descriptor.end_) (loops.map Descriptor.residual_end)

theorem foldl_add_eq (f : Nat → Int) (l : List Nat) (start : Int) :
    l.foldl (fun sum i => sum + f i) start = start + (l.map f).sum := by
  induction l generalizing start with
  | nil => simp
  | cons i l ih =>
    rw [List.foldl_cons, ih, List.map_cons, List.sum_cons]
    omega

theorem foldl_mul_eq (l : List Int) (start : Int) : l.foldl (· * ·) start = start * l.prod := by
  induction l generalizing start with
  | nil => simp
  | cons a l ih => rw [List.foldl_cons, ih, List.prod_cons, Int.mul_assoc]

theorem dimResult_eq (ends residuals : List Int) :
    dimResult ends residuals = 1 + ((List.range ends.length).map fun i =>
      (ends.drop (i + 1)).prod * (residuals.getD i 0 - 1)).sum := by
  simp only [dimResult, foldl_mul_eq, Int.one_mul]
  exact foldl_add_eq _ _ 1

@[simp] theorem dimCount_nil : dimCount [] = 1 := rfl

theorem dimCount_cons (loop : Descriptor) (loops : List Descriptor) :
    dimCount (loop :: loops) =
      (loop.residual_end - 1) * (loops.map Descriptor.end_).prod + dimCount loops := by
  rw [dimCount, dimCount, dimResult_eq, dimResult_eq, List.map_cons, List.length_cons,
    List.range_succ_eq_map, List.map_cons, List.sum_cons, List.map_map, List.map_cons,
    List.drop_one, List.tail_cons, List.getD_cons_zero, Int.mul_comm]
  have shifted : (List.range (loops.map Descriptor.end_).length).map
      ((fun i => ((loop.end_ :: loops.map Descriptor.end_).drop (i + 1)).prod *
        ((loop.residual_end :: loops.map Descriptor.residual_end).getD i 0 - 1)) ∘ Nat.succ) =
      (List.range (loops.map Descriptor.end_).length).map fun i =>
        ((loops.map Descriptor.end_).drop (i + 1)).prod *
          ((loops.map Descriptor.residual_end).getD i 0 - 1) := rfl
  rw [shifted]
  omega

theorem dimCount_append (a b : List Descriptor) :
    dimCount (a ++ b) = (dimCount a - 1) * (b.map Descriptor.end_).prod + dimCount b := by
  induction a with
  | nil => simp
  | cons loop a ih =>
    rw [List.cons_append, dimCount_cons, dimCount_cons, ih, List.map_append, List.prod_append]
    ring

def Runs (loops : List Descriptor) : Prop :=
  ∀ loop ∈ loops, 1 ≤ loop.residual_end ∧ 1 ≤ loop.end_

theorem prod_ends_pos {loops : List Descriptor} (runs : Runs loops) :
    1 ≤ (loops.map Descriptor.end_).prod := by
  induction loops with
  | nil => exact Int.le_refl 1
  | cons loop loops ih =>
    obtain ⟨here, rest⟩ := List.forall_mem_cons.mp runs
    rw [List.map_cons, List.prod_cons]
    exact Int.mul_le_mul here.2 (ih rest) (by omega) (by omega)

theorem dimCount_pos {loops : List Descriptor} (runs : Runs loops) : 1 ≤ dimCount loops := by
  induction loops with
  | nil => exact Int.le_refl 1
  | cons loop loops ih =>
    obtain ⟨here, rest⟩ := List.forall_mem_cons.mp runs
    have ends := prod_ends_pos rest
    have product : 0 ≤ (loop.residual_end - 1) * (loops.map Descriptor.end_).prod :=
      Int.mul_nonneg (by omega) (by omega)
    have tail := ih rest
    rw [dimCount_cons]
    omega

structure Collected (done : List Descriptor) (ends : Table (List Int) × Table (List Int)) :
    Prop where
  dim_ends : ∀ dim_name, ends.1.lookup dim_name =
    if dim_name ∈ done.map Descriptor.name_ then some ((ofDim dim_name done).map Descriptor.end_)
    else none
  dim_residual_ends : ∀ dim_name, ends.2.lookup dim_name =
    if dim_name ∈ done.map Descriptor.name_ then
      some ((ofDim dim_name done).map Descriptor.residual_end)
    else none

theorem Collected.nil : Collected [] (∅, ∅) := ⟨by simp, by simp⟩

theorem Collected.snoc {done : List Descriptor} {loop : Descriptor}
    {ends ends' : Table (List Int) × Table (List Int)} (before : Collected done ends)
    (step : pushDim ends loop = .ok ends') : Collected (done ++ [loop]) ends' := by
  unfold pushDim at step
  by_cases present : loop.name_ ∈ done.map Descriptor.name_
  · simp only [before.dim_ends, before.dim_residual_ends, if_pos present] at step
    obtain ⟨_, _, result⟩ := bind_eq_ok.mp step
    cases result
    constructor
    · intro dim_name
      rcases eq_or_ne dim_name loop.name_ with rfl | apart
      · simp [ofDim]
      · simp [apart, before.dim_ends, ofDim, apart.symm]
    · intro dim_name
      rcases eq_or_ne dim_name loop.name_ with rfl | apart
      · simp [ofDim]
      · simp [apart, before.dim_residual_ends, ofDim, apart.symm]
  · simp only [before.dim_ends, if_neg present] at step
    cases step
    have none : ofDim loop.name_ done = [] := ofDim_eq_nil.mpr present
    constructor
    · intro dim_name
      rcases eq_or_ne dim_name loop.name_ with rfl | apart
      · rw [AList.lookup_insert, ofDim_append, none]
        simp [ofDim]
      · simp [apart, before.dim_ends, ofDim, apart.symm]
    · intro dim_name
      rcases eq_or_ne dim_name loop.name_ with rfl | apart
      · rw [AList.lookup_insert, ofDim_append, none]
        simp [ofDim]
      · simp [apart, before.dim_residual_ends, ofDim, apart.symm]

theorem lookup_foldl_insert (f : (Sigma fun _ : String => List Int) → Int)
    (entries : List (Sigma fun _ : String => List Int)) (nodup : entries.NodupKeys)
    (table : Table Int) (dim_name : String) :
    (entries.foldl (fun (table : Table Int) dim => table.insert dim.1 (f dim)) table).lookup
      dim_name =
        match entries.dlookup dim_name with
        | some v => some (f ⟨dim_name, v⟩)
        | none => table.lookup dim_name := by
  induction entries generalizing table with
  | nil => rfl
  | cons entry entries ih =>
    obtain ⟨name, v⟩ := entry
    obtain ⟨absent, nodup⟩ := List.nodupKeys_cons.mp nodup
    rw [List.foldl_cons, ih nodup]
    rcases eq_or_ne dim_name name with rfl | apart
    · rw [List.dlookup_eq_none.mpr absent, List.dlookup_cons_eq, AList.lookup_insert]
    · rw [List.dlookup_cons_ne _ _ apart, AList.lookup_insert_ne apart]

theorem checkBounds_iff {workloads : Workloads} {name_ : String} {table : Table Int} :
    checkBounds workloads name_ table = .ok () ↔
      ∀ dim_name count, table.lookup dim_name = some count →
        workloads.factorized_bound dim_name = count := by
  rw [checkBounds, forM_eq_ok]
  constructor
  · intro all dim_name count found
    exact tileexpAssert_eq_ok.mp (all ⟨dim_name, count⟩
      ((List.mem_insertionSort _).mpr (AList.mem_lookup_iff.mp found)))
  · intro all entry member
    exact tileexpAssert_eq_ok.mpr (all entry.1 entry.2
      (AList.mem_lookup_iff.mpr ((List.mem_insertionSort _).mp member)))

/-- The result of `get_loop_count`, dimension by dimension. -/
theorem lookup_get_loop_count {nests : List (List Descriptor)} {table : Table Int}
    (call : get_loop_count nests = .ok table) (dim_name : String) :
    table.lookup dim_name = if dim_name ∈ nests.flatten.map Descriptor.name_ then
      some (dimCount (ofDim dim_name nests.flatten)) else none := by
  obtain ⟨⟨ends, residuals⟩, pushed, result⟩ := bind_eq_ok.mp call
  have collected := foldlM_induction pushed Collected Collected.nil
    fun done loop rest s s' _ before step => before.snoc step
  cases result
  rw [lookup_foldl_insert _ _ ends.nodupKeys, ← AList.lookup, collected.dim_ends dim_name]
  by_cases present : dim_name ∈ nests.flatten.map Descriptor.name_
  · simp only [collected.dim_residual_ends, if_pos present, Option.getD_some, dimCount]
  · simp only [if_neg present]
    rfl

theorem pushDim_total {ends : Table (List Int) × Table (List Int)} {loop : Descriptor}
    (bounded : loop.residual_end ≤ loop.end_) : ∃ ends', pushDim ends loop = .ok ends' := by
  unfold pushDim
  cases ends.1.lookup loop.name_ with
  | none => exact ⟨_, rfl⟩
  | some dim_ends =>
    simp only [tileexpAssert, ge_iff_le, if_pos bounded]
    exact ⟨_, rfl⟩

theorem get_loop_count_total {nests : List (List Descriptor)}
    (bounded : ∀ loop ∈ nests.flatten, loop.residual_end ≤ loop.end_) :
    ∃ table, get_loop_count nests = .ok table := by
  have pushed : ∀ (loops : List Descriptor) ends,
      (∀ loop ∈ loops, loop.residual_end ≤ loop.end_) →
        ∃ ends', loops.foldlM pushDim ends = .ok ends' := by
    intro loops
    induction loops with
    | nil => exact fun ends _ => ⟨ends, rfl⟩
    | cons loop loops ih =>
      intro ends bounded
      obtain ⟨middle, first⟩ := @pushDim_total ends loop (bounded loop List.mem_cons_self)
      obtain ⟨ends', rest⟩ := ih middle fun l member => bounded l (List.mem_cons_of_mem loop member)
      exact ⟨ends', by rw [List.foldlM_cons, first]; exact rest⟩
  obtain ⟨ends, call⟩ := pushed nests.flatten (∅, ∅) bounded
  exact ⟨_, by rw [get_loop_count, call]; rfl⟩

def totalCount (table : Table Int) : Int := (table.entries.map Sigma.snd).prod

theorem totalCount_eq {nests : List (List Descriptor)} {table : Table Int}
    (call : get_loop_count nests = .ok table) :
    totalCount table = ∏ dim_name ∈ (nests.flatten.map Descriptor.name_).toFinset,
      dimCount (ofDim dim_name nests.flatten) := by
  have values : table.entries.map Sigma.snd =
      table.keys.map fun dim_name => dimCount (ofDim dim_name nests.flatten) := by
    rw [AList.keys, List.keys, List.map_map]
    refine List.map_congr_left fun entry member => ?_
    have found := AList.mem_lookup_iff.mpr (show (⟨entry.1, entry.2⟩ : Sigma _) ∈ table.entries
      from member)
    rw [Option.mem_def, lookup_get_loop_count call] at found
    split at found
    · exact (Option.some_inj.mp found).symm
    · cases found
  have names : table.keys.toFinset = (nests.flatten.map Descriptor.name_).toFinset := by
    ext dim_name
    rw [List.mem_toFinset, List.mem_toFinset, ← AList.mem_keys, ← AList.lookup_isSome,
      lookup_get_loop_count call]
    by_cases present : dim_name ∈ nests.flatten.map Descriptor.name_
    · rw [if_pos present]
      exact iff_of_true rfl present
    · rw [if_neg present]
      exact iff_of_false Bool.false_ne_true present
  rw [totalCount, values, ← List.prod_toFinset _ table.keys_nodup, names]

end GetLoopCount

end TileExp.Analysis
