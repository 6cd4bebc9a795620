import Latias.Tensors.Producers

namespace TileExp.Analysis

structure Evaluator.LowestCommon (ev : Evaluator) (producer consumer common : NodePtr) :
    Prop where
  above_producer : common ∈ Rose.ancestors producer
  above_consumer : common ∈ Rose.ancestors consumer
  plain : ev.get_type common ≠ .Scope
  deepest : ∀ a ∈ Rose.ancestors producer, a ∈ Rose.ancestors consumer →
    ev.get_type a ≠ .Scope → a <:+ common

namespace InitAnalysis

open Checked

variable {ev : Evaluator} {source common : NodePtr} {target_path : List NodePtr} {i j : Nat}

theorem scanTarget_eq (kind : ev.get_type source ≠ .Scope) (j : Nat) (path : List NodePtr) :
    scanTarget ev source j path =
      if source ∈ path then (j + path.idxOf source, some source) else (j + path.length, none) := by
  induction path generalizing j with
  | nil => rfl
  | cons target path ih =>
    rw [scanTarget, ih]
    by_cases same : source = target
    · subst same
      simp [kind]
    · have other : target ≠ source := fun eq => same eq.symm
      rw [if_neg same, ite_self]
      simp only [List.mem_cons, same, false_or, List.length_cons,
        List.idxOf_cons_ne path other, Nat.succ_eq_add_one]
      split <;> simp <;> omega

theorem scanSource_some {path : List NodePtr} {i₀ j₀ : Nat}
    (scan : scanSource ev target_path i₀ j₀ path = (i, j, some common)) :
    ∃ before after, path = before ++ common :: after ∧ ev.get_type common ≠ .Scope ∧
      common ∈ target_path ∧ j = target_path.idxOf common ∧ i = i₀ + before.length ∧
      ∀ a ∈ before, ev.get_type a ≠ .Scope → a ∉ target_path := by
  induction path generalizing i₀ j₀ with
  | nil => cases scan
  | cons source path ih =>
    rw [scanSource] at scan
    split at scan
    · next scope =>
      obtain ⟨before, after, rfl, plain, member, index, count, missed⟩ := ih scan
      refine ⟨source :: before, after, rfl, plain, member, index, ?_, ?_⟩
      · rw [count, List.length_cons]
        omega
      · intro a found
        rcases List.mem_cons.mp found with rfl | found
        · exact fun kind => absurd scope kind
        · exact missed a found
    · next scope =>
      rw [scanTarget_eq scope] at scan
      by_cases member : source ∈ target_path
      · rw [if_pos member, Nat.zero_add] at scan
        cases scan
        exact ⟨[], path, rfl, scope, member, rfl, rfl, by simp⟩
      · rw [if_neg member] at scan
        obtain ⟨before, after, rfl, plain, found, index, count, missed⟩ := ih scan
        refine ⟨source :: before, after, rfl, plain, found, index, ?_, ?_⟩
        · rw [count, List.length_cons]
          omega
        · intro a inside
          rcases List.mem_cons.mp inside with rfl | inside
          · exact fun _ => member
          · exact missed a inside

theorem scanSource_none {path : List NodePtr} {i₀ j₀ : Nat}
    (scan : scanSource ev target_path i₀ j₀ path = (i, j, none)) {a : NodePtr} (member : a ∈ path)
    (kind : ev.get_type a ≠ .Scope) : a ∉ target_path := by
  induction path generalizing i₀ j₀ with
  | nil => cases member
  | cons source path ih =>
    rw [scanSource] at scan
    split at scan
    · next scope =>
      rcases List.mem_cons.mp member with rfl | member
      · exact absurd scope kind
      · exact ih scan member
    · next scope =>
      rw [scanTarget_eq scope] at scan
      by_cases found : source ∈ target_path
      · rw [if_pos found] at scan
        cases scan
      · rw [if_neg found] at scan
        rcases List.mem_cons.mp member with rfl | member
        · exact found
        · exact ih scan member

theorem nil_mem_ancestors {node : NodePtr} (inner : node ≠ []) : [] ∈ Rose.ancestors node :=
  Rose.mem_ancestors.mpr ⟨List.nil_suffix, inner.symm⟩

/-- The search from two nodes below a Tile root stops at the lowest common node, and `i` counts the
    ancestors of the first below it. -/
theorem scanSource_lowest {producer consumer : NodePtr} (root : ev.get_type [] = .Tile)
    (below : producer ≠ []) (inner : consumer ≠ []) :
    ∃ before common, scanSource ev (Rose.ancestors consumer) 0 0 (Rose.ancestors producer) =
        (before.length, (Rose.ancestors consumer).idxOf common, some common) ∧
      ev.LowestCommon producer consumer common ∧
      Rose.ancestors producer = before ++ common :: Rose.ancestors common ∧
        ∀ a ∈ before, ¬ a <:+ common := by
  have root_kind : ev.get_type [] ≠ .Scope := by simp [root]
  match scan : scanSource ev (Rose.ancestors consumer) 0 0 (Rose.ancestors producer) with
  | (i, j, none) =>
    exact absurd (nil_mem_ancestors inner)
      (scanSource_none scan (nil_mem_ancestors below) root_kind)
  | (i, j, some common) =>
    obtain ⟨before, after, split, plain, member, rfl, count, missed⟩ := scanSource_some scan
    have above : common ∈ Rose.ancestors producer := by simp [split]
    obtain ⟨before', split', lower⟩ := Rose.ancestors_split above
    have absent : common ∉ before := fun inside => missed common inside plain member
    have absent' : common ∉ before' := fun inside => lower common inside List.suffix_rfl
    have same : before = before' := by
      have lengths := congrArg (List.idxOf common) (split.symm.trans split')
      rw [List.idxOf_append_of_notMem absent, List.idxOf_append_of_notMem absent',
        List.idxOf_cons_self, List.idxOf_cons_self] at lengths
      exact (List.append_inj (split.symm.trans split') (by omega)).1
    subst same
    rw [Nat.zero_add] at count
    refine ⟨before, common, by rw [count], ⟨above, member, plain, ?_⟩, split', lower⟩
    intro a upper shared kind
    rw [split'] at upper
    rcases List.mem_append.mp upper with here | later
    · exact absurd shared (missed a here kind)
    · rcases List.mem_cons.mp later with rfl | later
      · exact List.suffix_rfl
      · exact (Rose.mem_ancestors.mp later).1

/-- The common node is the lowest ancestor of both that is no Scope, and the consumer's path
    ends right below it. -/
theorem findCommonNode_eq_ok {leaf_vec_ : List NodePtr} {producer consumer : NodePtr}
    {paths : CommonNodePath} (root : ev.get_type [] = .Tile) (below : producer ≠ [])
    (inner : consumer ≠ [])
    (call : findCommonNode ev leaf_vec_ producer consumer = .ok paths) :
    ∃ common, paths.common_node_ = some common ∧ ev.LowestCommon producer consumer common ∧
      paths.consumer_path_ =
        (Rose.ancestors consumer).take ((Rose.ancestors consumer).idxOf common) := by
  obtain ⟨before, common, scan, lowest, -⟩ := scanSource_lowest root below inner
  refine ⟨common, ?_⟩
  simp only [findCommonNode, scan] at call
  split at call
  · split at call
    · cases call
    · cases call
      exact ⟨rfl, lowest, rfl⟩
  · cases call
    exact ⟨rfl, lowest, rfl⟩

end InitAnalysis

end TileExp.Analysis
