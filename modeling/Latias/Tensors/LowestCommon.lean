import Latias.Tensors.ProducerPath

/-! `findCommonNode` from any two leaves, whatever the nesting of the Scopes above them. -/

namespace TileExp.Analysis

def Evaluator.Leaf (ev : Evaluator) (node : NodePtr) : Prop :=
  ∃ leaf, ev.root_.get? node = some leaf ∧ leaf.children = []

theorem Evaluator.Leaf.ne_nil {ev : Evaluator} {node other : NodePtr} (leaf : ev.Leaf node)
    (leaf' : ev.Leaf other) (distinct : node ≠ other) : node ≠ [] := by
  rintro rfl
  obtain ⟨root, found, childless⟩ := leaf
  obtain ⟨_, present, _⟩ := leaf'
  obtain ⟨rest, i, rfl⟩ := (List.eq_nil_or_concat other).resolve_left distinct.symm
  have below : (ev.root_.get? [i]).isSome := by
    rw [List.concat_eq_append, Rose.get?_append] at present
    obtain ⟨child, here, _⟩ := Option.bind_eq_some_iff.mp present
    exact Option.isSome_of_eq_some here
  rw [Rose.get?_cons, found, Option.bind_some, childless] at below
  cases below

namespace InitAnalysis

variable {ev : Evaluator} {leaf_vec_ : List NodePtr} {producer consumer : NodePtr}

/-- `source_path.begin() + i - 1`, from which the path of a producer right before its consumer is
    erased, does not lie before `begin()`. -/
def EraseInRange (ev : Evaluator) (leaf_vec_ : List NodePtr) (source target : NodePtr) : Prop :=
  (leaf_vec_.idxOf target : Int) - leaf_vec_.idxOf source = 1 →
    (scanSource ev (Rose.ancestors target) 0 0 (Rose.ancestors source)).1 ≠ 0

instance (source target : NodePtr) : Decidable (EraseInRange ev leaf_vec_ source target) :=
  inferInstanceAs (Decidable (_ → _))

theorem le_scanSource (path target_path : List NodePtr) (i j : Nat) :
    i ≤ (scanSource ev target_path i j path).1 := by
  induction path generalizing i j with
  | nil => exact Nat.le_refl i
  | cons source path ih =>
    rw [scanSource]
    split
    · exact Nat.le_of_succ_le (ih (i + 1) 0)
    · split
      · exact Nat.le_refl i
      · exact Nat.le_of_succ_le (ih (i + 1) _)

theorem eraseInRange_iff (i : Nat) (parent : NodePtr) :
    EraseInRange ev leaf_vec_ (i :: parent) consumer ↔
      ((leaf_vec_.idxOf consumer : Int) - leaf_vec_.idxOf (i :: parent) = 1 →
        ev.get_type parent = .Scope ∨ parent ∉ Rose.ancestors consumer) := by
  refine imp_congr_right fun _ => ?_
  rw [Rose.ancestors, scanSource]
  by_cases scope : ev.get_type parent = .Scope
  · have later := @le_scanSource ev (Rose.ancestors parent) (Rose.ancestors consumer) 1 0
    rw [if_pos scope]
    exact ⟨fun _ => Or.inl scope, fun _ => Nat.ne_of_gt later⟩
  · rw [if_neg scope, scanTarget_eq scope]
    by_cases shared : parent ∈ Rose.ancestors consumer
    · simp [scope, shared]
    · have later := @le_scanSource ev (Rose.ancestors parent) (Rose.ancestors consumer) 1
        (Rose.ancestors consumer).length
      simp only [shared, if_false, Nat.zero_add]
      exact ⟨fun _ => Or.inr not_false, fun _ => Nat.ne_of_gt later⟩

theorem take_ancestors_eq_filter {common : NodePtr} (above : common ∈ Rose.ancestors consumer) :
    (Rose.ancestors consumer).take ((Rose.ancestors consumer).idxOf common) =
      (Rose.ancestors consumer).filter fun a => common ∈ Rose.ancestors a := by
  obtain ⟨before, split, lower⟩ := Rose.ancestors_split above
  have absent : common ∉ before := fun inside => lower common inside List.suffix_rfl
  have within : ∀ a ∈ before, common ∈ Rose.ancestors a := by
    intro a inside
    have member : a ∈ Rose.ancestors consumer := by simp [split, inside]
    have chain := List.suffix_or_suffix_of_suffix (Rose.mem_ancestors.mp member).1
      (Rose.mem_ancestors.mp above).1
    refine Rose.mem_ancestors.mpr ⟨chain.resolve_left (lower a inside), ?_⟩
    rintro rfl
    exact absent inside
  have outside : ∀ a ∈ common :: Rose.ancestors common, common ∉ Rose.ancestors a := by
    intro a upper low
    obtain ⟨down, proper⟩ := Rose.mem_ancestors.mp low
    rcases List.mem_cons.mp upper with rfl | upper
    · exact proper rfl
    · have up := (Rose.mem_ancestors.mp upper).1
      exact proper (down.eq_of_length (Nat.le_antisymm down.length_le up.length_le))
  rw [split, List.idxOf_append_of_notMem absent, List.idxOf_cons_self, Nat.add_zero,
    List.take_left, List.filter_append, List.filter_eq_self.mpr (by simpa using within),
    List.filter_eq_nil_iff.mpr (by simpa using outside), List.append_nil]

theorem exists_findCommonNode (in_range : EraseInRange ev leaf_vec_ producer consumer) :
    ∃ paths, findCommonNode ev leaf_vec_ producer consumer = .ok paths := by
  match scan : scanSource ev (Rose.ancestors consumer) 0 0 (Rose.ancestors producer) with
  | (i, j, common_node) =>
    rw [EraseInRange, scan] at in_range
    simp only [findCommonNode, scan]
    split
    · next adjacent =>
      rw [if_neg (in_range adjacent)]
      cases common_node <;> exact ⟨_, rfl⟩
    · cases common_node <;> exact ⟨_, rfl⟩

/-- Two distinct leaves of a tree with a Tile at its root have a common node, the deepest that is no
    Scope, and the consumer's path is all that lies strictly between. -/
theorem findCommonNode_lowest (root : ev.get_type [] = .Tile) (leaf : ev.Leaf producer)
    (leaf' : ev.Leaf consumer) (distinct : producer ≠ consumer)
    (in_range : EraseInRange ev leaf_vec_ producer consumer) :
    ∃ paths common, findCommonNode ev leaf_vec_ producer consumer = .ok paths ∧
      paths.common_node_ = some common ∧ ev.LowestCommon producer consumer common ∧
        paths.consumer_path_ =
          (Rose.ancestors consumer).filter fun a => common ∈ Rose.ancestors a := by
  obtain ⟨paths, call⟩ := exists_findCommonNode in_range
  obtain ⟨common, present, lowest, taken⟩ := findCommonNode_eq_ok root
    (leaf.ne_nil leaf' distinct) (leaf'.ne_nil leaf distinct.symm) call
  refine ⟨paths, common, call, present, lowest, ?_⟩
  rw [taken, take_ancestors_eq_filter lowest.above_consumer]

def nestedScopes : Evaluator :=
  Config.evaluator (Config.workloads [] [] []) 1 []
    (Config.tile .Temporal "Main" []
      [Config.scope .Sequential
        [Config.tile .Temporal "L1" []
          [Config.scope .Pipeline
            [Config.tile .Temporal "L0" [] [Config.op "Cube" "first" []],
              Config.scope .Sequential [Config.op "Cube" "second" []]]],
          Config.op "Vector" "third" []]])

theorem findCommonNode_lowest_nested :
    ∃ paths common,
      findCommonNode nestedScopes
          ((Rose.postorder [] nestedScopes.root_).filter (isLeaf nestedScopes))
          [0, 0, 0, 0, 0] [0, 1, 0, 0, 0] = .ok paths ∧
        paths.common_node_ = some common ∧
          nestedScopes.LowestCommon [0, 0, 0, 0, 0] [0, 1, 0, 0, 0] common ∧
            paths.consumer_path_ = (Rose.ancestors [0, 1, 0, 0, 0]).filter fun a =>
              common ∈ Rose.ancestors a := by
  apply @findCommonNode_lowest nestedScopes
  · decide +kernel
  · exact ⟨_, rfl, rfl⟩
  · exact ⟨_, rfl, rfl⟩
  · decide
  · decide +kernel

end InitAnalysis

end TileExp.Analysis
