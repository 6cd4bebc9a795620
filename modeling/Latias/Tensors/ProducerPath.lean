import Latias.Tensors.CommonNode
import Latias.Tensors.Inputs
import Latias.Tensors.Outputs

/-! The path on which an intermediate is written back, when its consumer is the next leaf. -/

namespace TileExp.Analysis

open Checked

structure Evaluator.CommonTile (ev : Evaluator) (producer consumer common : NodePtr) : Prop where
  above_producer : common ∈ Rose.ancestors producer
  above_consumer : common ∈ Rose.ancestors consumer
  tile : ev.get_type common = .Tile
  lowest : ∀ a ∈ Rose.ancestors producer, a ∈ Rose.ancestors consumer → ev.get_type a = .Tile →
    a <:+ common

namespace InitAnalysis

variable {ev : Evaluator} {leaf_vec_ : List NodePtr} {producer consumer common node : NodePtr}

/-- `findCommonNode` cuts its path inside it and keeps every Tile of the producer below the common
    Tile. -/
def KeepsTiles (ev : Evaluator) (leaf_vec_ : List NodePtr) (producer consumer : NodePtr) : Prop :=
  ∃ paths, findCommonNode ev leaf_vec_ producer consumer = .ok paths ∧
    ∀ common, ev.CommonTile producer consumer common → ∀ a ∈ Rose.ancestors producer,
      ev.get_type a = .Tile → ¬ a <:+ common → a ∈ paths.producer_path_

def UnderScope (ev : Evaluator) (producer consumer : NodePtr) : Prop :=
  ∃ common i, ev.CommonTile producer consumer common ∧ (i :: common) ∈ Rose.ancestors producer ∧
    ev.get_type (i :: common) = .Scope

theorem CommonTile.unique {common' : NodePtr} (first : ev.CommonTile producer consumer common)
    (second : ev.CommonTile producer consumer common') : common = common' := by
  have up := second.lowest common first.above_producer first.above_consumer first.tile
  have down := first.lowest common' second.above_producer second.above_consumer second.tile
  exact up.eq_of_length (Nat.le_antisymm up.length_le down.length_le)

theorem tile_or_scope_of_ancestor (leaves : ev.LeafOps) (found : (ev.root_.get? producer).isSome)
    (above : node ∈ Rose.ancestors producer) :
    ev.get_type node = .Tile ∨ ev.get_type node = .Scope := by
  have inner := not_isLeaf_of_ancestor leaves found above
  simp only [isLeaf, decide_eq_false_iff_not, not_or] at inner
  cases kind : ev.get_type node with
  | Tile => exact Or.inl rfl
  | Scope => exact Or.inr rfl
  | Op => exact absurd kind inner.1
  | Trans => exact absurd kind inner.2

theorem ancestors_below {before after : List NodePtr} {last : NodePtr}
    (split : Rose.ancestors producer = before ++ last :: common :: after) :
    ∃ i, last = i :: common := by
  induction before generalizing producer with
  | nil =>
    cases producer with
    | nil => cases split
    | cons x p =>
      cases p with
      | nil => cases split
      | cons i q =>
        cases split
        exact ⟨i, rfl⟩
  | cons b before ih =>
    cases producer with
    | nil => cases split
    | cons x p => exact ih (List.cons.inj split).2

theorem below_unique {i j : Nat} (first : (i :: common) ∈ Rose.ancestors node)
    (second : (j :: common) ∈ Rose.ancestors node) : i = j := by
  have below := (Rose.mem_ancestors.mp first).1
  have below' := (Rose.mem_ancestors.mp second).1
  have nested := List.suffix_of_suffix_length_le below below' (Nat.le_refl _)
  exact (List.cons.inj (nested.eq_of_length rfl)).1

theorem leaves_nodup : ((Rose.postorder [] ev.root_).filter (isLeaf ev)).Nodup := by
  apply List.Nodup.filter
  apply (Rose.postorder_pairwise [] ev.root_).imp
  rintro a b apart rfl
  exact apart List.suffix_rfl

theorem distance_of_adjacent {before after : List NodePtr}
    (nodup : (before ++ producer :: consumer :: after).Nodup) :
    ((before ++ producer :: consumer :: after).idxOf consumer : Int) -
      (before ++ producer :: consumer :: after).idxOf producer = 1 := by
  obtain ⟨_, rest, apart⟩ := List.nodup_append.mp nodup
  have first : producer ∉ before := fun member => apart _ member _ List.mem_cons_self rfl
  have second : consumer ∉ before := fun member =>
    apart _ member _ (List.mem_cons_of_mem _ List.mem_cons_self) rfl
  have other : producer ≠ consumer := by
    rintro rfl
    exact (List.nodup_cons.mp rest).1 List.mem_cons_self
  rw [List.idxOf_append_of_notMem first, List.idxOf_append_of_notMem second, List.idxOf_cons_self,
    List.idxOf_cons_ne _ other, List.idxOf_cons_self]
  omega

/-- The search of `findCommonNode` from two leaves: the common Tile, and the ancestors of the
    producer below it. -/
theorem scan_common (root : ev.get_type [] = .Tile) (leaves : ev.LeafOps)
    (found : (ev.root_.get? producer).isSome) (below : producer ≠ []) (inner : consumer ≠ []) :
    ∃ before j common, scanSource ev (Rose.ancestors consumer) 0 0 (Rose.ancestors producer) =
        (before.length, j, some common) ∧ ev.CommonTile producer consumer common ∧
      Rose.ancestors producer = before ++ common :: Rose.ancestors common ∧
        ∀ a ∈ before, ¬ a <:+ common := by
  obtain ⟨before, common, scan, lowest, split, lower⟩ := scanSource_lowest root below inner
  have kinds := tile_or_scope_of_ancestor leaves found lowest.above_producer
  refine ⟨before, _, common, scan, ⟨lowest.above_producer, lowest.above_consumer, ?_, ?_⟩, split,
    lower⟩
  · exact kinds.resolve_right lowest.plain
  · intro a upper shared kind
    exact lowest.deepest a upper shared (by rw [kind]; exact fun same => by cases same)

theorem keepsTiles_iff (root : ev.get_type [] = .Tile) (leaves : ev.LeafOps)
    {before after : List NodePtr} (adjacent : (Rose.postorder [] ev.root_).filter (isLeaf ev) =
      before ++ producer :: consumer :: after)
    (op : ev.get_type producer = .Op) (op' : ev.get_type consumer = .Op) :
    KeepsTiles ev ((Rose.postorder [] ev.root_).filter (isLeaf ev)) producer consumer ↔
      UnderScope ev producer consumer := by
  have nodup := @leaves_nodup ev
  rw [adjacent] at nodup
  have distance := distance_of_adjacent nodup
  rw [← adjacent] at distance
  have member : producer ∈ (Rose.postorder [] ev.root_).filter (isLeaf ev) := by simp [adjacent]
  have found := mem_positions.mp (List.mem_filter.mp member).1
  have not_root {op : NodePtr} (kind : ev.get_type op = .Op) : op ≠ [] := by
    rintro rfl
    rw [root] at kind
    cases kind
  obtain ⟨path, j, common, scan, tile, split, lower⟩ :=
    scan_common root leaves found (not_root op) (not_root op')
  rcases List.eq_nil_or_concat path with rfl | ⟨rest, last, rfl⟩
  · -- the producer is a child of the common Tile: the cut lies before the path
    have outside : findCommonNode ev ((Rose.postorder [] ev.root_).filter (isLeaf ev)) producer
        consumer = .error .outOfRange := by
      simp only [findCommonNode, scan, distance]
      rfl
    constructor
    · rintro ⟨paths, call, _⟩
      rw [outside] at call
      cases call
    · rintro ⟨common', i, tile', above, _⟩
      cases CommonTile.unique tile' tile
      rw [split, List.nil_append, List.mem_cons] at above
      rcases above with same | above
      · exact absurd same (by simp)
      · exact absurd (Rose.mem_ancestors.mp above).1.length_le (by simp)
  · rw [List.concat_eq_append, List.append_assoc] at split
    obtain ⟨i, rfl⟩ := ancestors_below split
    have inside : findCommonNode ev ((Rose.postorder [] ev.root_).filter (isLeaf ev)) producer
        consumer = .ok ⟨some common, rest, (Rose.ancestors consumer).take j⟩ := by
      have cut : (Rose.ancestors producer).take ((rest ++ [i :: common]).length - 1) = rest := by
        rw [split, List.length_append, List.length_singleton, Nat.add_sub_cancel,
          List.take_left]
      simp only [List.concat_eq_append] at scan
      simp only [findCommonNode, scan, distance, if_true, cut]
      simp
    have child : (i :: common) ∈ Rose.ancestors producer := by simp [split]
    have kinds := tile_or_scope_of_ancestor leaves found child
    constructor
    · rintro ⟨paths, call, keeps⟩
      rw [inside] at call
      cases call
      refine ⟨common, i, tile, child, kinds.resolve_left fun kind => ?_⟩
      have kept := keeps common tile _ child kind (fun up => absurd up.length_le (by simp))
      have twice := Rose.ancestors_nodup producer
      rw [split] at twice
      exact (List.nodup_append.mp twice).2.2 _ kept _ List.mem_cons_self rfl
    · rintro ⟨common', i', tile', above, scope⟩
      cases CommonTile.unique tile' tile
      refine ⟨_, inside, fun other lowest a upper kind low => ?_⟩
      cases CommonTile.unique lowest tile
      rw [split] at upper
      rcases List.mem_append.mp upper with here | later
      · exact here
      · rcases List.mem_cons.mp later with rfl | later
        · rw [below_unique child above, scope] at kind
          cases kind
        · rcases List.mem_cons.mp later with rfl | later
          · exact absurd List.suffix_rfl low
          · exact absurd (Rose.mem_ancestors.mp later).1 low

theorem keepsTiles_chained :
    KeepsTiles chained ((Rose.postorder [] chained.root_).filter (isLeaf chained))
      [0, 0, 0] [0, 1, 0] := by
  have common : chained.CommonTile [0, 0, 0] [0, 1, 0] [] := by
    constructor
    · decide
    · decide
    · decide +kernel
    · decide +kernel
  have under : UnderScope chained [0, 0, 0] [0, 1, 0] :=
    ⟨[], 0, common, by decide, by decide +kernel⟩
  apply (@keepsTiles_iff _ _ _ ?_ ?_ [] [] ?_ ?_ ?_).mpr under
  all_goals decide +kernel

def bareChain (bound : Nat) (below : Node → Node) : Evaluator :=
  Config.evaluator
    (Config.workloads [("first", ⟨["A"], "B"⟩), ("second", ⟨["B"], "C"⟩)] [("M", bound)]
      [("A", ["M"]), ("B", ["M"]), ("C", ["M"])]) 1 []
    (Config.tile .Temporal "Main" [Config.loop "M" 2 2]
      [below (Config.op "Cube" "first" [Config.loop "M" 1 1]),
        below (Config.op "Cube" "second" [Config.loop "M" 1 1])])

/-- The Tile of the producer is left out, and for children of one Tile the cut starts before the
    path. -/
theorem keepsTiles_bare :
    let tiled := bareChain 4 fun op => Config.tile .Temporal "L1" [Config.loop "M" 2 2] [op]
    let flat := bareChain 2 id
    (tiled.CommonTile [0, 0] [0, 1] [] ∧ tiled.get_type [0] = .Tile ∧
      findCommonNode tiled ((Rose.postorder [] tiled.root_).filter (isLeaf tiled)) [0, 0] [0, 1] =
        .ok ⟨some [], [], [[1]]⟩) ∧
      findCommonNode flat ((Rose.postorder [] flat.root_).filter (isLeaf flat)) [0] [1] =
        .error .outOfRange := by
  refine ⟨⟨⟨?_, ?_, ?_, ?_⟩, ?_, ?_⟩, ?_⟩
  all_goals decide +kernel

end InitAnalysis

end TileExp.Analysis
