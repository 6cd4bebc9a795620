import Latias.Latencies.OwnLinks
import Latias.Counts.Accepted

/-! The links on which the inputs of a Tile are charged: `addCurrentTensor` splits them by the Trans
    before the Tile's first leaf, `findSource` finds one source for both parts. -/

namespace TileExp.Analysis

open Checked LoopNest

namespace Evaluator

def leavesBefore (ev : Evaluator) (node : NodePtr) : List NodePtr :=
  let leaf_vec_ := (Rose.postorder [] ev.root_).filter (InitAnalysis.isLeaf ev)
  leaf_vec_.take (leaf_vec_.idxOf (findFirstLeaf node (ev.ori_node_ node)))

def producerLevel (ev : Evaluator) (node : NodePtr) : Option String :=
  match (ev.leavesBefore node).reverse with
  | [] => none
  | prev_leaf :: leaves =>
    if ev.get_type prev_leaf = .Trans then
      (leaves.find? fun leaf => ev.get_type leaf = .Op).map ev.target_level
    else none

def tileLevel (ev : Evaluator) (node : NodePtr) : String :=
  ev.target_level (((Rose.ancestors node).find? fun a => ev.get_type a = .Tile).getD [])

def movementLatency (ev : Evaluator) (node : NodePtr) (source_level : String) (amount : Int) :
    Exec Int := do
  let bandwidth ← ev.intercon_.bandwidth_ (source_level ++ "2" ++ ev.target_level node)
  transferLatency ev amount bandwidth

def fromProducer (ev : Evaluator) (node : NodePtr) (producer_level : Option String)
    (dm_trans : Int) : Exec Int :=
  if dm_trans > 0 then
    match producer_level with
    | none => .error .nullPointer
    | some source_level => ev.movementLatency node source_level dm_trans
  else .ok 0

def fromTile (ev : Evaluator) (node : NodePtr) (tile_level : String) (dm_tile : Int) : Exec Int :=
  if dm_tile > 0 ∧ ev.target_level node ≠ tile_level then
    ev.movementLatency node tile_level dm_tile
  else .ok 0

def inputFrom (ev : Evaluator) (node : NodePtr) (producer_level : Option String)
    (tile_level : String) (dm_tile dm_trans : Int) : Exec Int := do
  let trans_latency ← ev.fromProducer node producer_level dm_trans
  let tile_latency ← ev.fromTile node tile_level dm_tile
  .ok (ev.toInt (trans_latency + tile_latency))

/-- The inputs are charged on the links that they come through, whatever the interconnections are. -/
def ChargedOnLinks (ev : Evaluator) (node : NodePtr) (dm_tile dm_trans : Int) : Prop :=
  ∀ intercon_, getInputLatency (ev.withLinks intercon_) node dm_tile dm_trans =
    (ev.withLinks intercon_).inputFrom node (ev.producerLevel node) (ev.tileLevel node) dm_tile
      dm_trans

def takesProducer (ev : Evaluator) : NodePtr → Bool
  | (i + 1) :: parent =>
    decide ((ev.ori_node_ ((i + 1) :: parent)).dataflow_mode_ = .Forward ∧
      ev.get_type (i :: parent) = .Trans)
  | _ => false

/-- The part that `findSource` does not find the source of is empty, or the sources are at one
    level. -/
def OneSource (ev : Evaluator) (node : NodePtr) (dm_tile dm_trans : Int) : Prop :=
  0 < (if ev.takesProducer node then dm_tile else dm_trans) →
    ev.producerLevel node = some (ev.tileLevel node)

end Evaluator

variable {ev : Evaluator} {ctx : PerfContext} {node ptr parent : NodePtr} {t t' : Tally} {sub : Node}
  {state : EvalState} {tree : EvaTree} {dm_tile dm_trans : Int}

namespace InitAnalysis

theorem isLeaf_of_op (op : ev.get_type node = .Op) : isLeaf ev node = true := by
  simp [isLeaf, op]

theorem leaves_start (accepted : ev.Accepted) (ptr : NodePtr) (sub : Node)
    (found : ev.root_.get? ptr = some sub) :
    ptr <:+ findFirstLeaf ptr sub ∧
      ∃ rest, (Rose.postorder ptr sub).filter (isLeaf ev) = findFirstLeaf ptr sub :: rest := by
  induction ptr, sub using Rose.position_induction
    (S := fun ptr i cs => ChildrenAt ev ptr i cs → ∀ c cs', cs = c :: cs' →
      (i :: ptr) <:+ findFirstLeaf (i :: ptr) c ∧
        ∃ rest, (Rose.postorder (i :: ptr) c).filter (isLeaf ev) =
          findFirstLeaf (i :: ptr) c :: rest) with
  | node ptr info cs below =>
    cases cs with
    | nil =>
      have here : ptr ∈ Rose.postorder [] ev.root_ :=
        mem_positions.mpr (Option.isSome_of_eq_some found)
      have leaf : isLeaf ev ptr = true := by
        have filled := accepted.inner ptr here
        rw [Evaluator.ori_node_of_get? found] at filled
        cases kind : ev.get_type ptr with
        | Tile => exact absurd rfl (filled (Or.inl kind))
        | Scope => exact absurd rfl (filled (Or.inr kind))
        | Op => simp [isLeaf, kind]
        | Trans => simp [isLeaf, kind]
      refine ⟨List.suffix_rfl, [], ?_⟩
      rw [Rose.postorder, Rose.postorders, List.nil_append, List.filter_singleton, leaf]
      rfl
    | cons c cs =>
      obtain ⟨under, rest, split⟩ := below (childrenAt_zero found) c cs rfl
      refine ⟨(List.suffix_cons 0 ptr).trans under, ?_⟩
      rw [Rose.postorder, Rose.postorders, List.filter_append, List.filter_append, split]
      exact ⟨_, rfl⟩
  | nil ptr i =>
    rename_i c cs' same
    cases same
  | cons ptr i c cs first rest =>
    rename_i placed c' cs' same
    cases same
    exact first placed.head

theorem leavesBefore_eq (accepted : ev.Accepted) (found : (ev.root_.get? node).isSome) :
    ev.leavesBefore node = (Rose.earlier ev.root_ node).filter (isLeaf ev) := by
  obtain ⟨sub, at_node⟩ := Option.isSome_iff_exists.mp found
  obtain ⟨after, split⟩ := Rose.postorder_split at_node
  obtain ⟨under, rest, start⟩ := leaves_start accepted node sub at_node
  have apart : findFirstLeaf node sub ∉ (Rose.earlier ev.root_ node).filter (isLeaf ev) :=
    fun member => Rose.not_below_of_earlier found (List.mem_filter.mp member).1 under
  simp only [Evaluator.leavesBefore, split, List.filter_append, start, List.append_assoc,
    List.cons_append, Evaluator.ori_node_of_get? at_node]
  rw [List.idxOf_append_of_notMem apart, List.idxOf_cons_self, Nat.add_zero, List.take_left]

theorem leaves_end (leaves : ev.LeafOps) (ptr : NodePtr) (sub : Node)
    (found : ev.root_.get? ptr = some sub) (op : Node.get_type (lastLeaf sub) = .Op) :
    ∃ front last, (Rose.postorder ptr sub).filter (isLeaf ev) = front ++ [last] ∧
      ev.root_.get? last = some (lastLeaf sub) := by
  induction ptr, sub using Rose.position_induction
    (S := fun ptr i cs => ChildrenAt ev ptr i cs → ∀ before, cs ≠ [] →
      Node.get_type (lastLeaf.lastLeaves before cs) = .Op →
        ∃ front last, (Rose.postorders ptr i cs).filter (isLeaf ev) = front ++ [last] ∧
          ev.root_.get? last = some (lastLeaf.lastLeaves before cs)) with
  | node ptr info cs below =>
    cases cs with
    | nil =>
      have kind : ev.get_type ptr = .Op := (get_type_of_get? found).trans op
      refine ⟨[], ptr, ?_, found⟩
      rw [Rose.postorder, Rose.postorders, List.nil_append, List.filter_singleton,
        isLeaf_of_op kind]
      rfl
    | cons c cs =>
      obtain ⟨front, last, split, at_last⟩ :=
        below (childrenAt_zero found) (.mk info []) (List.cons_ne_nil c cs) op
      refine ⟨front, last, ?_, at_last⟩
      have inner : isLeaf ev ptr = false := by
        have child : ev.root_.get? (0 :: ptr) = some c := child_of_place found rfl
        exact not_isLeaf_of_ancestor leaves (Option.isSome_of_eq_some child) List.mem_cons_self
      rw [Rose.postorder, List.filter_append, split, List.filter_singleton, inner]
      simp
  | nil ptr i =>
    rename_i before none op
    exact absurd rfl none
  | cons ptr i c cs first rest =>
    rename_i placed before some op
    rw [Rose.postorders, List.filter_append]
    cases cs with
    | nil =>
      obtain ⟨front, last, split, at_last⟩ := first placed.head op
      exact ⟨front, last, by rw [split, Rose.postorders, List.filter_nil, List.append_nil], at_last⟩
    | cons c' cs =>
      obtain ⟨front, last, split, at_last⟩ := rest placed.tail (lastLeaf c) (List.cons_ne_nil c' cs) op
      exact ⟨_ ++ front, last, by rw [split, List.append_assoc], at_last⟩

end InitAnalysis

theorem climbToTile_eq (root : ev.get_type [] = .Tile) (node : NodePtr) (i : Nat) :
    climbToTile ev node =
      .ok (((Rose.ancestors (i :: node)).find? fun a => ev.get_type a = .Tile).getD []) := by
  induction node generalizing i with
  | nil => simp [climbToTile, Rose.ancestors, root]
  | cons j node ih =>
    rw [climbToTile, Rose.ancestors, List.find?_cons]
    by_cases tile : ev.get_type (j :: node) = .Tile
    · simp [tile]
    · simp only [tile, if_false, decide_false]
      exact ih j

theorem parentTileLevel_eq (root : ev.get_type [] = .Tile) (inner : node ≠ []) :
    parentTileLevel ev node = .ok (ev.tileLevel node) := by
  cases node with
  | nil => exact absurd rfl inner
  | cons i parent =>
    rw [parentTileLevel, get_parent]
    simp only [climbToTile_eq root parent i, ok_bind]
    rfl

theorem tileSource_eq (root : ev.get_type [] = .Tile) (inner : node ≠ []) :
    tileSource ev node = .ok (ev.tileLevel node, false) := by
  rw [tileSource, parentTileLevel_eq root inner, ok_bind]

theorem child_before {i : Nat} (found : (ev.root_.get? ((i + 1) :: parent)).isSome) :
    ev.child parent i = .ok (i :: parent) := by
  obtain ⟨sub, at_parent⟩ := Option.isSome_iff_exists.mp (Evaluator.isSome_get?_parent found)
  rw [Rose.get?_cons, at_parent, Option.bind_some] at found
  obtain ⟨c, child⟩ := Option.isSome_iff_exists.mp found
  have bound := (List.getElem?_eq_some_iff.mp child).1
  exact Evaluator.child_of_get? (child_of_place at_parent (List.getElem?_eq_getElem (by omega)))

theorem get?_of_child_ok {i : Nat} (found : (ev.root_.get? parent).isSome)
    (call : ev.child parent i = .ok ptr) :
    ∃ c, ptr = i :: parent ∧ ev.root_.get? (i :: parent) = some c := by
  obtain ⟨rfl, inside⟩ := Evaluator.get?_of_child call found
  obtain ⟨c, at_child⟩ := Option.isSome_iff_exists.mp inside
  exact ⟨c, rfl, at_child⟩

theorem findSource_tile (root : ev.get_type [] = .Tile) (inner : node ≠ [])
    (found : (ev.root_.get? node).isSome) (other : ev.takesProducer node = false) :
    findSource ev node (findCurrentNodePosition node) = .ok (ev.tileLevel node, false) := by
  have source := tileSource_eq root inner
  cases node with
  | nil => exact absurd rfl inner
  | cons i parent =>
    unfold findSource
    by_cases forward : (ev.ori_node_ (i :: parent)).dataflow_mode_ = .Forward
    · simp only [forward, if_true, get_parent, findCurrentNodePosition]
      cases i with
      | zero => simpa using source
      | succ i =>
        have former := child_before found
        have plain : ev.get_type (i :: parent) ≠ .Trans := by
          intro trans
          simp [Evaluator.takesProducer, forward, trans] at other
        simp only [Nat.add_sub_cancel, former, ok_bind, if_neg plain, source, ite_self]
    · simp only [forward, if_false, source]

theorem producerLevel_of_siblings (accepted : ev.Accepted) {k : Nat} {former : Node}
    (found : ev.root_.get? (k :: parent) = some former)
    (trans : (ev.root_.get? ((k + 1) :: parent)).isSome)
    (kind : ev.get_type ((k + 1) :: parent) = .Trans)
    (inside : (ev.root_.get? ((k + 2) :: parent)).isSome)
    (op : Node.get_type (lastLeaf former) = .Op) :
    ev.producerLevel ((k + 2) :: parent) = some (lastLeaf former).get_target_level_name := by
  obtain ⟨front, last, split, at_last⟩ := InitAnalysis.leaves_end accepted.leaves _ former found op
  obtain ⟨sub, at_trans⟩ := Option.isSome_iff_exists.mp trans
  have childless : sub.children = [] := by
    have none := accepted.leaves _ (InitAnalysis.mem_positions.mpr trans) (Or.inr kind)
    rwa [Evaluator.ori_node_of_get? at_trans, List.length_eq_zero_iff] at none
  have alone : (Rose.postorder ((k + 1) :: parent) sub).filter (InitAnalysis.isLeaf ev) =
      [(k + 1) :: parent] := by
    obtain ⟨info, cs⟩ := sub
    cases childless
    simp [Rose.postorder, Rose.postorders, InitAnalysis.isLeaf, kind]
  have before : ev.leavesBefore ((k + 2) :: parent) =
      (Rose.earlier ev.root_ (k :: parent)).filter (InitAnalysis.isLeaf ev) ++ front ++
        [last, (k + 1) :: parent] := by
    rw [InitAnalysis.leavesBefore_eq accepted inside, Rose.earlier_succ at_trans,
      Rose.earlier_succ found, List.filter_append, List.filter_append, split, alone]
    simp
  have source : ev.get_type last = .Op := (get_type_of_get? at_last).trans op
  rw [Evaluator.producerLevel, before, List.reverse_append]
  simp only [List.reverse_cons, List.reverse_nil, List.nil_append, List.cons_append, kind, if_true,
    List.find?_cons, source, decide_true, Option.map_some, target_level_of_get? at_last]

theorem findSource_producer (accepted : ev.Accepted) (found : (ev.root_.get? node).isSome)
    (takes : ev.takesProducer node = true) {source : String × Bool}
    (call : findSource ev node (findCurrentNodePosition node) = .ok source) :
    ev.producerLevel node = some source.1 := by
  cases node with
  | nil => cases takes
  | cons position parent =>
    cases position with
    | zero => cases takes
    | succ i =>
      obtain ⟨forward, trans⟩ := of_decide_eq_true takes
      have above := Evaluator.isSome_get?_parent found
      have many : (ev.ori_node_ parent).children.length ≠ 1 := by
        obtain ⟨sub, at_parent⟩ := Option.isSome_iff_exists.mp above
        rw [Rose.get?_cons, at_parent, Option.bind_some] at found
        obtain ⟨c, child⟩ := Option.isSome_iff_exists.mp found
        have bound := (List.getElem?_eq_some_iff.mp child).1
        rw [Evaluator.ori_node_of_get? at_parent]
        omega
      have position : findCurrentNodePosition ((i + 1) :: parent) = i + 1 := rfl
      rw [position] at call
      unfold findSource at call
      simp only [forward, if_true, get_parent, many, Nat.succ_ne_zero,
        or_self, if_false, Nat.add_sub_cancel, child_before found, ok_bind, trans] at call
      cases i with
      | zero => cases call
      | succ k =>
        rw [if_neg (by omega)] at call
        obtain ⟨former, child, call⟩ := bind_eq_ok.mp call
        obtain ⟨_, asserted, call⟩ := bind_eq_ok.mp call
        cases call
        obtain ⟨c, rfl, at_former⟩ := get?_of_child_ok above child
        have before : k + 1 + 1 - 2 = k := by omega
        rw [before] at at_former asserted ⊢
        rw [Evaluator.ori_node_of_get? at_former] at asserted ⊢
        have there := (Evaluator.get?_of_child (child_before found) above).2
        exact producerLevel_of_siblings accepted at_former there trans found
          (tileexpAssert_eq_ok.mp asserted)

theorem parent_of_inner (inner : node ≠ []) : get_parent node ≠ none := by
  cases node with
  | nil => exact absurd rfl inner
  | cons i parent => exact Option.some_ne_none parent

theorem getInputLatency_eq (tile : ev.get_type node = .Tile) (inner : node ≠ [])
    {source : String × Bool} (found : findSource ev node (findCurrentNodePosition node) = .ok source) :
    getInputLatency ev node dm_tile dm_trans =
      ev.inputFrom node (some source.1) source.1 dm_tile dm_trans := by
  have parent := parent_of_inner inner
  have kind : ev.get_type node ≠ .Scope := by
    rw [tile]
    exact NodeType.noConfusion
  have trans_part : transInputLatency ev node dm_trans =
      ev.fromProducer node (some source.1) dm_trans := by
    simp only [transInputLatency, Evaluator.fromProducer, parent, found, ok_bind, ne_eq,
      not_false_eq_true, and_true]
    rfl
  have tile_part : tileInputLatency ev node dm_tile = ev.fromTile node source.1 dm_tile := by
    simp only [tileInputLatency, Evaluator.fromTile, parent, found, ok_bind, ne_eq,
      not_false_eq_true, and_true]
    by_cases same : ev.target_level node = source.1
    · simp only [same, if_true, not_true, and_false, if_false, ite_self]
    · simp only [same, if_false, not_false_eq_true, and_true]
      rfl
  rw [getInputLatency, if_neg kind, trans_part, tile_part]
  rfl

/-! Tables of interconnections that tell the links apart. -/

def linksOf (present : String → Bool) (bandwidth_ : Nat) : InterCon :=
  ⟨fun key => if present key then some ⟨bandwidth_, .HD, 1, 1⟩ else none⟩

theorem movementLatency_links {present : String → Bool} {bandwidth_ : Nat} (some : bandwidth_ ≠ 0)
    (level : String) (amount : Int) :
    (ev.withLinks (linksOf present bandwidth_)).movementLatency node level amount =
      if present (level ++ "2" ++ ev.target_level node) then
        .ok (ev.toInt ((amount + bandwidth_ - 1).tdiv bandwidth_))
      else .error .uninitialized := by
  have target : (ev.withLinks (linksOf present bandwidth_)).target_level node =
      ev.target_level node := rfl
  rw [Evaluator.movementLatency, target]
  by_cases here : present (level ++ "2" ++ ev.target_level node)
  · simp [Evaluator.withLinks, linksOf, InterCon.bandwidth_, here, transferLatency, divide, some]
  · simp [Evaluator.withLinks, linksOf, InterCon.bandwidth_, here]

theorem link_inj {first second level : String}
    (same : first ++ "2" ++ level = second ++ "2" ++ level) : first = second := by
  simpa using same

theorem fromProducer_of_none (none : ¬ dm_trans > 0) (producer_level : Option String) :
    ev.fromProducer node producer_level dm_trans = .ok 0 := if_neg none

theorem fromTile_of_none (none : ¬ dm_tile > 0) (tile_level : String) :
    ev.fromTile node tile_level dm_tile = .ok 0 := if_neg fun both => none both.1

theorem one_cycle {amount : Int} {bandwidth_ : Nat} (moved : 0 < amount) (wide : amount ≤ bandwidth_) :
    (amount + bandwidth_ - 1).tdiv bandwidth_ = 1 := by
  have sum : amount + bandwidth_ - 1 = amount - 1 + 1 * bandwidth_ := by omega
  rw [Int.tdiv_eq_ediv_of_nonneg (by omega), sum, Int.add_mul_ediv_right _ _ (by omega),
    Int.ediv_eq_zero_of_lt (by omega) (by omega), Int.zero_add]

theorem fromProducer_links {present : String → Bool} {bandwidth_ : Nat} (some : bandwidth_ ≠ 0)
    {producer_level : String} (link : present (producer_level ++ "2" ++ ev.target_level node)) :
    ∃ latency, (ev.withLinks (linksOf present bandwidth_)).fromProducer node producer_level dm_trans =
      .ok latency := by
  unfold Evaluator.fromProducer
  simp only [movementLatency_links some, link, if_true]
  split <;> exact ⟨_, rfl⟩

theorem inputFrom_links {present : String → Bool} {bandwidth_ : Nat} (some : bandwidth_ ≠ 0)
    {level : String} (link : present (level ++ "2" ++ ev.target_level node)) :
    ∃ latency, (ev.withLinks (linksOf present bandwidth_)).inputFrom node level level
      dm_tile dm_trans = .ok latency := by
  obtain ⟨trans_latency, value⟩ := @fromProducer_links ev node dm_trans present bandwidth_ some level link
  rw [Evaluator.inputFrom, value, ok_bind]
  unfold Evaluator.fromTile
  simp only [movementLatency_links some, link, if_true]
  split <;> exact ⟨_, rfl⟩

/-- A Trans part that is charged on the Tile's link in every table comes from its level. -/
theorem producer_of_charged {tile_level : String} {producer_level : Option String}
    (moved : 0 < dm_trans)
    (same : ∀ intercon_,
      (ev.withLinks intercon_).inputFrom node tile_level tile_level dm_tile dm_trans =
        (ev.withLinks intercon_).inputFrom node producer_level tile_level dm_tile dm_trans) :
    producer_level = some tile_level := by
  cases producer_level with
  | none =>
    obtain ⟨latency, value⟩ := @inputFrom_links ev node dm_tile dm_trans (fun _ => true) 1
      Nat.one_ne_zero tile_level rfl
    rw [same, Evaluator.inputFrom, Evaluator.fromProducer, if_pos moved] at value
    cases value
  | some producer_level =>
    by_contra apart
    -- a table without the producer's link
    have other : tile_level ++ "2" ++ ev.target_level node ≠
        producer_level ++ "2" ++ ev.target_level node := by
      intro equal
      exact apart (congrArg some (link_inj equal).symm)
    have link : decide (tile_level ++ "2" ++ ev.target_level node ≠
        producer_level ++ "2" ++ ev.target_level node) = true := decide_eq_true other
    obtain ⟨latency, value⟩ := @inputFrom_links ev node dm_tile dm_trans
      (fun key => decide (key ≠ producer_level ++ "2" ++ ev.target_level node)) 1 Nat.one_ne_zero
      tile_level link
    rw [same, Evaluator.inputFrom, Evaluator.fromProducer, if_pos moved] at value
    simp only [movementLatency_links Nat.one_ne_zero, ne_eq, not_true, decide_false,
      Bool.false_eq_true, if_false] at value
    cases value

theorem tile_of_charged (small : ∀ n, 0 ≤ n → n ≤ 2 → ev.toInt n = n)
    {producer_level tile_level : String}
    (moved : 0 < dm_tile)
    (same : ∀ intercon_,
      (ev.withLinks intercon_).inputFrom node producer_level producer_level dm_tile dm_trans =
        (ev.withLinks intercon_).inputFrom node producer_level tile_level dm_tile dm_trans) :
    producer_level = tile_level := by
  by_contra apart
  by_cases here : ev.target_level node = tile_level
  · -- one cycle for each part, where the Tile's own level has none
    obtain ⟨wide, bandwidth⟩ : ∃ bandwidth_ : Nat, (bandwidth_ : Int) = max dm_tile dm_trans :=
      ⟨(max dm_tile dm_trans).toNat, Int.toNat_of_nonneg (by omega)⟩
    have some : wide ≠ 0 := by omega
    have level : (ev.withLinks (linksOf (fun _ => true) wide)).target_level node = tile_level := here
    have tile_part : ev.toInt ((dm_tile + wide - 1).tdiv wide) = 1 := by
      rw [one_cycle moved (by omega)]
      exact small 1 (by decide) (by decide)
    obtain ⟨first, value, low, high⟩ : ∃ first,
        (ev.withLinks (linksOf (fun _ => true) wide)).fromProducer node producer_level dm_trans =
          .ok first ∧ 0 ≤ first ∧ first ≤ 1 := by
      by_cases from_trans : dm_trans > 0
      · refine ⟨1, ?_, by decide, by decide⟩
        rw [Evaluator.fromProducer, if_pos from_trans, movementLatency_links some,
          if_pos rfl, one_cycle from_trans (by omega), small 1 (by decide) (by decide)]
      · exact ⟨0, if_neg from_trans, by decide, by decide⟩
    have equal := same (linksOf (fun _ => true) wide)
    rw [Evaluator.inputFrom, Evaluator.inputFrom, value, ok_bind, ok_bind, Evaluator.fromTile,
      Evaluator.fromTile, level, if_pos ⟨moved, Ne.symm apart⟩, if_neg fun both => both.2 rfl,
      movementLatency_links some, if_pos rfl, tile_part] at equal
    have latencies : ev.toInt (first + 1) = ev.toInt (first + 0) := Except.ok.inj equal
    rw [small _ (by omega) (by omega), small _ (by omega) (by omega)] at latencies
    omega
  · have other : producer_level ++ "2" ++ ev.target_level node ≠
        tile_level ++ "2" ++ ev.target_level node := fun equal => apart (link_inj equal)
    have link : decide (producer_level ++ "2" ++ ev.target_level node ≠
        tile_level ++ "2" ++ ev.target_level node) = true := decide_eq_true other
    obtain ⟨latency, value⟩ := @inputFrom_links ev node dm_tile dm_trans
      (fun key => decide (key ≠ tile_level ++ "2" ++ ev.target_level node)) 1 Nat.one_ne_zero
      producer_level link
    obtain ⟨trans_latency, first⟩ := @fromProducer_links ev node dm_trans
      (fun key => decide (key ≠ tile_level ++ "2" ++ ev.target_level node)) 1 Nat.one_ne_zero
      producer_level link
    rw [same, Evaluator.inputFrom, first, ok_bind, Evaluator.fromTile, if_pos ⟨moved, here⟩] at value
    simp only [movementLatency_links Nat.one_ne_zero, ne_eq, not_true, decide_false,
      Bool.false_eq_true, if_false] at value
    cases value

theorem source_of_call (tile : ev.get_type node = .Tile) (inner : node ≠ []) {latency : Int}
    (call : getInputLatency ev node dm_tile dm_trans = .ok latency)
    (moved : dm_trans > 0 ∨ dm_tile > 0) :
    ∃ source, findSource ev node (findCurrentNodePosition node) = .ok source := by
  have parent := parent_of_inner inner
  have kind : ev.get_type node ≠ .Scope := by
    rw [tile]
    exact NodeType.noConfusion
  rw [getInputLatency, if_neg kind] at call
  obtain ⟨trans_latency, first, call⟩ := bind_eq_ok.mp call
  obtain ⟨tile_latency, second, _⟩ := bind_eq_ok.mp call
  rcases moved with moved | moved
  · rw [transInputLatency, if_pos ⟨moved, parent⟩] at first
    obtain ⟨source, found, _⟩ := bind_eq_ok.mp first
    exact ⟨source, found⟩
  · rw [tileInputLatency, if_pos ⟨moved, parent⟩] at second
    obtain ⟨source, found, _⟩ := bind_eq_ok.mp second
    exact ⟨source, found⟩

theorem getInputLatency_of_none (tile : ev.get_type node = .Tile) (no_trans : ¬ dm_trans > 0)
    (no_tile : ¬ dm_tile > 0) :
    getInputLatency ev node dm_tile dm_trans = .ok (ev.toInt (0 + 0)) := by
  have kind : ev.get_type node ≠ .Scope := by
    rw [tile]
    exact NodeType.noConfusion
  rw [getInputLatency, if_neg kind, transInputLatency, if_neg fun both => no_trans both.1,
    tileInputLatency, if_neg fun both => no_tile both.1]
  rfl

/-- A call of `getInputLatency` that returns has found a source, if there is something to charge. -/
theorem chargedOnLinks_iff (small : ∀ n, 0 ≤ n → n ≤ 2 → ev.toInt n = n) (accepted : ev.Accepted)
    (tile : ev.get_type node = .Tile) (inner : node ≠ []) {latency : Int}
    (call : getInputLatency ev node dm_tile dm_trans = .ok latency) :
    ev.ChargedOnLinks node dm_tile dm_trans ↔ ev.OneSource node dm_tile dm_trans := by
  have found : (ev.root_.get? node).isSome := by
    cases at_node : ev.root_.get? node with
    | some sub => rfl
    | none =>
      rw [Evaluator.get_type, Evaluator.ori_node_, at_node] at tile
      cases tile
  have calls {source : String × Bool}
      (source_found : findSource ev node (findCurrentNodePosition node) = .ok source)
      (intercon_ : InterCon) : getInputLatency (ev.withLinks intercon_) node dm_tile dm_trans =
        (ev.withLinks intercon_).inputFrom node source.1 source.1 dm_tile dm_trans :=
    @getInputLatency_eq (ev.withLinks intercon_) node dm_tile dm_trans tile inner source
      ((findSource_withLinks _ _).trans source_found)
  unfold Evaluator.ChargedOnLinks Evaluator.OneSource
  cases takes : ev.takesProducer node with
  | false =>
    rw [if_neg Bool.false_ne_true]
    simp only [calls (findSource_tile accepted.root inner found takes)]
    constructor
    · exact fun same moved => producer_of_charged moved same
    · intro single intercon_
      by_cases moved : dm_trans > 0
      · rw [single moved]
      · rw [Evaluator.inputFrom, Evaluator.inputFrom, fromProducer_of_none moved,
          fromProducer_of_none moved]
  | true =>
    rw [if_pos rfl]
    by_cases nothing : ¬ dm_trans > 0 ∧ ¬ dm_tile > 0
    · constructor
      · exact fun _ moved => absurd moved nothing.2
      · intro _ intercon_
        rw [Evaluator.inputFrom, fromProducer_of_none nothing.1, fromTile_of_none nothing.2]
        exact @getInputLatency_of_none (ev.withLinks intercon_) node dm_tile dm_trans tile nothing.1
          nothing.2
    · have moved : dm_trans > 0 ∨ dm_tile > 0 := by omega
      obtain ⟨source, source_found⟩ := source_of_call tile inner call moved
      have producer := findSource_producer accepted found takes source_found
      simp only [calls source_found, producer]
      constructor
      · exact fun same moved => congrArg some (tile_of_charged small moved same)
      · intro single intercon_
        by_cases moved : dm_tile > 0
        · rw [Option.some_inj.mp (single moved)]
        · rw [Evaluator.inputFrom, Evaluator.inputFrom, fromTile_of_none moved,
            fromTile_of_none moved]

/-! The calls of a run. -/

def inputMovements (log : List Event) (node : NodePtr) (name : String) : List (Int × Int) :=
  log.filterMap fun
    | .charge eva true _ charges =>
      if eva = node then
        some (totalAmount (charges.filter fun charge => charge.tensor_name ≠ name),
          totalAmount (charges.filter fun charge => charge.tensor_name = name))
      else none
    | _ => none

def Evaluator.InputMovement (ev : Evaluator) (state : EvalState) (node : NodePtr)
    (dm_tile dm_trans : Int) : Prop :=
  ∃ name, transTensorName (state.tree.context ev state.leaf_vec_)
      (PerfAnalysis.initial state.tree).tally node = .ok name ∧
    (dm_tile, dm_trans) ∈ inputMovements state.log node name

def CallsLogged (ctx : PerfContext) (t : Tally) : Prop :=
  ∀ node name, node ≠ [] → transTensorName ctx t node = .ok name →
    ∀ moved ∈ inputMovements t.log node name,
      ∃ latency, getInputLatency ctx.ev node moved.1 moved.2 = .ok latency

def SameTransOutputs (ctx : PerfContext) (t t' : Tally) : Prop :=
  ∀ ptr, ctx.ev.get_type ptr = .Trans → t'.output_tensors_ ptr = t.output_tensors_ ptr

theorem transTensorName_same (same : SameTransOutputs ctx t t') (node : NodePtr) :
    transTensorName ctx t' node = transTensorName ctx t node := by
  unfold transTensorName
  simp only
  split
  · rfl
  · split
    · rfl
    · next prev_leaf _ =>
      by_cases trans : ctx.ev.get_type prev_leaf = .Trans
      · simp only [if_pos trans, same prev_leaf trans]
      · simp only [if_neg trans]

theorem inputMovements_append (log events : List Event) (node : NodePtr) (name : String) :
    inputMovements (log ++ events) node name =
      inputMovements log node name ++ inputMovements events node name :=
  List.filterMap_append

theorem CallsLogged.later {events : List Event} (logged : CallsLogged ctx t)
    (same : SameTransOutputs ctx t t') (log : t'.log = t.log ++ events)
    (others : ∀ node name, inputMovements events node name = []) : CallsLogged ctx t' := by
  intro node name inner named moved member
  rw [log, inputMovements_append, others, List.append_nil] at member
  rw [transTensorName_same same] at named
  exact logged node name inner named moved member

theorem enterTile_calls {loops : List LoopState}
    (call : PerfAnalysis.enterTile ctx (walkAt ctx node loops) t = .ok t') :
    ∃ name ins outs, transTensorName ctx t node = .ok name ∧
      t'.log = t.log ++ [.charge node true loops ins, .charge node false loops outs] ∧
      (∀ ptr, ptr ≠ node → t'.output_tensors_ ptr = t.output_tensors_ ptr) ∧
      (node ≠ [] → ∃ latency, getInputLatency ctx.ev node
        (totalAmount (ins.filter fun charge => charge.tensor_name ≠ name))
        (totalAmount (ins.filter fun charge => charge.tensor_name = name)) = .ok latency) := by
  obtain ⟨name, ins, outs, named, entered⟩ := enterTile_split call
  refine ⟨name, ins, outs, named, ?_, ?_, ?_⟩
  · rw [entered.result]
  · intro ptr apart
    rw [entered.result]
    exact Function.update_of_ne apart _ _
  · intro inner
    have latencies := entered.latencies
    rw [TransferLatencies, if_neg (parent_of_inner inner)] at latencies
    exact ⟨_, latencies.1⟩

theorem enterTile_sameTransOutputs {loops : List LoopState} (tile : ctx.ev.get_type node = .Tile)
    (call : PerfAnalysis.enterTile ctx (walkAt ctx node loops) t = .ok t') :
    SameTransOutputs ctx t t' := by
  obtain ⟨name, ins, outs, _, _, kept, _⟩ := enterTile_calls call
  intro ptr trans
  apply kept
  rintro rfl
  rw [tile] at trans
  cases trans

theorem CallsLogged.enterTile {loops : List LoopState} (logged : CallsLogged ctx t)
    (tile : ctx.ev.get_type node = .Tile)
    (call : PerfAnalysis.enterTile ctx (walkAt ctx node loops) t = .ok t') :
    CallsLogged ctx t' := by
  obtain ⟨name, ins, outs, named, log, _, called⟩ := enterTile_calls call
  intro ptr name' inner named' moved member
  rw [transTensorName_same (enterTile_sameTransOutputs tile call)] at named'
  rw [log, inputMovements_append] at member
  rcases List.mem_append.mp member with earlier | here
  · exact logged ptr name' inner named' moved earlier
  · by_cases own : node = ptr
    · subst own
      rw [named] at named'
      cases named'
      simp only [inputMovements, List.filterMap_cons, List.filterMap_nil, if_true,
        List.mem_singleton] at here
      rw [here]
      exact called inner
    · simp [inputMovements, own] at here

theorem callsLogged_parts (ctx : PerfContext) : Parts ctx fun t t' =>
    SameTransOutputs ctx t t' ∧ (CallsLogged ctx t → CallsLogged ctx t') where
  refl := fun _ => ⟨fun _ _ => rfl, id⟩
  trans := fun first second => ⟨fun ptr trans => (second.1 ptr trans).trans (first.1 ptr trans),
    fun logged => second.2 (first.2 logged)⟩
  enter := fun _ _ _ => ⟨fun _ _ => rfl, fun logged =>
    logged.later (fun _ _ => rfl) rfl fun _ _ => rfl⟩
  leave := fun _ _ => ⟨fun _ _ => rfl, fun logged =>
    logged.later (fun _ _ => rfl) rfl fun _ _ => rfl⟩
  setRow := fun _ _ _ => ⟨fun _ _ => rfl, id⟩
  clearSkew := fun _ _ _ => ⟨fun _ _ => rfl, id⟩
  advanceSkew := fun _ _ _ _ => ⟨fun _ _ => rfl, id⟩
  restoreSkew := fun _ _ _ => ⟨fun _ _ => rfl, id⟩
  op := fun _ _ _ _ => ⟨fun _ _ => rfl, fun logged =>
    logged.later (fun _ _ => rfl) rfl fun _ _ => rfl⟩
  transfer := fun _ _ _ _ _ call => by
    rw [transTally_eq_ok call]
    exact ⟨fun _ _ => rfl, id⟩
  enterTile := fun _ _ _ _ tile call =>
    ⟨enterTile_sameTransOutputs tile call, fun logged => logged.enterTile tile call⟩
  pushRow := fun _ _ _ _ call => by
    obtain ⟨_, rfl⟩ := pushRow_eq_ok call
    exact ⟨fun _ _ => rfl, fun logged => logged.later (fun _ _ => rfl) rfl fun _ _ => rfl⟩
  finishTile := fun t t' node _ call => by
    obtain ⟨latency, _, result⟩ := finishTile_eq_ok call
    have same : SameTransOutputs ctx t t' := by
      intro ptr _
      rw [result]
      split <;> rfl
    have log : t'.log = t.log ++ [.compute node (t.latency_vec_ node)] := by
      rw [result]
      split <;> rfl
    exact ⟨same, fun logged => logged.later same log fun _ _ => rfl⟩
  finishScope := fun t t' node _ call => by
    unfold finishScope at call
    split at call
    · cases call
    · cases call
      exact ⟨fun _ _ => rfl, id⟩

theorem Evaluator.Evaluated.called (evaluated : ev.Evaluated state tree t) (inner : node ≠ [])
    (movement : ev.InputMovement state node dm_tile dm_trans) :
    ∃ latency, getInputLatency ev node dm_tile dm_trans = .ok latency := by
  obtain ⟨name, named, member⟩ := movement
  rw [evaluated.log] at member
  have logged : CallsLogged (tree.context ev state.leaf_vec_) t := by
    refine ((callsLogged_parts (tree.context ev state.leaf_vec_)).visit [] ev.root_ rfl [] _ t
      evaluated.visited).2 fun node name _ _ moved none => ?_
    cases none
  have named' : transTensorName (tree.context ev state.leaf_vec_) t node = .ok name := by
    rw [evaluated.result] at named
    exact named
  exact logged node name inner named' _ member

/-- In a completed evaluation the inputs of a Tile below the root are charged on the links that they
    come through if and only if one source serves them. -/
theorem input_on_links_iff (small : ∀ n, 0 ≤ n → n ≤ 2 → ev.toInt n = n)
    (run : ev.evaluate ev.construct = .ok state)
    (tile : ev.get_type node = .Tile) (inner : node ≠ [])
    (movement : ev.InputMovement state node dm_tile dm_trans) :
    ev.ChargedOnLinks node dm_tile dm_trans ↔ ev.OneSource node dm_tile dm_trans := by
  obtain ⟨tree, t, evaluated⟩ := Evaluator.evaluate_eq_ok run
  obtain ⟨latency, call⟩ := evaluated.called inner movement
  exact chargedOnLinks_iff small evaluated.accepted tile inner call

def staged (ins : List String) : Evaluator :=
  Config.evaluator
    (Config.workloads [("copy", ⟨["A"], "B"⟩), ("add", ⟨ins, "D"⟩), ("scale", ⟨["D"], "E"⟩)]
      [("M", 4)] [("A", ["M"]), ("B", ["M"]), ("C", ["M"]), ("D", ["M"]), ("E", ["M"])])
    1 [("Main2Cube", ⟨1, .HD, 0, 1⟩), ("Cube2UB", ⟨4, .HD, 0, 1⟩), ("Main2UB", ⟨1, .HD, 0, 1⟩),
      ("UB2Vec", ⟨1, .HD, 0, 1⟩), ("Vec2L1", ⟨1, .HD, 0, 1⟩)]
    (Config.tile .Temporal "Main" [Config.loop "M" 1 1]
      [Config.scope .Sequential
        [Config.op "Cube" "copy" [Config.loop "M" 4 4], Config.trans "UB",
          .mk ⟨"Tile", "UB", .Forward, .Tile .Temporal [Config.loop "M" 4 4]⟩
            [Config.op "Vec" "add" [Config.loop "M" 1 1]],
          Config.trans "L1", Config.op "Vec" "scale" [Config.loop "M" 4 4]]])

theorem exists_movement {name : String}
    (computed : ((ev.evaluate ev.construct).toOption.map fun state =>
      (transTensorName (state.tree.context ev state.leaf_vec_) (PerfAnalysis.initial state.tree).tally
        node, inputMovements state.log node name)) = some (.ok name, [(dm_tile, dm_trans)])) :
    ∃ state, ev.evaluate ev.construct = .ok state ∧
      ev.InputMovement state node dm_tile dm_trans := by
  cases run : ev.evaluate ev.construct with
  | error fault =>
    rw [run] at computed
    cases computed
  | ok state =>
    rw [run] at computed
    obtain ⟨named, moved⟩ := Prod.mk.inj (Option.some_inj.mp computed)
    exact ⟨state, rfl, name, named, moved ▸ List.mem_singleton_self _⟩

theorem input_on_links_staged : ∃ state, (staged ["B"]).evaluate (staged ["B"]).construct = .ok state ∧
    (staged ["B"]).InputMovement state [2, 0] 0 4 ∧ (staged ["B"]).ChargedOnLinks [2, 0] 0 4 := by
  obtain ⟨state, run, movement⟩ :=
    @exists_movement (staged ["B"]) [2, 0] 0 4 "B" (by decide +kernel)
  have served : (staged ["B"]).OneSource [2, 0] 0 4 := by
    intro moved
    have takes : (staged ["B"]).takesProducer [2, 0] = true := by decide +kernel
    rw [if_pos takes] at moved
    cases moved
  exact ⟨state, run, movement, (input_on_links_iff (fun _ _ _ => rfl) run (by decide +kernel) (by decide)
    movement).mpr served⟩

/-- The operand from memory is charged on the link from the producer. -/
theorem input_on_links_mixed : ∃ state, (staged ["B", "C"]).evaluate (staged ["B", "C"]).construct =
      .ok state ∧ (staged ["B", "C"]).InputMovement state [2, 0] 4 4 ∧
    getInputLatency (staged ["B", "C"]) [2, 0] 4 4 = .ok 2 ∧
    (staged ["B", "C"]).inputFrom [2, 0] ((staged ["B", "C"]).producerLevel [2, 0])
      ((staged ["B", "C"]).tileLevel [2, 0]) 4 4 = .ok 5 := by
  obtain ⟨state, run, movement⟩ :=
    @exists_movement (staged ["B", "C"]) [2, 0] 4 4 "B" (by decide +kernel)
  exact ⟨state, run, movement, by decide +kernel, by decide +kernel⟩

end TileExp.Analysis
