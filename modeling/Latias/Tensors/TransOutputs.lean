import Latias.Tensors.ProducerPath

/-! The tensors that a Trans hands on: those whose producer stands before it and whose consumer
    stands after it, and the output of the last op. -/

namespace TileExp.Analysis

open Checked

structure Evaluator.NearestOp (ev : Evaluator) (leaf_vec_ : List NodePtr) (leaf producer : NodePtr) :
    Prop where
  op : ev.IsOp producer
  before : leaf_vec_.idxOf producer < leaf_vec_.idxOf leaf
  nearest : ∀ op, ev.IsOp op → leaf_vec_.idxOf op < leaf_vec_.idxOf leaf →
    leaf_vec_.idxOf op ≤ leaf_vec_.idxOf producer

/-- Every Trans behind an Op has one output: that of the nearest Op before it. -/
def Evaluator.CarriesOne (ev : Evaluator) (leaf_vec_ : List NodePtr) (tables : EvaTensors) : Prop :=
  ∀ leaf ∈ leaf_vec_, ev.get_type leaf = .Trans → ∀ producer, ev.NearestOp leaf_vec_ leaf producer →
    ∃ tensor, ev.Produces producer tensor ∧ (tables.output_tensors_ leaf).keys = [tensor]

/-- Across a Trans, ops read the output of the nearest Op before it and of no earlier one, and some
    op reads that output unless no op follows. -/
def Evaluator.HandsOn (ev : Evaluator) (leaf_vec_ : List NodePtr) : Prop :=
  ∀ leaf ∈ leaf_vec_, ev.get_type leaf = .Trans → ∀ producer, ev.NearestOp leaf_vec_ leaf producer →
    ((∀ op, ev.IsOp op → leaf_vec_.idxOf op < leaf_vec_.idxOf leaf) ∨
      ∃ consumer tensor, ev.IsOp consumer ∧ leaf_vec_.idxOf leaf < leaf_vec_.idxOf consumer ∧
        ev.Produces producer tensor ∧ ev.Consumes consumer tensor) ∧
    ∀ op consumer tensor, ev.IsOp op → leaf_vec_.idxOf op < leaf_vec_.idxOf producer →
      ev.IsOp consumer → leaf_vec_.idxOf leaf < leaf_vec_.idxOf consumer →
        ev.Produces op tensor → ¬ ev.Consumes consumer tensor

namespace InitAnalysis

variable {ev : Evaluator} {producers : Producers} {leaf_vec_ : List NodePtr} {tables : EvaTensors}
  {node leaf producer consumer : NodePtr} {tensor : String}

theorem mem_drop_iff {l : List NodePtr} (nodup : l.Nodup) (member : node ∈ l) (n : Nat) :
    node ∈ l.drop n ↔ n ≤ l.idxOf node := by
  rw [← Nat.not_lt, ← List.mem_take_iff_idxOf_lt member]
  rw [← List.take_append_drop n l] at nodup member
  have apart := (List.nodup_append.mp nodup).2.2
  constructor
  · exact fun later earlier => apart node earlier node later rfl
  · exact fun other => (List.mem_append.mp member).resolve_left other

theorem mem_between_iff {l : List NodePtr} (nodup : l.Nodup) (member : node ∈ l) (n m : Nat) :
    node ∈ (l.drop n).take m ↔ n ≤ l.idxOf node ∧ l.idxOf node < n + m := by
  have prefixed : l.take (n + m) <+: l := List.take_prefix (n + m) l
  rw [List.take_drop]
  by_cases early : node ∈ l.take (n + m)
  · rw [mem_drop_iff (nodup.sublist prefixed.sublist) early, prefixed.idxOf_eq_of_mem early]
    exact (and_iff_left ((List.mem_take_iff_idxOf_lt member).mp early)).symm
  · have late := mt (List.mem_take_iff_idxOf_lt member).mpr early
    constructor
    · exact fun inside => absurd (List.mem_of_mem_drop inside) early
    · exact fun both => absurd both.2 late

theorem leaf_of_op (init : TensorsInit ev producers leaf_vec_ tables) (op : ev.IsOp node) :
    node ∈ leaf_vec_ := by
  rw [init.leaves, List.mem_filter]
  exact ⟨(isOp_iff.mp op).1, by simp [isLeaf, op.2]⟩

theorem nodup_leaf_vec (init : TensorsInit ev producers leaf_vec_ tables) : leaf_vec_.Nodup := by
  rw [init.leaves]
  exact leaves_nodup

theorem leaf_apart (init : TensorsInit ev producers leaf_vec_ tables) (leaves : ev.LeafOps)
    (first : leaf ∈ leaf_vec_) (second : node ∈ leaf_vec_) : leaf ∉ Rose.ancestors node := by
  rw [init.leaves, List.mem_filter] at first second
  intro above
  have inner := not_isLeaf_of_ancestor leaves (mem_positions.mp second.1) above
  rw [first.2] at inner
  cases inner

theorem mem_producer_path (init : TensorsInit ev producers leaf_vec_ tables)
    (root : ev.get_type [] = .Tile) (leaves : ev.LeafOps) (made : ev.IsOp producer)
    (used : ev.IsOp consumer) (member : leaf ∈ leaf_vec_) {paths : CommonNodePath}
    (call : findCommonNode ev leaf_vec_ producer consumer = .ok paths) :
    leaf ∈ paths.producer_path_ ↔ leaf_vec_.idxOf producer < leaf_vec_.idxOf leaf ∧
      leaf_vec_.idxOf leaf < leaf_vec_.idxOf consumer := by
  have not_root {op : NodePtr} (kind : ev.IsOp op) : op ≠ [] := by
    rintro rfl
    cases root.symm.trans kind.2
  obtain ⟨before, j, common, scan, _, _, _⟩ :=
    scan_common root leaves made.1 (not_root made) (not_root used)
  rw [findCommonNode, scan] at call
  simp only at call
  split at call
  · next adjacent =>
    split at call
    · cases call
    · cases call
      have outside := leaf_apart init leaves member (leaf_of_op init made)
      constructor
      · exact fun inside => absurd (List.mem_of_mem_take inside) outside
      · intro between
        omega
  · next apart =>
    cases call
    rw [mem_between_iff (nodup_leaf_vec init) member]
    omega

theorem idxOf_split {before after : List NodePtr}
    (split : leaf_vec_ = before ++ node :: after) (nodup : leaf_vec_.Nodup) :
    leaf_vec_.idxOf node = before.length := by
  subst split
  have absent : node ∉ before := fun member =>
    (List.nodup_append.mp nodup).2.2 node member node List.mem_cons_self rfl
  rw [List.idxOf_append_of_notMem absent, List.idxOf_cons_self, Nat.add_zero]

theorem isLastOp_iff (init : TensorsInit ev producers leaf_vec_ tables) :
    ev.IsLastOp producer ↔ ev.IsOp producer ∧
      ∀ op, ev.IsOp op → leaf_vec_.idxOf op ≤ leaf_vec_.idxOf producer := by
  have nodup := nodup_leaf_vec init
  have leaf_split {before after : List NodePtr}
      (split : Rose.postorder [] ev.root_ = before ++ producer :: after)
      (op : ev.get_type producer = .Op) :
      leaf_vec_ = before.filter (isLeaf ev) ++ producer :: after.filter (isLeaf ev) := by
    rw [init.leaves, split, List.filter_append, List.filter_cons_of_pos (by simp [isLeaf, op])]
  constructor
  · rintro ⟨before, after, split, kind, last⟩
    have own : ev.IsOp producer := isOp_iff.mpr ⟨by simp [split], kind⟩
    refine ⟨own, fun op other => ?_⟩
    have parts := leaf_split split kind
    rw [idxOf_split parts nodup]
    have member := leaf_of_op init other
    rw [parts] at member ⊢
    rcases List.mem_append.mp member with earlier | later
    · rw [List.idxOf_append_of_mem earlier]
      exact Nat.le_of_lt (List.idxOf_lt_length_of_mem earlier)
    · rcases List.mem_cons.mp later with rfl | later
      · exact Nat.le_of_eq (idxOf_split rfl (parts ▸ nodup))
      · exact absurd other.2 (last op (List.mem_filter.mp later).1)
  · rintro ⟨own, last⟩
    obtain ⟨before, after, split⟩ := List.append_of_mem (isOp_iff.mp own).1
    refine ⟨before, after, split, own.2, fun op later kind => ?_⟩
    have parts := leaf_split split own.2
    have other : ev.IsOp op := isOp_iff.mpr ⟨by simp [split, later], kind⟩
    have inside : op ∈ after.filter (isLeaf ev) :=
      List.mem_filter.mpr ⟨later, by simp [isLeaf, kind]⟩
    obtain ⟨front, back, rest⟩ := List.append_of_mem inside
    have longer : leaf_vec_ =
        (before.filter (isLeaf ev) ++ producer :: front) ++ op :: back := by
      rw [parts, rest, List.append_assoc, List.cons_append]
    have bound := last op other
    rw [idxOf_split parts nodup, idxOf_split longer nodup, List.length_append, List.length_cons]
      at bound
    omega

theorem producer_unique (init : TensorsInit ev producers leaf_vec_ tables) {other : NodePtr}
    (op : ev.IsOp producer) (op' : ev.IsOp other) (made : ev.Produces producer tensor)
    (made' : ev.Produces other tensor) : producer = other := by
  have first := (init.producer_map_ tensor _ producer).mpr ⟨op, made, rfl⟩
  have second := (init.producer_map_ tensor _ other).mpr ⟨op', made', rfl⟩
  cases first.symm.trans second
  rfl

theorem produces_unique {tensor' : String} (made : ev.Produces node tensor)
    (made' : ev.Produces node tensor') : tensor = tensor' := by
  obtain ⟨workload, call, rfl⟩ := made
  obtain ⟨workload', call', rfl⟩ := made'
  cases call.symm.trans call'
  rfl

theorem mem_outputPath_of_leaf (init : TensorsInit ev producers leaf_vec_ tables)
    (leaves : ev.LeafOps) (member : leaf ∈ leaf_vec_) (last : NodePtr) :
    leaf ∈ outputPath leaf_vec_ last ↔ leaf_vec_.idxOf last ≤ leaf_vec_.idxOf leaf := by
  rw [outputPath, List.mem_append, mem_drop_iff (nodup_leaf_vec init) member]
  apply or_iff_left
  cases final : leaf_vec_.getLast? with
  | none => exact List.not_mem_nil
  | some final_leaf => exact leaf_apart init leaves member (List.mem_of_getLast? final)

theorem mem_trans_outputs (init : TensorsInit ev producers leaf_vec_ tables)
    (root : ev.get_type [] = .Tile) (leaves : ev.LeafOps) (member : leaf ∈ leaf_vec_)
    (trans : ev.get_type leaf = .Trans) : tensor ∈ tables.output_tensors_ leaf ↔
      (∃ last, ev.IsLastOp last ∧ ev.Produces last tensor ∧
        leaf_vec_.idxOf last < leaf_vec_.idxOf leaf) ∨
      ∃ producer consumer, ev.IsOp producer ∧ ev.IsOp consumer ∧ ev.Produces producer tensor ∧
        ev.Consumes consumer tensor ∧ leaf_vec_.idxOf producer < leaf_vec_.idxOf leaf ∧
          leaf_vec_.idxOf leaf < leaf_vec_.idxOf consumer := by
  have other {op : NodePtr} (own : ev.IsOp op) : op ≠ leaf := by
    rintro rfl
    cases own.2.symm.trans trans
  have plain : ¬ (ev.IsOp leaf ∧ ev.Produces leaf tensor) := fun own => other own.1 rfl
  rw [init.outputs, or_assoc, or_iff_right plain]
  apply or_congr
  · apply exists_congr
    intro last
    apply and_congr_right
    intro is_last
    apply and_congr_right
    intro _
    have own := ((isLastOp_iff init).mp is_last).1
    have apart : leaf_vec_.idxOf last ≠ leaf_vec_.idxOf leaf := fun same =>
      other own ((List.idxOf_inj (leaf_of_op init own)).mp same)
    rw [mem_outputPath_of_leaf init leaves member]
    omega
  · constructor
    · rintro ⟨consumer, used, reads, path⟩
      unfold producerPath at path
      cases known : producers.lookup tensor with
      | none =>
        rw [known] at path
        cases path
      | some entry =>
        obtain ⟨m, producer⟩ := entry
        obtain ⟨made, produces, _⟩ := (init.producer_map_ tensor m producer).mp known
        obtain ⟨paths, call⟩ := init.found consumer tensor _ used reads known
        simp only [known, call] at path
        have between := (mem_producer_path init root leaves made used member call).mp path
        exact ⟨producer, consumer, made, used, produces, reads, between⟩
    · rintro ⟨producer, consumer, made, used, produces, reads, between⟩
      have known := (init.producer_map_ tensor _ producer).mpr ⟨made, produces, rfl⟩
      obtain ⟨paths, call⟩ := init.found consumer tensor _ used reads known
      refine ⟨consumer, used, reads, ?_⟩
      unfold producerPath
      simp only [known, call]
      exact (mem_producer_path init root leaves made used member call).mpr between

/-- After `InitAnalysis::run` every Trans behind an Op has the output of the nearest one, and nothing
    else, if and only if the ops hand their outputs on in this way. -/
theorem trans_carries_one_iff {tree tree' : EvaTree} (root : ev.get_type [] = .Tile)
    (leaves : ev.LeafOps) (empty : tree.NoTensors)
    (run : InitAnalysis.run ev tree = .ok (tree', leaf_vec_)) :
    ev.CarriesOne leaf_vec_ tree'.toEvaTensors ↔ ev.HandsOn leaf_vec_ := by
  obtain ⟨producers, init⟩ := run_tensors empty run
  have handed {leaf tensor} (member : leaf ∈ leaf_vec_) (trans : ev.get_type leaf = .Trans) :=
    @mem_trans_outputs ev producers leaf_vec_ tree'.toEvaTensors leaf tensor init root leaves member
      trans
  constructor
  · intro carries leaf member trans producer nearest
    obtain ⟨tensor, made, keys⟩ := carries leaf member trans producer nearest
    have only (t : String) : t ∈ tree'.output_tensors_ leaf ↔ t = tensor := by
      rw [AList.mem_keys, keys, List.mem_singleton]
    constructor
    · rcases (handed member trans).mp ((only tensor).mpr rfl) with
        ⟨last, is_last, _, before⟩ | ⟨op, consumer, own, used, made', reads, _, after⟩
      · exact Or.inl fun op own => Nat.lt_of_le_of_lt (((isLastOp_iff init).mp is_last).2 op own) before
      · cases producer_unique init nearest.op own made made'
        exact Or.inr ⟨consumer, tensor, used, after, made, reads⟩
    · intro op consumer t own before used after made' reads
      have output := (handed member trans).mpr (Or.inr ⟨op, consumer, own, used, made', reads,
        Nat.lt_trans before nearest.before, after⟩)
      cases (only t).mp output
      cases producer_unique init nearest.op own made made'
      exact Nat.lt_irrefl _ before
  · intro hands leaf member trans producer nearest
    obtain ⟨reach, alone⟩ := hands leaf member trans producer nearest
    obtain ⟨tensor, made⟩ := init.called producer nearest.op
    have only (t : String) : t ∈ tree'.output_tensors_ leaf ↔ t = tensor := by
      rw [handed member trans]
      constructor
      · rintro (⟨last, is_last, made', before⟩ |
          ⟨op, consumer, own, used, made', reads, before, after⟩)
        · obtain ⟨own, latest⟩ := (isLastOp_iff init).mp is_last
          have same := Nat.le_antisymm (nearest.nearest last own before) (latest producer nearest.op)
          cases (List.idxOf_inj (leaf_of_op init own)).mp same
          exact produces_unique made' made
        · rcases Nat.lt_or_eq_of_le (nearest.nearest op own before) with earlier | same
          · exact absurd reads (alone op consumer t own earlier used after made')
          · cases (List.idxOf_inj (leaf_of_op init own)).mp same
            exact produces_unique made' made
      · rintro rfl
        rcases reach with all | ⟨consumer, t', used, after, made', reads⟩
        · have is_last := (isLastOp_iff init).mpr ⟨nearest.op, fun op own =>
            nearest.nearest op own (all op own)⟩
          exact Or.inl ⟨producer, is_last, made, nearest.before⟩
        · cases produces_unique made made'
          exact Or.inr ⟨producer, consumer, nearest.op, used, made, reads, nearest.before, after⟩
    refine ⟨tensor, made, ?_⟩
    apply List.perm_singleton.mp
    apply (List.perm_ext_iff_of_nodup (AList.keys_nodup _) (List.nodup_singleton tensor)).mpr
    intro t
    rw [← AList.mem_keys, only, List.mem_singleton]

def joined (ins : List String) : Evaluator :=
  Config.evaluator
    (Config.workloads [("first", ⟨["A"], "B"⟩), ("second", ⟨["C"], "D"⟩), ("third", ⟨ins, "E"⟩)]
      [("M", 4)] [("A", ["M"]), ("B", ["M"]), ("C", ["M"]), ("D", ["M"]), ("E", ["M"])]) 1 []
    (Config.tile .Temporal "Main" [Config.loop "M" 4 4]
      [Config.scope .Sequential
        [Config.op "Cube" "first" [Config.loop "M" 1 1],
          Config.op "Cube" "second" [Config.loop "M" 1 1], Config.trans "UB",
          Config.op "Vec" "third" [Config.loop "M" 1 1]]])

theorem trans_carries_one_joined :
    ∃ tree' leaf_vec_, InitAnalysis.run (joined ["D"]) (EvaTree.fresh (joined ["D"])) =
        .ok (tree', leaf_vec_) ∧
      ((joined ["D"]).CarriesOne leaf_vec_ tree'.toEvaTensors ↔ (joined ["D"]).HandsOn leaf_vec_) := by
  have completed : (InitAnalysis.run (joined ["D"]) (EvaTree.fresh (joined ["D"]))).isOk = true := by
    decide +kernel
  obtain ⟨⟨tree', leaf_vec_⟩, run⟩ := exists_of_isOk completed
  exact ⟨tree', leaf_vec_, run, trans_carries_one_iff (by decide) (by decide +kernel)
    ⟨fun _ => rfl, fun _ => rfl⟩ run⟩

/-- An op behind the Trans that reads both results makes it carry two tensors. -/
theorem trans_carries_two :
    ∃ tree' leaf_vec_, InitAnalysis.run (joined ["B", "D"]) (EvaTree.fresh (joined ["B", "D"])) =
        .ok (tree', leaf_vec_) ∧
      ¬ (joined ["B", "D"]).CarriesOne leaf_vec_ tree'.toEvaTensors := by
  have computed : ((InitAnalysis.run (joined ["B", "D"])
      (EvaTree.fresh (joined ["B", "D"]))).toOption.map fun result =>
        (result.2, (result.1.output_tensors_ [2, 0]).keys)) =
      some ([[0, 0], [1, 0], [2, 0], [3, 0]], ["D", "B"]) := by
    decide +kernel
  cases run : InitAnalysis.run (joined ["B", "D"]) (EvaTree.fresh (joined ["B", "D"])) with
  | error fault =>
    rw [run] at computed
    cases computed
  | ok result =>
    rw [run] at computed
    obtain ⟨leaves, keys⟩ := Prod.mk.inj (Option.some_inj.mp computed)
    refine ⟨result.1, result.2, rfl, fun carries => ?_⟩
    rw [leaves] at carries
    have nearest : (joined ["B", "D"]).NearestOp [[0, 0], [1, 0], [2, 0], [3, 0]] [2, 0] [1, 0] :=
      ⟨⟨by decide +kernel, by decide +kernel⟩, by decide, fun op _ bound => Nat.le_of_lt_succ bound⟩
    obtain ⟨tensor, _, single⟩ := carries [2, 0] (by decide) (by decide +kernel) [1, 0] nearest
    have both : ["D", "B"] = [tensor] := keys.symm.trans single
    cases both

end InitAnalysis

end TileExp.Analysis
