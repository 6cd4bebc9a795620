import Latias.Latencies.Runnable

/-! Nothing but the name of the tensor behind a Trans depends on the order of the hash tables. -/

namespace TileExp.Analysis

open Checked LoopNest

def Evaluator.withHash (ev : Evaluator) (hash_ : HashOrder) : Evaluator := { ev with hash_ }

def PerfContext.withHash (ctx : PerfContext) (hash_ : HashOrder) : PerfContext :=
  { ctx with ev := ctx.ev.withHash hash_ }

def Evaluator.leafAhead (ev : Evaluator) (leaf_vec_ : List NodePtr) (node : NodePtr) :
    Option NodePtr :=
  match leaf_vec_.idxOf (findFirstLeaf node (ev.ori_node_ node)) with
  | 0 => none
  | current_leaf_idx + 1 => leaf_vec_[current_leaf_idx]?

/-- The Trans that stand before the Tiles of a run have at most one output. -/
def Evaluator.SingleAhead (ev : Evaluator) (tree : EvaTree) (leaf_vec_ : List NodePtr) : Prop :=
  ∀ node ∈ Rose.postorder [] ev.root_, ev.Visited .Tile node →
    ∀ leaf ∈ ev.leafAhead leaf_vec_ node, ev.get_type leaf = .Trans →
      (tree.output_tensors_ leaf).keys.length ≤ 1

instance (ev : Evaluator) (tree : EvaTree) (leaf_vec_ : List NodePtr) :
    Decidable (ev.SingleAhead tree leaf_vec_) := by
  unfold Evaluator.SingleAhead
  infer_instance

variable {ev : Evaluator} {ctx : PerfContext} {hash_ : HashOrder} {node ptr : NodePtr} {tree : EvaTree}
  {leaf_vec_ : List NodePtr} {loops : List LoopState} {t t' : Tally} {is_input : Bool}
  {Inv : Tally → Prop}

/-! The passes before `PerfAnalysis`. -/

-- None of these functions mentions the order, so each is the same function, recursion and all.

theorem traverse_withHash {σ : Type} : @traverse σ (ev.withHash hash_) = traverse ev := by
  delta traverse
  rfl

namespace InitAnalysis

theorem BFSOffsetLoop_withHash : BFSOffsetLoop (ev.withHash hash_) = BFSOffsetLoop ev := by
  delta BFSOffsetLoop bfsOffsetLoop
  rfl

theorem firstChildOffset_withHash :
    firstChildOffset (ev.withHash hash_) = firstChildOffset ev := by
  funext offsets dim_name children
  induction children with
  | nil => rfl
  | cons eva_child rest ih => rw [firstChildOffset, firstChildOffset, BFSOffsetLoop_withHash, ih]

theorem getOffset_withHash : getOffset (ev.withHash hash_) = getOffset ev := by
  have each : setOffset (ev.withHash hash_) = setOffset ev := by
    unfold setOffset
    rw [firstChildOffset_withHash]
    rfl
  unfold getOffset
  rw [each]

theorem scanTarget_withHash : scanTarget (ev.withHash hash_) = scanTarget ev := by
  delta scanTarget
  rfl

theorem scanSource_withHash : scanSource (ev.withHash hash_) = scanSource ev := by
  funext target_path i j source_path
  induction source_path generalizing i j with
  | nil => rfl
  | cons source rest ih =>
    rw [scanSource, scanSource, scanTarget_withHash]
    simp only [ih]
    rfl

theorem initTensors_withHash : initTensors (ev.withHash hash_) = initTensors ev := by
  have input : initInputTensor (ev.withHash hash_) = initInputTensor ev := by
    unfold initInputTensor findCommonNode
    rw [scanSource_withHash]
  funext dimName current_node_ tensors s
  induction tensors generalizing s with
  | nil => rfl
  | cons tensor rest ih =>
    cases rest with
    | nil => rfl
    | cons next_tensor rest =>
      rw [initTensors, initTensors, input]
      · simp only [ih]
      · exact List.cons_ne_nil _ _
      · exact List.cons_ne_nil _ _

theorem initTensor_withHash : initTensor (ev.withHash hash_) = initTensor ev := by
  unfold initTensor
  rw [initTensors_withHash]
  rfl

theorem run_withHash (tree : EvaTree) : run (ev.withHash hash_) tree = run ev tree := by
  unfold run passes
  rw [traverse_withHash, getOffset_withHash, initTensor_withHash]
  rfl

end InitAnalysis

theorem prepare_withHash : (ev.withHash hash_).prepare = ev.prepare := by
  have init : InitAnalysis.run (ev.withHash hash_) = InitAnalysis.run ev :=
    funext InitAnalysis.run_withHash
  unfold Evaluator.prepare GetLoopCount.run
  rw [traverse_withHash, init]
  rfl

/-! The latencies. -/

theorem climbToTile_withHash : climbToTile (ev.withHash hash_) = climbToTile ev := by
  delta climbToTile
  rfl

theorem findSource_withHash : findSource (ev.withHash hash_) = findSource ev := by
  unfold findSource tileSource parentTileLevel
  rw [climbToTile_withHash]
  rfl

theorem findTarget_withHash : findTarget (ev.withHash hash_) = findTarget ev := by
  have trans : climbToTrans (ev.withHash hash_) = climbToTrans ev := by
    delta climbToTrans
    rfl
  unfold findTarget parentTileLevel
  rw [climbToTile_withHash, trans]
  rfl

theorem getInputLatency_withHash : getInputLatency (ev.withHash hash_) = getInputLatency ev := by
  unfold getInputLatency transInputLatency tileInputLatency
  rw [findSource_withHash]
  rfl

theorem getOutputLatency_withHash : getOutputLatency (ev.withHash hash_) = getOutputLatency ev := by
  unfold getOutputLatency
  rw [findTarget_withHash]
  rfl

theorem computeScopeLatency_withHash :
    computeScopeLatency (ev.withHash hash_) = computeScopeLatency ev := by
  have row : scopeLatencyLoop (ev.withHash hash_) = scopeLatencyLoop ev := by
    delta scopeLatencyLoop
    rfl
  unfold computeScopeLatency
  rw [row]
  rfl

theorem temporalLatency_withHash : temporalLatency (ev.withHash hash_) = temporalLatency ev := by
  funext node scopeType total_latency rows
  induction rows generalizing total_latency with
  | nil => rfl
  | cons latency rest ih =>
    simp only [temporalLatency, computeScopeLatency_withHash, ih]

theorem groupLatency_withHash : groupLatency (ev.withHash hash_) = groupLatency ev := by
  funext node scopeType interConType totals group
  induction group generalizing totals with
  | nil => rfl
  | cons latency rest ih =>
    rw [groupLatency, groupLatency, computeScopeLatency_withHash]
    simp only [ih]

theorem spatialLatency_withHash : spatialLatency (ev.withHash hash_) = spatialLatency ev := by
  funext node scopeType interConType fanout_ repeat_ latency_vec i total_latency result_latency rounds
  induction rounds generalizing i total_latency result_latency with
  | zero => rfl
  | succ rounds ih =>
    rw [spatialLatency, spatialLatency, groupLatency_withHash]
    simp only [ih]

theorem computeLatency_withHash : computeLatency (ev.withHash hash_) = computeLatency ev := by
  unfold computeLatency
  rw [temporalLatency_withHash, spatialLatency_withHash]
  rfl

/-! A run. -/

theorem begin_of_single {keys : List String} (single : keys.length ≤ 1) (some : keys ≠ [])
    (first second : HashOrder) : first.begin_ keys = second.begin_ keys := by
  obtain ⟨key, rfl⟩ : ∃ key, keys = [key] :=
    List.length_eq_one_iff.mp (Nat.le_antisymm single (List.length_pos_of_ne_nil some))
  have here := first.begin_mem [key] some
  have there := second.begin_mem [key] some
  rw [List.mem_singleton.mp here, List.mem_singleton.mp there]

theorem transTensorName_withHash (single : ∀ leaf ∈ ctx.ev.leafAhead ctx.leaf_vec_ node,
      ctx.ev.get_type leaf = .Trans → (t.output_tensors_ leaf).keys.length ≤ 1) :
    transTensorName (ctx.withHash hash_) t node = transTensorName ctx t node := by
  have leaves : (ctx.withHash hash_).leaf_vec_ = ctx.leaf_vec_ := rfl
  have first : (ctx.withHash hash_).ev.ori_node_ node = ctx.ev.ori_node_ node := rfl
  unfold Evaluator.leafAhead at single
  simp only [transTensorName, leaves, first]
  split
  · rfl
  · next current_leaf_idx place =>
    rw [place] at single
    split
    · rfl
    · next leaf listed =>
      by_cases trans : ctx.ev.get_type leaf = .Trans
      · have keys := single leaf listed trans
        rw [if_pos trans]
        refine (if_pos trans).trans ?_
        by_cases none : (t.output_tensors_ leaf).keys = []
        · rw [if_pos none, if_pos none]
        · rw [if_neg none, if_neg none]
          exact congrArg _ (begin_of_single keys none hash_ ctx.ev.hash_)
      · rw [if_neg trans]
        exact if_neg trans

theorem chargeTensor_withHash (w : Walk) :
    chargeTensor (ctx.withHash hash_) w = chargeTensor ctx w := by
  have search : BFSOffsetLoop (ctx.withHash hash_).ev = BFSOffsetLoop ctx.ev :=
    InitAnalysis.BFSOffsetLoop_withHash
  have range : currentDimRange (ctx.withHash hash_) w = currentDimRange ctx w := by
    unfold currentDimRange
    rw [search]
    rfl
  unfold chargeTensor currentTensorMap
  rw [range]

theorem addCurrentTensor_withHash {w : Walk}
    (named : transTensorName (ctx.withHash hash_) t w.current_node_ =
      transTensorName ctx t w.current_node_) :
    addCurrentTensor (ctx.withHash hash_) w is_input t = addCurrentTensor ctx w is_input t := by
  simp only [addCurrentTensor, named, chargeTensor_withHash]

namespace LoopNest

theorem enterTile_withHash (named : ∀ t', t'.output_tensors_ = t.output_tensors_ →
      transTensorName (ctx.withHash hash_) t' node = transTensorName ctx t' node) :
    PerfAnalysis.enterTile (ctx.withHash hash_) (walkAt (ctx.withHash hash_) node loops) t =
      PerfAnalysis.enterTile ctx (walkAt ctx node loops) t := by
  have walk : walkAt (ctx.withHash hash_) node loops = walkAt ctx node loops := rfl
  have input : getInputLatency (ctx.withHash hash_).ev = getInputLatency ctx.ev :=
    getInputLatency_withHash
  have output : getOutputLatency (ctx.withHash hash_).ev = getOutputLatency ctx.ev :=
    getOutputLatency_withHash
  have current : (walkAt ctx node loops).current_node_ = node := rfl
  unfold PerfAnalysis.enterTile
  rw [walk, input, output, addCurrentTensor_withHash (current ▸ named t rfl)]
  apply bind_congr_of_ok
  rintro ⟨t₁, input_tile, input_trans⟩ first
  have outputs : t₁.output_tensors_ = t.output_tensors_ := by
    obtain ⟨_, _, _, _, _, _, rfl⟩ := addCurrentTensor_input first
    rfl
  dsimp only
  rw [addCurrentTensor_withHash (current ▸ named t₁ outputs)]

structure SameEntries (ctx : PerfContext) (hash_ : HashOrder) (Inv : Tally → Prop) : Prop where
  keeps : Parts ctx fun t t' => Inv t → Inv t'
  enterTile : ∀ node loops t, Inv t → (ctx.ev.root_.get? node).isSome → ctx.ev.Reached node →
    ctx.ev.get_type node = .Tile →
      PerfAnalysis.enterTile (ctx.withHash hash_) (walkAt (ctx.withHash hash_) node loops) t =
        PerfAnalysis.enterTile ctx (walkAt ctx node loops) t

namespace SameEntries

theorem tileLoops (same : SameEntries ctx hash_ Inv) (found : (ctx.ev.root_.get? node).isSome)
    (reached : ctx.ev.Reached node) (tile : ctx.ev.get_type node = .Tile)
    {body body' : List LoopState → Tally → Exec Tally}
    (inner : ∀ loops t, Inv t → body' loops t = body loops t)
    (kept : ∀ loops t t', body loops t = .ok t' → Inv t → Inv t') (dims : List Descriptor)
    (loops : List LoopState) (t : Tally) (start : Inv t) :
    LoopNest.tileLoops (ctx.withHash hash_) node body' dims loops t =
      LoopNest.tileLoops ctx node body dims loops t := by
  induction dims generalizing loops t with
  | nil =>
    rw [LoopNest.tileLoops, LoopNest.tileLoops]
    unfold enterFirst
    by_cases fresh : isFirst node loops = true
    · rw [if_pos fresh, if_pos fresh, same.enterTile node loops t start found reached tile]
      apply bind_congr_of_ok
      intro t' entered
      exact inner loops t' (same.keeps.enterTile t t' node loops tile entered start)
    · rw [if_neg fresh, if_neg fresh, ok_bind, ok_bind, inner loops t start]
  | cons loop rest ih =>
    rw [LoopNest.tileLoops, LoopNest.tileLoops]
    have looped : (List.range (loopEnd node loop loops - loop.start).toNat).foldlM (fun t i => do
        let t ← LoopNest.tileLoops (ctx.withHash hash_) node body' rest
          (loopState node loop (loopEnd node loop loops) i :: loops) t
        .ok (t.advanceSkew node loop.name_ (ctx.dim_offset_ node loop.name_).1))
          (t.clearSkew node loop.name_) =
        (List.range (loopEnd node loop loops - loop.start).toNat).foldlM (fun t i => do
        let t ← LoopNest.tileLoops ctx node body rest
          (loopState node loop (loopEnd node loop loops) i :: loops) t
        .ok (t.advanceSkew node loop.name_ (ctx.dim_offset_ node loop.name_).1))
          (t.clearSkew node loop.name_) := by
      apply foldlM_congr _ _ (same.keeps.clearSkew t node loop.name_ start)
      · intro i _ t held
        rw [ih _ t held]
      · intro i t t' held step
        obtain ⟨mid, nested, result⟩ := bind_eq_ok.mp step
        cases result
        have inside := same.keeps.tileLoops tile kept rest _ t mid nested held
        exact same.keeps.advanceSkew mid node loop.name_ _ inside
    apply bind_congr
    intro _
    exact congrArg (fun x : Exec Tally => x >>= fun t => .ok (t.restoreSkew node loop.name_)) looped

theorem visit (same : SameEntries ctx hash_ Inv) (ptr : NodePtr) (sub : Node)
    (found : ctx.ev.root_.get? ptr = some sub) (reached : ctx.ev.Reached ptr) :
    ∀ loops t, Inv t →
      LoopNest.visit (ctx.withHash hash_) ptr sub loops t = LoopNest.visit ctx ptr sub loops t := by
  induction ptr, sub using Rose.position_induction₂
    (S := fun ptr i cs => ChildrenAt ctx.ev ptr i cs → ctx.ev.Reached ptr →
      ctx.ev.get_type ptr ≠ .Tile → ∀ loops t, Inv t →
        scopeChildren (ctx.withHash hash_) ptr i cs loops t = scopeChildren ctx ptr i cs loops t)
    (T := fun ptr i cs => ChildrenAt ctx.ev ptr i cs → (ctx.ev.root_.get? ptr).isSome →
      ctx.ev.Reached ptr → reachedChild (ctx.ev.ori_node_ ptr).children i = true →
        ∀ loops t, Inv t →
          tileChildren (ctx.withHash hash_) ptr i cs loops t = tileChildren ctx ptr i cs loops t) with
  | node ptr info cs scope tile =>
    intro loops t start
    have inside := Option.isSome_of_eq_some found
    have placed := childrenAt_zero found
    have kind_eq : ctx.ev.get_type ptr = info.kind.type_ := by
      rw [Evaluator.get_type, Evaluator.ori_node_of_get? found]
      rfl
    have entered := same.keeps.enter t ptr loops start
    rw [LoopNest.visit, LoopNest.visit]
    apply congrArg (leave ptr)
    obtain ⟨name_, level, mode, kind⟩ := info
    cases kind with
    | Op ops => rfl
    | Trans => rfl
    | Scope type =>
      have other : ctx.ev.get_type ptr ≠ .Tile := by
        rw [kind_eq]
        exact NodeType.noConfusion
      have row := same.keeps.setRow _ ptr [] entered
      dsimp only
      rw [scope placed reached other loops _ row]
    | Tile type dims =>
      cases dims with
      | nil => rfl
      | cons loop rest =>
        have body (loops : List LoopState) (t : Tally) (held : Inv t) : (do
            let t ← LoopNest.tileChildren (ctx.withHash hash_) ptr 0 cs loops (t.setRow ptr [])
            PerfAnalysis.pushRow ptr t) = (do
            let t ← LoopNest.tileChildren ctx ptr 0 cs loops (t.setRow ptr [])
            PerfAnalysis.pushRow ptr t) := by
          rw [tile placed inside reached rfl loops _ (same.keeps.setRow t ptr [] held)]
        have kept (loops : List LoopState) (t t' : Tally) (run : (do
            let t ← LoopNest.tileChildren ctx ptr 0 cs loops (t.setRow ptr [])
            PerfAnalysis.pushRow ptr t) = .ok t') (held : Inv t) : Inv t' := by
          obtain ⟨mid, children, push⟩ := bind_eq_ok.mp run
          have empty := same.keeps.setRow t ptr [] held
          have visited := same.keeps.tileChildren placed loops _ mid children empty
          exact same.keeps.pushRow mid t' ptr kind_eq push visited
        dsimp only
        rw [same.tileLoops inside reached kind_eq body kept (loop :: rest) loops _ entered]
        unfold PerfAnalysis.finishTile
        show (_ >>= fun t => Analysis.computeLatency (ctx.ev.withHash hash_) ptr _ >>= _) = _
        rw [computeLatency_withHash]
  | first_nil ptr i => rfl
  | first_cons ptr i c cs first rest =>
    rename_i placed reached other loops t start
    have here : ctx.ev.Reached (i :: ptr) := ⟨fun tile => absurd tile other, reached⟩
    rw [scopeChildren, scopeChildren]
    beta_reduce
    rw [first placed.head here loops t start]
    apply bind_congr_of_ok
    intro mid visited
    have held := same.keeps.visit (i :: ptr) c placed.head loops t mid visited start
    apply rest placed.tail reached other loops
    split
    · exact held
    · exact same.keeps.setRow mid ptr _ held
  | second_nil ptr i => rfl
  | second_cons ptr i c cs first rest =>
    rename_i placed inside reached before loops t start
    rw [tileChildren, tileChildren]
    beta_reduce
    rw [first placed.head ⟨fun _ => before, reached⟩ loops t start]
    apply bind_congr_of_ok
    intro mid visited
    have held := same.keeps.visit (i :: ptr) c placed.head loops t mid visited start
    by_cases scope : ctx.ev.get_type (i :: ptr) = .Scope
    · rw [if_pos scope]
      exact if_pos scope
    · rw [if_neg scope]
      refine (if_neg scope).trans ?_
      obtain ⟨sub, at_ptr⟩ := Option.isSome_iff_exists.mp inside
      have child : (ctx.ev.ori_node_ ptr).children[i]? = some c := by
        have at_child := placed.head
        rwa [Rose.get?_cons, at_ptr, Option.bind_some, ← Evaluator.ori_node_of_get? at_ptr]
          at at_child
      have kind_eq : ctx.ev.get_type (i :: ptr) = Node.get_type c := by
        rw [Evaluator.get_type, Evaluator.ori_node_of_get? placed.head]
      refine rest placed.tail inside reached ?_ loops _ (same.keeps.setRow mid ptr _ held)
      rw [reachedChild_succ child, before, Bool.true_and]
      exact decide_eq_true (kind_eq ▸ scope)

end SameEntries

end LoopNest

theorem sameEntries_of_single (single : ev.SingleAhead tree leaf_vec_) :
    SameEntries (tree.context ev leaf_vec_) hash_
      (TablesOf (tree.context ev leaf_vec_) (PerfAnalysis.initial tree).tally) where
  keeps := tablesOf_kept _ _
  enterTile := by
    intro node loops t tables found reached tile
    apply LoopNest.enterTile_withHash
    intro t' outputs
    apply transTensorName_withHash
    intro leaf ahead trans
    rw [outputs, tables.2 leaf trans]
    have inside := InitAnalysis.mem_positions.mpr found
    exact single node inside ⟨inside, tile, reached⟩ leaf ahead trans

/-- Where no Tile of a run stands behind a Trans with two outputs, an evaluation is the same in every
    order of the hash tables, faults included. -/
theorem evaluate_any_hash (ready : ev.prepare = .ok (tree, leaf_vec_))
    (single : ev.SingleAhead tree leaf_vec_) (hash_ : HashOrder) :
    (ev.withHash hash_).evaluate ev.construct = ev.evaluate ev.construct := by
  have prepared := Evaluator.prepare_eq_ok ready
  have start : TablesOf (tree.context ev leaf_vec_) (PerfAnalysis.initial tree).tally
      (PerfAnalysis.initial tree).tally :=
    ⟨fun _ _ => ⟨id, id⟩, fun _ _ => rfl⟩
  have run : PerfAnalysis.run (ev.withHash hash_) tree leaf_vec_ = PerfAnalysis.run ev tree leaf_vec_ := by
    have idle : tree.Idle (ev.withHash hash_) := prepared.idle
    have same := @sameEntries_of_single ev hash_ tree leaf_vec_ single
    have visited := same.visit [] ev.root_ rfl trivial [] _ start
    rw [PerfAnalysis.run_eq prepared.idle, PerfAnalysis.run_eq idle]
    exact congrArg (· >>= _) visited
  have both := Evaluator.evaluate_eq (ev.withHash hash_)
  rw [prepare_withHash, ready, ok_bind] at both
  rw [Evaluator.evaluate_eq ev, ready, ok_bind]
  dsimp only at both ⊢
  rw [← run]
  exact both

def lastKey : HashOrder where
  begin_ := fun keys => keys.getLastD ""
  begin_mem := by
    intro keys present
    rw [List.getLastD_eq_getLast?, List.getLast?_eq_some_getLast present]
    exact List.getLast_mem present

theorem evaluate_any_hash_staged :
    ((staged ["B"]).withHash lastKey).evaluate (staged ["B"]).construct =
      (staged ["B"]).evaluate (staged ["B"]).construct := by
  have single : ((staged ["B"]).prepare.toOption.map fun prepared =>
      decide ((staged ["B"]).SingleAhead prepared.1 prepared.2)) = some true := by
    decide +kernel
  obtain ⟨⟨tree, leaf_vec_⟩, ready, held⟩ := Option.map_eq_some_iff.mp single
  exact evaluate_any_hash (mem_toOption.mp ready) (of_decide_eq_true held) lastKey

def merged : Evaluator :=
  Config.evaluator
    (Config.workloads [("first", ⟨["A"], "B"⟩), ("second", ⟨["C"], "D"⟩), ("third", ⟨["B", "D"], "E"⟩)]
      [("M", 4), ("N", 2)]
      [("A", ["M", "N"]), ("B", ["M"]), ("C", ["M", "N"]), ("D", ["M", "N"]), ("E", ["M"])])
    1 [("Main2Main", ⟨1, .HD, 0, 1⟩), ("Main2Cube", ⟨1, .HD, 0, 1⟩), ("Cube2UB", ⟨1, .HD, 0, 1⟩),
      ("Main2UB", ⟨1, .HD, 0, 1⟩)]
    (Config.tile .Temporal "Main" [Config.loop "M" 1 1, Config.loop "N" 1 1]
      [Config.scope .Sequential
        [Config.op "Cube" "first" [Config.loop "M" 4 4, Config.loop "N" 2 2],
          Config.op "Cube" "second" [Config.loop "M" 4 4, Config.loop "N" 2 2], Config.trans "UB",
          Config.tile .Temporal "Main" [Config.loop "M" 4 4, Config.loop "N" 2 2]
            [Config.op "Cube" "third" [Config.loop "M" 1 1, Config.loop "N" 1 1]]]])

/-- Behind a Trans with two outputs, which of them counts as moved through it is left to the order. -/
theorem merged_depends_on_hash :
    (merged.evaluate merged.construct).toOption.map EvalState.latency_ = some 12 ∧
      ((merged.withHash lastKey).evaluate merged.construct).toOption.map EvalState.latency_ =
        some 10 := by
  constructor
  · decide +kernel
  · decide +kernel

end TileExp.Analysis
