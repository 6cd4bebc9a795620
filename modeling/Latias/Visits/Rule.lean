import Latias.Library.Keys
import Latias.Visits.Frame
import Latias.Analysis.TraversalOrder

/-! A relation between the states of a run that every part of a visit keeps holds across visits. -/

namespace TileExp.Analysis

open Checked

namespace LoopNest

variable {ctx : PerfContext} {node ptr : NodePtr} {loops : List LoopState} {t t' : Tally}
  {K : Tally → Tally → Prop}

/-- The relation holds across each part of a visit, of the kind of node that the part is of. -/
structure Parts (ctx : PerfContext) (K : Tally → Tally → Prop) : Prop where
  refl : ∀ t, K t t
  trans : ∀ {t₁ t₂ t₃}, K t₁ t₂ → K t₂ t₃ → K t₁ t₃
  enter : ∀ t ptr loops, K t (t.record (.enter ptr ptr loops t.dim_skew))
  leave : ∀ t ptr, K t (t.record (.leave ptr (up ptr)))
  setRow : ∀ t node row, K t (t.setRow node row)
  clearSkew : ∀ t node dim_name, K t (t.clearSkew node dim_name)
  advanceSkew : ∀ t node dim_name offset, K t (t.advanceSkew node dim_name offset)
  restoreSkew : ∀ t node dim_name, K t (t.restoreSkew node dim_name)
  op : ∀ t node loops, ctx.ev.get_type node = .Op →
    K t (PerfAnalysis.opTally ctx (walkAt ctx node loops) t)
  transfer : ∀ t t' node loops, ctx.ev.get_type node = .Trans →
    PerfAnalysis.transTally ctx (walkAt ctx node loops) t = .ok t' → K t t'
  enterTile : ∀ t t' node loops, ctx.ev.get_type node = .Tile →
    PerfAnalysis.enterTile ctx (walkAt ctx node loops) t = .ok t' → K t t'
  pushRow : ∀ t t' node, ctx.ev.get_type node = .Tile → PerfAnalysis.pushRow node t = .ok t' → K t t'
  finishTile : ∀ t t' node, ctx.ev.get_type node = .Tile →
    PerfAnalysis.finishTile ctx node t = .ok t' → K t t'
  finishScope : ∀ t t' node, ctx.ev.get_type node = .Scope →
    LoopNest.finishScope node t = .ok t' → K t t'

namespace Parts

theorem tileLoops (parts : Parts ctx K) (tile : ctx.ev.get_type node = .Tile)
    {body : List LoopState → Tally → Exec Tally}
    (inner : ∀ loops t t', body loops t = .ok t' → K t t') (dims : List Descriptor)
    (loops : List LoopState) (t t' : Tally)
    (run : LoopNest.tileLoops ctx node body dims loops t = .ok t') : K t t' := by
  induction dims generalizing loops t t' with
  | nil =>
    rw [LoopNest.tileLoops] at run
    obtain ⟨mid, first, second⟩ := bind_eq_ok.mp run
    refine parts.trans ?_ (inner loops mid t' second)
    unfold enterFirst at first
    split at first
    · exact parts.enterTile t mid node loops tile first
    · cases first
      exact parts.refl t
  | cons loop rest ih =>
    rw [LoopNest.tileLoops] at run
    obtain ⟨_, _, run⟩ := bind_eq_ok.mp run
    obtain ⟨mid, iterations, result⟩ := bind_eq_ok.mp run
    cases result
    refine parts.trans ?_ (parts.restoreSkew mid node loop.name_)
    refine foldlM_induction iterations (fun _ t' => K t t') (parts.clearSkew t node loop.name_) ?_
    intro done i rest' before after _ earlier step
    obtain ⟨inside, nested, result⟩ := bind_eq_ok.mp step
    cases result
    have here := parts.trans earlier (ih _ before inside nested)
    exact parts.trans here (parts.advanceSkew inside node loop.name_ _)

/-- What every part of a visit keeps, a visit keeps. -/
theorem visit (parts : Parts ctx K) (ptr : NodePtr) (sub : Node)
    (found : ctx.ev.root_.get? ptr = some sub) :
    ∀ loops t t', LoopNest.visit ctx ptr sub loops t = .ok t' → K t t' := by
  induction ptr, sub using Rose.position_induction₂
    (S := fun ptr i cs => ChildrenAt ctx.ev ptr i cs → ∀ loops t t',
      scopeChildren ctx ptr i cs loops t = .ok t' → K t t')
    (T := fun ptr i cs => ChildrenAt ctx.ev ptr i cs → ∀ loops t t',
      tileChildren ctx ptr i cs loops t = .ok t' → K t t') with
  | node ptr info cs scope tile =>
    intro loops t t' run
    rw [LoopNest.visit] at run
    obtain ⟨mid, inside, result⟩ := bind_eq_ok.mp run
    cases result
    have kind_eq : ctx.ev.get_type ptr = info.kind.type_ := by
      rw [Evaluator.get_type, Evaluator.ori_node_of_get? found]
      rfl
    refine parts.trans (parts.trans (parts.enter t ptr loops) ?_) (parts.leave mid ptr)
    obtain ⟨name_, level, mode, kind⟩ := info
    cases kind with
    | Op ops =>
      cases inside
      exact parts.op _ ptr loops kind_eq
    | Trans => exact parts.transfer _ mid ptr loops kind_eq inside
    | Scope type =>
      obtain ⟨after, children, finish⟩ := bind_eq_ok.mp inside
      have row := parts.setRow (t.record (.enter ptr ptr loops t.dim_skew)) ptr []
      have visited := scope (childrenAt_zero found) loops _ after children
      exact parts.trans (parts.trans row visited) (parts.finishScope after mid ptr kind_eq finish)
    | Tile type dims =>
      cases dims with
      | nil => cases inside
      | cons loop rest =>
        obtain ⟨after, nested, finish⟩ := bind_eq_ok.mp inside
        refine parts.trans ?_ (parts.finishTile after mid ptr kind_eq finish)
        refine parts.tileLoops kind_eq ?_ (loop :: rest) loops _ after nested
        intro loops t t' body
        obtain ⟨visited, children, push⟩ := bind_eq_ok.mp body
        have row := parts.setRow t ptr []
        have inner := tile (childrenAt_zero found) loops _ visited children
        exact parts.trans (parts.trans row inner) (parts.pushRow visited t' ptr kind_eq push)
  | first_nil ptr i =>
    rename_i placed loops t t' run
    cases run
    exact parts.refl t
  | first_cons ptr i c cs first rest =>
    rename_i placed loops t t' run
    rw [scopeChildren] at run
    obtain ⟨mid, child, others⟩ := bind_eq_ok.mp run
    refine parts.trans (first placed.head loops t mid child) (parts.trans ?_
      (rest placed.tail loops _ t' others))
    split
    · exact parts.refl mid
    · exact parts.setRow mid ptr _
  | second_nil ptr i =>
    rename_i placed loops t t' run
    cases run
    exact parts.refl t
  | second_cons ptr i c cs first rest =>
    rename_i placed loops t t' run
    rw [tileChildren] at run
    obtain ⟨mid, child, others⟩ := bind_eq_ok.mp run
    refine parts.trans (first placed.head loops t mid child) ?_
    split at others
    · cases others
      exact parts.setRow mid ptr _
    · exact parts.trans (parts.setRow mid ptr _) (rest placed.tail loops _ t' others)

theorem tileChildren (parts : Parts ctx K) {i : Nat} {cs : List Node}
    (placed : ChildrenAt ctx.ev ptr i cs) (loops : List LoopState) (t t' : Tally)
    (run : LoopNest.tileChildren ctx ptr i cs loops t = .ok t') : K t t' := by
  induction cs generalizing i t with
  | nil =>
    cases run
    exact parts.refl _
  | cons c cs ih =>
    rw [LoopNest.tileChildren] at run
    obtain ⟨mid, child, others⟩ := bind_eq_ok.mp run
    refine parts.trans (parts.visit (i :: ptr) c placed.head loops t mid child) ?_
    split at others
    · cases others
      exact parts.setRow mid ptr _
    · exact parts.trans (parts.setRow mid ptr _) (ih placed.tail _ others)

theorem and {K' : Tally → Tally → Prop} (first : Parts ctx K) (second : Parts ctx K') :
    Parts ctx fun t t' => K t t' ∧ K' t t' where
  refl := fun t => ⟨first.refl t, second.refl t⟩
  trans := fun one two => ⟨first.trans one.1 two.1, second.trans one.2 two.2⟩
  enter := fun t ptr loops => ⟨first.enter t ptr loops, second.enter t ptr loops⟩
  leave := fun t ptr => ⟨first.leave t ptr, second.leave t ptr⟩
  setRow := fun t node row => ⟨first.setRow t node row, second.setRow t node row⟩
  clearSkew := fun t node dim_name => ⟨first.clearSkew t node dim_name, second.clearSkew t node dim_name⟩
  advanceSkew := fun t node dim_name offset =>
    ⟨first.advanceSkew t node dim_name offset, second.advanceSkew t node dim_name offset⟩
  restoreSkew := fun t node dim_name =>
    ⟨first.restoreSkew t node dim_name, second.restoreSkew t node dim_name⟩
  op := fun t node loops type => ⟨first.op t node loops type, second.op t node loops type⟩
  transfer := fun t t' node loops type call =>
    ⟨first.transfer t t' node loops type call, second.transfer t t' node loops type call⟩
  enterTile := fun t t' node loops type call =>
    ⟨first.enterTile t t' node loops type call, second.enterTile t t' node loops type call⟩
  pushRow := fun t t' node type call =>
    ⟨first.pushRow t t' node type call, second.pushRow t t' node type call⟩
  finishTile := fun t t' node type call =>
    ⟨first.finishTile t t' node type call, second.finishTile t t' node type call⟩
  finishScope := fun t t' node type call =>
    ⟨first.finishScope t t' node type call, second.finishScope t t' node type call⟩

theorem invariant (parts : Parts ctx K) (Inv : Tally → Prop)
    (carries : ∀ t t', K t t' → Inv t → Inv t') : Parts ctx fun t t' => Inv t → Inv t' where
  refl := fun _ held => held
  trans := fun first second held => second (first held)
  enter := fun t ptr loops => carries _ _ (parts.enter t ptr loops)
  leave := fun t ptr => carries _ _ (parts.leave t ptr)
  setRow := fun t node row => carries _ _ (parts.setRow t node row)
  clearSkew := fun t node dim_name => carries _ _ (parts.clearSkew t node dim_name)
  advanceSkew := fun t node dim_name offset => carries _ _ (parts.advanceSkew t node dim_name offset)
  restoreSkew := fun t node dim_name => carries _ _ (parts.restoreSkew t node dim_name)
  op := fun t node loops type => carries _ _ (parts.op t node loops type)
  transfer := fun t t' node loops type call => carries _ _ (parts.transfer t t' node loops type call)
  enterTile := fun t t' node loops type call => carries _ _ (parts.enterTile t t' node loops type call)
  pushRow := fun t t' node type call => carries _ _ (parts.pushRow t t' node type call)
  finishTile := fun t t' node type call => carries _ _ (parts.finishTile t t' node type call)
  finishScope := fun t t' node type call => carries _ _ (parts.finishScope t t' node type call)

end Parts

structure Kept (ctx : PerfContext) (K : Tally → Tally → Prop) : Prop where
  refl : ∀ t, K t t
  trans : ∀ {t₁ t₂ t₃}, K t₁ t₂ → K t₂ t₃ → K t₁ t₃
  record : ∀ t event, K t (t.record event)
  setRow : ∀ t node row, K t (t.setRow node row)
  setRows : ∀ t node rows, K t (t.setRows node rows)
  clearSkew : ∀ t node dim_name, K t (t.clearSkew node dim_name)
  advanceSkew : ∀ t node dim_name offset, K t (t.advanceSkew node dim_name offset)
  restoreSkew : ∀ t node dim_name, K t (t.restoreSkew node dim_name)
  op : ∀ t node loops, ctx.ev.get_type node = .Op →
    K t (PerfAnalysis.opTally ctx (walkAt ctx node loops) t)
  transfer : ∀ t t' node loops, ctx.ev.get_type node = .Trans →
    PerfAnalysis.transTally ctx (walkAt ctx node loops) t = .ok t' → K t t'
  enterTile : ∀ t t' node loops, ctx.ev.get_type node = .Tile →
    PerfAnalysis.enterTile ctx (walkAt ctx node loops) t = .ok t' → K t t'
  finishTile : ∀ t t' node, ctx.ev.get_type node = .Tile →
    PerfAnalysis.finishTile ctx node t = .ok t' → K t t'

namespace Kept

theorem pushRow (kept : Kept ctx K) (call : PerfAnalysis.pushRow node t = .ok t') : K t t' := by
  obtain ⟨_, rfl⟩ := pushRow_eq_ok call
  exact kept.trans (kept.setRows t node _) (kept.record _ _)

theorem finishScope (kept : Kept ctx K) (call : LoopNest.finishScope node t = .ok t') : K t t' := by
  unfold LoopNest.finishScope at call
  split at call
  · cases call
  · cases call
    exact kept.setRows t node _

theorem parts (kept : Kept ctx K) : Parts ctx K where
  refl := kept.refl
  trans := kept.trans
  enter := fun t _ _ => kept.record t _
  leave := fun t _ => kept.record t _
  setRow := kept.setRow
  clearSkew := kept.clearSkew
  advanceSkew := kept.advanceSkew
  restoreSkew := kept.restoreSkew
  op := kept.op
  transfer := kept.transfer
  enterTile := kept.enterTile
  pushRow := fun _ _ _ _ call => kept.pushRow call
  finishTile := kept.finishTile
  finishScope := fun _ _ _ _ call => kept.finishScope call

theorem visit (kept : Kept ctx K) (ptr : NodePtr) (sub : Node)
    (found : ctx.ev.root_.get? ptr = some sub) :
    ∀ loops t t', LoopNest.visit ctx ptr sub loops t = .ok t' → K t t' :=
  kept.parts.visit ptr sub found

end Kept

/-! Two such relations. -/

theorem latencyOf_setLatencies (apart : ptr ≠ node) (t : Tally) (input process output : Int) :
    (((t.setInputLatency node input).setProcessLatency node process).setOutputLatency node
      output).latencyOf ptr = t.latencyOf ptr := by
  simp [Tally.latencyOf, Tally.setInputLatency, Tally.setProcessLatency, Tally.setOutputLatency,
    apart]

theorem visit_scopes (ptr : NodePtr) (sub : Node) (found : ctx.ev.root_.get? ptr = some sub)
    (run : visit ctx ptr sub loops t = .ok t') (scope : ctx.ev.get_type node = .Scope) :
    t'.latencyOf node = t.latencyOf node := by
  have apart {ptr : NodePtr} {kind : NodeType} (type : ctx.ev.get_type ptr = kind)
      (other : kind ≠ .Scope) : node ≠ ptr := by
    rintro rfl
    exact other (type.symm.trans scope)
  have kept : Kept ctx fun t t' => t'.latencyOf node = t.latencyOf node := by
    constructor
    case refl => exact fun t => rfl
    case trans => exact fun first second => second.trans first
    case record => exact fun t event => rfl
    case setRow => exact fun t ptr row => rfl
    case setRows => exact fun t ptr rows => rfl
    case clearSkew => exact fun t ptr dim_name => rfl
    case advanceSkew => exact fun t ptr dim_name offset => rfl
    case restoreSkew => exact fun t ptr dim_name => rfl
    case op =>
      intro t ptr loops type
      have other := apart type (by simp)
      simp [PerfAnalysis.opTally, Tally.latencyOf, Tally.setInputLatency, Tally.setOutputLatency,
        Tally.setProcessLatency, Tally.record, walkAt, Walk.ofLoops, other]
    case transfer =>
      intro t t' ptr loops type call
      rw [transTally_eq_ok call]
      exact latencyOf_setLatencies (apart type (by simp)) t 0 0 0
    case enterTile =>
      intro t t' ptr loops type call
      obtain ⟨ins, outs, tile, trans, entered⟩ := enterTile_eq_ok call
      have other := apart type (by simp)
      rw [entered.result]
      simp [Tally.latencyOf, other]
    case finishTile =>
      intro t t' ptr type call
      obtain ⟨latency, _, rfl⟩ := finishTile_eq_ok call
      have other := apart type (by simp)
      split
      · simp [Tally.latencyOf, Tally.setProcessLatency, Tally.record, other]
      · rfl
  exact kept.visit ptr sub found loops t t' run

theorem mem_writeCharges {w : Walk} {dim_skew : String → Int} {is_input : Bool}
    {table : Table TensorMap} {cs : List Charge} {name : String}
    (call : table.entries.mapM (chargeTensor ctx w dim_skew is_input) = .ok cs)
    (member : name ∈ writeCharges table cs) : name ∈ table := by
  rcases Keys.mem_keys_insertAll.mp member with written | before
  · obtain ⟨charge, inside, rfl⟩ := List.mem_map.mp written
    obtain ⟨entry, at_entry, made⟩ := mem_of_mapM call inside
    obtain ⟨after, _, made⟩ := bind_eq_ok.mp made
    obtain ⟨amount, _, result⟩ := bind_eq_ok.mp made
    cases result
    exact AList.mem_keys.mpr (List.mem_map_of_mem at_entry)
  · exact before

def NoNewTensors (t t' : Tally) : Prop := ∀ node name,
  (name ∈ t'.input_tensors_ node → name ∈ t.input_tensors_ node) ∧
    (name ∈ t'.output_tensors_ node → name ∈ t.output_tensors_ node)

theorem noNewTensors_kept (ctx : PerfContext) : Kept ctx NoNewTensors := by
  constructor
  case refl => exact fun t node name => ⟨id, id⟩
  case trans =>
    exact fun first second node name => ⟨fun member => (first node name).1
      ((second node name).1 member), fun member => (first node name).2 ((second node name).2 member)⟩
  case record => exact fun t event node name => ⟨id, id⟩
  case setRow => exact fun t ptr row node name => ⟨id, id⟩
  case setRows => exact fun t ptr rows node name => ⟨id, id⟩
  case clearSkew => exact fun t ptr dim_name node name => ⟨id, id⟩
  case advanceSkew => exact fun t ptr dim_name offset node name => ⟨id, id⟩
  case restoreSkew => exact fun t ptr dim_name node name => ⟨id, id⟩
  case op => exact fun t ptr loops type node name => ⟨id, id⟩
  case transfer =>
    intro t t' ptr loops type call
    rw [transTally_eq_ok call]
    exact fun node name => ⟨id, id⟩
  case enterTile =>
    intro t t' ptr loops type call node name
    obtain ⟨ins, outs, tile, trans, entered⟩ := enterTile_eq_ok call
    rw [entered.result]
    by_cases here : node = ptr
    · subst here
      simp only [Function.update_self]
      exact ⟨mem_writeCharges entered.inputs, mem_writeCharges entered.outputs⟩
    · simp only [Function.update_of_ne here]
      exact ⟨id, id⟩
  case finishTile =>
    intro t t' ptr type call
    obtain ⟨latency, _, rfl⟩ := finishTile_eq_ok call
    split
    · exact fun node name => ⟨id, id⟩
    · exact fun node name => ⟨id, id⟩

theorem visit_noNewTensors (ptr : NodePtr) (sub : Node) (found : ctx.ev.root_.get? ptr = some sub)
    (run : visit ctx ptr sub loops t = .ok t') : NoNewTensors t t' :=
  (noNewTensors_kept ctx).visit ptr sub found loops t t' run

end LoopNest

end TileExp.Analysis
