import Latias.Visits.Steps

/-! A visit writes to its node and the nodes below it. -/

namespace TileExp.Analysis

open Checked

structure NodeData where
  input_tensors_ : Table TensorMap
  output_tensors_ : Table TensorMap
  input_latency_ : Int
  output_latency_ : Int
  process_latency_ : Int
  latency_vec_ : List (List Latency)
  latency_sub_vec_ : List Latency
  current_dim_skew_ : String → Int

namespace Tally

variable {t : Tally} {node ptr : NodePtr}

def dataAt (t : Tally) (node : NodePtr) : NodeData where
  input_tensors_ := t.input_tensors_ node
  output_tensors_ := t.output_tensors_ node
  input_latency_ := t.input_latency_ node
  output_latency_ := t.output_latency_ node
  process_latency_ := t.process_latency_ node
  latency_vec_ := t.latency_vec_ node
  latency_sub_vec_ := t.latency_sub_vec_ node
  current_dim_skew_ := t.current_dim_skew_ node

@[simp] theorem dataAt_record (event : Event) : (t.record event).dataAt ptr = t.dataAt ptr := rfl

theorem dataAt_setInputLatency (apart : ptr ≠ node) (value : Int) :
    (t.setInputLatency node value).dataAt ptr = t.dataAt ptr := by
  simp [dataAt, setInputLatency, apart]

theorem dataAt_setOutputLatency (apart : ptr ≠ node) (value : Int) :
    (t.setOutputLatency node value).dataAt ptr = t.dataAt ptr := by
  simp [dataAt, setOutputLatency, apart]

theorem dataAt_setProcessLatency (apart : ptr ≠ node) (value : Int) :
    (t.setProcessLatency node value).dataAt ptr = t.dataAt ptr := by
  simp [dataAt, setProcessLatency, apart]

theorem dataAt_setRow (apart : ptr ≠ node) (row : List Latency) :
    (t.setRow node row).dataAt ptr = t.dataAt ptr := by
  simp [dataAt, setRow, apart]

theorem dataAt_setRows (apart : ptr ≠ node) (rows : List (List Latency)) :
    (t.setRows node rows).dataAt ptr = t.dataAt ptr := by
  simp [dataAt, setRows, apart]

theorem dataAt_clearSkew (apart : ptr ≠ node) (dim_name : String) :
    (t.clearSkew node dim_name).dataAt ptr = t.dataAt ptr := by
  simp [dataAt, clearSkew, apart]

theorem dataAt_advanceSkew (apart : ptr ≠ node) (dim_name : String) (offset : Int) :
    (t.advanceSkew node dim_name offset).dataAt ptr = t.dataAt ptr := by
  simp [dataAt, advanceSkew, apart]

@[simp] theorem dataAt_restoreSkew (dim_name : String) :
    (t.restoreSkew node dim_name).dataAt ptr = t.dataAt ptr := rfl

def KeepsOutside (node : NodePtr) (t t' : Tally) : Prop :=
  ∀ ptr, ¬ node <:+ ptr → t'.dataAt ptr = t.dataAt ptr

theorem KeepsOutside.refl (node : NodePtr) (t : Tally) : KeepsOutside node t t :=
  fun _ _ => rfl

theorem KeepsOutside.trans {t₁ t₂ t₃ : Tally} (first : KeepsOutside node t₁ t₂)
    (second : KeepsOutside node t₂ t₃) : KeepsOutside node t₁ t₃ :=
  fun ptr outside => (second ptr outside).trans (first ptr outside)

theorem KeepsOutside.up {i : Nat} {t₁ t₂ : Tally} (below : KeepsOutside (i :: node) t₁ t₂) :
    KeepsOutside node t₁ t₂ :=
  fun ptr outside => below ptr fun inside => outside ((List.suffix_cons i node).trans inside)

theorem KeepsOutside.of_ne {t₁ t₂ : Tally}
    (only : ∀ ptr, ptr ≠ node → t₂.dataAt ptr = t₁.dataAt ptr) : KeepsOutside node t₁ t₂ := by
  intro ptr outside
  refine only ptr ?_
  rintro rfl
  exact outside List.suffix_rfl

end Tally

namespace LoopNest

open Tally

variable {ctx : PerfContext} {node ptr : NodePtr} {loops : List LoopState} {t t' : Tally}

theorem setRow_keeps (node : NodePtr) (t : Tally) (row : List Latency) :
    KeepsOutside node t (t.setRow node row) :=
  KeepsOutside.of_ne fun _ apart => dataAt_setRow apart row

theorem opTally_keeps : KeepsOutside node t (PerfAnalysis.opTally ctx (walkAt ctx node loops) t) := by
  refine KeepsOutside.of_ne fun ptr apart => ?_
  simp [PerfAnalysis.opTally, dataAt, walkAt, Walk.ofLoops, setOutputLatency, setInputLatency,
    setProcessLatency, record, apart]

theorem transTally_keeps
    (call : PerfAnalysis.transTally ctx (walkAt ctx node loops) t = .ok t') :
    KeepsOutside node t t' := by
  refine KeepsOutside.of_ne fun ptr apart => ?_
  rw [transTally_eq_ok call, dataAt_setOutputLatency apart, dataAt_setProcessLatency apart,
    dataAt_setInputLatency apart]

theorem enterTile_keeps (call : PerfAnalysis.enterTile ctx (walkAt ctx node loops) t = .ok t') :
    KeepsOutside node t t' := by
  obtain ⟨ins, outs, tile, trans, entered⟩ := enterTile_eq_ok call
  refine KeepsOutside.of_ne fun ptr apart => ?_
  rw [entered.result]
  simp [dataAt, apart]

theorem enterFirst_keeps (call : enterFirst ctx node loops t = .ok t') : KeepsOutside node t t' := by
  unfold enterFirst at call
  split at call
  · exact enterTile_keeps call
  · cases call
    exact KeepsOutside.refl node t

theorem finishScope_keeps (call : finishScope node t = .ok t') : KeepsOutside node t t' := by
  unfold finishScope at call
  split at call
  · cases call
  · cases call
    exact KeepsOutside.of_ne fun ptr apart => dataAt_setRows apart _

theorem pushRow_keeps (call : PerfAnalysis.pushRow node t = .ok t') : KeepsOutside node t t' := by
  obtain ⟨_, rfl⟩ := pushRow_eq_ok call
  exact KeepsOutside.of_ne fun ptr apart => by rw [dataAt_record, dataAt_setRows apart]

theorem finishTile_keeps (call : PerfAnalysis.finishTile ctx node t = .ok t') :
    KeepsOutside node t t' := by
  obtain ⟨latency, _, rfl⟩ := finishTile_eq_ok call
  refine KeepsOutside.of_ne fun ptr apart => ?_
  split
  · rw [dataAt_setProcessLatency apart, dataAt_record]
  · rw [dataAt_record]

theorem tileLoops_keeps {body : List LoopState → Tally → Exec Tally}
    (inner : ∀ loops t t', body loops t = .ok t' → KeepsOutside node t t') (dims : List Descriptor)
    (loops : List LoopState) (t t' : Tally) (run : tileLoops ctx node body dims loops t = .ok t') :
    KeepsOutside node t t' := by
  induction dims generalizing loops t t' with
  | nil =>
    rw [tileLoops] at run
    obtain ⟨mid, first, second⟩ := bind_eq_ok.mp run
    exact (enterFirst_keeps first).trans (inner loops mid t' second)
  | cons loop rest ih =>
    rw [tileLoops] at run
    obtain ⟨_, _, run⟩ := bind_eq_ok.mp run
    obtain ⟨mid, iterations, result⟩ := bind_eq_ok.mp run
    cases result
    refine KeepsOutside.trans ?_ (KeepsOutside.of_ne fun ptr _ => dataAt_restoreSkew _)
    refine foldlM_induction iterations (fun _ t' => KeepsOutside node t t') ?_ ?_
    · exact KeepsOutside.of_ne fun ptr apart => dataAt_clearSkew apart loop.name_
    · intro done i rest' before after _ kept step
      obtain ⟨inside, nested, result⟩ := bind_eq_ok.mp step
      cases result
      exact (kept.trans (ih _ before inside nested)).trans
        (KeepsOutside.of_ne fun ptr apart => dataAt_advanceSkew apart loop.name_ _)

/-- A visit changes nothing outside the subtree of its node. -/
theorem visit_keeps (ptr : NodePtr) (sub : Node) :
    ∀ loops t t', visit ctx ptr sub loops t = .ok t' → KeepsOutside ptr t t' := by
  induction ptr, sub using Rose.position_induction₂
    (S := fun ptr i cs => ∀ loops t t', scopeChildren ctx ptr i cs loops t = .ok t' →
      KeepsOutside ptr t t')
    (T := fun ptr i cs => ∀ loops t t', tileChildren ctx ptr i cs loops t = .ok t' →
      KeepsOutside ptr t t') with
  | node ptr info cs scope tile =>
    intro loops t t' run
    rw [visit] at run
    obtain ⟨mid, inside, result⟩ := bind_eq_ok.mp run
    cases result
    suffices KeepsOutside ptr (t.record (.enter ptr ptr loops t.dim_skew)) mid from this
    obtain ⟨name_, level, mode, kind⟩ := info
    cases kind with
    | Op ops =>
      cases inside
      exact opTally_keeps
    | Trans => exact transTally_keeps inside
    | Scope type =>
      obtain ⟨after, children, inside⟩ := bind_eq_ok.mp inside
      have row := setRow_keeps ptr (t.record (.enter ptr ptr loops t.dim_skew)) []
      exact (row.trans (scope loops _ after children)).trans (finishScope_keeps inside)
    | Tile type dims =>
      cases dims with
      | nil => cases inside
      | cons loop rest =>
        obtain ⟨after, nested, finish⟩ := bind_eq_ok.mp inside
        refine KeepsOutside.trans ?_ (finishTile_keeps finish)
        refine tileLoops_keeps ?_ (loop :: rest) loops _ after nested
        intro loops t t' body
        obtain ⟨mid, children, push⟩ := bind_eq_ok.mp body
        exact ((setRow_keeps ptr t []).trans (tile loops _ mid children)).trans (pushRow_keeps push)
  | first_nil ptr i =>
    rename_i loops t t' run
    cases run
    exact KeepsOutside.refl ptr t
  | first_cons ptr i c cs first rest =>
    rename_i loops t t' run
    rw [scopeChildren] at run
    obtain ⟨mid, child, others⟩ := bind_eq_ok.mp run
    refine (first loops t mid child).up.trans (KeepsOutside.trans ?_ (rest loops _ t' others))
    split
    · exact KeepsOutside.refl ptr mid
    · exact setRow_keeps ptr mid _
  | second_nil ptr i =>
    rename_i loops t t' run
    cases run
    exact KeepsOutside.refl ptr t
  | second_cons ptr i c cs first rest =>
    rename_i loops t t' run
    rw [tileChildren] at run
    obtain ⟨mid, child, others⟩ := bind_eq_ok.mp run
    refine (first loops t mid child).up.trans ?_
    split at others
    · cases others
      exact setRow_keeps ptr mid _
    · exact (setRow_keeps ptr mid _).trans (rest loops _ t' others)

end LoopNest

end TileExp.Analysis
