import Latias.Analysis.TraversalOrder
import Latias.Analysis.InitAnalysis
import Mathlib.Data.List.Induction

/-! What `BFSOffsetLoop` finds: the nearest node that carries a dimension, on some way down. -/

namespace TileExp.Analysis

variable {ev : Evaluator} {offsets offsets' : EvaOffsets} {dim_name : String} {top node ptr : NodePtr}
  {queue : List NodePtr}

def EvaOffsets.at (offsets : EvaOffsets) (node : NodePtr) :
    (String → Option Int) × (String → Option Int) :=
  (offsets.dim_offset_ node, offsets.last_dim_offset_ node)

/-- The bounds `BFSOffsetLoop` takes: those of the last loop over the dimension. -/
def lastBounds (loops : List Descriptor) (dim_name : String) : StEd :=
  loops.foldl (fun found loop =>
    if loop.name_ = dim_name then (loop.end_, loop.residual_end) else found) (0, 0)

theorem lastBounds_snoc (loops : List Descriptor) (loop : Descriptor) (dim_name : String) :
    lastBounds (loops ++ [loop]) dim_name =
      if loop.name_ = dim_name then (loop.end_, loop.residual_end)
      else lastBounds loops dim_name := by
  rw [lastBounds, List.foldl_append]
  rfl

theorem exists_lastBounds (loops : List Descriptor)
    (present : dim_name ∈ loops.map Descriptor.name_) : ∃ loop ∈ loops, loop.name_ = dim_name ∧
      lastBounds loops dim_name = (loop.end_, loop.residual_end) := by
  induction loops using List.reverseRecOn with
  | nil => cases present
  | append_singleton loops loop ih =>
    rw [lastBounds_snoc]
    by_cases same : loop.name_ = dim_name
    · exact ⟨loop, by simp, same, if_pos same⟩
    · rw [List.map_append, List.mem_append] at present
      have earlier : dim_name ∈ loops.map Descriptor.name_ := by
        rcases present with earlier | last
        · exact earlier
        · exact absurd (List.mem_singleton.mp last).symm same
      obtain ⟨found, member, name, bounds⟩ := ih earlier
      exact ⟨found, List.mem_append_left _ member, name, by rw [if_neg same, bounds]⟩

/-- A node under `top` that carries the dimension, below nodes that do not. -/
structure Carrier (ev : Evaluator) (offsets : EvaOffsets) (dim_name : String)
    (top node : NodePtr) : Prop where
  found : (ev.root_.get? node).isSome
  under : top <:+ node
  carries : (offsets.dim_offset_ node dim_name).isSome
  first : ∀ ptr, top <:+ ptr → ptr <:+ node → ptr ≠ node → offsets.dim_offset_ ptr dim_name = none

def carrierPair (ev : Evaluator) (offsets : EvaOffsets) (dim_name : String) (node : NodePtr) :
    StEd × StEd :=
  (((offsets.dim_offset_ node dim_name).getD 0, (offsets.last_dim_offset_ node dim_name).getD 0),
    lastBounds (ev.loopnests_ node) dim_name)

theorem mem_get_children {child : NodePtr} (found : (ev.root_.get? node).isSome) :
    child ∈ ev.get_children node ↔
      ∃ i, child = i :: node ∧ (ev.root_.get? (i :: node)).isSome := by
  obtain ⟨sub, found⟩ := Option.isSome_iff_exists.mp found
  rw [Evaluator.get_children, Evaluator.ori_node_of_get? found, List.mem_map]
  constructor
  · rintro ⟨i, member, rfl⟩
    refine ⟨i, rfl, ?_⟩
    rw [Rose.get?_cons, found, Option.bind_some,
      List.getElem?_eq_getElem (List.mem_range.mp member)]
    rfl
  · rintro ⟨i, rfl, inside⟩
    rw [Rose.get?_cons, found, Option.bind_some, isSome_getElem?] at inside
    exact ⟨i, List.mem_range.mpr inside, rfl⟩

theorem suffix_child_or_eq {i : Nat} (under : (i :: top) <:+ node) (below : top <:+ ptr)
    (above : ptr <:+ node) : ptr = top ∨ (i :: top) <:+ ptr := by
  rcases List.suffix_or_suffix_of_suffix above under with up | down
  · rcases List.suffix_cons_iff.mp up with rfl | up
    · exact Or.inr List.suffix_rfl
    · exact Or.inl (up.eq_of_length (Nat.le_antisymm up.length_le below.length_le))
  · exact Or.inr down

theorem bfs_eq_some {fuel : Nat} {pair : StEd × StEd}
    (found : ∀ top ∈ queue, (ev.root_.get? top).isSome)
    (call : bfsOffsetLoop ev offsets dim_name fuel queue = some pair) :
    ∃ top ∈ queue, ∃ node, Carrier ev offsets dim_name top node ∧
      pair = carrierPair ev offsets dim_name node := by
  induction fuel generalizing queue with
  | zero => cases call
  | succ fuel ih =>
    cases queue with
    | nil => cases call
    | cons curr queue =>
      have here := found curr List.mem_cons_self
      rw [bfsOffsetLoop] at call
      cases carried : offsets.dim_offset_ curr dim_name with
      | some offset =>
        simp only [carried, Option.some_inj] at call
        refine ⟨curr, List.mem_cons_self, curr, ⟨here, List.suffix_rfl, by rw [carried]; rfl, ?_⟩, ?_⟩
        · intro ptr below above apart
          exact absurd (above.eq_of_length (Nat.le_antisymm above.length_le below.length_le)) apart
        · rw [← call, carrierPair, carried]
          rfl
      | none =>
        simp only [carried] at call
        have next : ∀ top ∈ queue ++ ev.get_children curr, (ev.root_.get? top).isSome := by
          intro top member
          rcases List.mem_append.mp member with later | child
          · exact found top (List.mem_cons_of_mem curr later)
          · obtain ⟨i, rfl, inside⟩ := (mem_get_children here).mp child
            exact inside
        obtain ⟨top, member, node, carrier, result⟩ := ih next call
        rcases List.mem_append.mp member with later | child
        · exact ⟨top, List.mem_cons_of_mem curr later, node, carrier, result⟩
        · obtain ⟨i, rfl, inside⟩ := (mem_get_children here).mp child
          refine ⟨curr, List.mem_cons_self, node, ⟨carrier.found,
            (List.suffix_cons i curr).trans carrier.under, carrier.carries, ?_⟩, result⟩
          intro ptr below above apart
          rcases suffix_child_or_eq carrier.under below above with rfl | inner
          · exact carried
          · exact carrier.first ptr inner above apart

theorem BFSOffsetLoop_eq_some {pair : StEd × StEd} (found : (ev.root_.get? top).isSome)
    (call : BFSOffsetLoop ev offsets top dim_name = some pair) :
    ∃ node, Carrier ev offsets dim_name top node ∧
      pair = carrierPair ev offsets dim_name node := by
  obtain ⟨start, member, node, carrier, result⟩ := bfs_eq_some (by simpa using found) call
  cases List.mem_singleton.mp member
  exact ⟨node, carrier, result⟩

def EvaOffsets.entry (offsets : EvaOffsets) (node : NodePtr) (dim_name : String) : Option StEd :=
  (offsets.dim_offset_ node dim_name).map fun offset =>
    (offset, (offsets.last_dim_offset_ node dim_name).getD 0)

theorem EvaOffsets.entry_of_at (same : offsets.at node = offsets'.at node) :
    offsets.entry node dim_name = offsets'.entry node dim_name := by
  have dims : offsets.dim_offset_ node = offsets'.dim_offset_ node := congrArg Prod.fst same
  have lasts : offsets.last_dim_offset_ node = offsets'.last_dim_offset_ node :=
    congrArg Prod.snd same
  rw [entry, entry, dims, lasts]

theorem bfs_congr (fuel : Nat) (same : ∀ top ∈ queue, ∀ ptr, top <:+ ptr →
      offsets.entry ptr dim_name = offsets'.entry ptr dim_name) :
    bfsOffsetLoop ev offsets dim_name fuel queue = bfsOffsetLoop ev offsets' dim_name fuel queue := by
  induction fuel generalizing queue with
  | zero => rfl
  | succ fuel ih =>
    cases queue with
    | nil => rfl
    | cons curr queue =>
      have here := same curr List.mem_cons_self curr List.suffix_rfl
      rw [bfsOffsetLoop, bfsOffsetLoop]
      cases left : offsets.dim_offset_ curr dim_name with
      | some offset =>
        cases right : offsets'.dim_offset_ curr dim_name with
        | some offset' =>
          simp only [EvaOffsets.entry, left, right, Option.map_some, Option.some_inj,
            Prod.mk.injEq] at here
          simp only [here.1, here.2]
        | none => simp [EvaOffsets.entry, left, right] at here
      | none =>
        cases right : offsets'.dim_offset_ curr dim_name with
        | some offset' => simp [EvaOffsets.entry, left, right] at here
        | none =>
          apply ih
          intro top member ptr under
          rcases List.mem_append.mp member with later | child
          · exact same top (List.mem_cons_of_mem curr later) ptr under
          · obtain ⟨i, _, rfl⟩ := List.mem_map.mp child
            exact same curr List.mem_cons_self ptr ((List.suffix_cons i curr).trans under)

theorem firstChildOffset_entries {children : List NodePtr}
    (same : ∀ top ∈ children, ∀ ptr, top <:+ ptr →
      offsets.entry ptr dim_name = offsets'.entry ptr dim_name) :
    InitAnalysis.firstChildOffset ev offsets dim_name children =
      InitAnalysis.firstChildOffset ev offsets' dim_name children := by
  induction children with
  | nil => rfl
  | cons child children ih =>
    have here : BFSOffsetLoop ev offsets child dim_name = BFSOffsetLoop ev offsets' child dim_name :=
      bfs_congr _ (by simpa using same child List.mem_cons_self)
    rw [InitAnalysis.firstChildOffset, InitAnalysis.firstChildOffset, here,
      ih fun top member => same top (List.mem_cons_of_mem child member)]

theorem firstChildOffset_congr {children : List NodePtr}
    (same : ∀ top ∈ children, ∀ ptr, top <:+ ptr → offsets.at ptr = offsets'.at ptr) :
    InitAnalysis.firstChildOffset ev offsets dim_name children =
      InitAnalysis.firstChildOffset ev offsets' dim_name children :=
  firstChildOffset_entries fun top member ptr under =>
    EvaOffsets.entry_of_at (same top member ptr under)

theorem firstChildOffset_eq_some {children : List NodePtr} {pair : StEd × StEd}
    (found : ∀ top ∈ children, (ev.root_.get? top).isSome)
    (call : InitAnalysis.firstChildOffset ev offsets dim_name children = some pair) :
    ∃ top ∈ children, ∃ node, Carrier ev offsets dim_name top node ∧
      pair = carrierPair ev offsets dim_name node := by
  induction children with
  | nil => cases call
  | cons child children ih =>
    rw [InitAnalysis.firstChildOffset] at call
    cases here : BFSOffsetLoop ev offsets child dim_name with
    | some result =>
      simp only [here, Option.some_inj] at call
      subst call
      obtain ⟨node, carrier, result⟩ := BFSOffsetLoop_eq_some (found child List.mem_cons_self) here
      exact ⟨child, List.mem_cons_self, node, carrier, result⟩
    | none =>
      simp only [here] at call
      obtain ⟨top, member, rest⟩ := ih (fun top member =>
        found top (List.mem_cons_of_mem child member)) call
      exact ⟨top, List.mem_cons_of_mem child member, rest⟩

end TileExp.Analysis
