import Latias.Analysis.PerfTensors
import Latias.Mapper.DataMovement
import Latias.Problem.Workloads

/-! The volume charged for a tensor and the coordinates of the tensor inside the box. -/

namespace TileExp

open Checked

def TensorMap.ofBox (tensor_name : String) (dims : List String) (box : String → Int × Int) :
    TensorMap :=
  ⟨tensor_name, dims,
    Keys.insertAll id (fun dim_name => ⟨dim_name, (box dim_name).1, (box dim_name).2⟩) dims ∅⟩

namespace Shape

def termName (shape : Shape) (term : Nat × Nat) : String :=
  (shape.FactorizedDimensionIDToName term.2).getD ""

def coordinates (shape : Shape) (proj : List (List (Nat × Nat))) (point : String → Int) : List Int :=
  proj.map fun expr => (expr.map fun term => point (shape.termName term)).sum

def spread {dims : Finset String} (p : (k : String) → k ∈ dims → Int) (dim_name : String) : Int :=
  if inside : dim_name ∈ dims then p dim_name inside else 0

noncomputable def footprint (shape : Shape) (proj : List (List (Nat × Nat))) (dims : Finset String)
    (box : String → Int × Int) : Finset (List Int) :=
  (Boxes.points dims box).image fun p => shape.coordinates proj (spread p)

/-- No two points of a box have the same coordinates. -/
def Separates (shape : Shape) (proj : List (List (Nat × Nat))) (dims : Finset String)
    (box : String → Int × Int) : Prop :=
  ∀ p ∈ Boxes.points dims box, ∀ p' ∈ Boxes.points dims box,
    shape.coordinates proj (spread p) = shape.coordinates proj (spread p') → p = p'

end Shape

variable {shape : Shape} {proj : List (List (Nat × Nat))} {tensor : String} {dims : List String}
  {box : String → Int × Int}

theorem lookup_ofBox (tensor : String) (dims : List String) (box : String → Int × Int)
    (dim_name : String) : (TensorMap.ofBox tensor dims box).dim_ranges_.lookup dim_name =
      if dim_name ∈ dims then some ⟨dim_name, (box dim_name).1, (box dim_name).2⟩ else none := by
  rw [TensorMap.ofBox, Keys.lookup_insertAll_keys]
  simp

theorem range_ofBox {dim_name : String} (inside : dim_name ∈ dims) :
    (TensorMap.ofBox tensor dims box).range dim_name = box dim_name := by
  have found := lookup_ofBox tensor dims box dim_name
  rw [if_pos inside] at found
  rw [range_of_lookup found]

theorem ofBox_over (ordered : ∀ dim_name ∈ dims, (box dim_name).1 ≤ (box dim_name).2) :
    TensorMap.Over dims.toFinset (TensorMap.ofBox tensor dims box) := by
  constructor
  · ext dim_name
    rw [List.mem_toFinset, ← AList.mem_keys, ← AList.lookup_isSome, lookup_ofBox, List.mem_toFinset]
    split
    · next inside => simp [inside]
    · next outside => simp [outside]
  · intro dim_name inside
    have member := List.mem_toFinset.mp inside
    rw [range_ofBox member]
    exact ordered dim_name member

theorem points_ofBox :
    (TensorMap.ofBox tensor dims box).points dims.toFinset = Boxes.points dims.toFinset box := by
  ext p
  rw [TensorMap.points, Boxes.mem_points, Boxes.mem_points]
  apply forall₂_congr
  intro dim_name inside
  rw [range_ofBox (List.mem_toFinset.mp inside)]

theorem footprint_card_le (shape : Shape) (proj : List (List (Nat × Nat))) (dims : Finset String)
    (box : String → Int × Int) :
    (shape.footprint proj dims box).card ≤ (Boxes.points dims box).card :=
  Finset.card_image_le

theorem footprint_card_eq_iff (shape : Shape) (proj : List (List (Nat × Nat))) (dims : Finset String)
    (box : String → Int × Int) :
    (shape.footprint proj dims box).card = (Boxes.points dims box).card ↔
      shape.Separates proj dims box := by
  rw [Shape.footprint, Finset.card_image_iff]
  constructor
  · exact fun separate p inside p' inside' same => separate inside inside' same
  · exact fun separate p inside p' inside' same => separate p inside p' inside' same

theorem separates_of_alone {dims : Finset String} (box : String → Int × Int)
    (alone : ∀ dim_name ∈ dims, ∃ expr ∈ proj, expr.map shape.termName = [dim_name]) :
    shape.Separates proj dims box := by
  intro p _ p' _ same
  funext dim_name inside
  obtain ⟨expr, member, single⟩ := alone dim_name inside
  have expressions := List.map_inj_left.mp same expr member
  have names (point : String → Int) :
      (expr.map fun term => point (shape.termName term)) = (expr.map shape.termName).map point := by
    rw [List.map_map]
    rfl
  rw [names, names, single] at expressions
  simpa [Shape.spread, inside] using expressions

structure ChargesFootprint (shape : Shape) (proj : List (List (Nat × Nat))) (tensor : String)
    (dims : List String) (box : String → Int × Int) (volume : Int) : Prop where
  whole : calTensorMapVolume (TensorMap.ofBox tensor dims box) = .ok volume
  first : calTensorMapDM ⟨tensor, dims, ∅⟩ (TensorMap.ofBox tensor dims box) = .ok volume
  enough : ((shape.footprint proj dims.toFinset box).card : Int) ≤ volume
  exact : volume = (shape.footprint proj dims.toFinset box).card ↔
    shape.Separates proj dims.toFinset box
  alone : (∀ dim_name ∈ dims, ∃ expr ∈ proj, expr.map shape.termName = [dim_name]) →
    volume = (shape.footprint proj dims.toFinset box).card

theorem charges_footprint (some : dims ≠ [])
    (ordered : ∀ dim_name ∈ dims, (box dim_name).1 ≤ (box dim_name).2) :
    ∃ volume, ChargesFootprint shape proj tensor dims box volume := by
  have over_dims : TensorMap.Over dims.toFinset (TensorMap.ofBox tensor dims box) := ofBox_over ordered
  have present : dims.toFinset.Nonempty := by
    rwa [List.toFinset_nonempty_iff]
  have least := footprint_card_le shape proj dims.toFinset box
  have equal := footprint_card_eq_iff shape proj dims.toFinset box
  refine ⟨(Boxes.points dims.toFinset box).card, ?_, ?_, ?_, ?_, fun alone => ?_⟩
  · rw [calTensorMapVolume_eq present over_dims, points_ofBox]
  · have blank := @calTensorMapDM_start ⟨tensor, dims, ∅⟩ (TensorMap.ofBox tensor dims box) _ present
      rfl rfl over_dims
    rw [blank, points_ofBox]
  · omega
  · rw [← equal]
    constructor <;> intro same <;> omega
  · have separate := separates_of_alone box fun dim_name inside =>
      alone dim_name (List.mem_toFinset.mp inside)
    have same := equal.mpr separate
    omega

/-- `addCurrentTensor` makes the map of a box. -/
theorem currentTensorMap_eq_ofBox {ctx : Analysis.PerfContext} {w : Analysis.Walk} {skew : String → Int}
    {map : TensorMap} (call : Analysis.currentTensorMap ctx w skew tensor dims = .ok map) :
    ∃ box, (∀ dim_name ∈ dims, Analysis.currentDimRange ctx w skew dim_name = .ok (box dim_name)) ∧
      map = TensorMap.ofBox tensor dims box := by
  obtain ⟨ranges, filled, result⟩ := bind_eq_ok.mp call
  cases result
  let box : String → Int × Int := fun dim_name =>
    match Analysis.currentDimRange ctx w skew dim_name with
    | .ok range => range
    | .error _ => (0, 0)
  have each := foldlM_induction filled
    (fun done table => (∀ dim_name ∈ done,
        Analysis.currentDimRange ctx w skew dim_name = .ok (box dim_name)) ∧
      table = Keys.insertAll id (fun dim_name =>
        (⟨dim_name, (box dim_name).1, (box dim_name).2⟩ : DimRange)) done ∅) ?_ ?_
  · exact ⟨box, each.1, by rw [each.2, TensorMap.ofBox]⟩
  · exact ⟨fun _ none => absurd none List.not_mem_nil, rfl⟩
  · intro done dim_name rest table table' _ known step
    obtain ⟨range, computed, write⟩ := bind_eq_ok.mp step
    cases write
    have value : box dim_name = range := by
      simp only [box, computed]
    constructor
    · intro name member
      rcases List.mem_append.mp member with earlier | last
      · exact known.1 name earlier
      · cases List.mem_singleton.mp last
        rw [computed, value]
    · rw [known.2, Keys.insertAll, Keys.insertAll, List.foldl_append, ← value]
      rfl

theorem dimNamesOf_eq_ok {names : List String}
    (call : Workloads.dimNamesOf shape tensor = .ok names) :
    ∃ proj, shape.Projections[(shape.DataSpaceNameToID tensor).getD 0]? = some proj ∧
      names = proj.flatten.map shape.termName := by
  unfold Workloads.dimNamesOf at call
  simp only at call
  split at call
  · cases call
  · next proj found =>
    cases call
    refine ⟨proj, found, ?_⟩
    rw [List.map_flatten, List.flatMap_def]
    rfl

theorem getDimName_reads {workloads : Workloads} {tensorName : List String}
    {dimName : Table (List String)} (call : workloads.getDimName tensorName = .ok dimName)
    (member : tensor ∈ tensorName) : ∃ dims, dimName.lookup tensor = some dims ∧
      Workloads.dimNamesOf workloads.common_shape_ tensor = .ok dims := by
  apply foldlM_induction call (fun done table => ∀ t ∈ done, ∃ dims, table.lookup t = some dims ∧
    Workloads.dimNamesOf workloads.common_shape_ t = .ok dims) ?_ ?_ tensor member
  · exact fun t none => absurd none List.not_mem_nil
  · intro done t rest table table' _ known step u found
    obtain ⟨dims, read, write⟩ := bind_eq_ok.mp step
    cases write
    by_cases same : u = t
    · subst same
      exact ⟨dims, AList.lookup_insert table, read⟩
    · rw [AList.lookup_insert_ne same]
      exact known u ((List.mem_append.mp found).resolve_right (by simpa using same))

/-- The volume charged for the first map of a tensor is never less than the coordinates of the
    tensor inside the box, and is as many as these just when no two points have the same. -/
theorem charged_volume_covers_footprint {workloads : Workloads} {tensorName : List String}
    {dimName : Table (List String)} (call : workloads.getDimName tensorName = .ok dimName)
    (member : tensor ∈ tensorName) :
    ∃ dims proj, dimName.lookup tensor = some dims ∧ workloads.common_shape_.Projections[
        (workloads.common_shape_.DataSpaceNameToID tensor).getD 0]? = some proj ∧
      (proj.flatten ≠ [] → ∀ box : String → Int × Int,
        (∀ dim_name ∈ dims, (box dim_name).1 ≤ (box dim_name).2) →
          ∃ volume, ChargesFootprint workloads.common_shape_ proj tensor dims box volume) := by
  obtain ⟨dims, named, read⟩ := getDimName_reads call member
  obtain ⟨proj, found, names⟩ := dimNamesOf_eq_ok read
  refine ⟨dims, proj, named, found, fun some box ordered => charges_footprint ?_ ordered⟩
  rw [names]
  exact fun none => some (List.map_eq_nil_iff.mp none)

def window : Workloads where
  workloads_ := fun _ => none
  common_shape_ :=
    { FactorizedDimensionNameToID := fun name => ["P", "R"].idxOf? name
      FactorizedDimensionIDToName := fun id => ["P", "R"][id]?
      DataSpaceNameToID := fun name => ["I", "W"].idxOf? name
      Projections := [[[(0, 0), (0, 1)]], [[(0, 0)], [(0, 1)]]] }
  factorized_bounds_ := fun _ => none

/-- The sliding window has five coordinates and is charged for nine. -/
theorem window_charged_for_nine :
    (window.getDimName ["I"]).toOption.bind (AList.lookup "I") = some ["P", "R"] ∧
      window.common_shape_.Projections[(window.common_shape_.DataSpaceNameToID "I").getD 0]? =
        some [[(0, 0), (0, 1)]] ∧
      calTensorMapVolume (TensorMap.ofBox "I" ["P", "R"] fun _ => (0, 3)) = .ok 9 ∧
      (window.common_shape_.footprint [[(0, 0), (0, 1)]] ["P", "R"].toFinset fun _ => (0, 3)).card =
        5 := by
  decide +kernel

theorem charged_volume_covers_footprint_window : ∃ dimName,
    window.getDimName ["I", "W"] = .ok dimName ∧ ∃ dims proj, dimName.lookup "W" = some dims ∧
      window.common_shape_.Projections[(window.common_shape_.DataSpaceNameToID "W").getD 0]? =
        some proj ∧ (proj.flatten ≠ [] → ∀ box : String → Int × Int,
          (∀ dim_name ∈ dims, (box dim_name).1 ≤ (box dim_name).2) →
            ∃ volume, ChargesFootprint window.common_shape_ proj "W" dims box volume) := by
  have completed : (window.getDimName ["I", "W"]).isOk = true := by
    decide +kernel
  obtain ⟨dimName, call⟩ := exists_of_isOk completed
  exact ⟨dimName, call, charged_volume_covers_footprint call (by decide +kernel)⟩

end TileExp
