import Latias.Library.Boxes
import Latias.Library.Checked
import Latias.Library.Keys
import Latias.Mapper.TensorMap

/-! `calTensorMapDM` counts the points of one box outside another. -/

namespace TileExp

open Checked

namespace TensorMap

def range (map : TensorMap) (dim_name : String) : Int × Int :=
  match map.dim_ranges_.lookup dim_name with
  | some dim_range => (dim_range.low_bound_, dim_range.high_bound_)
  | none => (0, 0)

structure Over (dims : Finset String) (map : TensorMap) : Prop where
  keys : map.dim_ranges_.keys.toFinset = dims
  ordered : ∀ dim_name ∈ dims, (map.range dim_name).1 ≤ (map.range dim_name).2

noncomputable def points (dims : Finset String) (map : TensorMap) : Finset ((k : String) → k ∈ dims → Int) :=
  Boxes.points dims map.range

end TensorMap

variable {before after : TensorMap} {dims : Finset String}

theorem range_of_lookup {map : TensorMap} {dim_name : String} {dim_range : DimRange}
    (found : map.dim_ranges_.lookup dim_name = some dim_range) :
    map.range dim_name = (dim_range.low_bound_, dim_range.high_bound_) := by
  rw [TensorMap.range, found]

theorem rangeVolume_eq (map : TensorMap) :
    rangeVolume map.dim_ranges_ = ∏ dim_name ∈ map.dim_ranges_.keys.toFinset,
      ((map.range dim_name).2 - (map.range dim_name).1) := by
  have folded : ∀ (entries : List (Sigma fun _ : String => DimRange)) (start : Int),
      entries.foldl (fun size pair => size * pair.2.length) start =
        start * (entries.map fun pair => pair.2.length).prod := by
    intro entries
    induction entries with
    | nil => exact fun start => (Int.mul_one start).symm
    | cons pair entries ih =>
      intro start
      rw [List.foldl_cons, ih, List.map_cons, List.prod_cons, Int.mul_assoc]
  rw [rangeVolume, folded, Int.one_mul]
  refine Keys.prod_entries map.dim_ranges_ (fun _ dim_range => dim_range.length) _ ?_
  intro dim_name dim_range found
  rw [range_of_lookup found]
  rfl

theorem dimOverlap_eq (range1 range2 : DimRange) :
    dimOverlap range1 range2 = max (min range1.high_bound_ range2.high_bound_ -
      max range1.low_bound_ range2.low_bound_) 0 := by
  unfold dimOverlap DimRange.length
  split
  · omega
  · omega

theorem foldl_accumulateOverlap (ranges : Table DimRange)
    (entries : List (Sigma fun _ : String => DimRange))
    (present : ∀ entry ∈ entries, (ranges.lookup entry.1).isSome) (sizes : Int × Int) :
    entries.foldl (accumulateOverlap ranges) sizes =
      (sizes.1 * (entries.map fun entry => ((ranges.lookup entry.1).map DimRange.length).getD 1).prod,
        sizes.2 * (entries.map fun entry =>
          ((ranges.lookup entry.1).map (dimOverlap entry.2)).getD 1).prod) := by
  induction entries generalizing sizes with
  | nil => simp
  | cons entry entries ih =>
    obtain ⟨dim_range, found⟩ := Option.isSome_iff_exists.mp (present entry List.mem_cons_self)
    have step : accumulateOverlap ranges sizes entry =
        (sizes.1 * dim_range.length, sizes.2 * dimOverlap entry.2 dim_range) := by
      rw [accumulateOverlap, found]
    rw [List.foldl_cons, step, ih fun e inside => present e (List.mem_cons_of_mem entry inside)]
    simp only [List.map_cons, List.prod_cons, found, Option.map_some, Option.getD_some, Int.mul_assoc]

theorem exists_range (over_dims : TensorMap.Over dims after) {dim_name : String} (inside : dim_name ∈ dims) :
    ∃ dim_range, after.dim_ranges_.lookup dim_name = some dim_range := by
  rw [← Option.isSome_iff_exists, AList.lookup_isSome, AList.mem_keys, ← List.mem_toFinset, over_dims.keys]
  exact inside

theorem overlap_sizes (over_before : TensorMap.Over dims before)
    (over_after : TensorMap.Over dims after) :
    before.dim_ranges_.entries.foldl (accumulateOverlap after.dim_ranges_) (1, 1) =
      (((after.points dims).card : Int), ((before.points dims ∩ after.points dims).card : Int)) := by
  have names : ∀ entry ∈ before.dim_ranges_.entries, entry.1 ∈ dims := by
    intro entry member
    rw [← over_before.keys, List.mem_toFinset]
    exact List.mem_map_of_mem member
  rw [foldl_accumulateOverlap]
  · rw [Int.one_mul, Int.one_mul, TensorMap.points, TensorMap.points, Boxes.points_inter,
      Boxes.card_points_of_ordered over_after.ordered, Boxes.card_points]
    refine Prod.ext ?_ ?_
    · simp only
      rw [← over_before.keys]
      refine Keys.prod_entries before.dim_ranges_
        (fun dim_name _ => ((after.dim_ranges_.lookup dim_name).map DimRange.length).getD 1) _ ?_
      intro dim_name dim_range found
      have inside : dim_name ∈ dims := names ⟨dim_name, dim_range⟩ (AList.mem_lookup_iff.mp found)
      obtain ⟨dim_range2, found2⟩ := exists_range over_after inside
      rw [found2, range_of_lookup found2]
      rfl
    · simp only
      rw [← over_before.keys]
      refine Keys.prod_entries before.dim_ranges_ (fun dim_name dim_range =>
        ((after.dim_ranges_.lookup dim_name).map (dimOverlap dim_range)).getD 1) _ ?_
      intro dim_name dim_range found
      have inside : dim_name ∈ dims := names ⟨dim_name, dim_range⟩ (AList.mem_lookup_iff.mp found)
      obtain ⟨dim_range2, found2⟩ := exists_range over_after inside
      rw [found2, Boxes.meet, range_of_lookup found2, range_of_lookup found]
      exact dimOverlap_eq dim_range dim_range2
  · intro entry member
    obtain ⟨dim_range, found⟩ := exists_range over_after (names entry member)
    rw [found]
    rfl

theorem entries_ne_nil (some : dims.Nonempty) (over_dims : TensorMap.Over dims after) :
    after.dim_ranges_.entries ≠ [] := by
  obtain ⟨dim_name, inside⟩ := some
  obtain ⟨dim_range, found⟩ := exists_range over_dims inside
  exact List.ne_nil_of_mem (AList.mem_lookup_iff.mp found)

theorem calTensorMapVolume_eq (some : dims.Nonempty) (over_dims : TensorMap.Over dims after) :
    calTensorMapVolume after = .ok ((after.points dims).card : Int) := by
  have present := entries_ne_nil some over_dims
  rw [calTensorMapVolume, tileexpAssert, if_pos present, ok_bind, rangeVolume_eq, over_dims.keys,
    TensorMap.points, Boxes.card_points_of_ordered over_dims.ordered]

theorem calTensorMapDM_start (some : dims.Nonempty)
    (lengths : before.tensor_dims_.length = after.tensor_dims_.length)
    (none : before.dim_ranges_.entries = []) (over_dims : TensorMap.Over dims after) :
    calTensorMapDM before after = .ok ((after.points dims).card : Int) := by
  have present := entries_ne_nil some over_dims
  have volume := calTensorMapVolume_eq some over_dims
  rw [calTensorMapVolume, tileexpAssert, if_pos present, ok_bind] at volume
  rw [calTensorMapDM, tileexpAssert, if_pos lengths, ok_bind, tileexpAssert, if_pos present, ok_bind,
    if_pos none, volume]

theorem calTensorMapDM_eq (some : dims.Nonempty)
    (lengths : before.tensor_dims_.length = after.tensor_dims_.length)
    (over_before : TensorMap.Over dims before) (over_after : TensorMap.Over dims after) :
    calTensorMapDM before after = .ok ((after.points dims \ before.points dims).card : Int) := by
  have present := entries_ne_nil some over_after
  have recorded := entries_ne_nil some over_before
  have parts := Finset.card_sdiff_add_card_inter (after.points dims) (before.points dims)
  rw [calTensorMapDM, tileexpAssert, if_pos lengths, ok_bind, tileexpAssert, if_pos present, ok_bind,
    if_neg recorded, overlap_sizes over_before over_after]
  simp only [Finset.inter_comm (before.points dims)]
  congr 1
  omega

def sequenceDM : TensorMap → List TensorMap → Exec Int
  | _, [] => .ok 0
  | before, after :: rest => do
    let amount ← calTensorMapDM before after
    let total ← sequenceDM after rest
    .ok (amount + total)

theorem sequenceDM_eq (some : dims.Nonempty) (count : Nat) (maps : List TensorMap)
    (over_dims : ∀ map ∈ maps, TensorMap.Over dims map ∧ map.tensor_dims_.length = count) :
    ∀ before, TensorMap.Over dims before → before.tensor_dims_.length = count →
      sequenceDM before maps =
        .ok (Boxes.newcomers (before.points dims) (maps.map (TensorMap.points dims)) : Int) := by
  induction maps with
  | nil => exact fun before _ _ => rfl
  | cons after rest ih =>
    intro before over_before lengths
    obtain ⟨over_after, length⟩ := over_dims after List.mem_cons_self
    have inner := ih (fun map inside => over_dims map (List.mem_cons_of_mem after inside)) after over_after
      length
    rw [sequenceDM, calTensorMapDM_eq some (lengths.trans length.symm) over_before over_after,
      ok_bind, inner, ok_bind, List.map_cons, Boxes.newcomers, Nat.cast_add]

/-- What `calTensorMapDM` counts, on maps over the dimensions `dims`. -/
structure CountsNewPoints (dims : Finset String) : Prop where
  difference : ∀ before after, before.tensor_dims_.length = after.tensor_dims_.length →
    TensorMap.Over dims before → TensorMap.Over dims after →
      calTensorMapDM before after = .ok ((after.points dims \ before.points dims).card : Int)
  start : ∀ before after, before.tensor_dims_.length = after.tensor_dims_.length →
    before.dim_ranges_.entries = [] → TensorMap.Over dims after →
      calTensorMapDM before after = .ok ((after.points dims).card : Int) ∧
        calTensorMapVolume after = .ok ((after.points dims).card : Int)
  bounds : ∀ before after amount volume, TensorMap.Over dims before → TensorMap.Over dims after →
    calTensorMapDM before after = .ok amount → calTensorMapVolume after = .ok volume →
      0 ≤ amount ∧ amount ≤ volume
  covered : ∀ before after amount, TensorMap.Over dims before → TensorMap.Over dims after →
    calTensorMapDM before after = .ok amount → after.points dims ⊆ before.points dims → amount = 0
  sequence : ∀ blank maps, blank.dim_ranges_.entries = [] →
    (∀ map ∈ maps, TensorMap.Over dims map ∧ map.tensor_dims_.length = blank.tensor_dims_.length) →
      ∃ total, sequenceDM blank maps = .ok total ∧
        ((Boxes.union (maps.map (TensorMap.points dims))).card : Int) ≤ total

theorem lengths_of_ok {amount : Int} (call : calTensorMapDM before after = .ok amount) :
    before.tensor_dims_.length = after.tensor_dims_.length := by
  obtain ⟨_, asserted, _⟩ := bind_eq_ok.mp call
  exact tileexpAssert_eq_ok.mp asserted

/-- The movement is the size of a set difference, whatever the number of dimensions. -/
theorem calTensorMapDM_counts_new_points (dims : Finset String) (some : dims.Nonempty) :
    CountsNewPoints dims := by
  constructor
  · exact fun before after lengths over_before over_after =>
      calTensorMapDM_eq some lengths over_before over_after
  · exact fun before after lengths none over_dims =>
      ⟨calTensorMapDM_start some lengths none over_dims, calTensorMapVolume_eq some over_dims⟩
  · intro before after amount volume over_before over_after moved whole
    rw [calTensorMapDM_eq some (lengths_of_ok moved) over_before over_after] at moved
    rw [calTensorMapVolume_eq some over_after] at whole
    cases moved
    cases whole
    have fewer := Finset.card_le_card (Finset.sdiff_subset (s := after.points dims)
      (t := before.points dims))
    omega
  · intro before after amount over_before over_after moved inside
    rw [calTensorMapDM_eq some (lengths_of_ok moved) over_before over_after,
      Finset.sdiff_eq_empty_iff_subset.mpr inside, Finset.card_empty] at moved
    cases moved
    rfl
  · intro blank maps none over_dims
    have union := Boxes.card_union_le (maps.map (TensorMap.points dims))
    cases maps with
    | nil => exact ⟨0, rfl, by exact_mod_cast union⟩
    | cons first rest =>
      obtain ⟨over_first, length⟩ := over_dims first List.mem_cons_self
      have inner := sequenceDM_eq some blank.tensor_dims_.length rest
        (fun map inside => over_dims map (List.mem_cons_of_mem first inside)) first over_first length
      refine ⟨_, by rw [sequenceDM, calTensorMapDM_start some length.symm none over_first, ok_bind,
        inner, ok_bind], ?_⟩
      rw [List.map_cons, Boxes.newcomers, Finset.sdiff_empty] at union
      exact_mod_cast union

def squareMap (m n : Int) : TensorMap where
  tensor_name_ := "T"
  tensor_dims_ := ["M", "N"]
  dim_ranges_ := ⟨[⟨"M", ⟨"M", m, m + 3⟩⟩, ⟨"N", ⟨"N", n, n + 3⟩⟩], by simp [List.NodupKeys]⟩

theorem squareMap_over (m n : Int) : TensorMap.Over {"M", "N"} (squareMap m n) := by
  constructor
  · simp [AList.keys, squareMap]
  · intro dim_name inside
    rcases Finset.mem_insert.mp inside with rfl | inside
    · simp [TensorMap.range, squareMap, AList.lookup]
    · cases Finset.mem_singleton.mp inside
      simp [TensorMap.range, squareMap, AList.lookup]

theorem calTensorMapDM_counts_square : calTensorMapDM (squareMap 0 0) (squareMap 2 1) = .ok 7 ∧
    ((squareMap 2 1).points {"M", "N"} \ (squareMap 0 0).points {"M", "N"}).card = 7 := by
  have counted := (calTensorMapDM_counts_new_points {"M", "N"} ⟨"M", Finset.mem_insert_self _ _⟩).difference
    (squareMap 0 0) (squareMap 2 1) rfl (squareMap_over 0 0) (squareMap_over 2 1)
  have moved : calTensorMapDM (squareMap 0 0) (squareMap 2 1) = .ok 7 := by
    decide +kernel
  refine ⟨moved, ?_⟩
  rw [moved] at counted
  exact_mod_cast (Except.ok.inj counted).symm

end TileExp
