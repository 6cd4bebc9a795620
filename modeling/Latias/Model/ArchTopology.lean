import Latias.Library.Checked
import Latias.Model.Hardware
import Mathlib.Logic.Function.Basic

/-! `ParseArchTopology`: the levels of a configuration. -/

namespace TileExp

open Checked

inductive LevelType where
  | Matrix
  | Vector
  | Buffer
  deriving DecidableEq, Repr

structure LevelAttributes where
  sizeKB : Option Nat
  word_bits : Option Nat
  meshX : Option Nat
  meshY : Option Nat
  depth : Option Nat
  block_size : Option Nat
  compute_cycles : Option Nat
  deriving DecidableEq, Repr

/-- An entry of the list `subtree`. Names that are missing stay empty and `level_num` indeterminate,
    and the lookup of `attributes` throws. -/
structure LevelConfig where
  name : String
  level_name : String
  level_num : Option Nat
  attributes : Option LevelAttributes
  deriving DecidableEq, Repr

structure LevelRecord extends LevelAttri where
  name : String
  level_name : String
  level_type : LevelType
  sizeKB : Nat
  word_bits : Nat
  meshX : Nat
  meshY : Nat
  depth : Nat
  block_size : Nat
  deriving DecidableEq, Repr

def SetLevelType (level_name : String) : Exec LevelType :=
  if level_name = "DRAM" ∨ level_name = "SRAM" ∨ level_name = "REG" then .ok .Buffer
  else if level_name = "MAC" ∨ level_name = "MATRIX" then .ok .Matrix
  else if level_name = "VEC" ∨ level_name = "VECTOR" then .ok .Vector
  else .error (.assertion "unknown level type")

structure ArchLevels where
  archTopo_map_ : String → Option LevelRecord
  archTopoName2Idx_map_ : String → Option Nat
  level_num_ : Nat

namespace LevelConfig

/-- `levelAttri_` of an entry. It is cleared for every entry, so what is not given is 0. -/
def record (config : LevelConfig) (level_num : Nat) (level_type : LevelType)
    (attributes : LevelAttributes) : LevelRecord where
  level_num := level_num
  compute_cycles := attributes.compute_cycles.getD 0
  name := config.name
  level_name := config.level_name
  level_type := level_type
  sizeKB := attributes.sizeKB.getD 0
  word_bits := attributes.word_bits.getD 0
  meshX := attributes.meshX.getD 0
  meshY := attributes.meshY.getD 0
  depth := attributes.depth.getD 0
  block_size := attributes.block_size.getD 0

def parse (config : LevelConfig) : Exec LevelRecord :=
  match config.level_num with
  | none => .error .uninitialized
  | some level_num => do
    let level_type ← SetLevelType config.level_name
    match config.attributes with
    | none => .error (.exception "KeyNotFound")
    | some attributes => .ok (config.record level_num level_type attributes)

def add (archTopo : ArchLevels) (config : LevelConfig) : Exec ArchLevels := do
  let levelAttri_ ← config.parse
  .ok
    { archTopo_map_ := Function.update archTopo.archTopo_map_ config.name (some levelAttri_)
      archTopoName2Idx_map_ :=
        Function.update archTopo.archTopoName2Idx_map_ config.name (some archTopo.level_num_)
      level_num_ := archTopo.level_num_ + 1 }

end LevelConfig

def ParseArchTopology (config_ : List LevelConfig) : Exec ArchLevels :=
  config_.foldlM LevelConfig.add ⟨fun _ => none, fun _ => none, 0⟩

def ArchLevels.toArchTopo (archTopo : ArchLevels) : ArchTopo where
  archTopo_map_ level := (archTopo.archTopo_map_ level).map LevelRecord.toLevelAttri

namespace LevelConfig

variable {config_ : List LevelConfig} {level : String} {archTopo : ArchLevels}

def declared (config_ : List LevelConfig) (level : String) : Option (LevelConfig × Nat) :=
  config_.zipIdx.reverse.find? fun entry => entry.1.name = level

theorem declared_append (config_ : List LevelConfig) (config : LevelConfig) (level : String) :
    declared (config_ ++ [config]) level =
      if config.name = level then some (config, config_.length) else declared config_ level := by
  rw [declared, List.zipIdx_append, List.reverse_append]
  show List.find? _ ((config, 0 + config_.length) :: config_.zipIdx.reverse) = _
  rw [List.find?_cons, Nat.zero_add]
  split
  · next here => rw [if_pos (of_decide_eq_true here)]
  · next apart =>
    rw [if_neg (of_decide_eq_false apart)]
    rfl

/-- Every level is that of its last entry, numbered by its place, and nothing else is there. -/
structure Levels (config_ : List LevelConfig) (archTopo : ArchLevels) : Prop where
  records : ∀ level, match declared config_ level with
    | none => archTopo.archTopo_map_ level = none
    | some entry => ∃ levelAttri_, entry.1.parse = .ok levelAttri_ ∧
        archTopo.archTopo_map_ level = some levelAttri_
  places : ∀ level, archTopo.archTopoName2Idx_map_ level = (declared config_ level).map Prod.snd
  count : archTopo.level_num_ = config_.length

theorem parsed_levels (parsed : ParseArchTopology config_ = .ok archTopo) :
    Levels config_ archTopo := by
  refine foldlM_induction parsed (fun done archTopo => Levels done archTopo)
    ⟨fun _ => rfl, fun _ => rfl, rfl⟩ ?_
  intro done config rest before after _ held step
  obtain ⟨levelAttri_, own, result⟩ := bind_eq_ok.mp step
  cases result
  constructor
  · intro level
    rw [declared_append]
    by_cases here : config.name = level
    · rw [if_pos here]
      exact ⟨levelAttri_, own, by rw [here]; exact Function.update_self ..⟩
    · rw [if_neg here]
      dsimp only
      rw [Function.update_of_ne (Ne.symm here)]
      exact held.records level
  · intro level
    rw [declared_append]
    by_cases here : config.name = level
    · rw [if_pos here, here, held.count]
      exact Function.update_self ..
    · rw [if_neg here]
      dsimp only
      rw [Function.update_of_ne (Ne.symm here)]
      exact held.places level
  · simp only [held.count, List.length_append, List.length_singleton]

theorem parse_completes_iff {config : LevelConfig} : (∃ levelAttri_, config.parse = .ok levelAttri_) ↔
    config.level_num.isSome ∧ (SetLevelType config.level_name).isOk ∧ config.attributes.isSome := by
  unfold parse
  cases config.level_num with
  | none => simp
  | some level_num =>
    cases SetLevelType config.level_name with
    | error fault => simp [Except.isOk, Except.toBool]
    | ok level_type =>
      cases config.attributes with
      | none => simp
      | some attributes => simp [Except.isOk, Except.toBool]

theorem topology_completes_iff : (∃ archTopo, ParseArchTopology config_ = .ok archTopo) ↔
    ∀ config ∈ config_, ∃ levelAttri_, config.parse = .ok levelAttri_ := by
  constructor
  · rintro ⟨archTopo, parsed⟩ config member
    obtain ⟨before, after, rfl⟩ := List.append_of_mem member
    rw [ParseArchTopology, List.foldlM_append] at parsed
    obtain ⟨mid, _, parsed⟩ := bind_eq_ok.mp parsed
    obtain ⟨next, step, _⟩ := bind_eq_ok.mp parsed
    obtain ⟨levelAttri_, own, _⟩ := bind_eq_ok.mp step
    exact ⟨levelAttri_, own⟩
  · intro each
    obtain ⟨archTopo, parsed, _⟩ := @foldlM_total _ _ _ LevelConfig.add config_ (fun _ => True) _ trivial
      fun config member archTopo _ => by
        obtain ⟨levelAttri_, own⟩ := each config member
        exact ⟨_, by rw [add, own, ok_bind], trivial⟩
    exact ⟨archTopo, parsed⟩

theorem Levels.known (levels : Levels config_ archTopo) (level : String) :
    (archTopo.archTopoName2Idx_map_ level).isSome = (archTopo.archTopo_map_ level).isSome := by
  have record := levels.records level
  rw [levels.places]
  cases found : declared config_ level with
  | none =>
    rw [found] at record
    rw [record]
    rfl
  | some entry =>
    rw [found] at record
    obtain ⟨levelAttri_, _, record⟩ := record
    rw [record]
    rfl

end LevelConfig

end TileExp
