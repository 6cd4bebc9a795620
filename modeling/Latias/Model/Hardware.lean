import Latias.Common

namespace TileExp

inductive ConType where
  | HD
  | FD
  | UC
  | BC
  | Ring
  | Mesh
  deriving DecidableEq, Repr

structure InterConNode where
  bandwidth_ : Nat
  con_type_ : ConType
  fanin_ : Nat
  fanout_ : Nat
  deriving DecidableEq, Repr

/-- `InterCon::intercon_attri_map_`, keyed by `source + "2" + target`. -/
structure InterCon where
  intercon_attri_map_ : String → Option InterConNode

/-- `intercon[connection].bandwidth_`: the entry made for an absent key leaves the member
    indeterminate. -/
def InterCon.bandwidth_ (intercon : InterCon) (connection : String) : Exec Nat :=
  match intercon.intercon_attri_map_ connection with
  | some node => .ok node.bandwidth_
  | none => .error .uninitialized

structure LevelAttri where
  level_num : Nat
  compute_cycles : Nat
  deriving DecidableEq, Repr

structure ArchTopo where
  archTopo_map_ : String → Option LevelAttri

/-- `archTopo_map_[level].compute_cycles`: the entry made for an absent key is zeroed. -/
def ArchTopo.compute_cycles (topo : ArchTopo) (level : String) : Nat :=
  match topo.archTopo_map_ level with
  | some attri => attri.compute_cycles
  | none => 0

end TileExp
