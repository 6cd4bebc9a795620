import Latias.Model.Interconnection
import Mathlib.Data.List.Pairwise

/-! The links after `ParseInterConnection`, looked up under `source + "2" + target`. -/

namespace TileExp

open Checked

/-- Connections between declared levels, at most one from a level to another. -/
structure Connection.Between (archTopo : ArchTopo) (config_ : List Connection) : Prop where
  instances : ∀ level attri, archTopo.archTopo_map_ level = some attri → attri.level_num ≠ 0
  sources : ∀ config ∈ config_, (archTopo.archTopo_map_ config.source).isSome
  targets : ∀ config ∈ config_, (archTopo.archTopo_map_ config.target).isSome
  distinct : config_.Pairwise fun a b => (a.source, a.target) ≠ (b.source, b.target)

def Connection.source2target (config : Connection) : String := config.source ++ "2" ++ config.target

/-- The link of a connection has its bandwidth, its type, and the ratio of its levels: the larger
    number of instances is the smaller one times the fan-out or fan-in. -/
structure InterCon.Holds (intercon : InterCon) (archTopo : ArchTopo) (config : Connection)
    (node : InterConNode) : Prop where
  found : intercon.intercon_attri_map_ config.source2target = some node
  bandwidth : config.bandwidth = some node.bandwidth_
  con_type : String2ConType.lookup config.con_type = some node.con_type_
  fan : if archTopo.level_num config.source ≤ archTopo.level_num config.target
    then node.fanout_ * archTopo.level_num config.source = archTopo.level_num config.target
    else node.fanin_ * archTopo.level_num config.target = archTopo.level_num config.source

def InterCon.HoldsAll (intercon : InterCon) (archTopo archTopo' : ArchTopo)
    (config_ : List Connection) : Prop :=
  (∀ config ∈ config_, ∃ node, intercon.Holds archTopo config node) ∧
    archTopo'.archTopo_map_ = archTopo.archTopo_map_

def Connection.RatioOf (archTopo : ArchTopo) (config last : Connection) : Prop :=
  if archTopo.level_num config.source ≤ archTopo.level_num config.target
  then (last.fans archTopo).2 ≤ (last.fans archTopo).1 ∧
    (last.fans archTopo).1 / (last.fans archTopo).2 * archTopo.level_num config.source =
      archTopo.level_num config.target
  else (last.fans archTopo).1 < (last.fans archTopo).2 ∧
    (last.fans archTopo).2 / (last.fans archTopo).1 * archTopo.level_num config.target =
      archTopo.level_num config.source

/-- The last connection of the list under the key has the same bandwidth and type, and levels whose
    quotient fits. -/
def Connection.Kept (archTopo : ArchTopo) (config_ : List Connection) (config : Connection) : Prop :=
  ∃ last ∈ Connection.declared config_ config.source2target,
    last.bandwidth = config.bandwidth ∧ last.con_type = config.con_type ∧
      config.RatioOf archTopo last

instance (archTopo : ArchTopo) (config last : Connection) :
    Decidable (config.RatioOf archTopo last) :=
  inferInstanceAs (Decidable
    (ite (archTopo.level_num config.source ≤ archTopo.level_num config.target) _ _))

instance (archTopo : ArchTopo) (config_ : List Connection) (config : Connection) :
    Decidable (config.Kept archTopo config_) :=
  inferInstanceAs (Decidable (∃ last ∈ Connection.declared config_ config.source2target, _))

namespace Connection

variable {archTopo archTopo' : ArchTopo} {config last : Connection} {config_ : List Connection}
  {intercon : InterCon} {node : InterConNode}

theorem Between.level_num_ne (between : Between archTopo config_) {level : String}
    (declared : (archTopo.archTopo_map_ level).isSome) : archTopo.level_num level ≠ 0 := by
  obtain ⟨attri, found⟩ := Option.isSome_iff_exists.mp declared
  rw [ArchTopo.level_num, found]
  exact between.instances level attri found

theorem Between.fans_pos (between : Between archTopo config_) (member : config ∈ config_) :
    (config.fans archTopo).1 ≠ 0 ∧ (config.fans archTopo).2 ≠ 0 := by
  unfold fans
  split
  · exact ⟨Nat.one_ne_zero, Nat.one_ne_zero⟩
  · next other =>
    have target : config.target_ = config.target := by
      unfold target_ at other ⊢
      split at other
      · exact absurd rfl other
      · next outer => rw [if_neg outer]
    rw [target]
    exact ⟨between.level_num_ne (between.targets config member),
      between.level_num_ne (between.sources config member)⟩

theorem touch_of_declared {level : String} (declared : (archTopo.archTopo_map_ level).isSome) :
    archTopo.touch level = archTopo := by
  obtain ⟨attri, found⟩ := Option.isSome_iff_exists.mp declared
  rw [ArchTopo.touch, found]

theorem Between.touched (between : Between archTopo config_) (member : config ∈ config_) :
    config.touched archTopo = archTopo := by
  unfold Connection.touched
  split
  · rfl
  · next other =>
    have target : config.target_ = config.target := by
      unfold target_ at other ⊢
      split at other
      · exact absurd rfl other
      · next outer => rw [if_neg outer]
    rw [target, touch_of_declared (between.targets config member),
      touch_of_declared (between.sources config member)]

theorem Between.unchanged (between : Between archTopo config_)
    (parsed : ParseInterConnection archTopo config_ = .ok (intercon, archTopo')) :
    archTopo' = archTopo := by
  refine foldlM_induction parsed (fun _ s => s.2 = archTopo) rfl ?_
  intro done config rest before after split same step
  obtain ⟨node, _, result⟩ := bind_eq_ok.mp step
  cases result
  have member : config ∈ config_ := split ▸ List.mem_append_right done List.mem_cons_self
  show config.touched before.2 = archTopo
  rw [same]
  exact between.touched member

theorem parse_members (parsed : parseConnection archTopo config = .ok node) :
    config.bandwidth = some node.bandwidth_ ∧
      String2ConType.lookup config.con_type = some node.con_type_ ∧
      node.fanout_ = (if (config.fans archTopo).1 > (config.fans archTopo).2
        then (config.fans archTopo).1 / (config.fans archTopo).2
        else if (config.fans archTopo).1 = (config.fans archTopo).2 then 1 else 0) ∧
      node.fanin_ = (if (config.fans archTopo).1 > (config.fans archTopo).2 then 0
        else if (config.fans archTopo).1 = (config.fans archTopo).2 then 1
        else (config.fans archTopo).2 / (config.fans archTopo).1) := by
  unfold parseConnection at parsed
  split at parsed
  · cases parsed
  · next con_type_ known =>
    split at parsed
    · cases parsed
    · next bandwidth_ given =>
      rw [known, given]
      generalize config.fans archTopo = fans at parsed ⊢
      obtain ⟨fan_target_, fan_source_⟩ := fans
      simp only at parsed ⊢
      split at parsed
      · next wide =>
        obtain ⟨fanout_, quotient, result⟩ := bind_eq_ok.mp parsed
        cases result
        unfold divideUnsigned at quotient
        split at quotient
        · cases quotient
        · cases quotient
          simp [wide]
      · next narrow =>
        split at parsed
        · next same =>
          cases parsed
          simp [same]
        · next apart =>
          obtain ⟨fanin_, quotient, result⟩ := bind_eq_ok.mp parsed
          cases result
          unfold divideUnsigned at quotient
          split at quotient
          · cases quotient
          · cases quotient
            simp [narrow, apart]

theorem String2ConType_injective {a b : String} {con_type : ConType}
    (first : String2ConType.lookup a = some con_type)
    (second : String2ConType.lookup b = some con_type) : a = b := by
  have only {name : String} (found : String2ConType.lookup name = some con_type) :
      (name, con_type) ∈ String2ConType := by
    obtain ⟨before, after, split, _⟩ := List.lookup_eq_some_iff.mp found
    exact split ▸ List.mem_append_right before List.mem_cons_self
  have one := only first
  have two := only second
  simp only [String2ConType, List.mem_cons, Prod.mk.injEq, List.not_mem_nil, or_false] at one two
  cases con_type <;> simp_all

theorem fan_iff (parsed : parseConnection archTopo last = .ok node)
    (positive : (last.fans archTopo).1 ≠ 0 ∧ (last.fans archTopo).2 ≠ 0)
    (source : archTopo.level_num config.source ≠ 0) (target : archTopo.level_num config.target ≠ 0) :
    (if archTopo.level_num config.source ≤ archTopo.level_num config.target
      then node.fanout_ * archTopo.level_num config.source = archTopo.level_num config.target
      else node.fanin_ * archTopo.level_num config.target = archTopo.level_num config.source) ↔
      config.RatioOf archTopo last := by
  obtain ⟨_, _, fanout, fanin⟩ := parse_members parsed
  unfold RatioOf
  rw [fanout, fanin]
  generalize last.fans archTopo = fans at positive ⊢
  obtain ⟨t, s⟩ := fans
  simp only at positive ⊢
  generalize archTopo.level_num config.source = lower at source ⊢
  generalize archTopo.level_num config.target = upper at target ⊢
  by_cases up : lower ≤ upper
  · simp only [up, if_true]
    rcases Nat.lt_trichotomy t s with narrow | same | wide
    · have apart : t ≠ s := by omega
      have below : ¬ s ≤ t := by omega
      have not_wide : ¬ t > s := by omega
      simp only [not_wide, apart, below, if_false, false_and, Nat.zero_mul, iff_false]
      exact fun zero => target zero.symm
    · subst same
      simp [Nat.div_self (Nat.pos_of_ne_zero positive.1)]
    · have above : s ≤ t := by omega
      simp [wide, above]
  · simp only [up, if_false]
    rcases Nat.lt_trichotomy t s with narrow | same | wide
    · have apart : t ≠ s := by omega
      have not_wide : ¬ t > s := by omega
      simp [not_wide, apart, narrow]
    · subst same
      simp only [gt_iff_lt, Nat.lt_irrefl, if_false, if_true, Nat.one_mul, false_and, iff_false]
      omega
    · have not_narrow : ¬ t < s := by omega
      simp only [gt_iff_lt, wide, if_true, Nat.zero_mul, not_narrow, false_and, iff_false]
      exact fun zero => source zero.symm

theorem exists_holds_iff (between : Between archTopo config_)
    (parsed : ParseInterConnection archTopo config_ = .ok (intercon, archTopo'))
    (member : config ∈ config_) :
    (∃ node, intercon.Holds archTopo config node) ↔ config.Kept archTopo config_ := by
  have found := lookup_parsed parsed config.source2target
  have source := between.level_num_ne (between.sources config member)
  have target := between.level_num_ne (between.targets config member)
  unfold Kept
  cases given : declared config_ config.source2target with
  | none =>
    rw [given] at found
    constructor
    · rintro ⟨node, holds⟩
      rw [holds.found] at found
      cases found
    · rintro ⟨last, impossible, _⟩
      cases impossible
  | some last =>
    rw [given] at found
    obtain ⟨node, link, at_key⟩ := found
    have last_member : last ∈ config_ :=
      List.mem_reverse.mp (List.mem_of_find?_eq_some given)
    obtain ⟨bandwidth, con_type, _, _⟩ := parse_members link
    have fan := fan_iff link (between.fans_pos last_member) source target
    constructor
    · rintro ⟨other, holds⟩
      have same : other = node := Option.some_inj.mp (holds.found.symm.trans at_key)
      subst same
      exact ⟨last, rfl, bandwidth.trans holds.bandwidth.symm,
        String2ConType_injective con_type holds.con_type, fan.mp holds.fan⟩
    · rintro ⟨other, same, own_bandwidth, own_type, ratio⟩
      cases same
      exact ⟨node, at_key, own_bandwidth ▸ bandwidth, own_type ▸ con_type, fan.mpr ratio⟩

theorem kept_of_own_key (member : config ∈ config_)
    (own : ∀ other ∈ config_, other.key = config.source2target → other = config)
    (outer : config.target ≠ "Inner") (apart : config.target ≠ config.con_type)
    (divides : if archTopo.level_num config.source ≤ archTopo.level_num config.target
      then archTopo.level_num config.source ∣ archTopo.level_num config.target
      else archTopo.level_num config.target ∣ archTopo.level_num config.source) :
    config.Kept archTopo config_ := by
  have target : config.target_ = config.target := if_neg outer
  have key : config.key = config.source2target := by
    rw [Connection.key, target]
    rfl
  have fans : config.fans archTopo =
      (archTopo.level_num config.target, archTopo.level_num config.source) := by
    rw [Connection.fans, target, if_neg apart]
  have given : declared config_ config.source2target = some config := by
    cases found : declared config_ config.source2target with
    | none =>
      have none := List.find?_eq_none.mp found config (List.mem_reverse.mpr member)
      rw [key] at none
      exact absurd (decide_eq_true rfl) none
    | some other =>
      have there : other ∈ config_ := List.mem_reverse.mp (List.mem_of_find?_eq_some found)
      have same := List.find?_some found
      rw [own other there (of_decide_eq_true same)]
  refine ⟨config, given, rfl, rfl, ?_⟩
  unfold RatioOf
  simp only [fans]
  split
  · next up =>
    rw [if_pos up] at divides
    exact ⟨up, Nat.div_mul_cancel divides⟩
  · next down =>
    rw [if_neg down] at divides
    exact ⟨by omega, Nat.div_mul_cancel divides⟩

end Connection

/-- Every link is there under its own key just when, for each connection, the last one under that
    key agrees with it. The topology stays as it is. -/
theorem links_held_iff {archTopo archTopo' : ArchTopo} {config_ : List Connection}
    {intercon : InterCon} (between : Connection.Between archTopo config_)
    (parsed : ParseInterConnection archTopo config_ = .ok (intercon, archTopo')) :
    intercon.HoldsAll archTopo archTopo' config_ ↔
      ∀ config ∈ config_, config.Kept archTopo config_ := by
  have each {config : Connection} (member : config ∈ config_) :=
    Connection.exists_holds_iff between parsed member
  constructor
  · intro holds config member
    exact (each member).mp (holds.1 config member)
  · intro kept
    refine ⟨fun config member => (each member).mpr (kept config member), ?_⟩
    rw [between.unchanged parsed]

def ArchTopo.ofLevels (levels : List (String × LevelAttri)) : ArchTopo :=
  ⟨fun level => levels.lookup level⟩

theorem ArchTopo.instances_ofLevels {levels : List (String × LevelAttri)}
    (each : ∀ entry ∈ levels, entry.2.level_num ≠ 0) (level : String) (attri : LevelAttri)
    (found : (ofLevels levels).archTopo_map_ level = some attri) : attri.level_num ≠ 0 := by
  obtain ⟨before, after, split, _⟩ := List.lookup_eq_some_iff.mp found
  exact each (level, attri) (split ▸ List.mem_append_right before List.mem_cons_self)

def twoCores : ArchTopo := .ofLevels [("Main", ⟨1, 1⟩), ("L1", ⟨2, 1⟩), ("Cube", ⟨2, 1⟩)]

def coreLinks : List Connection :=
  [⟨"Main", "L1", some 4, "BC"⟩, ⟨"L1", "Main", some 2, "BC"⟩, ⟨"L1", "Cube", some 8, "HD"⟩]

theorem coreLinks_between : Connection.Between twoCores coreLinks where
  instances := ArchTopo.instances_ofLevels (by decide +kernel)
  sources := by decide +kernel
  targets := by decide +kernel
  distinct := by decide +kernel

theorem links_held_cores : ∃ intercon archTopo',
    ParseInterConnection twoCores coreLinks = .ok (intercon, archTopo') ∧
      intercon.HoldsAll twoCores archTopo' coreLinks := by
  obtain ⟨⟨intercon, archTopo'⟩, parsed⟩ := exists_of_isOk
    (show (ParseInterConnection twoCores coreLinks).isOk = true by decide +kernel)
  exact ⟨intercon, archTopo', parsed,
    (links_held_iff coreLinks_between parsed).mpr (by decide +kernel)⟩

def mixedLevels : ArchTopo :=
  .ofLevels [("A", ⟨1, 1⟩), ("A2B", ⟨1, 1⟩), ("B2C", ⟨1, 1⟩), ("C", ⟨1, 1⟩)]

def mixedLinks : List Connection := [⟨"A", "B2C", some 1, "HD"⟩, ⟨"A2B", "C", some 2, "FD"⟩]

theorem mixedLinks_between : Connection.Between mixedLevels mixedLinks where
  instances := ArchTopo.instances_ofLevels (by decide +kernel)
  sources := by decide +kernel
  targets := by decide +kernel
  distinct := by decide +kernel

/-- The second link overwrites the first one. -/
theorem link_overwritten : Connection.Between mixedLevels mixedLinks ∧ ∃ intercon archTopo',
    ParseInterConnection mixedLevels mixedLinks = .ok (intercon, archTopo') ∧
      intercon.intercon_attri_map_ "A2B2C" = some ⟨2, .FD, 1, 1⟩ ∧
      ¬ intercon.HoldsAll mixedLevels archTopo' mixedLinks := by
  obtain ⟨⟨intercon, archTopo'⟩, parsed⟩ := exists_of_isOk
    (show (ParseInterConnection mixedLevels mixedLinks).isOk = true by decide +kernel)
  have stored : ((ParseInterConnection mixedLevels mixedLinks).map fun parsed =>
      parsed.1.intercon_attri_map_ "A2B2C") = .ok (some ⟨2, .FD, 1, 1⟩) := by decide +kernel
  rw [parsed] at stored
  have link : intercon.intercon_attri_map_ "A2B2C" = some ⟨2, .FD, 1, 1⟩ := Except.ok.inj stored
  refine ⟨mixedLinks_between, intercon, archTopo', parsed, link, fun holds => ?_⟩
  obtain ⟨node, held⟩ := holds.1 ⟨"A", "B2C", some 1, "HD"⟩ List.mem_cons_self
  have found : intercon.intercon_attri_map_ "A2B2C" = some node := held.found
  have same : (⟨2, .FD, 1, 1⟩ : InterConNode) = node := Option.some_inj.mp (link.symm.trans found)
  subst same
  exact absurd held.bandwidth (by decide)

end TileExp
