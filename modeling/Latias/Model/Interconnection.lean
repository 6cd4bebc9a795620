import Latias.Library.Checked
import Latias.Model.Hardware
import Mathlib.Logic.Function.Basic

/-! `ParseInterConnection`: the links of a configuration. -/

namespace TileExp

open Checked

/-- An entry of the list `connection`. A key that is missing leaves its variable as it is: the names
    empty, the bandwidth indeterminate. -/
structure Connection where
  source : String
  target : String
  bandwidth : Option Nat
  con_type : String
  deriving DecidableEq, Repr

def String2ConType : List (String × ConType) :=
  [("HD", .HD), ("FD", .FD), ("UC", .UC), ("BC", .BC), ("Ring", .Ring), ("Mesh", .Mesh)]

namespace ArchTopo

def level_num (archTopo : ArchTopo) (level : String) : Nat :=
  match archTopo.archTopo_map_ level with
  | some attri => attri.level_num
  | none => 0

def touch (archTopo : ArchTopo) (level : String) : ArchTopo :=
  match archTopo.archTopo_map_ level with
  | some _ => archTopo
  | none => ⟨Function.update archTopo.archTopo_map_ level (some ⟨0, 0⟩)⟩

theorem level_num_touch (archTopo : ArchTopo) (level : String) :
    (archTopo.touch level).level_num = archTopo.level_num := by
  unfold touch
  split
  · rfl
  · next absent =>
    funext name
    by_cases here : name = level
    · simp [level_num, here, absent]
    · simp [level_num, here]

end ArchTopo

def divideUnsigned (n d : Nat) : Exec Nat :=
  if d = 0 then .error .divisionByZero else .ok (n / d)

namespace Connection

def target_ (config : Connection) : String :=
  if config.target = "Inner" then config.con_type else config.target

def key (config : Connection) : String := config.source ++ "2" ++ config.target_

def fans (archTopo : ArchTopo) (config : Connection) : Nat × Nat :=
  if config.target_ = config.con_type then (1, 1)
  else (archTopo.level_num config.target_, archTopo.level_num config.source)

def touched (archTopo : ArchTopo) (config : Connection) : ArchTopo :=
  if config.target_ = config.con_type then archTopo
  else (archTopo.touch config.target_).touch config.source

end Connection

/-- The body of the loop of `ParseInterConnection`, up to the insertions. -/
def parseConnection (archTopo : ArchTopo) (config : Connection) : Exec InterConNode :=
  match String2ConType.lookup config.con_type with
  | none => .error (.assertion "type != String2ConType.end()")
  | some con_type_ =>
    match config.bandwidth with
    | none => .error .uninitialized
    | some bandwidth_ =>
      let (fan_target_, fan_source_) := config.fans archTopo
      if fan_target_ > fan_source_ then do
        let fanout_ ← divideUnsigned fan_target_ fan_source_
        .ok ⟨bandwidth_, con_type_, 0, fanout_⟩
      else if fan_target_ = fan_source_ then .ok ⟨bandwidth_, con_type_, 1, 1⟩
      else do
        let fanin_ ← divideUnsigned fan_source_ fan_target_
        .ok ⟨bandwidth_, con_type_, fanin_, 0⟩

def ParseInterConnection (archTopo : ArchTopo) (config_ : List Connection) :
    Exec (InterCon × ArchTopo) :=
  config_.foldlM (fun (intercon, archTopo) config => do
    let node ← parseConnection archTopo config
    .ok (⟨Function.update intercon.intercon_attri_map_ config.key (some node)⟩,
      config.touched archTopo)) (⟨fun _ => none⟩, archTopo)

abbrev GoodDivisors {α : Type} (x : Exec α) : Prop :=
  Stops (fun fault => fault ≠ .divisionByZero ∧ fault ≠ .uninitialized) x

namespace Connection

variable {archTopo archTopo' : ArchTopo} {config : Connection} {config_ : List Connection}
  {intercon : InterCon} {node : InterConNode}

def declared (config_ : List Connection) (key : String) : Option Connection :=
  config_.reverse.find? fun config => config.key = key

def LevelsAgree (archTopo : ArchTopo) (config : Connection) : Prop :=
  (config.fans archTopo).1 = 0 ↔ (config.fans archTopo).2 = 0

instance (archTopo : ArchTopo) (config : Connection) : Decidable (config.LevelsAgree archTopo) :=
  inferInstanceAs (Decidable (_ ↔ _))

def TypeKnown (config : Connection) : Prop := (String2ConType.lookup config.con_type).isSome

instance (config : Connection) : Decidable config.TypeKnown := inferInstanceAs (Decidable (_ = _))

theorem divideUnsigned_stops_iff {α : Type} (n d : Nat) (f : Nat → α) :
    GoodDivisors (do
      let quotient ← divideUnsigned n d
      .ok (f quotient)) ↔ d ≠ 0 := by
  unfold divideUnsigned
  split
  · next zero =>
    constructor
    · intro stops
      exact absurd rfl (stops.of_error .divisionByZero rfl).1
    · intro some
      exact absurd zero some
  · next some =>
    constructor
    · exact fun _ => some
    · exact fun _ => stops_ok _

theorem parse_good_iff : GoodDivisors (parseConnection archTopo config) ↔
    (config.TypeKnown → config.bandwidth.isSome ∧ config.LevelsAgree archTopo) := by
  unfold parseConnection TypeKnown LevelsAgree
  cases known : String2ConType.lookup config.con_type with
  | none =>
    simp only [Option.isSome_none, Bool.false_eq_true, false_implies, iff_true]
    exact stops_error (by simp)
  | some con_type_ =>
    cases config.bandwidth with
    | none =>
      simp only [Option.isSome_some, Option.isSome_none, Bool.false_eq_true, false_and, true_implies,
        iff_false]
      intro stops
      exact (stops.of_error _ rfl).2 rfl
    | some bandwidth_ =>
      simp only [Option.isSome_some, true_and, true_implies]
      generalize config.fans archTopo = fans
      obtain ⟨fan_target_, fan_source_⟩ := fans
      simp only
      split
      · next wide =>
        rw [divideUnsigned_stops_iff]
        omega
      · split
        · next same =>
          simp only [same, iff_true]
          exact stops_ok _
        · rw [divideUnsigned_stops_iff]
          omega

/-- What a link has of its connection: the bandwidth, and a fan-out unless the levels fan in. -/
theorem parse_eq_ok (parsed : parseConnection archTopo config = .ok node) :
    config.bandwidth = some node.bandwidth_ ∧
      (node.fanout_ = 0 ↔ (config.fans archTopo).1 < (config.fans archTopo).2) := by
  unfold parseConnection at parsed
  split at parsed
  · cases parsed
  · split at parsed
    · cases parsed
    · next bandwidth_ given =>
      rw [given]
      generalize config.fans archTopo = fans at parsed ⊢
      obtain ⟨fan_target_, fan_source_⟩ := fans
      simp only at parsed ⊢
      split at parsed
      · next wide =>
        obtain ⟨fanout_, quotient, result⟩ := bind_eq_ok.mp parsed
        cases result
        unfold divideUnsigned at quotient
        split at quotient
        · cases quotient
        · next some =>
          cases quotient
          have least : 0 < fan_target_ / fan_source_ :=
            Nat.div_pos (Nat.le_of_lt wide) (Nat.pos_of_ne_zero some)
          refine ⟨rfl, ?_⟩
          simp only
          omega
      · split at parsed
        · cases parsed
          refine ⟨rfl, ?_⟩
          simp only
          omega
        · obtain ⟨fanin_, _, result⟩ := bind_eq_ok.mp parsed
          cases result
          refine ⟨rfl, ?_⟩
          simp only [true_iff]
          omega

theorem parse_congr (same : archTopo'.level_num = archTopo.level_num) (config : Connection) :
    parseConnection archTopo' config = parseConnection archTopo config := by
  have fans : config.fans archTopo' = config.fans archTopo := by rw [Connection.fans, same]; rfl
  rw [parseConnection, fans]
  rfl

theorem level_num_touched (archTopo : ArchTopo) (config : Connection) :
    (config.touched archTopo).level_num = archTopo.level_num := by
  unfold touched
  split
  · rfl
  · rw [ArchTopo.level_num_touch, ArchTopo.level_num_touch]

/-- The links are those of the declared connections. -/
theorem lookup_parsed (parsed : ParseInterConnection archTopo config_ = .ok (intercon, archTopo'))
    (key : String) :
    match declared config_ key with
    | none => intercon.intercon_attri_map_ key = none
    | some config => ∃ node, parseConnection archTopo config = .ok node ∧
        intercon.intercon_attri_map_ key = some node := by
  refine (foldlM_induction parsed (fun done s => s.2.level_num = archTopo.level_num ∧
    match declared done key with
    | none => s.1.intercon_attri_map_ key = none
    | some config => ∃ node, parseConnection archTopo config = .ok node ∧
        s.1.intercon_attri_map_ key = some node) ⟨rfl, rfl⟩ ?_).2
  intro done config rest before after _ held step
  obtain ⟨node, link, result⟩ := bind_eq_ok.mp step
  cases result
  refine ⟨(level_num_touched _ config).trans held.1, ?_⟩
  have earlier := held.2
  unfold declared at earlier ⊢
  rw [List.reverse_append, List.reverse_cons, List.reverse_nil, List.nil_append, List.cons_append,
    List.nil_append, List.find?_cons]
  by_cases here : config.key = key
  · simp only [here, decide_true]
    exact ⟨node, (parse_congr held.1 config).symm.trans link, by rw [Function.update_self]⟩
  · simp only [here, decide_false]
    rw [Function.update_of_ne (Ne.symm here)]
    exact earlier

theorem parse_completes_iff : (∃ node, parseConnection archTopo config = .ok node) ↔
    config.TypeKnown ∧ config.bandwidth.isSome ∧ config.LevelsAgree archTopo := by
  constructor
  · rintro ⟨node, parsed⟩
    have known : config.TypeKnown := by
      unfold parseConnection at parsed
      unfold TypeKnown
      split at parsed
      · cases parsed
      · next found => rw [found]; rfl
    have good : GoodDivisors (parseConnection archTopo config) := by
      rw [parsed]
      exact stops_ok node
    exact ⟨known, parse_good_iff.mp good known⟩
  · rintro ⟨known, given, agree⟩
    obtain ⟨con_type_, found⟩ := Option.isSome_iff_exists.mp known
    obtain ⟨bandwidth_, given⟩ := Option.isSome_iff_exists.mp given
    unfold parseConnection
    unfold LevelsAgree at agree
    simp only [found, given]
    generalize config.fans archTopo = fans at agree
    obtain ⟨fan_target_, fan_source_⟩ := fans
    simp only at agree ⊢
    split
    · have some : fan_source_ ≠ 0 := by omega
      exact ⟨_, by rw [divideUnsigned, if_neg some, ok_bind]⟩
    · split
      · exact ⟨_, rfl⟩
      · have some : fan_target_ ≠ 0 := by omega
        exact ⟨_, by rw [divideUnsigned, if_neg some, ok_bind]⟩

theorem links_parsed (each : ∀ config ∈ config_, ∃ node, parseConnection archTopo config = .ok node) :
    ∃ intercon, ParseInterConnection archTopo config_ =
      .ok (intercon, config_.foldl (fun archTopo config => config.touched archTopo) archTopo) := by
  obtain ⟨⟨intercon, archTopo'⟩, parsed, _, same⟩ := @foldlM_completes _ _ _
    (fun (s : InterCon × ArchTopo) config => do
      let node ← parseConnection s.2 config
      .ok (⟨Function.update s.1.intercon_attri_map_ config.key (some node)⟩, config.touched s.2))
    config_ (⟨fun _ => none⟩, archTopo)
    (fun done s => s.2.level_num = archTopo.level_num ∧
      s.2 = done.foldl (fun archTopo config => config.touched archTopo) archTopo)
    ⟨rfl, rfl⟩ fun done config rest s split held => by
      have member : config ∈ config_ := by
        rw [split]
        exact List.mem_append_right done List.mem_cons_self
      obtain ⟨node, own⟩ := each config member
      refine ⟨_, by rw [parse_congr held.1, own, ok_bind], (level_num_touched _ config).trans held.1, ?_⟩
      rw [List.foldl_append, ← held.2]
      rfl
  exact ⟨intercon, by rw [← same]; exact parsed⟩

end Connection

end TileExp
