import Latias.Latencies.Faults
import Latias.Latencies.Shorter
import Latias.Visits.Pairs

/-! The same transfers over links with more bandwidth. -/

namespace TileExp

/-- The same type and fanout, and at least the bandwidth. -/
structure InterConNode.Widened (link link' : InterConNode) : Prop where
  con_type_ : link'.con_type_ = link.con_type_
  fanout_ : link'.fanout_ = link.fanout_
  positive : 1 ≤ link.bandwidth_
  wider : link.bandwidth_ ≤ link'.bandwidth_

def InterCon.Widened (intercon intercon' : InterCon) : Prop :=
  ∀ connection, Option.Rel InterConNode.Widened (intercon.intercon_attri_map_ connection)
    (intercon'.intercon_attri_map_ connection)

theorem InterCon.Widened.bandwidth_ {intercon intercon' : InterCon}
    (widened : intercon.Widened intercon') {connection : String} {bandwidth bandwidth' : Nat}
    (found : intercon.bandwidth_ connection = .ok bandwidth)
    (found' : intercon'.bandwidth_ connection = .ok bandwidth') : bandwidth ≤ bandwidth' := by
  have both := widened connection
  unfold InterCon.bandwidth_ at found found'
  cases absent : intercon.intercon_attri_map_ connection with
  | none =>
    rw [absent] at found
    cases found
  | some link =>
    rw [absent] at found both
    cases found
    cases absent' : intercon'.intercon_attri_map_ connection with
    | none =>
      rw [absent'] at found'
      cases found'
    | some link' =>
      rw [absent'] at found' both
      cases found'
      cases both with
      | some wider => exact wider.wider

namespace Analysis

open Checked

variable {ev : Evaluator} {intercon_ : InterCon} {node : NodePtr} {k : Nat}

theorem getInterConNode_widened (widened : ev.intercon_.Widened intercon_) (node : NodePtr) (k : Nat) :
    (∃ link link', getInterConNode ev node k = .ok link ∧
      getInterConNode (ev.withLinks intercon_) node k = .ok link' ∧ link.Widened link') ∨
    ∃ e, getInterConNode ev node k = .error e ∧
      getInterConNode (ev.withLinks intercon_) node k = .error e := by
  have links : (ev.withLinks intercon_).intercon_ = intercon_ := rfl
  have same (ptr : NodePtr) (i : Nat) : (ev.withLinks intercon_).child ptr i = ev.child ptr i := rfl
  have type (ptr : NodePtr) : (ev.withLinks intercon_).get_type ptr = ev.get_type ptr := rfl
  have level (ptr : NodePtr) : (ev.withLinks intercon_).target_level ptr = ev.target_level ptr := rfl
  have value (ptr : NodePtr) : (ev.withLinks intercon_).ori_node_ ptr = ev.ori_node_ ptr := rfl
  have lookup (connection : String) :
      (∃ link link', ev.intercon_.intercon_attri_map_ connection = some link ∧
        intercon_.intercon_attri_map_ connection = some link' ∧ link.Widened link') ∨
      ev.intercon_.intercon_attri_map_ connection = none ∧
        intercon_.intercon_attri_map_ connection = none := by
    have both := widened connection
    cases found : ev.intercon_.intercon_attri_map_ connection
    all_goals
      cases found' : intercon_.intercon_attri_map_ connection
      all_goals rw [found, found'] at both
    · exact Or.inr ⟨rfl, rfl⟩
    · cases both
    · cases both
    · cases both with
      | some wider => exact Or.inl ⟨_, _, rfl, rfl, wider⟩
  simp only [getInterConNode, links, same, type, level, value]
  cases ev.child node 0 with
  | error e => exact Or.inr ⟨e, rfl, rfl⟩
  | ok first =>
    simp only [ok_bind]
    generalize (if ev.get_type first = .Scope then first else node) = holder
    cases ev.child holder k with
    | error e => exact Or.inr ⟨e, rfl, rfl⟩
    | ok child =>
      simp only [ok_bind]
      by_cases trans : ev.get_type child = .Trans
      · simp only [if_pos trans]
        by_cases zero : k = 0
        · simp only [if_pos zero]
          exact Or.inr ⟨_, rfl, rfl⟩
        · simp only [if_neg zero]
          cases ev.child holder (k - 1) with
          | error e => exact Or.inr ⟨e, rfl, rfl⟩
          | ok prev_child =>
            simp only [ok_bind]
            rcases lookup ((lastLeaf (ev.ori_node_ prev_child)).get_target_level_name ++ "2" ++
              ev.target_level child) with ⟨link, link', found, found', wider⟩ | ⟨none, none'⟩
            · rw [found, found']
              exact Or.inl ⟨link, link', rfl, rfl, wider⟩
            · rw [none, none']
              exact Or.inr ⟨_, rfl, rfl⟩
      · simp only [if_neg trans]
        rcases lookup (ev.target_level node ++ "2" ++ ev.target_level child) with
          ⟨link, link', found, found', wider⟩ | ⟨none, none'⟩
        · rw [found, found']
          exact Or.inl ⟨link, link', rfl, rfl, wider⟩
        · rw [none, none']
          exact Or.inr ⟨_, rfl, rfl⟩

/-- What `computeLatency` makes of rows depends on the types and fanouts of the links only. -/
theorem linkType_widened (widened : ev.intercon_.Widened intercon_) (node : NodePtr) (k : Nat) :
    (ev.withLinks intercon_).linkType node k = ev.linkType node k := by
  unfold Evaluator.linkType
  rcases getInterConNode_widened widened node k with ⟨link, link', found, found', wider⟩ | ⟨e, none, none'⟩
  · rw [found, found']
    exact wider.con_type_
  · rw [none, none']

theorem rowLatency_widened (widened : ev.intercon_.Widened intercon_) {scope_type : ScopeType}
    {row : List Latency} {child_num : Nat} {dm_latency : Int} {result : BlockLatency} :
    rowLatency (ev.withLinks intercon_) node scope_type child_num dm_latency result row =
      rowLatency ev node scope_type child_num dm_latency result row := by
  induction row generalizing child_num dm_latency result with
  | nil => rfl
  | cons latency row ih =>
    rw [rowLatency, rowLatency, ih, linkType_widened widened]
    rfl

theorem tileBlocks_widened (widened : ev.intercon_.Widened intercon_) (node : NodePtr)
    (rows : List (List Latency)) :
    (ev.withLinks intercon_).tileBlocks node rows = ev.tileBlocks node rows := by
  unfold Evaluator.tileBlocks
  apply List.map_congr_left
  intro row _
  exact rowLatency_widened widened

theorem computeLatency_shorter (exact : ∀ n, ev.toInt n = n)
    (widened : ev.intercon_.Widened intercon_)
    (plain : isTemporal (ev.ori_node_ node) = false →
      ∀ link, getInterConNode ev node 0 = .ok link → link.con_type_ ≠ .UC)
    {rows rows' : List (List Latency)} {latency latency' : Int} (all : ShorterRows rows' rows)
    (call : computeLatency ev node rows = .ok latency)
    (call' : computeLatency (ev.withLinks intercon_) node rows' = .ok latency') :
    Shorter latency' latency := by
  obtain ⟨link, computable, rfl⟩ := computeLatency_iff.mp call
  obtain ⟨link', computable', rfl⟩ := computeLatency_iff.mp call'
  have wider : link.Widened link' := by
    have first := computable.linked_first
    have first' := computable'.linked_first
    rcases getInterConNode_widened widened node 0 with ⟨_, _, found, found', wider⟩ | ⟨e, none, _⟩
    · cases first.symm.trans found
      cases first'.symm.trans found'
      exact wider
    · cases first.symm.trans none
  have same : tileLatency (isTemporal ((ev.withLinks intercon_).ori_node_ node)) link'
      ((ev.withLinks intercon_).tileBlocks node rows') =
        tileLatency (isTemporal (ev.ori_node_ node)) link (ev.tileBlocks node rows') := by
    rw [tileBlocks_widened widened, tileLatency, tileLatency, wider.con_type_, wider.fanout_]
    rfl
  change Shorter (tileLatency (isTemporal ((ev.withLinks intercon_).ori_node_ node)) link'
    ((ev.withLinks intercon_).tileBlocks node rows')) _
  rw [same]
  exact tileLatency_shorter exact all fun spatial => plain spatial link computable.linked_first

/-! The transfers of a Tile. -/

theorem transInputLatency_shorter (exact : ∀ n, ev.toInt n = n)
    (widened : ev.intercon_.Widened intercon_) {dm_trans latency latency' : Int}
    (call : transInputLatency ev node dm_trans = .ok latency)
    (call' : transInputLatency (ev.withLinks intercon_) node dm_trans = .ok latency') :
    Shorter latency' latency := by
  unfold transInputLatency at call call'
  rw [findSource_withLinks] at call'
  split at call
  · next moved =>
    rw [if_pos moved] at call'
    obtain ⟨source, first, call⟩ := bind_eq_ok.mp call
    obtain ⟨source', first', call'⟩ := bind_eq_ok.mp call'
    cases first.symm.trans first'
    obtain ⟨bandwidth, found, call⟩ := bind_eq_ok.mp call
    obtain ⟨bandwidth', found', call'⟩ := bind_eq_ok.mp call'
    exact transferLatency_shorter exact (Int.le_of_lt moved.1) (widened.bandwidth_ found found')
      call' call
  · next still =>
    rw [if_neg still] at call'
    cases call
    cases call'
    exact Shorter.refl (Int.le_refl 0)

theorem tileInputLatency_shorter (exact : ∀ n, ev.toInt n = n)
    (widened : ev.intercon_.Widened intercon_) {dm_tile latency latency' : Int}
    (call : tileInputLatency ev node dm_tile = .ok latency)
    (call' : tileInputLatency (ev.withLinks intercon_) node dm_tile = .ok latency') :
    Shorter latency' latency := by
  unfold tileInputLatency at call call'
  rw [findSource_withLinks] at call'
  have level : (ev.withLinks intercon_).target_level node = ev.target_level node := rfl
  rw [level] at call'
  split at call
  · next moved =>
    rw [if_pos moved] at call'
    obtain ⟨source, first, call⟩ := bind_eq_ok.mp call
    obtain ⟨source', first', call'⟩ := bind_eq_ok.mp call'
    cases first.symm.trans first'
    split at call
    · next here =>
      rw [if_pos here] at call'
      cases call
      cases call'
      exact Shorter.refl (Int.le_refl 0)
    · next apart =>
      rw [if_neg apart] at call'
      obtain ⟨bandwidth, found, call⟩ := bind_eq_ok.mp call
      obtain ⟨bandwidth', found', call'⟩ := bind_eq_ok.mp call'
      exact transferLatency_shorter exact (Int.le_of_lt moved.1) (widened.bandwidth_ found found')
        call' call
  · next still =>
    rw [if_neg still] at call'
    cases call
    cases call'
    exact Shorter.refl (Int.le_refl 0)

theorem getInputLatency_shorter (exact : ∀ n, ev.toInt n = n)
    (widened : ev.intercon_.Widened intercon_) {dm_tile dm_trans latency latency' : Int}
    (call : getInputLatency ev node dm_tile dm_trans = .ok latency)
    (call' : getInputLatency (ev.withLinks intercon_) node dm_tile dm_trans = .ok latency') :
    Shorter latency' latency := by
  unfold getInputLatency at call call'
  have type : (ev.withLinks intercon_).get_type node = ev.get_type node := rfl
  rw [type] at call'
  split at call
  · next scope =>
    rw [if_pos scope] at call'
    cases call
    cases call'
    exact Shorter.refl (Int.le_refl 0)
  · next other =>
    rw [if_neg other] at call'
    obtain ⟨trans, trans_call, call⟩ := bind_eq_ok.mp call
    obtain ⟨tile, tile_call, result⟩ := bind_eq_ok.mp call
    obtain ⟨trans', trans_call', call'⟩ := bind_eq_ok.mp call'
    obtain ⟨tile', tile_call', result'⟩ := bind_eq_ok.mp call'
    cases result
    cases result'
    have exact' : ∀ n, (ev.withLinks intercon_).toInt n = n := exact
    rw [exact, exact']
    exact (transInputLatency_shorter exact widened trans_call trans_call').add
      (tileInputLatency_shorter exact widened tile_call tile_call')

theorem getOutputLatency_shorter (exact : ∀ n, ev.toInt n = n)
    (widened : ev.intercon_.Widened intercon_) {data_movement latency latency' : Int}
    (nonneg : 0 ≤ data_movement) (call : getOutputLatency ev node data_movement = .ok latency)
    (call' : getOutputLatency (ev.withLinks intercon_) node data_movement = .ok latency') :
    Shorter latency' latency := by
  have type : (ev.withLinks intercon_).get_type node = ev.get_type node := rfl
  have sends : outputSource (ev.withLinks intercon_) node = outputSource ev node := rfl
  rw [getOutputLatency_eq] at call call'
  rw [type, sends, findTarget_withLinks] at call'
  split at call
  · next idle =>
    rw [if_pos idle] at call'
    cases call
    cases call'
    exact Shorter.refl (Int.le_refl 0)
  · next busy =>
    rw [if_neg busy] at call'
    obtain ⟨source, first, call⟩ := bind_eq_ok.mp call
    obtain ⟨source', first', call'⟩ := bind_eq_ok.mp call'
    cases first.symm.trans first'
    split at call
    · next root =>
      rw [if_pos root] at call'
      cases call
      cases call'
      exact Shorter.refl (Int.le_refl 0)
    · next inner =>
      rw [if_neg inner] at call'
      obtain ⟨target, second, call⟩ := bind_eq_ok.mp call
      obtain ⟨target', second', call'⟩ := bind_eq_ok.mp call'
      cases second.symm.trans second'
      obtain ⟨bandwidth, found, call⟩ := bind_eq_ok.mp call
      obtain ⟨bandwidth', found', call'⟩ := bind_eq_ok.mp call'
      exact transferLatency_shorter exact nonneg (widened.bandwidth_ found found') call' call

end Analysis

end TileExp
