import Latias.Analysis.Config
import Latias.Analysis.OtherLinks
import Latias.Latencies.TileLatency
import Latias.Visits.Rows
import Latias.Visits.Rule

/-! The links that the entries of a Scope's row are combined with. `visitScope` leaves out the Trans
    among the children, `computeScopeLatency` counts them. -/

namespace TileExp.Analysis

open Checked LoopNest

def linkName (level : String) (cs : List Node) (idx : Nat) : Option String :=
  match cs[idx]? with
  | none => none
  | some child =>
    if Node.get_type child = .Trans then
      if idx = 0 then none
      else cs[idx - 1]?.map fun prev_child =>
        (lastLeaf prev_child).get_target_level_name ++ "2" ++ child.get_target_level_name
    else some (level ++ "2" ++ child.get_target_level_name)

/-- The `k`-th entry of a row is combined with the interconnection of its own child in the first
    Scope below the Tile, whatever the interconnections are. -/
def Evaluator.OwnLink (ev : Evaluator) (node : NodePtr) (k : Nat) (child : NodePtr) : Prop :=
  ∃ p, child = p :: 0 :: node ∧ ∀ intercon_,
    getInterConNode (ev.withLinks intercon_) node k = getInterConNode (ev.withLinks intercon_) node p

def rank (cs : List Node) (p : Nat) : Nat :=
  (cs.take p).countP fun c => Node.get_type c ≠ .Trans

def SameNames (level : String) (cs : List Node) : Prop :=
  ∀ p c, cs[p]? = some c → Node.get_type c ≠ .Trans →
    linkName level cs (rank cs p) = linkName level cs p

def TransLast (cs : List Node) : Prop :=
  ∀ p c, cs[p]? = some c → Node.get_type c ≠ .Trans →
    ∀ (q : Nat) d, q < p → cs[q]? = some d → Node.get_type d ≠ .Trans

variable {ev : Evaluator} {ctx : PerfContext} {node ptr : NodePtr} {t t' : Tally} {cs : List Node}
  {state : EvalState} {tree : EvaTree}

theorem sameNames_of_transLast (last : TransLast cs) (level : String) : SameNames level cs := by
  intro p c place other
  have bound := (List.getElem?_eq_some_iff.mp place).1
  have all : ∀ d ∈ cs.take p, Node.get_type d ≠ .Trans := by
    intro d member
    obtain ⟨q, found⟩ := List.mem_iff_getElem?.mp member
    rw [List.getElem?_take] at found
    split at found
    · next before => exact last p c place other q d before found
    · cases found
  have same : rank cs p = p := by
    rw [rank, List.countP_eq_length.mpr fun d member => decide_eq_true (all d member),
      List.length_take, Nat.min_eq_left (Nat.le_of_lt bound)]
  rw [same]

theorem getElem?_scopeRow {k : Nat} {child : NodePtr} (i : Nat) :
    (scopeRow ptr i cs)[k]? = some child ↔ ∃ p c, cs[p]? = some c ∧ Node.get_type c ≠ .Trans ∧
      rank cs p = k ∧ child = (i + p) :: ptr := by
  induction cs generalizing i k with
  | nil => simp [scopeRow]
  | cons head cs ih =>
    have later (p : Nat) : rank (head :: cs) (p + 1) =
        rank cs p + if Node.get_type head ≠ .Trans then 1 else 0 := by
      simp [rank, List.countP_cons]
    have shifted (p : Nat) : i + 1 + p = i + (p + 1) := by omega
    by_cases trans : Node.get_type head = .Trans
    · rw [scopeRow, if_pos trans, ih]
      constructor
      · rintro ⟨p, c, place, other, rfl, rfl⟩
        refine ⟨p + 1, c, place, other, ?_, by rw [shifted]⟩
        rw [later, if_neg (not_not.mpr trans), Nat.add_zero]
      · rintro ⟨p, c, place, other, rfl, rfl⟩
        cases p with
        | zero =>
          cases place
          exact absurd trans other
        | succ p =>
          refine ⟨p, c, place, other, ?_, by rw [shifted]⟩
          rw [later, if_neg (not_not.mpr trans), Nat.add_zero]
    · rw [scopeRow, if_neg trans]
      cases k with
      | zero =>
        constructor
        · intro here
          cases here
          exact ⟨0, head, rfl, trans, rfl, rfl⟩
        · rintro ⟨p, c, place, other, count, rfl⟩
          cases p with
          | zero => rfl
          | succ p =>
            rw [later, if_pos trans] at count
            omega
      | succ k =>
        rw [List.getElem?_cons_succ, ih]
        constructor
        · rintro ⟨p, c, place, other, rfl, rfl⟩
          refine ⟨p + 1, c, place, other, ?_, by rw [shifted]⟩
          rw [later, if_pos trans]
        · rintro ⟨p, c, place, other, count, rfl⟩
          cases p with
          | zero =>
            rw [rank, List.take_zero, List.countP_nil] at count
            omega
          | succ p =>
            refine ⟨p, c, place, other, ?_, by rw [shifted]⟩
            rw [later, if_pos trans] at count
            omega

theorem child_of_place {i : Nat} {sub c : Node} (found : ev.root_.get? node = some sub)
    (place : sub.children[i]? = some c) : ev.root_.get? (i :: node) = some c := by
  rw [Rose.get?_cons, found]
  exact place

theorem child_of_missing {i : Nat} {sub : Node} (found : ev.root_.get? node = some sub)
    (missing : sub.children[i]? = none) : ev.child node i = .error .outOfRange := by
  rw [Evaluator.child, Evaluator.ori_node_of_get? found, if_neg]
  rw [List.getElem?_eq_none_iff] at missing
  omega

theorem get_type_of_get? {sub : Node} (found : ev.root_.get? node = some sub) :
    ev.get_type node = Node.get_type sub := by
  rw [Evaluator.get_type, Evaluator.ori_node_of_get? found]

theorem target_level_of_get? {sub : Node} (found : ev.root_.get? node = some sub) :
    ev.target_level node = sub.get_target_level_name := by
  rw [Evaluator.target_level, Evaluator.ori_node_of_get? found]

theorem getInterConNode_scope {scope : Node} (found : ev.root_.get? (0 :: node) = some scope)
    (kind : Node.get_type scope = .Scope) (k : Nat) :
    getInterConNode ev node k =
      match linkName (ev.target_level node) scope.children k with
      | none => .error .outOfRange
      | some name =>
        match ev.intercon_.intercon_attri_map_ name with
        | some link => .ok link
        | none => .error (.assertion "Do not find inter-connection") := by
  rw [getInterConNode, Evaluator.child_of_get? found, ok_bind, get_type_of_get? found]
  simp only [kind, if_true]
  cases place : scope.children[k]? with
  | none =>
    rw [child_of_missing found place, linkName, place]
    rfl
  | some child =>
    have below := child_of_place found place
    rw [Evaluator.child_of_get? below, ok_bind, get_type_of_get? below, target_level_of_get? below,
      linkName, place]
    by_cases trans : Node.get_type child = .Trans
    · simp only [if_pos trans]
      cases k with
      | zero => rfl
      | succ k =>
        have bound := (List.getElem?_eq_some_iff.mp place).1
        have before : scope.children[k]? = some scope.children[k] :=
          List.getElem?_eq_getElem (by omega)
        have former := child_of_place found before
        rw [if_neg (Nat.succ_ne_zero k), if_neg (Nat.succ_ne_zero k), Nat.add_sub_cancel,
          Evaluator.child_of_get? former, ok_bind, ok_bind, before,
          Evaluator.ori_node_of_get? former]
        rfl
    · simp only [if_neg trans]
      rfl

/-- Two children have one link in every table if and only if its name is the same. -/
theorem same_link_iff {scope : Node} (found : ev.root_.get? (0 :: node) = some scope)
    (kind : Node.get_type scope = .Scope) {k p : Nat} :
    (∀ intercon_, getInterConNode (ev.withLinks intercon_) node k =
        getInterConNode (ev.withLinks intercon_) node p) ↔
      linkName (ev.target_level node) scope.children k =
        linkName (ev.target_level node) scope.children p := by
  have names (intercon_ : InterCon) := @getInterConNode_scope (ev.withLinks intercon_) node scope found kind
  constructor
  · intro same
    -- a table with one of the names alone tells it from any other
    have told (name : String) (i j : Nat)
        (first : linkName (ev.target_level node) scope.children i = some name)
        (equal : getInterConNode (ev.withLinks ⟨fun key => if key = name then some ⟨1, .HD, 1, 1⟩ else none⟩)
          node i = getInterConNode (ev.withLinks ⟨fun key => if key = name then some ⟨1, .HD, 1, 1⟩ else none⟩)
            node j) : linkName (ev.target_level node) scope.children j = some name := by
      have level (intercon_ : InterCon) :
          (ev.withLinks intercon_).target_level node = ev.target_level node := rfl
      rw [names, names, level, first] at equal
      cases second : linkName (ev.target_level node) scope.children j with
      | none =>
        rw [second] at equal
        simp [Evaluator.withLinks] at equal
      | some other =>
        rw [second] at equal
        by_cases apart : other = name
        · rw [apart]
        · simp [Evaluator.withLinks, apart] at equal
    cases first : linkName (ev.target_level node) scope.children k with
    | some name => exact (told name k p first (same _)).symm
    | none =>
      cases second : linkName (ev.target_level node) scope.children p with
      | some name => rw [← first, told name p k second (same _).symm]
      | none => rfl
  · intro equal intercon_
    rw [names, names]
    change (match linkName (ev.target_level node) scope.children k with
      | none => _
      | some name => _) = _
    rw [equal]
    rfl

structure RowsLogged (ev : Evaluator) (t : Tally) : Prop where
  kept : ∀ node, ev.get_type node = .Tile → ∀ row ∈ t.latency_vec_ node, Event.row node row ∈ t.log
  filled : ∀ node row, Event.row node row ∈ t.log → row ≠ []
  computed : ∀ node rows, Event.compute node rows ∈ t.log →
    rows ≠ [] ∧ ∀ row ∈ rows, Event.row node row ∈ t.log

theorem RowsLogged.later {events : List Event} (logged : RowsLogged ev t)
    (rows : ∀ node, ev.get_type node = .Tile →
      ∀ row ∈ t'.latency_vec_ node, row ∈ t.latency_vec_ node)
    (log : t'.log = t.log ++ events)
    (others : ∀ event ∈ events, (∀ node row, event ≠ .row node row) ∧
      ∀ node rows, event ≠ .compute node rows) : RowsLogged ev t' := by
  have earlier {event : Event} (member : event ∈ t'.log)
      (kind : (∃ node row, event = .row node row) ∨ ∃ node rows, event = .compute node rows) :
      event ∈ t.log := by
    rw [log] at member
    rcases List.mem_append.mp member with before | after
    · exact before
    · obtain ⟨no_row, no_compute⟩ := others event after
      rcases kind with ⟨node, row, same⟩ | ⟨node, rows, same⟩
      · exact absurd same (no_row node row)
      · exact absurd same (no_compute node rows)
  have grown {event : Event} (member : event ∈ t.log) : event ∈ t'.log := by
    rw [log]
    exact List.mem_append_left _ member
  constructor
  · intro node tile row member
    exact grown (logged.kept node tile row (rows node tile row member))
  · intro node row member
    exact logged.filled node row (earlier member (Or.inl ⟨node, row, rfl⟩))
  · intro node rows member
    obtain ⟨some, each⟩ := logged.computed node rows (earlier member (Or.inr ⟨node, rows, rfl⟩))
    exact ⟨some, fun row inside => grown (each row inside)⟩

theorem RowsLogged.same (logged : RowsLogged ev t)
    (rows : ∀ node, ev.get_type node = .Tile → t'.latency_vec_ node = t.latency_vec_ node)
    (log : t'.log = t.log) : RowsLogged ev t' :=
  logged.later (fun node tile _ member => rows node tile ▸ member)
    (log.trans (List.append_nil _).symm) fun _ member => absurd member List.not_mem_nil

theorem RowsLogged.pushRow (logged : RowsLogged ev t) (call : PerfAnalysis.pushRow node t = .ok t') :
    RowsLogged ev t' := by
  obtain ⟨filled, rfl⟩ := pushRow_eq_ok call
  have grown {event : Event} (member : event ∈ t.log) :
      event ∈ t.log ++ [.row node (t.latency_sub_vec_ node)] := List.mem_append_left _ member
  constructor
  · intro ptr tile row member
    by_cases here : ptr = node
    · subst here
      simp only [Tally.record, Tally.setRows, Function.update_self] at member
      rcases List.mem_append.mp member with early | last
      · exact grown (logged.kept ptr tile row early)
      · rw [List.mem_singleton.mp last]
        exact List.mem_append_right _ List.mem_cons_self
    · simp only [Tally.record, Tally.setRows, Function.update_of_ne here] at member
      exact grown (logged.kept ptr tile row member)
  · intro ptr row member
    rcases List.mem_append.mp member with early | last
    · exact logged.filled ptr row early
    · cases List.mem_singleton.mp last
      exact filled
  · intro ptr rows member
    rcases List.mem_append.mp member with early | last
    · obtain ⟨some, each⟩ := logged.computed ptr rows early
      exact ⟨some, fun row inside => grown (each row inside)⟩
    · cases List.mem_singleton.mp last

theorem RowsLogged.finishTile (logged : RowsLogged ctx.ev t) (tile : ctx.ev.get_type node = .Tile)
    (call : PerfAnalysis.finishTile ctx node t = .ok t') : RowsLogged ctx.ev t' := by
  obtain ⟨latency, value, result⟩ := finishTile_eq_ok call
  obtain ⟨link, computable, _⟩ := computeLatency_iff.mp value
  have log : t'.log = t.log ++ [.compute node (t.latency_vec_ node)] := by
    rw [result]
    split <;> rfl
  have rows : t'.latency_vec_ = t.latency_vec_ := by
    rw [result]
    split <;> rfl
  have grown {event : Event} (member : event ∈ t.log) : event ∈ t'.log := by
    rw [log]
    exact List.mem_append_left _ member
  constructor
  · intro ptr kind row member
    rw [rows] at member
    exact grown (logged.kept ptr kind row member)
  · intro ptr row member
    rw [log] at member
    rcases List.mem_append.mp member with early | last
    · exact logged.filled ptr row early
    · cases List.mem_singleton.mp last
  · intro ptr all member
    rw [log] at member
    rcases List.mem_append.mp member with early | last
    · obtain ⟨some, each⟩ := logged.computed ptr all early
      exact ⟨some, fun row inside => grown (each row inside)⟩
    · cases List.mem_singleton.mp last
      exact ⟨computable.nonempty, fun row inside => grown (logged.kept node tile row inside)⟩

theorem rowsLogged_parts (ctx : PerfContext) :
    Parts ctx fun t t' => RowsLogged ctx.ev t → RowsLogged ctx.ev t' where
  refl := fun _ logged => logged
  trans := fun first second logged => second (first logged)
  enter := fun _ _ _ logged => logged.later (fun _ _ _ member => member) rfl (by simp)
  leave := fun _ _ logged => logged.later (fun _ _ _ member => member) rfl (by simp)
  setRow := fun _ _ _ logged => logged.same (fun _ _ => rfl) rfl
  clearSkew := fun _ _ _ logged => logged.same (fun _ _ => rfl) rfl
  advanceSkew := fun _ _ _ _ logged => logged.same (fun _ _ => rfl) rfl
  restoreSkew := fun _ _ _ logged => logged.same (fun _ _ => rfl) rfl
  op := fun _ _ _ _ logged => logged.later (fun _ _ _ member => member) rfl (by simp)
  transfer := fun _ _ _ _ _ call logged => by
    rw [transTally_eq_ok call]
    exact logged.same (fun _ _ => rfl) rfl
  enterTile := fun t t' node loops _ call logged => by
    obtain ⟨ins, outs, tile, trans, entered⟩ := enterTile_eq_ok call
    rw [entered.result]
    refine logged.later (fun ptr _ row member => ?_) rfl (by simp)
    by_cases here : ptr = node
    · subst here
      simp at member
    · simpa [here] using member
  pushRow := fun _ _ _ _ call logged => logged.pushRow call
  finishTile := fun _ _ _ tile call logged => logged.finishTile tile call
  finishScope := fun t t' node kind call logged => by
    unfold finishScope at call
    split at call
    · cases call
    · cases call
      refine logged.same (fun ptr tile => ?_) rfl
      have apart : ptr ≠ node := by
        rintro rfl
        rw [kind] at tile
        cases tile
      simp [Tally.setRows, apart]

theorem Evaluator.Evaluated.rowsLogged (evaluated : ev.Evaluated state tree t) : RowsLogged ev t := by
  refine (rowsLogged_parts (tree.context ev state.leaf_vec_)).visit [] ev.root_ rfl [] _ t
    evaluated.visited ⟨fun node _ row member => ?_, fun _ _ member => ?_, fun _ _ member => ?_⟩
  · rw [PerfAnalysis.initial, evaluated.latencies] at member
    cases member
  · cases member
  · cases member

theorem origins_of_computed (evaluated : ev.Evaluated state tree t) {m : Nat} {scope : Node}
    (place : (ev.ori_node_ node).children[m]? = some scope) (kind : Node.get_type scope = .Scope)
    (reached : reachedChild (ev.ori_node_ node).children m = true) {rows : List (List Latency)}
    (computed : Event.compute node rows ∈ t.log) {row : List Latency} (member : row ∈ rows) :
    row ≠ [] ∧ row.map Latency.origin = scopeRow (m :: node) 0 scope.children := by
  have logged := evaluated.rowsLogged
  have pushed := (logged.computed node rows computed).2 row member
  have mark : Mark.row node (row.map Latency.origin) ∈ skeleton [] ev.root_ [] := by
    rw [← evaluated.marks]
    exact List.mem_map_of_mem pushed
  refine ⟨logged.filled node row pushed, ?_⟩
  rw [row_mem_skeleton [] ev.root_ rfl [] _ _ mark, tileRow_of_scope _ 0 m [] place kind reached,
    Nat.zero_add]

theorem get?_of_place {i : Nat} {c : Node} (place : (ev.ori_node_ node).children[i]? = some c) :
    ev.root_.get? (i :: node) = some c := by
  cases found : ev.root_.get? node with
  | none =>
    rw [Evaluator.ori_node_, found] at place
    cases place
  | some sub =>
    rw [Evaluator.ori_node_of_get? found] at place
    exact child_of_place found place

/-- Whatever the interconnections are, the entries of the rows below a Scope are combined with the
    links of their own children if and only if the Scope comes first and the names agree. -/
theorem rows_on_own_links_iff (run : ev.evaluate ev.construct = .ok state) {m : Nat} {scope : Node}
    (place : (ev.ori_node_ node).children[m]? = some scope) (kind : Node.get_type scope = .Scope)
    (reached : reachedChild (ev.ori_node_ node).children m = true) {rows : List (List Latency)}
    (computed : Event.compute node rows ∈ state.log) :
    (∀ row ∈ rows, ∀ k entry, row[k]? = some entry → ev.OwnLink node k entry.origin) ↔
      m = 0 ∧ SameNames (ev.target_level node) scope.children := by
  obtain ⟨tree, t, evaluated⟩ := Evaluator.evaluate_eq_ok run
  rw [evaluated.log] at computed
  have origins := fun row member =>
    @origins_of_computed ev node t state tree evaluated m scope place kind reached rows computed row member
  have entry_of {row : List Latency} (member : row ∈ rows) {k : Nat} {child : NodePtr}
      (found : (scopeRow (m :: node) 0 scope.children)[k]? = some child) :
      ∃ entry, row[k]? = some entry ∧ entry.origin = child := by
    rw [← (origins row member).2, List.getElem?_map] at found
    exact Option.map_eq_some_iff.mp found
  constructor
  · intro own
    obtain ⟨row, member⟩ := List.exists_mem_of_ne_nil rows
      (evaluated.rowsLogged.computed node rows computed).1
    have first : m = 0 := by
      obtain ⟨entry, rest, split⟩ := List.exists_cons_of_ne_nil (origins row member).1
      have zero : row[0]? = some entry := by rw [split]; rfl
      obtain ⟨p, at_scope, _⟩ := own row member 0 entry zero
      have inside : entry.origin ∈ scopeRow (m :: node) 0 scope.children := by
        rw [← (origins row member).2, split]
        exact List.mem_map_of_mem List.mem_cons_self
      obtain ⟨j, c, _, _, at_m⟩ := (mem_scopeRow scope.children 0).mp inside
      rw [at_m] at at_scope
      exact (List.cons.inj (List.cons.inj at_scope).2).1
    refine ⟨first, fun p c at_p other => ?_⟩
    subst first
    have found := (@getElem?_scopeRow (0 :: node) scope.children (rank scope.children p)
      (p :: 0 :: node) 0).mpr ⟨p, c, at_p, other, rfl, by rw [Nat.zero_add]⟩
    obtain ⟨entry, at_rank, origin⟩ := entry_of member found
    obtain ⟨p', same, links⟩ := own row member _ entry at_rank
    rw [origin] at same
    cases same
    exact (same_link_iff (get?_of_place place) kind).mp links
  · rintro ⟨rfl, names⟩ row member k entry found
    have at_k : (scopeRow (0 :: node) 0 scope.children)[k]? = some entry.origin := by
      rw [← (origins row member).2, List.getElem?_map, found]
      rfl
    obtain ⟨p, c, at_p, other, rfl, origin⟩ := (getElem?_scopeRow 0).mp at_k
    rw [Nat.zero_add] at origin
    exact ⟨p, origin, (same_link_iff (get?_of_place place) kind).mpr (names p c at_p other)⟩

theorem exists_compute (evaluated : ev.Evaluated state tree t)
    (mark : Mark.compute node ∈ skeleton [] ev.root_ []) :
    ∃ rows, Event.compute node rows ∈ state.log := by
  rw [← evaluated.marks] at mark
  obtain ⟨event, member, same⟩ := List.mem_map.mp mark
  cases event with
  | compute eva rows =>
    cases same
    exact ⟨rows, evaluated.log ▸ member⟩
  | enter => cases same
  | charge => cases same
  | opCharge => cases same
  | row => cases same
  | leave => cases same

def transferred (between : List Node) : Evaluator :=
  Config.evaluator (Config.workloads [("copy", ⟨["A"], "B"⟩), ("scale", ⟨["B"], "C"⟩)] [("M", 4)]
      [("A", ["M"]), ("B", ["M"]), ("C", ["M"])])
    1 [("Main2Cube", ⟨1, .HD, 0, 1⟩), ("Cube2UB", ⟨1, .UC, 0, 1⟩), ("Main2Vec", ⟨1, .HD, 0, 1⟩)]
    (Config.tile .Temporal "Main" [Config.loop "M" 4 4]
      [Config.scope .Sequential ([Config.op "Cube" "copy" [Config.loop "M" 1 1]] ++ between ++
        [Config.op "Vec" "scale" [Config.loop "M" 1 1]])])

theorem rows_on_own_links_plain :
    ∃ state rows, (transferred []).evaluate (transferred []).construct = .ok state ∧
      Event.compute [] rows ∈ state.log ∧
      ∀ row ∈ rows, ∀ k entry, row[k]? = some entry →
        (transferred []).OwnLink [] k entry.origin := by
  have completed : ((transferred []).evaluate (transferred []).construct).isOk = true := by
    decide +kernel
  obtain ⟨state, run⟩ := exists_of_isOk completed
  obtain ⟨tree, t, evaluated⟩ := Evaluator.evaluate_eq_ok run
  obtain ⟨rows, computed⟩ := @exists_compute _ [] _ _ _ evaluated (by decide +kernel)
  have names : SameNames ((transferred []).target_level [])
      ((transferred []).ori_node_ [0]).children := by
    apply sameNames_of_transLast
    intro p c _ _ q d _ place
    have none : ∀ d ∈ ((transferred []).ori_node_ [0]).children, Node.get_type d ≠ .Trans := by
      decide +kernel
    exact none d (List.mem_of_getElem? place)
  exact ⟨state, rows, run, computed, (@rows_on_own_links_iff (transferred []) [] state run 0 _
    rfl rfl rfl rows computed).mpr ⟨rfl, names⟩⟩

/-- The second op is charged on the link of the Trans before it. -/
theorem rows_on_own_links_transferred :
    ∃ state rows, (transferred [Config.trans "UB"]).evaluate
        (transferred [Config.trans "UB"]).construct = .ok state ∧
      Event.compute [] rows ∈ state.log ∧
      (∀ row ∈ rows, row.map Latency.origin = [[0, 0], [2, 0]]) ∧
      getInterConNode (transferred [Config.trans "UB"]) [] 1 = .ok ⟨1, .UC, 0, 1⟩ ∧
      getInterConNode (transferred [Config.trans "UB"]) [] 2 = .ok ⟨1, .HD, 0, 1⟩ := by
  have completed : ((transferred [Config.trans "UB"]).evaluate
      (transferred [Config.trans "UB"]).construct).isOk = true := by
    decide +kernel
  obtain ⟨state, run⟩ := exists_of_isOk completed
  obtain ⟨tree, t, evaluated⟩ := Evaluator.evaluate_eq_ok run
  obtain ⟨rows, computed⟩ := @exists_compute _ [] _ _ _ evaluated (by decide +kernel)
  refine ⟨state, rows, run, computed, fun row member => ?_, by decide +kernel, by decide +kernel⟩
  exact (@origins_of_computed _ [] t state tree evaluated 0 _ rfl rfl rfl rows
    (evaluated.log ▸ computed) row member).2

end TileExp.Analysis
