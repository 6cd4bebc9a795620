import Latias.Visits.FirstIteration
import Latias.Visits.NoTrace

/-! What a visit of a Tile records: one charge of its tensors, and a row for each iteration of its
    innermost loop. -/

namespace TileExp.Analysis

open Checked

namespace LoopNest

variable {ev : Evaluator} {ctx : PerfContext} {node ptr : NodePtr} {loops : List LoopState}
  {t t' : Tally}

def EachRuns (node : NodePtr) : List Descriptor → List LoopState → Prop
  | [], _ => True
  | loop :: rest, loops => loop.start < loopEnd node loop loops ∧
    ∀ i < (loopEnd node loop loops - loop.start).toNat,
      EachRuns node rest (loopState node loop (loopEnd node loop loops) i :: loops)

/-- The ends that the loops of a Tile run to throughout a visit. -/
def LoopEnds (node : NodePtr) : List Descriptor → List LoopState → List Int → Prop
  | [], _, ends => ends = []
  | loop :: rest, loops, ends => ∃ others, ends = loopEnd node loop loops :: others ∧
    ∀ i < (loopEnd node loop loops - loop.start).toNat,
      LoopEnds node rest (loopState node loop (loopEnd node loop loops) i :: loops) others

theorem iterations_count {dims : List Descriptor} {ends : List Int}
    (zero : ∀ loop ∈ dims, loop.start = 0) (runs : EachRuns node dims loops)
    (taken : LoopEnds node dims loops ends) :
    ((iterations node dims loops).length : Int) = ends.prod := by
  induction dims generalizing loops ends with
  | nil =>
    rw [show ends = [] from taken]
    rfl
  | cons loop rest ih =>
    obtain ⟨others, rfl, each⟩ := taken
    obtain ⟨here, inner⟩ := runs
    have start := zero loop List.mem_cons_self
    have counts : ∀ i ∈ List.range (loopEnd node loop loops - loop.start).toNat,
        (iterations node rest (loopState node loop (loopEnd node loop loops) i :: loops)).length =
          others.prod.toNat := by
      intro i member
      have bound := List.mem_range.mp member
      have count := ih (fun l inside => zero l (List.mem_cons_of_mem loop inside)) (inner i bound)
        (each i bound)
      omega
    have positive : 0 ≤ others.prod := by
      have bound : 0 < (loopEnd node loop loops - loop.start).toNat := by omega
      have count := ih (fun l inside => zero l (List.mem_cons_of_mem loop inside)) (inner 0 bound)
        (each 0 bound)
      omega
    rw [iterations, List.length_flatMap, List.map_congr_left counts, List.map_const',
      List.sum_replicate, List.length_range, List.prod_cons, nsmul_eq_mul]
    push_cast
    rw [Int.toNat_of_nonneg positive, Int.toNat_of_nonneg (by omega), start, Int.sub_zero]

theorem iterations_eq_cons {dims : List Descriptor} (runs : EachRuns node dims loops)
    (first : isFirst node loops = true) :
    ∃ others, iterations node dims loops = firstIteration node dims loops :: others ∧
      isFirst node (firstIteration node dims loops) = true ∧
      ∀ inner ∈ others, isFirst node inner = false := by
  induction dims generalizing loops with
  | nil => exact ⟨[], rfl, first, fun _ member => by cases member⟩
  | cons loop rest ih =>
    obtain ⟨here, inner⟩ := runs
    obtain ⟨n, count⟩ : ∃ n, (loopEnd node loop loops - loop.start).toNat = n + 1 :=
      Nat.exists_eq_succ_of_ne_zero (by omega)
    obtain ⟨others, split, reached, later⟩ := ih (inner 0 (by omega))
      (by rw [isFirst_cons, first]; rfl)
    rw [iterations, count, List.range_succ_eq_map, List.flatMap_cons, split]
    refine ⟨_, List.cons_append, reached, fun l member => ?_⟩
    rcases List.mem_append.mp member with own | rest_member
    · exact later l own
    · obtain ⟨i, index, inside⟩ := List.mem_flatMap.mp rest_member
      obtain ⟨j, _, rfl⟩ := List.mem_map.mp index
      have none := @filter_isFirst_eq_nil node
        (loopState node loop (loopEnd node loop loops) (j + 1) :: loops) rest
        (by rw [isFirst_cons]; rfl)
      rw [List.filter_eq_nil_iff] at none
      exact Bool.eq_false_iff.mpr (none l inside)

/-! The rounds of a visit, one for each iteration of the innermost loop. -/

/-- One iteration of the innermost loop: what its children record, and the row. -/
structure Round where
  loops : List LoopState
  inside : List Event
  row : List Latency

def Round.events (node : NodePtr) (round : Round) : List Event :=
  round.inside ++ [.row node round.row]

def ChargedFirst (node : NodePtr) (loops : List LoopState) (charges : List Event) : Prop :=
  if isFirst node loops then
    ∃ ins outs, charges = [.charge node true loops ins, .charge node false loops outs]
  else charges = []

structure Walked (P : Round → Prop) (node : NodePtr) (its : List (List LoopState)) (t t' : Tally)
    (steps : List (List Event × Round)) : Prop where
  iterations : steps.map (fun step => step.2.loops) = its
  log : t'.log = t.log ++ (steps.map fun step => step.1 ++ step.2.events node).flatten
  charged : ∀ step ∈ steps, ChargedFirst node step.2.loops step.1
  rounds : ∀ step ∈ steps, P step.2
  rows : t'.latency_vec_ node = steps.foldl
    (fun rows step => (if isFirst node step.2.loops then [] else rows) ++ [step.2.row])
    (t.latency_vec_ node)

variable {P : Round → Prop} {its its' : List (List LoopState)} {t₁ : Tally}
  {steps steps' : List (List Event × Round)}

theorem Walked.nil (log : t'.log = t.log) (rows : t'.latency_vec_ node = t.latency_vec_ node) :
    Walked P node [] t t' [] := by
  refine ⟨rfl, ?_, fun _ member => ?_, fun _ member => ?_, rows⟩
  · rw [log]
    exact (List.append_nil _).symm
  · cases member
  · cases member

theorem Walked.append (first : Walked P node its t t₁ steps) (second : Walked P node its' t₁ t' steps') :
    Walked P node (its ++ its') t t' (steps ++ steps') := by
  constructor
  · rw [List.map_append, first.iterations, second.iterations]
  · rw [second.log, first.log, List.map_append, List.flatten_append, List.append_assoc]
  · intro step member
    rcases List.mem_append.mp member with early | late
    · exact first.charged step early
    · exact second.charged step late
  · intro step member
    rcases List.mem_append.mp member with early | late
    · exact first.rounds step early
    · exact second.rounds step late
  · rw [second.rows, first.rows, List.foldl_append]

theorem Walked.after (walked : Walked P node its t t₁ steps) (log : t'.log = t₁.log)
    (rows : t'.latency_vec_ node = t₁.latency_vec_ node) : Walked P node its t t' steps := by
  have whole := walked.append (Walked.nil log rows)
  rwa [List.append_nil, List.append_nil] at whole

theorem enterFirst_charged (call : enterFirst ctx node loops t = .ok t') :
    ∃ charges, t'.log = t.log ++ charges ∧ ChargedFirst node loops charges ∧
      t'.latency_vec_ node = if isFirst node loops then [] else t.latency_vec_ node := by
  unfold enterFirst at call
  split at call
  · next first =>
    obtain ⟨ins, outs, tile, trans, entered⟩ := enterTile_eq_ok call
    refine ⟨[.charge node true loops ins, .charge node false loops outs], ?_, ?_, ?_⟩
    · rw [entered.result]
    · rw [ChargedFirst, if_pos first]
      exact ⟨ins, outs, rfl⟩
    · rw [entered.result, if_pos first]
      simp
  · next later =>
    cases call
    refine ⟨[], (List.append_nil _).symm, ?_, ?_⟩
    · rw [ChargedFirst, if_neg later]
    · rw [if_neg later]

def MakesRow (P : Round → Prop) (node : NodePtr) (loops : List LoopState) (t t' : Tally) : Prop :=
  ∃ inside row, P ⟨loops, inside, row⟩ ∧ t'.log = t.log ++ (inside ++ [.row node row]) ∧
    t'.latency_vec_ node = t.latency_vec_ node ++ [row]

theorem tileLoops_walked {body : List LoopState → Tally → Exec Tally} {Q : List LoopState → Prop}
    (keeps : ∀ loops loop loop_end i, Q loops → Q (loopState node loop loop_end i :: loops))
    (inner : ∀ loops t t', Q loops → body loops t = .ok t' → MakesRow P node loops t t')
    (dims : List Descriptor) (loops : List LoopState) (t t' : Tally) (start : Q loops)
    (run : tileLoops ctx node body dims loops t = .ok t') :
    ∃ steps, Walked P node (iterations node dims loops) t t' steps := by
  induction dims generalizing loops t t' with
  | nil =>
    rw [tileLoops] at run
    obtain ⟨mid, first, second⟩ := bind_eq_ok.mp run
    obtain ⟨charges, charged_log, charged, rows⟩ := enterFirst_charged first
    obtain ⟨inside, row, fine, log, pushed⟩ := inner loops mid t' start second
    refine ⟨[(charges, ⟨loops, inside, row⟩)], rfl, ?_, ?_, ?_, ?_⟩
    · rw [log, charged_log]
      simp [Round.events]
    · intro step member
      cases List.mem_singleton.mp member
      exact charged
    · intro step member
      cases List.mem_singleton.mp member
      exact fine
    · rw [pushed, rows]
      rfl
  | cons loop rest ih =>
    rw [tileLoops] at run
    obtain ⟨_, _, run⟩ := bind_eq_ok.mp run
    obtain ⟨mid, looped, result⟩ := bind_eq_ok.mp run
    cases result
    rw [iterations]
    have walked : ∃ steps, Walked P node ((List.range (loopEnd node loop loops - loop.start).toNat).flatMap
        fun i => iterations node rest (loopState node loop (loopEnd node loop loops) i :: loops))
          t mid steps := by
      refine foldlM_induction looped (fun done t' => ∃ steps, Walked P node (done.flatMap fun i =>
        iterations node rest (loopState node loop (loopEnd node loop loops) i :: loops)) t t' steps)
        ⟨[], Walked.nil rfl rfl⟩ ?_
      intro done i rest' before after _ earlier step
      obtain ⟨steps, walked⟩ := earlier
      obtain ⟨inside, nested, result⟩ := bind_eq_ok.mp step
      cases result
      obtain ⟨steps', here⟩ := ih _ before inside (keeps loops loop _ i start) nested
      rw [List.flatMap_append, List.flatMap_singleton]
      exact ⟨steps ++ steps', walked.append (here.after rfl rfl)⟩
    obtain ⟨steps, walked⟩ := walked
    exact ⟨steps, walked.after rfl rfl⟩

/-- A visit of a Tile between its `enter` and its `leave`: a charge of the inputs and one of the
    outputs, then what each iteration does, and last the latency of the rows. -/
structure ChargedOnce (ev : Evaluator) (node : NodePtr) (loops : List LoopState)
    (inside : List Event) (rounds : List Round) : Prop where
  iterations : rounds.map Round.loops = iterations node (ev.loopnests_ node) loops
  children : ∀ round ∈ rounds, round.inside.map Event.mark =
    tileSkeleton node 0 (ev.ori_node_ node).children round.loops
  events : ∃ first ins outs, inside = .charge node true first ins :: .charge node false first outs ::
    ((rounds.map (Round.events node)).flatten ++ [.compute node (rounds.map Round.row)])

theorem ChargedOnce.apart {inside : List Event} {rounds : List Round}
    (once : ChargedOnce ev node loops inside rounds) {round : Round} (member : round ∈ rounds)
    {event : Event} (own : event ∈ round.inside) : event.mark.node ≠ node := by
  have mark : event.mark ∈ tileSkeleton node 0 (ev.ori_node_ node).children round.loops := by
    rw [← once.children round member]
    exact List.mem_map_of_mem own
  obtain ⟨j, _, below⟩ := tileSkeleton_later 0 _ event.mark mark
  intro same
  rw [same] at below
  exact absurd below.length_le (by simp)

theorem Walked.once (walked : Walked P node its t t' steps) {first : List LoopState}
    {others : List (List LoopState)} (split : its = first :: others)
    (reached : isFirst node first = true) (later : ∀ inner ∈ others, isFirst node inner = false) :
    ∃ ins outs, t'.log = t.log ++ .charge node true first ins :: .charge node false first outs ::
        (steps.map fun step => step.2.events node).flatten ∧
      t'.latency_vec_ node = steps.map fun step => step.2.row := by
  obtain ⟨iterations, log, charged, _, rows⟩ := walked
  rw [split] at iterations
  obtain ⟨step, rest, rfl, rfl, tail⟩ := List.map_eq_cons_iff.mp iterations
  have plain : ∀ step ∈ rest, isFirst node step.2.loops = false := by
    intro step member
    apply later
    rw [← tail]
    exact List.mem_map_of_mem (f := fun step : List Event × Round => step.2.loops) member
  have here := charged step List.mem_cons_self
  rw [ChargedFirst, if_pos reached] at here
  obtain ⟨ins, outs, charges⟩ := here
  have events : (rest.map fun step => step.1 ++ step.2.events node) =
      rest.map fun step => step.2.events node := by
    apply List.map_congr_left
    intro step member
    have none := charged step (List.mem_cons_of_mem _ member)
    rw [ChargedFirst, plain step member] at none
    rw [show step.1 = [] from none, List.nil_append]
  have pushed : ∀ (rest : List (List Event × Round)) (start : List (List Latency)),
      (∀ step ∈ rest, isFirst node step.2.loops = false) → rest.foldl
        (fun rows step => (if isFirst node step.2.loops then [] else rows) ++ [step.2.row]) start =
          start ++ rest.map fun step => step.2.row := by
    intro rest
    induction rest with
    | nil => exact fun start _ => (List.append_nil start).symm
    | cons step rest ih =>
      intro start plain
      obtain ⟨here, plain⟩ := List.forall_mem_cons.mp plain
      rw [List.foldl_cons, ih _ plain, here]
      simp
  refine ⟨ins, outs, ?_, ?_⟩
  · rw [log, List.map_cons, events, charges]
    simp
  · rw [rows, List.foldl_cons, pushed rest _ plain, reached]
    rfl

/-! Every visit of a run, wherever it is in the log. -/

/-- Whenever a visit of a Tile starts, it charges once and makes its rows before it ends. -/
def VisitsCharged (ev : Evaluator) (events : List Event) : Prop :=
  ∀ before node eva loops skew after, events = before ++ .enter node eva loops skew :: after →
    ev.get_type node = .Tile → EachRuns node (ev.loopnests_ node) loops →
    ∃ inside rest rounds, after = inside ++ .leave node (up node) :: rest ∧
      ChargedOnce ev node loops inside rounds

theorem VisitsCharged.of_no_enter {events : List Event}
    (none : ∀ node eva loops skew, Event.enter node eva loops skew ∉ events) :
    VisitsCharged ev events := by
  intro before node eva loops skew after split
  apply absurd _ (none node eva loops skew)
  rw [split]
  simp

theorem VisitsCharged.append {first second : List Event} (left : VisitsCharged ev first)
    (right : VisitsCharged ev second) : VisitsCharged ev (first ++ second) := by
  intro before node eva loops skew after split tile runs
  rcases List.append_eq_append_iff.mp split with ⟨gap, rfl, later⟩ | ⟨gap, rfl, later⟩
  · exact right gap node eva loops skew after later tile runs
  · cases gap with
    | nil => exact right [] node eva loops skew after later.symm tile runs
    | cons event gap =>
      cases later
      obtain ⟨inside, rest, rounds, rfl, once⟩ := left before node eva loops skew gap rfl tile runs
      exact ⟨inside, rest ++ second, rounds, by simp, once⟩

theorem VisitsCharged.around {inside : List Event} {eva : NodePtr} {skew : String → Int}
    (below : VisitsCharged ev inside) (own : ev.get_type node = .Tile →
      EachRuns node (ev.loopnests_ node) loops → ∃ rounds, ChargedOnce ev node loops inside rounds) :
    VisitsCharged ev (.enter node eva loops skew :: inside ++ [.leave node (up node)]) := by
  intro before node' eva' loops' skew' after split tile runs
  cases before with
  | nil =>
    cases split
    obtain ⟨rounds, once⟩ := own tile runs
    exact ⟨inside, [], rounds, rfl, once⟩
  | cons event before =>
    have rest := (List.cons.inj split).2
    have last : VisitsCharged ev [.leave node (up node)] := VisitsCharged.of_no_enter (by simp)
    exact below.append last before node' eva' loops' skew' after rest tile runs

def Adds (ev : Evaluator) (marks : List Mark) (t t' : Tally) : Prop :=
  ∃ events, t'.log = t.log ++ events ∧ events.map Event.mark = marks ∧ VisitsCharged ev events

theorem Adds.append {first second : List Mark} (left : Adds ev first t t₁)
    (right : Adds ev second t₁ t') : Adds ev (first ++ second) t t' := by
  obtain ⟨events, log, rfl, charged⟩ := left
  obtain ⟨events', log', rfl, charged'⟩ := right
  refine ⟨events ++ events', ?_, List.map_append, charged.append charged'⟩
  rw [log', log, List.append_assoc]

theorem Adds.nil (log : t'.log = t.log) : Adds ev [] t t' :=
  ⟨[], by rw [log]; exact (List.append_nil _).symm, rfl, VisitsCharged.of_no_enter (by simp)⟩

def Outside (node : NodePtr) (loops : List LoopState) : Prop :=
  ∀ loop ∈ loops, ¬ node <:+ loop.node

theorem Outside.child {i : Nat} (outside : Outside node loops) : Outside (i :: node) loops :=
  fun loop member below => outside loop member ((List.suffix_cons i node).trans below)

theorem VisitsCharged.flatten {parts : List (List Event)}
    (each : ∀ events ∈ parts, VisitsCharged ev events) : VisitsCharged ev parts.flatten := by
  induction parts with
  | nil => exact VisitsCharged.of_no_enter (by simp)
  | cons events parts ih =>
    obtain ⟨here, rest⟩ := List.forall_mem_cons.mp each
    exact here.append (ih rest)

theorem ChargedFirst.visits {charges : List Event} (charged : ChargedFirst node loops charges) :
    VisitsCharged ev charges := by
  apply VisitsCharged.of_no_enter
  intro ptr eva inner skew member
  rw [ChargedFirst] at charged
  split at charged
  · obtain ⟨ins, outs, rfl⟩ := charged
    simp at member
  · rw [charged] at member
    cases member

theorem tileChildren_rows {i : Nat} {cs : List Node} (run : tileChildren ctx ptr i cs loops t = .ok t') :
    t'.latency_vec_ ptr = t.latency_vec_ ptr := by
  induction cs generalizing i t with
  | nil =>
    cases run
    rfl
  | cons c cs ih =>
    rw [tileChildren] at run
    obtain ⟨mid, child, others⟩ := bind_eq_ok.mp run
    have kept : mid.latency_vec_ ptr = t.latency_vec_ ptr :=
      congrArg NodeData.latency_vec_ (visit_keeps (i :: ptr) c loops t mid child ptr
        (fun inside => absurd inside.length_le (by simp)))
    split at others
    · cases others
      exact kept
    · exact (ih others).trans kept

def ChildrenOf (ev : Evaluator) (ptr : NodePtr) (cs : List Node) (round : Round) : Prop :=
  round.inside.map Event.mark = tileSkeleton ptr 0 cs round.loops ∧ VisitsCharged ev round.inside

theorem makesRow {cs : List Node} (children : Adds ctx.ev (tileSkeleton ptr 0 cs loops)
      (t.setRow ptr []) t₁)
    (run : tileChildren ctx ptr 0 cs loops (t.setRow ptr []) = .ok t₁)
    (push : PerfAnalysis.pushRow ptr t₁ = .ok t') :
    MakesRow (ChildrenOf ctx.ev ptr cs) ptr loops t t' := by
  obtain ⟨inside, log, marks, charged⟩ := children
  obtain ⟨_, rfl⟩ := pushRow_eq_ok push
  refine ⟨inside, t₁.latency_sub_vec_ ptr, ⟨marks, charged⟩, ?_, ?_⟩
  · change t₁.log ++ _ = _
    rw [log, List.append_assoc]
    rfl
  · have rows := tileChildren_rows run
    simp [Tally.setRows, Tally.record, rows, Tally.setRow]

theorem finishTile_log (finish : PerfAnalysis.finishTile ctx ptr t = .ok t') :
    t'.log = t.log ++ [.compute ptr (t.latency_vec_ ptr)] := by
  obtain ⟨latency, _, rfl⟩ := finishTile_eq_ok finish
  split <;> rfl

theorem tile_charged {info : NodeInfo} {cs : List Node} {kind : TileType} {dims : List Descriptor}
    (found : ctx.ev.root_.get? ptr = some (.mk info cs)) (tile : info.kind = .Tile kind dims)
    (children : ∀ loops t t', (∀ i, Outside (i :: ptr) loops) →
      tileChildren ctx ptr 0 cs loops t = .ok t' → Adds ctx.ev (tileSkeleton ptr 0 cs loops) t t')
    (outside : Outside ptr loops) {after : Tally} (nested : tileLoops ctx ptr (fun loops t => do
        let t ← tileChildren ctx ptr 0 cs loops (t.setRow ptr [])
        PerfAnalysis.pushRow ptr t) dims loops t = .ok after)
    (finish : PerfAnalysis.finishTile ctx ptr after = .ok t') :
    ∃ inside, t'.log = t.log ++ inside ∧ VisitsCharged ctx.ev inside ∧
      (EachRuns ptr dims loops → ∃ rounds, ChargedOnce ctx.ev ptr loops inside rounds) := by
  have dims_eq : ctx.ev.loopnests_ ptr = dims := by
    rw [Evaluator.loopnests_, Evaluator.ori_node_of_get? found, Node.loopnests_, Rose.value_mk, tile]
    rfl
  have cs_eq : (ctx.ev.ori_node_ ptr).children = cs := by
    rw [Evaluator.ori_node_of_get? found]
    rfl
  have below : ∀ i, Outside (i :: ptr) loops := fun i => outside.child
  obtain ⟨steps, walked⟩ := @tileLoops_walked ctx ptr (ChildrenOf ctx.ev ptr cs) _
    (fun loops => ∀ i, Outside (i :: ptr) loops)
    (fun loops loop loop_end i kept j other member => by
      rcases List.mem_cons.mp member with rfl | earlier
      · exact fun inside => absurd inside.length_le (by simp [loopState])
      · exact kept j other earlier)
    (fun loops t t' kept body => by
      obtain ⟨mid, inner, push⟩ := bind_eq_ok.mp body
      exact makesRow (children loops _ mid kept inner) inner push)
    dims loops t after below nested
  refine ⟨(steps.map fun step => step.1 ++ step.2.events ptr).flatten ++
    [.compute ptr (after.latency_vec_ ptr)], ?_, ?_, ?_⟩
  · rw [finishTile_log finish, walked.log, List.append_assoc]
  · apply VisitsCharged.append
    · apply VisitsCharged.flatten
      intro events member
      obtain ⟨step, own, rfl⟩ := List.mem_map.mp member
      have row : VisitsCharged ctx.ev [.row ptr step.2.row] := VisitsCharged.of_no_enter (by simp)
      exact (walked.charged step own).visits.append ((walked.rounds step own).2.append row)
    · exact VisitsCharged.of_no_enter (by simp)
  · intro runs
    have first : isFirst ptr loops = true := by
      apply isFirst_of_outside
      rintro loop member rfl
      exact outside loop member List.suffix_rfl
    obtain ⟨others, split, reached, later⟩ := iterations_eq_cons runs first
    obtain ⟨ins, outs, log, rows⟩ := walked.once split reached later
    refine ⟨steps.map Prod.snd, ?_, ?_, ?_⟩
    · rw [dims_eq, List.map_map]
      exact walked.iterations
    · intro round member
      obtain ⟨step, own, rfl⟩ := List.mem_map.mp member
      rw [cs_eq]
      exact (walked.rounds step own).1
    · refine ⟨firstIteration ptr dims loops, ins, outs, ?_⟩
      have same := List.append_cancel_left (walked.log.symm.trans log)
      rw [same, rows, List.map_map, List.map_map]
      rfl

/-- Every visit adds a log whose visits charge once. -/
theorem visit_adds (ptr : NodePtr) (sub : Node) (found : ctx.ev.root_.get? ptr = some sub) :
    ∀ loops t t', Outside ptr loops → visit ctx ptr sub loops t = .ok t' →
      Adds ctx.ev (skeleton ptr sub loops) t t' := by
  induction ptr, sub using Rose.position_induction₂
    (S := fun ptr i cs => ChildrenAt ctx.ev ptr i cs → ∀ loops t t', (∀ i, Outside (i :: ptr) loops) →
      scopeChildren ctx ptr i cs loops t = .ok t' →
        Adds ctx.ev (scopeSkeleton ptr i cs loops) t t')
    (T := fun ptr i cs => ChildrenAt ctx.ev ptr i cs → ∀ loops t t', (∀ i, Outside (i :: ptr) loops) →
      tileChildren ctx ptr i cs loops t = .ok t' →
        Adds ctx.ev (tileSkeleton ptr i cs loops) t t') with
  | node ptr info cs scope tile =>
    intro loops t t' outside run
    have marked := (visit_marks ptr _ found loops t t' run).1
    have placed := childrenAt_zero found
    have below : ∀ i, Outside (i :: ptr) loops := fun i => outside.child
    obtain ⟨mid, inside, result⟩ := bind_eq_ok.mp run
    cases result
    suffices ∃ events, mid.log = t.log ++ .enter ptr ptr loops t.dim_skew :: events ∧
        VisitsCharged ctx.ev events ∧ (ctx.ev.get_type ptr = .Tile →
          EachRuns ptr (ctx.ev.loopnests_ ptr) loops →
            ∃ rounds, ChargedOnce ctx.ev ptr loops events rounds) by
      obtain ⟨events, log, charged, own⟩ := this
      have whole : (mid.record (.leave ptr (up ptr))).log =
          t.log ++ (.enter ptr ptr loops t.dim_skew :: events ++ [.leave ptr (up ptr)]) := by
        change mid.log ++ _ = _
        rw [log]
        simp
      refine ⟨_, whole, ?_, charged.around own⟩
      rw [marks, whole, List.map_append] at marked
      exact List.append_cancel_left marked
    have no_tile (kind : info.kind.type_ ≠ .Tile) (events : List Event) :
        ctx.ev.get_type ptr = .Tile → EachRuns ptr (ctx.ev.loopnests_ ptr) loops →
          ∃ rounds, ChargedOnce ctx.ev ptr loops events rounds := by
      intro tile
      rw [Evaluator.get_type, Evaluator.ori_node_of_get? found] at tile
      exact absurd tile kind
    obtain ⟨name_, level, mode, kind⟩ := info
    cases kind with
    | Op ops =>
      cases inside
      refine ⟨_, List.append_assoc _ _ _, VisitsCharged.of_no_enter (by simp), no_tile ?_ _⟩
      simp [NodeKind.type_]
    | Trans =>
      rw [transTally_eq_ok inside]
      refine ⟨[], rfl, VisitsCharged.of_no_enter (by simp), no_tile ?_ _⟩
      simp [NodeKind.type_]
    | Scope type =>
      obtain ⟨after, children, finish⟩ := bind_eq_ok.mp inside
      obtain ⟨events, log, _, charged⟩ := scope placed loops _ after below children
      have same : mid.log = after.log := by
        unfold finishScope at finish
        split at finish
        · cases finish
        · cases finish
          rfl
      refine ⟨events, ?_, charged, no_tile ?_ _⟩
      · rw [same, log]
        exact List.append_assoc _ _ _
      · simp [NodeKind.type_]
    | Tile type dims =>
      cases dims with
      | nil => cases inside
      | cons loop rest =>
        obtain ⟨after, nested, finish⟩ := bind_eq_ok.mp inside
        obtain ⟨events, log, charged, once⟩ := tile_charged found rfl (tile placed) outside nested finish
        refine ⟨events, ?_, charged, fun _ runs => ?_⟩
        · rw [log]
          exact List.append_assoc _ _ _
        · rw [Evaluator.loopnests_, Evaluator.ori_node_of_get? found] at runs
          exact once runs
  | first_nil ptr i =>
    rename_i placed loops t t' outside run
    cases run
    exact Adds.nil rfl
  | first_cons ptr i c cs first rest =>
    rename_i placed loops t t' outside run
    rw [scopeChildren] at run
    obtain ⟨mid, child, others⟩ := bind_eq_ok.mp run
    refine (first placed.head loops t mid (outside i) child).append ?_
    have later := rest placed.tail loops _ t' outside others
    split at later
    · exact later
    · exact later
  | second_nil ptr i =>
    rename_i placed loops t t' outside run
    cases run
    exact Adds.nil rfl
  | second_cons ptr i c cs first rest =>
    rename_i placed loops t t' outside run
    rw [tileChildren] at run
    obtain ⟨mid, child, others⟩ := bind_eq_ok.mp run
    refine (first placed.head loops t mid (outside i) child).append ?_
    rw [Evaluator.get_type, Evaluator.ori_node_of_get? placed.head] at others
    by_cases scope : Node.get_type c = .Scope
    · rw [if_pos scope] at others ⊢
      cases others
      exact Adds.nil rfl
    · rw [if_neg scope] at others ⊢
      have later := rest placed.tail loops _ t' outside others
      exact later

end LoopNest

open LoopNest

/-- Each visit of a run charges its Tile once, and passes on exactly the rows of its own
    iterations. -/
theorem one_charge_per_visit {ev : Evaluator} (zero : ev.StartsAtZero) {tree : EvaTree}
    {leaf_vec_ : List NodePtr} {s : PerfState} (idle : tree.Idle ev)
    (run : PerfAnalysis.run ev tree leaf_vec_ = .ok s) {before after : List Event}
    {node eva : NodePtr} {loops : List LoopState} {skew : String → Int}
    (visited : s.tally.log = before ++ .enter node eva loops skew :: after)
    (tile : ev.get_type node = .Tile) (runs : EachRuns node (ev.loopnests_ node) loops) :
    ∃ inside rest rounds, after = inside ++ .leave node (up node) :: rest ∧
      ChargedOnce ev node loops inside rounds ∧
      ∀ ends, LoopEnds node (ev.loopnests_ node) loops ends → (rounds.length : Int) = ends.prod := by
  have nested := run
  rw [PerfAnalysis.run_eq idle] at nested
  obtain ⟨t, visit, result⟩ := bind_eq_ok.mp nested
  cases result
  obtain ⟨events, log, _, charged⟩ := visit_adds [] ev.root_ rfl [] _ t
    (fun _ member => by cases member) visit
  have whole : t.log = events := log
  obtain ⟨inside, rest, rounds, split, once⟩ := charged before node eva loops skew after
    (whole.symm.trans visited) tile runs
  refine ⟨inside, rest, rounds, split, once, fun ends taken => ?_⟩
  have starts : ∀ loop ∈ ev.loopnests_ node, loop.start = 0 := fun loop member =>
    zero node (InitAnalysis.mem_positions.mpr (Evaluator.isSome_get?_of_loop member)) loop member
  have count := congrArg List.length once.iterations
  rw [List.length_map] at count
  rw [count]
  exact iterations_count starts runs taken

def nestedTail : LoopState := ⟨[], "M", 0, 2, 1, true⟩

theorem one_charge_per_visit_nested :
    ∃ state tree t, nested.Evaluated state tree t ∧ ∃ before after eva skew inside rest rounds,
      t.log = before ++ .enter [0, 0] eva [nestedTail] skew :: after ∧
        after = inside ++ .leave [0, 0] [0] :: rest ∧
        ChargedOnce nested [0, 0] [nestedTail] inside rounds ∧ (rounds.length : Int) = 2 := by
  have completed : (nested.evaluate nested.construct).isOk = true := by
    decide +kernel
  obtain ⟨state, run⟩ := exists_of_isOk completed
  obtain ⟨tree, t, evaluated⟩ := Evaluator.evaluate_eq_ok run
  have marked : Mark.enter [0, 0] [nestedTail] ∈ skeleton [] nested.root_ [] := by decide +kernel
  rw [← evaluated.marks] at marked
  obtain ⟨event, member, mark⟩ := List.mem_map.mp marked
  cases event with
  | enter node eva loops skew =>
    cases mark
    obtain ⟨before, after, split⟩ := List.append_of_mem member
    have runs : EachRuns [0, 0] (nested.loopnests_ [0, 0]) [nestedTail] :=
      ⟨by decide +kernel, fun _ _ => trivial⟩
    obtain ⟨inside, rest, rounds, rfl, once, count⟩ := one_charge_per_visit (by decide +kernel)
      evaluated.idle evaluated.perf split (by decide +kernel) runs
    have ends : LoopEnds [0, 0] (nested.loopnests_ [0, 0]) [nestedTail] [2] :=
      ⟨[], by decide +kernel, fun _ _ => rfl⟩
    exact ⟨state, tree, t, evaluated, before, _, eva, skew, inside, rest, rounds, split, rfl, once,
      count [2] ends⟩
  | charge => cases mark
  | opCharge => cases mark
  | row => cases mark
  | compute => cases mark
  | leave => cases mark

end TileExp.Analysis
