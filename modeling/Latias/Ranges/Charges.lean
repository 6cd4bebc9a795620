import Latias.Library.Keys
import Latias.Ranges.CurrentRange
import Latias.Visits.Evaluation

/-! The maps of a tensor along a run: each charge starts from the map the one before it left. -/

namespace TileExp.Analysis

open Checked LoopNest

def EvaTensors.table (tables : EvaTensors) (is_input : Bool) (node : NodePtr) : Table TensorMap :=
  if is_input then tables.input_tensors_ node else tables.output_tensors_ node

def calls (node : NodePtr) (is_input : Bool) (log : List Event) :
    List (List LoopState × List Charge) :=
  log.filterMap fun event => match event with
    | .charge eva input loops cs => if eva = node ∧ input = is_input then some (loops, cs) else none
    | _ => none

def tensorCharges (node : NodePtr) (is_input : Bool) (name : String) (log : List Event) :
    List (List LoopState × Charge) :=
  (calls node is_input log).flatMap fun call =>
    (call.2.filter fun charge => charge.tensor_name = name).map (call.1, ·)

variable {ctx : PerfContext} {node ptr : NodePtr} {loops : List LoopState} {is_input : Bool}
  {name : String} {table : Table TensorMap} {cs : List Charge} {t t' : Tally}

theorem calls_append (a b : List Event) :
    calls node is_input (a ++ b) = calls node is_input a ++ calls node is_input b :=
  List.filterMap_append

theorem calls_snoc_other {log : List Event} {event : Event}
    (other : ∀ node is_input loops cs, event ≠ .charge node is_input loops cs) :
    calls node is_input (log ++ [event]) = calls node is_input log := by
  rw [calls_append]
  cases event with
  | charge eva input loops cs => exact absurd rfl (other eva input loops cs)
  | enter => exact List.append_nil _
  | opCharge => exact List.append_nil _
  | row => exact List.append_nil _
  | compute => exact List.append_nil _
  | leave => exact List.append_nil _

/-! One call. -/

theorem charge_names (call : charges ctx node loops (skewOf ctx loops) is_input table = .ok cs) :
    cs.map Charge.tensor_name = table.keys := by
  have pairs := charges_eq_ok call
  rw [AList.keys, List.keys]
  clear call
  generalize table.entries = entries at pairs ⊢
  induction pairs with
  | nil => rfl
  | cons made _ ih => rw [List.map_cons, List.map_cons, made.tensor_name, ih]

theorem charge_names_nodup
    (call : charges ctx node loops (skewOf ctx loops) is_input table = .ok cs) :
    (cs.map Charge.tensor_name).Nodup := by
  rw [charge_names call]
  exact table.keys_nodup

theorem lookup_of_entry {entry : Sigma fun _ : String => TensorMap}
    (member : entry ∈ table.entries) : table.lookup entry.1 = some entry.2 :=
  AList.mem_lookup_iff.mpr member

theorem exists_charge {before : TensorMap}
    (call : charges ctx node loops (skewOf ctx loops) is_input table = .ok cs)
    (present : table.lookup name = some before) :
    ∃ charge, (cs.filter fun charge => charge.tensor_name = name) = [charge] ∧
      ChargedAt ctx node loops (skewOf ctx loops) is_input ⟨name, before⟩ charge ∧
        (writeCharges table cs).lookup name = some charge.after := by
  have inside : name ∈ cs.map Charge.tensor_name := by
    rw [charge_names call, AList.mem_keys.symm, ← AList.lookup_isSome, present]
    rfl
  obtain ⟨charge, member, rfl⟩ := List.mem_map.mp inside
  have distinct := charge_names_nodup call
  obtain ⟨entry, at_entry, made⟩ := exists_entry_of_charge call member
  have value := lookup_of_entry at_entry
  rw [← made.tensor_name, present] at value
  obtain ⟨key, map⟩ := entry
  cases made.tensor_name
  cases Option.some_inj.mp value
  exact ⟨charge, Keys.filter_eq_singleton distinct member, made,
    Keys.lookup_insertAll distinct member⟩

theorem no_charge (call : charges ctx node loops (skewOf ctx loops) is_input table = .ok cs)
    (absent : table.lookup name = none) : (writeCharges table cs).lookup name = none := by
  have outside : name ∉ cs.map Charge.tensor_name := by
    rw [charge_names call, AList.mem_keys.symm]
    exact AList.lookup_eq_none.mp absent
  exact (Keys.lookup_insertAll_absent outside).trans absent

/-! All calls of a run. -/

/-- The maps a tensor goes through: each charge is made from the map before it. -/
inductive MapRun (ctx : PerfContext) (node : NodePtr) (is_input : Bool) (name : String)
    (start : TensorMap) : List (List LoopState × Charge) → TensorMap → Prop
  | nil : MapRun ctx node is_input name start [] start
  | snoc {run : List (List LoopState × Charge)} {before : TensorMap} {loops : List LoopState}
    {charge : Charge} (earlier : MapRun ctx node is_input name start run before)
    (made : ChargedAt ctx node loops (skewOf ctx loops) is_input ⟨name, before⟩ charge) :
    MapRun ctx node is_input name start (run ++ [(loops, charge)]) charge.after

theorem MapRun.dims {first last : TensorMap} {run : List (List LoopState × Charge)}
    (whole : MapRun ctx node is_input name first run last) :
    last.tensor_dims_ = first.tensor_dims_ := by
  induction whole with
  | nil => rfl
  | snoc _ made ih => exact made.dims.trans ih

theorem MapRun.charged {first last : TensorMap} {run : List (List LoopState × Charge)}
    (whole : MapRun ctx node is_input name first run last) {entry : List LoopState × Charge}
    (member : entry ∈ run) : ∃ before, before.tensor_dims_ = first.tensor_dims_ ∧
      ChargedAt ctx node entry.1 (skewOf ctx entry.1) is_input ⟨name, before⟩ entry.2 := by
  induction whole with
  | nil => cases member
  | snoc earlier made ih =>
    rcases List.mem_append.mp member with inside | here
    · exact ih inside
    · cases List.mem_singleton.mp here
      exact ⟨_, earlier.dims, made⟩

theorem MapRun.last_mem {first last : TensorMap} {run : List (List LoopState × Charge)}
    (whole : MapRun ctx node is_input name first run last) (some : run ≠ []) :
    ∃ entry ∈ run, last = entry.2.after := by
  cases whole with
  | nil => exact absurd rfl some
  | snoc earlier made => exact ⟨_, List.mem_append_right _ List.mem_cons_self, rfl⟩

theorem mem_tensorCharges {log : List Event} {charge : Charge} :
    (loops, charge) ∈ tensorCharges node is_input name log ↔
      charge.tensor_name = name ∧ ∃ cs, (loops, cs) ∈ calls node is_input log ∧ charge ∈ cs := by
  rw [tensorCharges, List.mem_flatMap]
  constructor
  · rintro ⟨⟨at_loops, cs⟩, member, inside⟩
    obtain ⟨found, kept, same⟩ := List.mem_map.mp inside
    cases same
    obtain ⟨present, key⟩ := List.mem_filter.mp kept
    exact ⟨of_decide_eq_true key, cs, member, present⟩
  · rintro ⟨key, cs, member, present⟩
    exact ⟨(loops, cs), member, List.mem_map_of_mem
      (List.mem_filter.mpr ⟨present, decide_eq_true key⟩)⟩

structure TablesRun (ctx : PerfContext) (start : EvaTensors) (t : Tally) : Prop where
  present : ∀ node is_input name first, (start.table is_input node).lookup name = some first →
    ∃ last, (t.table is_input node).lookup name = some last ∧
      MapRun ctx node is_input name first (tensorCharges node is_input name t.log) last ∧
        (tensorCharges node is_input name t.log).map Prod.fst =
          (calls node is_input t.log).map Prod.fst
  absent : ∀ node is_input name, (start.table is_input node).lookup name = none →
    (t.table is_input node).lookup name = none
  names : ∀ node is_input, ∀ call ∈ calls node is_input t.log, ∀ charge ∈ call.2,
    ∃ first, (start.table is_input node).lookup charge.tensor_name = some first

structure SameTables (t t' : Tally) : Prop where
  tensors : t'.toEvaTensors = t.toEvaTensors
  log : ∀ node is_input, calls node is_input t'.log = calls node is_input t.log

theorem SameTables.record (t : Tally) (event : Event)
    (other : ∀ node is_input loops cs, event ≠ .charge node is_input loops cs) :
    SameTables t (t.record event) :=
  ⟨rfl, fun _ _ => calls_snoc_other other⟩

structure Called (ctx : PerfContext) (ptr : NodePtr) (loops : List LoopState)
    (cs : Bool → List Charge) (t t' : Tally) : Prop where
  made : ∀ is_input, charges ctx ptr loops (skewOf ctx loops) is_input (t.table is_input ptr) =
    .ok (cs is_input)
  table : ∀ is_input, t'.table is_input ptr = writeCharges (t.table is_input ptr) (cs is_input)
  others : ∀ is_input node, node ≠ ptr → t'.table is_input node = t.table is_input node
  log : ∀ is_input, calls ptr is_input t'.log = calls ptr is_input t.log ++ [(loops, cs is_input)]
  others_log : ∀ is_input node, node ≠ ptr → calls node is_input t'.log = calls node is_input t.log

theorem enterTile_called (skew : t.dim_skew = skewOf ctx loops)
    (call : PerfAnalysis.enterTile ctx (walkAt ctx ptr loops) t = .ok t') :
    ∃ cs, Called ctx ptr loops cs t t' := by
  obtain ⟨ins, outs, tile, trans, entered⟩ := enterTile_eq_ok call
  refine ⟨fun is_input => if is_input then ins else outs, ?_, ?_, ?_, ?_, ?_⟩
  · intro is_input
    cases is_input
    · exact skew ▸ entered.outputs
    · exact skew ▸ entered.inputs
  · intro is_input
    rw [entered.result]
    cases is_input <;> simp [EvaTensors.table]
  · intro is_input node apart
    rw [entered.result]
    cases is_input <;> simp [EvaTensors.table, apart]
  · intro is_input
    rw [entered.result, calls_append]
    cases is_input <;> simp [calls]
  · intro is_input node apart
    rw [entered.result, calls_append]
    simp [calls, apart.symm]

theorem step_same_or_called (distinct : ctx.ev.DistinctTileDims) (step : Step ctx t t') :
    SameTables t t' ∨ ∃ ptr loops cs, Called ctx ptr loops cs t t' := by
  have quiet (tensors : t'.toEvaTensors = t.toEvaTensors) (log : t'.log = t.log) :
      SameTables t t' := ⟨tensors, fun node is_input => by rw [log]⟩
  cases step with
  | enter ptr loops => exact Or.inl (.record t _ fun _ _ _ _ same => by cases same)
  | leave ptr => exact Or.inl (.record t _ fun _ _ _ _ same => by cases same)
  | op ptr loops _ kind =>
    exact Or.inl ⟨rfl, fun _ _ => calls_snoc_other fun _ _ _ _ same => by cases same⟩
  | trans call =>
    rw [transTally_eq_ok call]
    exact Or.inl ⟨rfl, fun _ _ => rfl⟩
  | clearRow => exact Or.inl (quiet rfl rfl)
  | pushLatency => exact Or.inl (quiet rfl rfl)
  | copyRow => exact Or.inl (quiet rfl rfl)
  | finishScope call =>
    unfold finishScope at call
    split at call
    · cases call
    · cases call
      exact Or.inl ⟨rfl, fun _ _ => rfl⟩
  | pushRow call =>
    obtain ⟨_, rfl⟩ := pushRow_eq_ok call
    exact Or.inl ⟨rfl, fun _ _ => calls_snoc_other fun _ _ _ _ same => by cases same⟩
  | @finishTile ptr _ _ call =>
    obtain ⟨latency, _, rfl⟩ := finishTile_eq_ok call
    have recorded := SameTables.record t (.compute ptr (t.latency_vec_ ptr))
      (fun _ _ _ _ same => by cases same)
    left
    split
    · exact ⟨rfl, recorded.log⟩
    · exact recorded
  | charge skew call =>
    obtain ⟨cs, called⟩ := enterTile_called (skew distinct) call
    exact Or.inr ⟨_, _, cs, called⟩
  | clearSkew => exact Or.inl (quiet rfl rfl)
  | advanceSkew => exact Or.inl (quiet rfl rfl)
  | restoreSkew => exact Or.inl (quiet rfl rfl)

theorem tensorCharges_of_calls {a b : List Event}
    (same : calls node is_input b = calls node is_input a) :
    tensorCharges node is_input name b = tensorCharges node is_input name a := by
  rw [tensorCharges, tensorCharges, same]

theorem SameTables.table_eq (kept : SameTables t t') (is_input : Bool) (node : NodePtr) :
    t'.table is_input node = t.table is_input node :=
  congrArg (fun tables => EvaTensors.table tables is_input node) kept.tensors

theorem TablesRun.keep {start : EvaTensors} (before : TablesRun ctx start t)
    (kept : SameTables t t') : TablesRun ctx start t' := by
  constructor
  · intro node is_input name first found
    rw [kept.table_eq, tensorCharges_of_calls (kept.log node is_input), kept.log]
    exact before.present node is_input name first found
  · intro node is_input name absent
    rw [kept.table_eq]
    exact before.absent node is_input name absent
  · intro node is_input call member
    rw [kept.log] at member
    exact before.names node is_input call member

theorem TablesRun.call {start : EvaTensors} {cs : Bool → List Charge}
    (before : TablesRun ctx start t) (called : Called ctx ptr loops cs t t') :
    TablesRun ctx start t' := by
  constructor
  · intro node is_input name first found
    obtain ⟨last, present, run, iterations⟩ := before.present node is_input name first found
    rcases eq_or_ne node ptr with rfl | apart
    · obtain ⟨charge, only, made, written⟩ := exists_charge (called.made is_input) present
      have appended : tensorCharges node is_input name t'.log =
          tensorCharges node is_input name t.log ++ [(loops, charge)] := by
        rw [tensorCharges, called.log, List.flatMap_append, List.flatMap_singleton, only]
        rfl
      refine ⟨charge.after, ?_, ?_, ?_⟩
      · rw [called.table, written]
      · rw [appended]
        exact run.snoc made
      · rw [appended, called.log, List.map_append, List.map_append, iterations]
        rfl
    · refine ⟨last, ?_, ?_, ?_⟩
      · rw [called.others is_input node apart, present]
      · rwa [tensorCharges_of_calls (called.others_log is_input node apart)]
      · rw [tensorCharges_of_calls (called.others_log is_input node apart),
          called.others_log is_input node apart, iterations]
  · intro node is_input name absent
    have none := before.absent node is_input name absent
    rcases eq_or_ne node ptr with rfl | apart
    · rw [called.table]
      exact no_charge (called.made is_input) none
    · rw [called.others is_input node apart, none]
  · intro node is_input call member charge inside
    rcases eq_or_ne node ptr with rfl | apart
    · rw [called.log, List.mem_append, List.mem_singleton] at member
      rcases member with earlier | rfl
      · exact before.names node is_input call earlier charge inside
      · obtain ⟨entry, at_entry, made⟩ := exists_entry_of_charge (called.made is_input) inside
        have present := lookup_of_entry at_entry
        rw [← Option.isSome_iff_exists]
        by_contra missing
        rw [Option.not_isSome_iff_eq_none, made.tensor_name] at missing
        rw [before.absent node is_input entry.1 missing] at present
        cases present
    · rw [called.others_log is_input node apart] at member
      exact before.names node is_input call member charge inside

theorem TablesRun.step {start : EvaTensors} (distinct : ctx.ev.DistinctTileDims)
    (before : TablesRun ctx start t) (step : Step ctx t t') : TablesRun ctx start t' := by
  rcases step_same_or_called distinct step with kept | ⟨ptr, loops, cs, called⟩
  · exact before.keep kept
  · exact before.call called

theorem Evaluator.Evaluated.tables {ev : Evaluator} {state : EvalState} {tree : EvaTree}
    (evaluated : ev.Evaluated state tree t) (distinct : ev.DistinctTileDims) :
    TablesRun (tree.context ev state.leaf_vec_) tree.toEvaTensors t := by
  refine steps_preserve (fun t t' before step => before.step distinct step) evaluated.steps ?_
  constructor
  · exact fun node is_input name first found => ⟨first, found, .nil, rfl⟩
  · exact fun node is_input name absent => absent
  · intro node is_input call member
    cases member

end TileExp.Analysis
