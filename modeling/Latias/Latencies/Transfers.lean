import Latias.Latencies.Blocks
import Latias.Latencies.TileLatency
import Latias.Library.Machine

/-! Which transfers of the children `dm_latency` holds, an `int`. -/

namespace TileExp.Analysis

open Machine

def Evaluator.ConvertsRow (ev : Evaluator) (node : NodePtr) (child_num : Nat) (row : List Latency) :
    Prop :=
  ∀ i entry, row[i]? = some entry → ev.Converts (ev.linkType node (child_num + i)) entry

/-- Only a Pipeline adds what `dm_latency` holds. -/
def Evaluator.ConvertsRows (ev : Evaluator) (node : NodePtr) (rows : List (List Latency)) : Prop :=
  ∀ row ∈ rows, ev.scopeType node = .Pipeline → ev.ConvertsRow node 0 row

abbrev shapeOf (rows : List (List Latency)) : List Nat := rows.map List.length

/-- What the transfers of each child are known to be: input and output latencies, and with them all
    that are shorter. Waiting a cycle for an input is always one of them. -/
structure Transfers where
  admits : Nat → Int → Int → Prop
  lower : ∀ {k i o i' o'}, admits k i o → 0 ≤ i' → i' ≤ i → 0 ≤ o' → o' ≤ o → admits k i' o'
  waiting : ∀ k, admits k 1 0

def Transfers.upTo (input output : Int) (waits : 1 ≤ input) (moves : 0 ≤ output) : Transfers where
  admits _ i o := i ≤ input ∧ o ≤ output
  lower := fun both _ inside _ inside' => ⟨inside.trans both.1, inside'.trans both.2⟩
  waiting := fun _ => ⟨waits, moves⟩

/-- The transfers of some rows, and all that are shorter. -/
def Transfers.ofRows (rows : List (List Latency)) : Transfers where
  admits k i o := (i ≤ 1 ∧ o ≤ 0) ∨ ∃ row ∈ rows, ∃ entry, row[k]? = some entry ∧
    i ≤ entry.input_latency_ ∧ o ≤ entry.output_latency_
  lower := by
    rintro k i o i' o' (⟨waits, none⟩ | ⟨row, member, entry, found, input, output⟩) _ inside _ inside'
    · exact Or.inl ⟨inside.trans waits, inside'.trans none⟩
    · exact Or.inr ⟨row, member, entry, found, inside.trans input, inside'.trans output⟩
  waiting := fun _ => Or.inl ⟨Int.le_refl 1, Int.le_refl 0⟩

def Transfers.Admits (transfers : Transfers) (rows : List (List Latency)) : Prop :=
  ∀ row ∈ rows, ∀ k entry, row[k]? = some entry →
    transfers.admits k entry.input_latency_ entry.output_latency_

/-- The exact transfers of the children of such rows have a property. -/
def Transfers.Each (transfers : Transfers) (ev : Evaluator) (node : NodePtr) (shape : List Nat)
    (P : Int → Prop) : Prop :=
  ∀ n ∈ shape, ∀ k < n, ∀ entry, NonnegEntry entry →
    transfers.admits k entry.input_latency_ entry.output_latency_ →
      ∀ exact_ ∈ exactTransfer (ev.linkType node k) entry, P exact_

def Transfers.Fit (transfers : Transfers) (ev : Evaluator) (node : NodePtr) (shape : List Nat) :
    Prop :=
  transfers.Each ev node shape InInt

/-- The transfers of the rows are `int`s. -/
def Evaluator.FitRows (ev : Evaluator) (node : NodePtr) (rows : List (List Latency)) : Prop :=
  ∀ row ∈ rows, ∀ k entry, row[k]? = some entry →
    ∀ exact_ ∈ exactTransfer (ev.linkType node k) entry, InInt exact_

variable {ev : Evaluator} {node : NodePtr} {transfers : Transfers} {rows : List (List Latency)}
  {rows₀ : List (List Latency)} {link : InterConNode} {row : List Latency} {entry : Latency}
  {child_num : Nat} {shape : List Nat}

theorem Evaluator.Computable.of_shape (computable : ev.Computable node link rows₀)
    (same : shapeOf rows = shapeOf rows₀) : ev.Computable node link rows := by
  constructor
  · intro none
    rw [none] at same
    exact computable.nonempty (List.map_eq_nil_iff.mp same.symm)
  · exact computable.linked_first
  · exact computable.cores
  · intro row member
    have length : row.length ∈ shapeOf rows₀ := by
      rw [← same]
      exact List.mem_map_of_mem member
    obtain ⟨row₀, inside, equal⟩ := List.mem_map.mp length
    rw [← equal]
    exact computable.linked row₀ inside

theorem Evaluator.ConvertsRow.head (converts : ev.ConvertsRow node child_num (entry :: row)) :
    ev.Converts (ev.linkType node child_num) entry := converts 0 entry rfl

theorem Evaluator.ConvertsRow.tail (converts : ev.ConvertsRow node child_num (entry :: row)) :
    ev.ConvertsRow node (child_num + 1) row := by
  intro i later found
  have other := converts (i + 1) later found
  rwa [← Nat.succ_add_eq_add_succ] at other

theorem Transfers.each_mono {P Q : Int → Prop} (each : transfers.Each ev node shape P)
    (implies : ∀ n, P n → Q n) : transfers.Each ev node shape Q :=
  fun n member k bound entry nonneg admitted exact_ transfer =>
    implies exact_ (each n member k bound entry nonneg admitted exact_ transfer)

theorem Transfers.upTo_fit {input output : Int} (waits : 1 ≤ input) (moves : 0 ≤ output)
    (short : input + output < 2 ^ 31) : (upTo input output waits moves).Fit ev node shape := by
  intro n _ k _ entry nonneg admitted exact_ transfer
  obtain ⟨low, low', _⟩ := nonneg
  obtain ⟨inside, inside'⟩ := admitted
  unfold InInt
  cases kind : ev.linkType node k <;> rw [kind] at transfer <;> cases transfer <;> omega

theorem Transfers.ofRows_admits (rows : List (List Latency)) : (ofRows rows).Admits rows :=
  fun row member _ entry found =>
    Or.inr ⟨row, member, entry, found, Int.le_refl _, Int.le_refl _⟩

theorem Transfers.ofRows_fit (fits : ev.FitRows node rows) : (ofRows rows).Fit ev node shape := by
  intro n _ k _ entry nonneg admitted exact_ transfer
  obtain ⟨low, low', _⟩ := nonneg
  have own (row) (member : row ∈ rows) (longer) (found : row[k]? = some longer) :=
    fits row member k longer found
  unfold InInt at own ⊢
  rcases admitted with ⟨waits, none⟩ | ⟨row, member, longer, found, input, output⟩
  · cases kind : ev.linkType node k <;> rw [kind] at transfer <;> cases transfer <;> omega
  · have bound := own row member longer found
    cases kind : ev.linkType node k <;> rw [kind] at transfer bound <;> cases transfer
    · have sum := bound _ rfl
      omega
    · have longest := bound _ rfl
      omega

theorem Transfers.Fit.each (narrow : ∀ n, ev.toInt n = toInt32 n)
    (fit : transfers.Fit ev node shape) :
    transfers.Each ev node shape fun n => ev.toInt n = n :=
  Transfers.each_mono fit fun n inside => (narrow n).trans ((toInt32_eq_iff n).mpr inside)

theorem convertsRow_of_each (each : transfers.Each ev node (shapeOf rows) fun n => ev.toInt n = n)
    (nonneg : NonnegRows rows) (admitted : transfers.Admits rows) (member : row ∈ rows) :
    ev.ConvertsRow node 0 row := by
  intro k entry found exact_ transfer
  obtain ⟨bound, _⟩ := List.getElem?_eq_some_iff.mp found
  rw [Nat.zero_add] at transfer
  exact each row.length (List.mem_map_of_mem member) k bound entry
    (nonneg row member entry (List.mem_of_getElem? found)) (admitted row member k entry found)
    exact_ transfer

theorem convertsRows_of_each (each : ev.scopeType node = .Pipeline →
      transfers.Each ev node (shapeOf rows) fun n => ev.toInt n = n)
    (nonneg : NonnegRows rows) (admitted : transfers.Admits rows) : ev.ConvertsRows node rows :=
  fun _ member pipeline => convertsRow_of_each (each pipeline) nonneg admitted member

end TileExp.Analysis
