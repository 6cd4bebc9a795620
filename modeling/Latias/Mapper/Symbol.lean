import Latias.Common
import Latias.Library.Checked
import Latias.Library.Keys

/-! `SymbolTable`: the tiling variables of a mapping. -/

namespace TileExp.Symbol

open Checked

structure Entry where
  name_ : String
  value_ : Nat
  idx_ : Int
  candidates_ : List Nat
  fixed_ : Bool
  deriving DecidableEq, Repr

structure SymbolTable where
  name2idx_ : Table Int
  idx2values_ : AList fun _ : Int => Entry
  idx : Int

namespace SymbolTable

def empty : SymbolTable := ⟨∅, ∅, 0⟩

def lookup (table : SymbolTable) (key : Int) : Exec Entry :=
  match table.idx2values_.lookup key with
  | some entry => .ok entry
  | none => .error (.exception "out_of_range")

def get_num_variables (table : SymbolTable) : Int := table.idx

def Anonymous (name : String) : Prop := name = "?" ∨ name = "X"

instance (name : String) : Decidable (Anonymous name) := inferInstanceAs (Decidable (_ ∨ _))

/-- The values of `name_` in the loop of `insert`: the name, then the name with 0, 1, 2, ... -/
def candidate (name : String) : Nat → String
  | 0 => name
  | i + 1 => name ++ toString i

def searchName (table : SymbolTable) (name : String) (rounds : Nat) : Option String :=
  Keys.firstFree (fun name_ => decide (name_ ∈ table.name2idx_)) (candidate name) rounds 0

def insertedName (table : SymbolTable) (name : String) : String :=
  if Anonymous name then (table.searchName name (table.name2idx_.keys.length + 1)).getD name
  else name

def insert (table : SymbolTable) (name : String) : SymbolTable × Int :=
  let name_ := table.insertedName name
  match table.name2idx_.lookup name_ with
  | some i => (table, -i)
  | none =>
    let idx := table.idx + 1
    (⟨table.name2idx_.insert name_ idx, table.idx2values_.insert idx ⟨name_, 0, idx, [], false⟩,
      idx⟩, -idx)

def insertCalls (table : SymbolTable) : List String → SymbolTable × List (String × Int)
  | [] => (table, [])
  | name :: rest =>
    let (table', value) := table.insert name
    let (last, returned) := table'.insertCalls rest
    (last, (table.insertedName name, value) :: returned)

variable {table : SymbolTable} {name : String}

theorem candidate_injective (name : String) : Function.Injective (candidate name) := by
  have numbered {i j : Nat} (same : name ++ toString i = name ++ toString j) : i = j :=
    Keys.toString_nat_injective ((String.append_right_inj name).mp same)
  have longer (i : Nat) : name ≠ name ++ toString i := by
    intro same
    have lengths := congrArg String.length same
    have some : 0 < (toString i).length := Nat.length_repr_pos
    rw [String.length_append] at lengths
    omega
  intro i j same
  cases i with
  | zero =>
    cases j with
    | zero => rfl
    | succ j => exact absurd same (longer j)
  | succ i =>
    cases j with
    | zero => exact absurd same.symm (longer i)
    | succ j => rw [numbered same]

theorem searchName_total {rounds : Nat} (enough : table.name2idx_.keys.length < rounds) :
    ∃ name_, table.searchName name rounds = some name_ ∧ name_ ∉ table.name2idx_ := by
  obtain ⟨name_, found⟩ := Keys.firstFree_total (candidate_injective name) (i := 0)
    (fun name_ present => AList.mem_keys.mp (of_decide_eq_true present)) enough
  exact ⟨name_, found, of_decide_eq_false (Keys.firstFree_eq_some found).1⟩

theorem insertedName_anonymous (anonymous : Anonymous name) :
    table.insertedName name ∉ table.name2idx_ := by
  obtain ⟨name_, found, unused⟩ := @searchName_total table name _ (Nat.lt_succ_self _)
  rw [insertedName, if_pos anonymous, found]
  exact unused

/-- Names and ids 1, ..., `idx` belong to each other one by one. -/
structure Consistent (table : SymbolTable) : Prop where
  names : (table.name2idx_.keys.length : Int) = table.idx
  entries : (table.idx2values_.keys.length : Int) = table.idx
  ids : ∀ id, id ∈ table.idx2values_ ↔ 1 ≤ id ∧ id ≤ table.idx
  paired : ∀ name id, table.name2idx_.lookup name = some id ↔
    ∃ entry, table.idx2values_.lookup id = some entry ∧ entry.name_ = name

theorem consistent_empty : Consistent empty := by
  constructor
  · rfl
  · rfl
  · intro id
    have none : id ∉ empty.idx2values_ := AList.notMem_empty id
    simp only [none, false_iff, not_and, not_le]
    show 1 ≤ id → 0 < id
    omega
  · intro name id
    simp [empty]

theorem Consistent.id_bounds (consistent : Consistent table) {id : Int}
    (found : table.name2idx_.lookup name = some id) : 1 ≤ id ∧ id ≤ table.idx := by
  obtain ⟨entry, at_id, _⟩ := (consistent.paired name id).mp found
  exact (consistent.ids id).mp (AList.lookup_isSome.mp (Option.isSome_of_eq_some at_id))

theorem insert_cases (table : SymbolTable) (name : String) :
    (∃ id, table.name2idx_.lookup (table.insertedName name) = some id ∧
      table.insert name = (table, -id)) ∨
    table.insertedName name ∉ table.name2idx_ ∧
      table.insert name = (⟨table.name2idx_.insert (table.insertedName name) (table.idx + 1),
        table.idx2values_.insert (table.idx + 1)
          ⟨table.insertedName name, 0, table.idx + 1, [], false⟩, table.idx + 1⟩,
        -(table.idx + 1)) := by
  unfold insert
  cases found : table.name2idx_.lookup (table.insertedName name) with
  | some id => exact Or.inl ⟨id, rfl, by simp only [found]⟩
  | none => exact Or.inr ⟨AList.lookup_eq_none.mp found, by simp only [found]⟩

theorem Consistent.insert (consistent : Consistent table) (name : String) :
    Consistent (table.insert name).1 := by
  rcases insert_cases table name with ⟨id, _, same⟩ | ⟨unused, appended⟩
  · rw [same]
    exact consistent
  · rw [appended]
    generalize table.insertedName name = name_ at unused
    have new_id : table.idx + 1 ∉ table.idx2values_ := by
      intro old
      have bounds := (consistent.ids _).mp old
      omega
    constructor
    · rw [AList.keys_insert, List.erase_of_not_mem (fun old => unused (AList.mem_keys.mpr old)),
        List.length_cons]
      have before := consistent.names
      push_cast
      omega
    · rw [AList.keys_insert, List.erase_of_not_mem (fun old => new_id (AList.mem_keys.mpr old)),
        List.length_cons]
      have before := consistent.entries
      push_cast
      omega
    · intro id
      have size := consistent.names
      rw [AList.mem_insert, consistent.ids]
      show _ ↔ 1 ≤ id ∧ id ≤ table.idx + 1
      omega
    · intro other id
      by_cases own : id = table.idx + 1
      · subst own
        rw [AList.lookup_insert]
        by_cases here : other = name_
        · subst here
          simp [AList.lookup_insert]
        · rw [AList.lookup_insert_ne here]
          have none : table.name2idx_.lookup other ≠ some (table.idx + 1) := by
            intro found
            have bounds := consistent.id_bounds found
            omega
          simp [none, Ne.symm here]
      · rw [AList.lookup_insert_ne own]
        by_cases here : other = name_
        · subst here
          rw [AList.lookup_insert]
          have absent : ¬ ∃ entry, table.idx2values_.lookup id = some entry ∧ entry.name_ = other := by
            intro found
            have there := (consistent.paired other id).mpr found
            exact unused (AList.lookup_isSome.mp (Option.isSome_of_eq_some there))
          simp [absent, Ne.symm own]
        · rw [AList.lookup_insert_ne here]
          exact consistent.paired other id

theorem lookup_insert (table : SymbolTable) (name : String) :
    (table.insert name).1.name2idx_.lookup (table.insertedName name) =
        some (-(table.insert name).2) ∧
      ∀ other id, table.name2idx_.lookup other = some id →
        (table.insert name).1.name2idx_.lookup other = some id := by
  rcases insert_cases table name with ⟨id, found, same⟩ | ⟨unused, appended⟩
  · rw [same, Int.neg_neg]
    exact ⟨found, fun _ _ old => old⟩
  · rw [appended, Int.neg_neg]
    refine ⟨AList.lookup_insert _, fun other id old => ?_⟩
    have apart : other ≠ table.insertedName name := by
      rintro rfl
      exact unused (AList.lookup_isSome.mp (Option.isSome_of_eq_some old))
    rw [AList.lookup_insert_ne apart]
    exact old

theorem insert_anonymous (anonymous : Anonymous name) :
    (table.insert name).2 = -(table.idx + 1) := by
  rcases insert_cases table name with ⟨id, found, _⟩ | ⟨_, appended⟩
  · exact absurd (AList.lookup_isSome.mp (Option.isSome_of_eq_some found))
      (insertedName_anonymous anonymous)
  · rw [appended]

theorem Consistent.insertCalls (consistent : Consistent table) (calls : List String) :
    Consistent (table.insertCalls calls).1 := by
  induction calls generalizing table with
  | nil => exact consistent
  | cons name rest ih => exact ih (consistent.insert name)

theorem lookup_insertCalls_old (calls : List String) {id : Int}
    (old : table.name2idx_.lookup name = some id) :
    (table.insertCalls calls).1.name2idx_.lookup name = some id := by
  induction calls generalizing table with
  | nil => exact old
  | cons call rest ih => exact ih ((lookup_insert table call).2 name id old)

theorem lookup_insertCalls {calls : List String} {returned : String × Int}
    (member : returned ∈ (table.insertCalls calls).2) :
    (table.insertCalls calls).1.name2idx_.lookup returned.1 = some (-returned.2) := by
  induction calls generalizing table with
  | nil => cases member
  | cons call rest ih =>
    rcases List.mem_cons.mp member with rfl | later
    · exact lookup_insertCalls_old rest (lookup_insert table call).1
    · exact ih later

structure Works (calls : List String) : Prop where
  consistent : Consistent (empty.insertCalls calls).1
  fresh : ∀ before name after, calls = before ++ name :: after → Anonymous name →
    ((empty.insertCalls before).1.insert name).2 ∉ (empty.insertCalls before).2.map Prod.snd
  found : ∀ returned ∈ (empty.insertCalls calls).2,
    ∃ entry, (empty.insertCalls calls).1.lookup returned.2 = .ok entry ∧ entry.name_ = returned.1

theorem fresh_insert (before : List String) (anonymous : Anonymous name) :
    ((empty.insertCalls before).1.insert name).2 ∉ (empty.insertCalls before).2.map Prod.snd := by
  intro earlier
  obtain ⟨returned, member, same⟩ := List.mem_map.mp earlier
  rw [insert_anonymous anonymous] at same
  have bounds := (consistent_empty.insertCalls before).id_bounds (lookup_insertCalls member)
  omega

theorem lookup_negated {calls : List String} {returned : String × Int}
    (member : returned ∈ (empty.insertCalls calls).2) :
    ∃ entry, (empty.insertCalls calls).1.lookup (-returned.2) = .ok entry ∧
      entry.name_ = returned.1 := by
  have consistent := consistent_empty.insertCalls calls
  obtain ⟨entry, at_id, named⟩ := (consistent.paired _ _).mp (lookup_insertCalls member)
  refine ⟨entry, ?_, named⟩
  rw [lookup, at_id]

theorem lookup_returned {calls : List String} {returned : String × Int}
    (member : returned ∈ (empty.insertCalls calls).2) :
    (empty.insertCalls calls).1.lookup returned.2 = .error (.exception "out_of_range") := by
  have consistent := consistent_empty.insertCalls calls
  have bounds := consistent.id_bounds (lookup_insertCalls member)
  have none : (empty.insertCalls calls).1.idx2values_.lookup returned.2 = none := by
    apply AList.lookup_eq_none.mpr
    intro present
    have positive := (consistent.ids _).mp present
    omega
  rw [lookup, none]

/-- The table stays consistent and the ids fresh, but only the negated values can be looked up: the
    returned ones are found after no call at all. -/
theorem symbols_work_iff (calls : List String) :
    Consistent (empty.insertCalls calls).1 ∧
    (∀ before name after, calls = before ++ name :: after → Anonymous name →
      ((empty.insertCalls before).1.insert name).2 ∉ (empty.insertCalls before).2.map Prod.snd) ∧
    (∀ returned ∈ (empty.insertCalls calls).2,
      ∃ entry, (empty.insertCalls calls).1.lookup (-returned.2) = .ok entry ∧
        entry.name_ = returned.1) ∧
    (Works calls ↔ calls = []) := by
  have consistent := consistent_empty.insertCalls calls
  have fresh : ∀ before name after, calls = before ++ name :: after → Anonymous name →
      ((empty.insertCalls before).1.insert name).2 ∉
        (empty.insertCalls before).2.map Prod.snd :=
    fun before name _ _ anonymous => fresh_insert before anonymous
  refine ⟨consistent, fresh, fun returned member => lookup_negated member, ?_⟩
  constructor
  · intro works
    cases calls with
    | nil => rfl
    | cons name rest =>
      have first : (empty.insertedName name, (empty.insert name).2) ∈
          (empty.insertCalls (name :: rest)).2 := List.mem_cons_self
      obtain ⟨entry, found, _⟩ := works.found _ first
      rw [lookup_returned first] at found
      cases found
  · rintro rfl
    exact ⟨consistent, fresh, fun returned member => by cases member⟩

/-- One variable without a name is returned as -1, which has no entry. -/
theorem symbol_not_found : (empty.insertCalls ["?"]).2 = [("?", -1)] ∧
    (empty.insertCalls ["?"]).1.lookup (-1) = .error (.exception "out_of_range") ∧
    ¬ Works ["?"] := by
  refine ⟨by decide +kernel, by decide +kernel, fun works => ?_⟩
  obtain ⟨entry, found, _⟩ := works.found ("?", -1) (by decide +kernel)
  have missing : (empty.insertCalls ["?"]).1.lookup (-1) = .error (.exception "out_of_range") := by
    decide +kernel
  rw [missing] at found
  cases found

end SymbolTable

end TileExp.Symbol
