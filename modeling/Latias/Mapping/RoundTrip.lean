import Latias.Mapping.FactorLists
import Mathlib.Data.List.TakeWhile

/-! `ParseFactors` on lists that were written from a map, and on lists spaced in two ways. -/

namespace TileExp.Mapping

open Machine Regex TileExp.Symbol

abbrev PositiveInt := { n : Nat // 0 < n ∧ n < 2 ^ 31 }

structure FactorEntry where
  name : Word Char.isAlpha
  end_ : PositiveInt
  residual_end : Option PositiveInt

namespace FactorEntry

variable (entry : FactorEntry)

def name_ : String := String.ofList entry.name.text

def text : String :=
  entry.name_ ++ "=" ++ toString entry.end_.1 ++
    match entry.residual_end with
    | none => ""
    | some residual_end => "," ++ toString residual_end.1

def bounds : Int × Int := (entry.end_.1, (entry.residual_end.getD entry.end_).1)

end FactorEntry

/-- The entries joined by a comma and a space, with blanks and a comment behind them. -/
def factorList (entries : List FactorEntry) (tail : Blanks) (comment : Option (List Char)) : String :=
  ", ".intercalate (entries.map FactorEntry.text) ++ String.ofList (tail.1 ++ commentText comment)

theorem isToken_of_isDigit {c : Char} (digit : c.isDigit = true) : isToken c = true := by
  rw [isToken, Char.isAlphanum, digit, Bool.or_true]
  rfl

def decimal (n : Nat) : Word isToken where
  text := Nat.toDigits 10 n
  some := Nat.toDigits_ne_nil
  all := fun _ member => isToken_of_isDigit (Nat.isDigit_of_mem_toDigits (by decide) (by decide) member)

theorem toString_eq_decimal (n : Nat) : toString n = String.ofList (decimal n).text := by
  rw [Nat.toString_eq_repr, ← String.ofList_toList (s := Nat.repr n), Nat.toList_repr]
  rfl

theorem leadingNumber_token (token : Word isToken) :
    leadingNumber token.text =
      if token.text.takeWhile Char.isDigit = [] then none
      else some (Nat.ofDigitChars 10 (token.text.takeWhile Char.isDigit) 0 : Int) := by
  obtain ⟨text, given, all⟩ := token
  cases text with
  | nil => exact absurd rfl given
  | cons c text =>
    have char := all c List.mem_cons_self
    have unspaced : isSpace c = false := by
      by_contra space
      have apart := (space_apart (eq_true_of_ne_false space)).2.1
      rw [char] at apart
      cases apart
    have minus : c ≠ '-' := by
      rintro rfl
      cases char
    have plus : c ≠ '+' := by
      rintro rfl
      cases char
    rw [leadingNumber, List.dropWhile_cons_of_neg (by rw [unspaced]; decide)]
    split
    · next same => exact absurd (List.cons.inj same).1 minus
    · next same => exact absurd (List.cons.inj same).1 plus
    · rfl

theorem leadingNumber_decimal (n : Nat) : leadingNumber (decimal n).text = some (n : Int) := by
  have digits : ∀ c ∈ (decimal n).text, c.isDigit = true := fun _ member =>
    Nat.isDigit_of_mem_toDigits (by decide) (by decide) member
  have whole : (decimal n).text.takeWhile Char.isDigit = (decimal n).text :=
    List.takeWhile_eq_self_iff.mpr digits
  rw [leadingNumber_token, whole, if_neg (decimal n).some]
  exact congrArg (fun m : Nat => some (m : Int)) Nat.ofDigitChars_ten_toDigits

theorem not_isVariable_decimal (n : Nat) : isVariable (String.ofList (decimal n).text) = false := by
  have digits : ∀ c ∈ (decimal n).text, c.isDigit = true := fun _ member =>
    Nat.isDigit_of_mem_toDigits (by decide) (by decide) member
  have unknown : '?' ∉ (decimal n).text := fun member => absurd (digits _ member) (by decide)
  have variable_ : 'X' ∉ (decimal n).text := fun member => absurd (digits _ member) (by decide)
  rw [isVariable, String.toList_ofList, decide_eq_false unknown, decide_eq_false variable_]
  rfl

def FactorEntry.factor (entry : FactorEntry) : Factor where
  dimension_name := entry.name
  end_token := decimal entry.end_.1
  residual_token := entry.residual_end.map fun residual_end => decimal residual_end.1

def plain : Spacing where
  left := spaces 0
  right := spaces 0
  inner := spaces 0
  after := spaces 1

theorem plain_clear (f : Factor) : plain.Clear f := ⟨fun _ => rfl, fun _ => by decide⟩

theorem ParseFactors_single (re : Search factorPattern) (macros : Macros) (table : SymbolTable)
    (f : Factor) :
    ParseFactors re macros table (String.ofList (f.written plain)) = f.add macros (table, ∅) := by
  have read := @ParseFactors_written re macros table [(f, plain)]
    (by simpa using plain_clear f) (spaces 0) none
  simp only [written, commentText, spaces, List.replicate_zero, List.append_nil] at read
  rw [read, List.map_cons, List.map_nil, List.foldlM_cons]
  simp only [List.foldlM_nil, bind_pure]

theorem FactorEntry.text_eq (entry : FactorEntry) :
    entry.text = String.ofList (entry.factor.written plain) := by
  apply String.toList_inj.mp
  rw [FactorEntry.text, FactorEntry.name_, Factor.written, Factor.text, Factor.residualText,
    FactorEntry.factor, toString_eq_decimal]
  cases entry.residual_end with
  | none => simp [plain, spaces]
  | some residual_end =>
    simp only [toString_eq_decimal]
    simp [plain, spaces]

theorem factorList_eq (entries : List FactorEntry) (tail : Blanks) (comment : Option (List Char)) :
    factorList entries tail comment =
      String.ofList (written (entries.map fun entry => (entry.factor, plain)) ++ tail.1 ++
        commentText comment) := by
  have joined : (", ".intercalate (entries.map FactorEntry.text)).toList =
      written (entries.map fun entry => (entry.factor, plain)) := by
    induction entries with
    | nil => simp [written]
    | cons entry entries ih =>
      cases entries with
      | nil => simp [written, FactorEntry.text_eq]
      | cons entry' entries =>
        rw [List.map_cons, List.map_cons, String.intercalate_cons_cons, String.toList_append,
          String.toList_append, ← List.map_cons, ih, FactorEntry.text_eq]
        simp [written, plain, spaces]
  apply String.toList_inj.mp
  rw [factorList, String.toList_append, joined, String.toList_ofList, String.toList_ofList,
    List.append_assoc]

theorem PositiveInt.inInt (n : PositiveInt) : InInt n.1 := by
  have below := n.2.2
  unfold InInt
  omega

theorem resolveEnd_decimal {macros : Macros} {table : SymbolTable} {n : PositiveInt}
    (unnamed : macros (toString n.1) = none) :
    resolveEnd macros table (String.ofList (decimal n.1).text) = .ok (table, (n.1 : Int)) := by
  have value : toInt32 (strtol (String.ofList (decimal n.1).text)) = n.1 := by
    rw [strtol, String.toList_ofList, leadingNumber_decimal, Option.getD_some,
      clampInt64_of_inInt n.inInt]
    exact (toInt32_eq_iff n.1).mpr n.inInt
  rw [toString_eq_decimal] at unnamed
  rw [resolveEnd, unnamed, not_isVariable_decimal, if_neg Bool.false_ne_true, value]

theorem resolveResidual_decimal {table : SymbolTable} (n : PositiveInt) :
    resolveResidual table (String.ofList (decimal n.1).text) = .ok (table, (n.1 : Int)) := by
  have value : stoi (String.ofList (decimal n.1).text) = .ok (n.1 : Int) := by
    rw [stoi, String.toList_ofList, leadingNumber_decimal]
    exact if_pos n.inInt
  rw [resolveResidual, not_isVariable_decimal, if_neg Bool.false_ne_true, value]
  rfl

theorem ofList_word_ne_empty {p : Char → Bool} (word : Word p) : String.ofList word.text ≠ "" := by
  intro empty
  have none := congrArg String.toList empty
  rw [String.toList_ofList] at none
  exact word.some none

theorem FactorEntry.add_eq {macros : Macros} {entry : FactorEntry} {s : SymbolTable × LoopBounds}
    (unnamed : macros (toString entry.end_.1) = none) :
    entry.factor.add macros s = .ok (s.1, s.2.insert entry.name_ entry.bounds) := by
  have full : resolveEnd macros s.1 (String.ofList entry.factor.end_token.text) =
      .ok (s.1, (entry.end_.1 : Int)) := resolveEnd_decimal unnamed
  cases residual : entry.residual_end with
  | none =>
    have token : entry.factor.residual = "" := by
      rw [Factor.residual, FactorEntry.factor, residual]
      rfl
    rw [Factor.add, token, addFactor_full, full, FactorEntry.bounds, residual]
    rfl
  | some residual_end =>
    have token : entry.factor.residual = String.ofList (decimal residual_end.1).text := by
      rw [Factor.residual, FactorEntry.factor, residual]
      rfl
    have given : entry.factor.residual ≠ "" := token ▸ ofList_word_ne_empty _
    rw [Factor.add, addFactor_residual given, full, Except.bind, token, resolveResidual_decimal,
      FactorEntry.bounds, residual]
    rfl

theorem foldlM_entries {macros : Macros} {entries : List FactorEntry}
    (unnamed : ∀ entry ∈ entries, macros (toString entry.end_.1) = none)
    (s : SymbolTable × LoopBounds) :
    (entries.map FactorEntry.factor).foldlM (Factor.add macros) s =
      .ok (s.1, Keys.insertAll FactorEntry.name_ FactorEntry.bounds entries s.2) := by
  induction entries generalizing s with
  | nil => rfl
  | cons entry entries ih =>
    obtain ⟨here, later⟩ := List.forall_mem_cons.mp unnamed
    rw [List.map_cons, List.foldlM_cons, FactorEntry.add_eq here]
    exact ih later _

/-- A list of entries with different names is read back as the map that it was written from. -/
theorem ParseFactors_factorList (re : Search factorPattern) (macros : Macros) (table : SymbolTable)
    (entries : List FactorEntry) (tail : Blanks) (comment : Option (List Char))
    (distinct : (entries.map FactorEntry.name_).Nodup)
    (unnamed : ∀ entry ∈ entries, macros (toString entry.end_.1) = none) :
    ∃ loop_bounds, ParseFactors re macros table (factorList entries tail comment) =
        .ok (table, loop_bounds) ∧
      (∀ entry ∈ entries, loop_bounds.lookup entry.name_ =
        some ((entry.end_.1 : Int), ((entry.residual_end.getD entry.end_).1 : Int))) ∧
      ∀ name ∈ loop_bounds, ∃ entry ∈ entries, entry.name_ = name := by
  refine ⟨Keys.insertAll FactorEntry.name_ FactorEntry.bounds entries ∅, ?_, ?_, ?_⟩
  · have clear : ∀ e ∈ entries.map fun entry => (entry.factor, plain), e.2.Clear e.1 := by
      intro e member
      obtain ⟨entry, _, rfl⟩ := List.mem_map.mp member
      exact plain_clear entry.factor
    rw [factorList_eq, ParseFactors_written re macros table clear, List.map_map]
    exact foldlM_entries unnamed (table, ∅)
  · exact fun entry member => Keys.lookup_insertAll distinct member
  · intro name member
    rcases Keys.mem_keys_insertAll.mp member with written | before
    · exact List.mem_map.mp written
    · exact absurd before (AList.notMem_empty name)

theorem ParseFactors_factorList_tile : ∃ loop_bounds,
    ParseFactors (Search.greedy factorPattern) (fun name => if name = "TM" then some (.ok 16) else none)
        .empty
        (factorList [⟨.ofAll ['M'] (by decide) (by decide), ⟨4, by decide⟩, none⟩,
          ⟨.ofAll ['N'] (by decide) (by decide), ⟨8, by decide⟩, some ⟨3, by decide⟩⟩] (spaces 1)
          (some ['t', 'i', 'l', 'e'])) = .ok (.empty, loop_bounds) ∧
      loop_bounds.lookup "M" = some (4, 4) ∧ loop_bounds.lookup "N" = some (8, 3) := by
  obtain ⟨loop_bounds, parsed, entries, _⟩ := ParseFactors_factorList (Search.greedy factorPattern)
    (fun name => if name = "TM" then some (.ok 16) else none) .empty
    [⟨.ofAll ['M'] (by decide) (by decide), ⟨4, by decide⟩, none⟩,
      ⟨.ofAll ['N'] (by decide) (by decide), ⟨8, by decide⟩, some ⟨3, by decide⟩⟩]
    (spaces 1) (some ['t', 'i', 'l', 'e']) (by decide) (by decide)
  exact ⟨loop_bounds, parsed, entries _ List.mem_cons_self,
    entries _ (List.mem_cons_of_mem _ List.mem_cons_self)⟩

/-- Blanks around the `=` of a factor and behind the comma after it change nothing, as long as the
    comma of a residual is followed by the residual and no other comma by a character of a token. -/
theorem ParseFactors_respaced (re : Search factorPattern) (macros : Macros) (table : SymbolTable)
    (list list' : List (Factor × Spacing)) (same : list.map Prod.fst = list'.map Prod.fst)
    (clear : ∀ e ∈ list, e.2.Clear e.1) (clear' : ∀ e ∈ list', e.2.Clear e.1) :
    ParseFactors re macros table (String.ofList (written list)) =
      ParseFactors re macros table (String.ofList (written list')) := by
  have parsed {list : List (Factor × Spacing)} (clear : ∀ e ∈ list, e.2.Clear e.1) :
      ParseFactors re macros table (String.ofList (written list)) =
        (list.map Prod.fst).foldlM (Factor.add macros) (table, ∅) := by
    have read := ParseFactors_written re macros table clear (spaces 0) none
    simpa only [commentText, spaces, List.replicate_zero, List.append_nil] using read
  rw [parsed clear, parsed clear', same]

theorem ParseFactors_respaced_tile :
    ParseFactors (Search.greedy factorPattern) (fun _ => none) .empty "M=4, N=8,3,K=X" =
      ParseFactors (Search.greedy factorPattern) (fun _ => none) .empty "M = 4,  N =8,3, K=X" :=
  ParseFactors_respaced (Search.greedy factorPattern) (fun _ => none) .empty
    [(⟨.ofAll ['M'] (by decide) (by decide), .ofAll ['4'] (by decide) (by decide), none⟩, plain),
      (⟨.ofAll ['N'] (by decide) (by decide), .ofAll ['8'] (by decide) (by decide),
        some (.ofAll ['3'] (by decide) (by decide))⟩, { plain with after := spaces 0 }),
      (⟨.ofAll ['K'] (by decide) (by decide), .ofAll ['X'] (by decide) (by decide), none⟩, plain)]
    [(⟨.ofAll ['M'] (by decide) (by decide), .ofAll ['4'] (by decide) (by decide), none⟩,
        { plain with left := spaces 1, right := spaces 1, after := spaces 2 }),
      (⟨.ofAll ['N'] (by decide) (by decide), .ofAll ['8'] (by decide) (by decide),
        some (.ofAll ['3'] (by decide) (by decide))⟩, { plain with left := spaces 1 }),
      (⟨.ofAll ['K'] (by decide) (by decide), .ofAll ['X'] (by decide) (by decide), none⟩, plain)]
    rfl (by decide) (by decide)

/-- Without the blank between two entries the next name is taken for a residual, and with a blank
    before it a residual is dropped. -/
theorem spacing_matters :
    ((ParseFactors (Search.greedy factorPattern) (fun _ => none) .empty "M=4, N=2").isOk = true ∧
      ParseFactors (Search.greedy factorPattern) (fun _ => none) .empty "M=4,N=2" =
        .error (.exception "invalid_argument")) ∧
    (ParseFactors (Search.greedy factorPattern) (fun _ => none) .empty "M=4,2").map
        (fun parsed => parsed.2.lookup "M") = .ok (some (4, 2)) ∧
      (ParseFactors (Search.greedy factorPattern) (fun _ => none) .empty "M=4, 2").map
        (fun parsed => parsed.2.lookup "M") = .ok (some (4, 4)) := by
  refine ⟨⟨?_, ?_⟩, ?_, ?_⟩
  · decide +kernel
  · rfl
  · rfl
  · rfl

end TileExp.Mapping
