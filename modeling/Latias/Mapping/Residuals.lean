import Latias.Mapping.RoundTrip

/-! What a token means as a full bound and as a residual one. -/

namespace TileExp.Mapping

open Machine Regex TileExp.Symbol

/-- What a token stands for without the macros: the variable of that name, or the `int` that it
    starts with. -/
def Denotes (table : SymbolTable) (token : String) (n : Int) : Prop :=
  if isVariable token then n = (table.insert token).2
  else leadingNumber token.toList = some n ∧ n < 2 ^ 31

instance (table : SymbolTable) (token : String) (n : Int) : Decidable (Denotes table token n) :=
  inferInstanceAs (Decidable (if isVariable token then n = (table.insert token).2
    else leadingNumber token.toList = some n ∧ n < 2 ^ 31))

/-- No macro of that name hides what a token stands for, or it has the same value. -/
def Unhidden (macros : Macros) (table : SymbolTable) (token : String) : Prop :=
  (macros token = none ∧ ∃ n, Denotes table token n) ∨
    ∃ value, macros token = some value ∧ ∀ n, value = .ok n ↔ Denotes table token n

def fullBound (dimension_name : String) (parsed : SymbolTable × LoopBounds) : Option Int :=
  (parsed.2.lookup dimension_name).map Prod.fst

def residualBound (dimension_name : String) (parsed : SymbolTable × LoopBounds) : Option Int :=
  (parsed.2.lookup dimension_name).map Prod.snd

section

variable {macros : Macros} {table : SymbolTable} {token : Word isToken}

theorem leadingNumber_nonneg {n : Int} (number : leadingNumber token.text = some n) : 0 ≤ n := by
  rw [leadingNumber_token] at number
  split at number
  · cases number
  · cases number
    exact Int.natCast_nonneg _

theorem stoi_eq_ok {n : Int} :
    stoi (String.ofList token.text) = .ok n ↔ leadingNumber token.text = some n ∧ n < 2 ^ 31 := by
  rw [stoi, String.toList_ofList]
  cases number : leadingNumber token.text with
  | none => simp
  | some m =>
    have nonneg := leadingNumber_nonneg number
    by_cases fits : InInt m
    · simp only [if_pos fits, Except.ok.injEq, Option.some.injEq]
      unfold InInt at fits
      constructor
      · rintro rfl
        exact ⟨rfl, fits.2⟩
      · exact fun same => same.1
    · simp only [if_neg fits, reduceCtorEq, Option.some.injEq, false_iff, not_and]
      rintro rfl below
      exact fits ⟨by omega, below⟩

theorem resolveResidual_eq_ok {n : Int} :
    (resolveResidual table (String.ofList token.text)).map Prod.snd = .ok n ↔
      Denotes table (String.ofList token.text) n := by
  rw [resolveResidual, Denotes]
  by_cases variable_ : isVariable (String.ofList token.text) = true
  · rw [if_pos variable_, if_pos variable_, Except.map, Except.ok.injEq]
    exact eq_comm
  · rw [if_neg variable_, if_neg variable_, String.toList_ofList, ← stoi_eq_ok]
    cases stoi (String.ofList token.text) <;> simp [Except.map]

theorem resolveEnd_of_denotes (unnamed : macros (String.ofList token.text) = none) {n : Int}
    (denotes : Denotes table (String.ofList token.text) n) :
    (resolveEnd macros table (String.ofList token.text)).map Prod.snd = .ok n := by
  rw [Denotes] at denotes
  rw [resolveEnd, unnamed]
  by_cases variable_ : isVariable (String.ofList token.text) = true
  · rw [if_pos variable_] at denotes
    simp only [if_pos variable_, Except.map, denotes]
  · rw [if_neg variable_, String.toList_ofList] at denotes
    have nonneg := leadingNumber_nonneg denotes.1
    have fits : InInt n := ⟨by omega, denotes.2⟩
    have value : toInt32 (strtol (String.ofList token.text)) = n := by
      rw [strtol, String.toList_ofList, denotes.1, Option.getD_some, clampInt64_of_inInt fits]
      exact (toInt32_eq_iff n).mpr fits
    simp only [if_neg variable_, Except.map, value]

theorem resolveEnd_total (unnamed : macros (String.ofList token.text) = none) :
    ∃ n, (resolveEnd macros table (String.ofList token.text)).map Prod.snd = .ok n := by
  rw [resolveEnd, unnamed]
  by_cases variable_ : isVariable (String.ofList token.text) = true
  · simp only [if_pos variable_, Except.map]
    exact ⟨_, rfl⟩
  · simp only [if_neg variable_, Except.map]
    exact ⟨_, rfl⟩

theorem resolve_alike_iff :
    ((resolveResidual table (String.ofList token.text)).map Prod.snd).toOption =
        ((resolveEnd macros table (String.ofList token.text)).map Prod.snd).toOption ↔
      Unhidden macros table (String.ofList token.text) := by
  have alike {a b : Exec Int} : a.toOption = b.toOption ↔ ∀ n, b = .ok n ↔ a = .ok n := by
    rw [Option.ext_iff]
    simp only [← Option.mem_def, Checked.mem_toOption]
    exact forall_congr' fun n => Iff.comm
  rw [alike, Unhidden]
  simp only [resolveResidual_eq_ok]
  cases named : macros (String.ofList token.text) with
  | none =>
    obtain ⟨m, value⟩ := @resolveEnd_total macros table token named
    simp only [true_and, reduceCtorEq, false_and, exists_false, or_false]
    constructor
    · exact fun same => ⟨m, (same m).mp value⟩
    · rintro ⟨n, denotes⟩ k
      constructor
      · intro other
        have same := (resolveEnd_of_denotes named denotes).symm.trans other
        cases same
        exact denotes
      · exact resolveEnd_of_denotes named
  | some value =>
    have full : (resolveEnd macros table (String.ofList token.text)).map Prod.snd = value := by
      rw [resolveEnd, named]
      cases value <;> rfl
    simp only [full, reduceCtorEq, false_and, false_or, Option.some.injEq, exists_eq_left']

end

/-- A token that can be a full bound is the same as a residual bound just when no macro of its name
    hides the variable or the number that it stands for. -/
theorem residual_alike_iff (re : Search factorPattern) (macros : Macros)
    (table table' : SymbolTable) (dimension_name : Word Char.isAlpha) (full token : Word isToken)
    (end_ : Int)
    (resolved : resolveEnd macros table (String.ofList full.text) = .ok (table', end_)) :
    ((ParseFactors re macros table (String.ofList
        (dimension_name.text ++ '=' :: (full.text ++ ',' :: token.text)))).map
          (residualBound (String.ofList dimension_name.text))).toOption =
        ((ParseFactors re macros table' (String.ofList
          (dimension_name.text ++ '=' :: token.text))).map
            (fullBound (String.ofList dimension_name.text))).toOption ↔
      Unhidden macros table' (String.ofList token.text) := by
  have both : (ParseFactors re macros table (String.ofList
      (dimension_name.text ++ '=' :: (full.text ++ ',' :: token.text)))).map
        (residualBound (String.ofList dimension_name.text)) =
      ((resolveResidual table' (String.ofList token.text)).map Prod.snd).map some := by
    have read := ParseFactors_single re macros table ⟨dimension_name, full, some token⟩
    have round := @addFactor_residual macros (table, ∅) (String.ofList dimension_name.text)
      (String.ofList full.text) (String.ofList token.text) (ofList_word_ne_empty token)
    have text : (⟨dimension_name, full, some token⟩ : Factor).written plain =
        dimension_name.text ++ '=' :: (full.text ++ ',' :: token.text) := rfl
    rw [← text, read, Factor.add, Factor.residual, round, resolved, Except.bind]
    dsimp only
    cases resolveResidual table' (String.ofList token.text) with
    | error fault => rfl
    | ok residual =>
      simp only [Except.map, residualBound, AList.lookup_insert]
      rfl
  have alone : (ParseFactors re macros table'
      (String.ofList (dimension_name.text ++ '=' :: token.text))).map
        (fullBound (String.ofList dimension_name.text)) =
      ((resolveEnd macros table' (String.ofList token.text)).map Prod.snd).map some := by
    have read := ParseFactors_single re macros table' ⟨dimension_name, token, none⟩
    have text : (⟨dimension_name, token, none⟩ : Factor).written plain =
        dimension_name.text ++ '=' :: token.text := by
      simp [Factor.written, Factor.text, Factor.residualText, plain, spaces]
    rw [← text, read, Factor.add, Factor.residual, addFactor_full]
    cases resolveEnd macros table' (String.ofList token.text) with
    | error fault => rfl
    | ok resolved =>
      simp only [Except.map, fullBound, AList.lookup_insert]
      rfl
  have value {a b : Exec Int} :
      (a.map some).toOption = (b.map some).toOption ↔ a.toOption = b.toOption := by
    cases a <;> cases b <;> simp [Except.map, Except.toOption]
  rw [← resolve_alike_iff, both, alone, value]

theorem residual_alike_tile :
    ((ParseFactors (Search.greedy factorPattern) (fun _ => none) .empty "M=X,16").map
        (residualBound "M")).toOption =
      ((ParseFactors (Search.greedy factorPattern) (fun _ => none) (SymbolTable.empty.insert "X").1
        "M=16").map (fullBound "M")).toOption :=
  (residual_alike_iff (Search.greedy factorPattern) (fun _ => none) .empty
    (SymbolTable.empty.insert "X").1 (.ofAll ['M'] (by decide) (by decide))
    (.ofAll ['X'] (by decide) (by decide)) (.ofAll ['1', '6'] (by decide) (by decide)) (-1) rfl).mpr
    (Or.inl ⟨rfl, 16, by decide⟩)

theorem residual_macro :
    ((ParseFactors (Search.greedy factorPattern) (fun name => if name = "TM" then some (.ok 16) else none)
        .empty "M=32,TM").map (residualBound "M")).toOption = none ∧
      ((ParseFactors (Search.greedy factorPattern)
        (fun name => if name = "TM" then some (.ok 16) else none) .empty "M=TM").map
          (fullBound "M")).toOption = some (some 16) :=
  ⟨by decide +kernel, by decide +kernel⟩

end TileExp.Mapping
