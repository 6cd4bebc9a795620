import Latias.Mapping.Factors

/-! Lists of factors as they are written, and what `ParseFactors` reads back. -/

namespace TileExp.Mapping

open Machine Regex TileExp.Symbol

structure Factor where
  dimension_name : Word Char.isAlpha
  end_token : Word isToken
  residual_token : Option (Word isToken)
  deriving DecidableEq

abbrev Blanks := { blanks : List Char // ∀ c ∈ blanks, isSpace c = true }

def spaces (n : Nat) : Blanks := ⟨List.replicate n ' ', by
  intro c member
  rw [List.eq_of_mem_replicate member]
  rfl⟩

/-- The blanks written with a factor: around its `=`, after the comma of its residual, and after the
    comma behind it. -/
structure Spacing where
  left : Blanks
  right : Blanks
  inner : Blanks
  after : Blanks

namespace Factor

def residualText (f : Factor) (inner : List Char) : List Char :=
  match f.residual_token with
  | none => []
  | some token => ',' :: (inner ++ token.text)

def text (f : Factor) (gap inner : List Char) : List Char :=
  f.dimension_name.text ++ (gap ++ (f.end_token.text ++ f.residualText inner))

def captures (f : Factor) : Captures :=
  (1, f.dimension_name.text) :: (2, f.end_token.text) ::
    match f.residual_token with
    | none => []
    | some token => [(3, ',' :: token.text), (4, token.text)]

def residual (f : Factor) : String :=
  match f.residual_token with
  | none => ""
  | some token => String.ofList token.text

end Factor

def isGap (c : Char) : Bool := isSpace c || c = '='

theorem space_apart {c : Char} (space : isSpace c = true) :
    c.isAlpha = false ∧ isToken c = false ∧ c ≠ '=' ∧ c ≠ ',' ∧ c ≠ '#' := by
  have cases := of_decide_eq_true space
  simp only [List.mem_cons, List.not_mem_nil, or_false] at cases
  rcases cases with rfl | rfl | rfl | rfl | rfl | rfl <;> decide

theorem gap_apart {c : Char} (gap : isGap c = true) :
    c.isAlpha = false ∧ isToken c = false ∧ c ≠ ',' ∧ c ≠ '#' := by
  rcases Bool.or_eq_true_iff.mp gap with space | equals
  · have apart := space_apart space
    exact ⟨apart.1, apart.2.1, apart.2.2.2⟩
  · obtain rfl := of_decide_eq_true equals
    decide

theorem not_isGap_of_isToken {c : Char} (token : isToken c = true) : isGap c = false := by
  by_contra gap
  have apart := gap_apart (eq_true_of_ne_false gap)
  rw [token] at apart
  cases apart.2.1

theorem matches_factor {text : List Char} {captures : Captures}
    (matched : Matches factorPattern text captures) : ∃ (f : Factor) (gap : List Char),
      (∀ c ∈ gap, isGap c = true) ∧ text = f.text gap [] ∧ captures = f.captures := by
  obtain ⟨name, _, _, _, rfl, rfl, ⟨_, rfl, named, letters, rfl⟩, more⟩ := matched
  obtain ⟨left, _, _, _, rfl, rfl, ⟨spaces, rfl⟩, more⟩ := more
  obtain ⟨equals, _, _, _, rfl, rfl, ⟨signs, rfl⟩, more⟩ := more
  obtain ⟨right, _, _, _, rfl, rfl, ⟨spaces', rfl⟩, more⟩ := more
  obtain ⟨bound, _, _, _, rfl, rfl, ⟨_, rfl, bounded, chars, rfl⟩, last⟩ := more
  have gap : ∀ c ∈ left ++ (equals ++ right), isGap c = true := by
    intro c member
    rw [isGap, Bool.or_eq_true_iff]
    rcases List.mem_append.mp member with early | member
    · exact Or.inl (spaces c early)
    · rcases List.mem_append.mp member with middle | late
      · exact Or.inr (signs c middle)
      · exact Or.inl (spaces' c late)
  rcases last with ⟨rfl, rfl⟩ | ⟨_, rfl, _, _, _, _, rfl, rfl, ⟨_, rfl, comma, rfl⟩, _, rfl, token⟩
  · exact ⟨⟨⟨name, named, letters⟩, ⟨bound, bounded, chars⟩, none⟩, _, gap,
      by simp [Factor.text, Factor.residualText], rfl⟩
  · obtain ⟨given, chars', rfl⟩ := token
    obtain rfl := of_decide_eq_true comma
    exact ⟨⟨⟨name, named, letters⟩, ⟨bound, bounded, chars⟩, some ⟨_, given, chars'⟩⟩, _, gap,
      by simp [Factor.text, Factor.residualText], rfl⟩

theorem factor_matches (f : Factor) (left right : Blanks) :
    Matches factorPattern (f.text (left.1 ++ '=' :: right.1) []) f.captures := by
  obtain ⟨⟨name, named, letters⟩, ⟨bound, bounded, chars⟩, residual⟩ := f
  have sign : ∀ c ∈ ['='], (fun c => decide (c = '=')) c = true := by simp
  have last : Matches (.opt (.group 3 (.seq (.one (· = ',')) (.group 4 (.plus isToken)))))
      (Factor.residualText ⟨⟨name, named, letters⟩, ⟨bound, bounded, chars⟩, residual⟩ [])
      (match residual with
        | none => []
        | some token => [(3, ',' :: token.text), (4, token.text)]) := by
    cases residual with
    | none => exact Or.inl ⟨rfl, rfl⟩
    | some token =>
      refine Or.inr ⟨_, rfl, [','], _, [], _, rfl, rfl, ⟨',', rfl, by decide, rfl⟩, ?_⟩
      exact ⟨[], rfl, token.some, token.all, rfl⟩
  refine ⟨name, _, _, _, rfl, rfl, ⟨[], rfl, named, letters, rfl⟩, ?_⟩
  refine ⟨left.1, _, [], _, ?_, rfl, ⟨left.2, rfl⟩, ['='], _, [], _, rfl, rfl, ⟨sign, rfl⟩,
    right.1, _, [], _, rfl, rfl, ⟨right.2, rfl⟩, bound, _, _, _, rfl, rfl,
    ⟨[], rfl, bounded, chars, rfl⟩, last⟩
  simp

section AtFactor

variable {f g : Factor} {rest suffix : List Char}

theorem residual_none_of_stops {str : List Char} (stops : Stops (· = ',') str)
    (same : g.residualText [] ++ suffix = str) : g.residual_token = none := by
  cases residual : g.residual_token with
  | none => rfl
  | some token =>
    rw [Factor.residualText, residual] at same
    have comma := stops ',' (by rw [← same]; rfl)
    cases comma

structure Follows (f : Factor) (rest : List Char) : Prop where
  stops : Stops isToken rest
  unmarked : f.residual_token = none → ∀ more, rest = ',' :: more → Stops isToken more

theorem residual_at (follows : Follows f rest)
    (same : g.residualText [] ++ suffix = f.residualText [] ++ rest) :
    (g.residualText []).length < (f.residualText []).length ∨
      g.residual_token = f.residual_token := by
  cases has : f.residual_token with
  | none =>
    cases residual : g.residual_token with
    | none => exact Or.inr rfl
    | some token =>
      rw [Factor.residualText, residual, Factor.residualText, has] at same
      have stops := follows.unmarked has _ same.symm
      obtain ⟨text, given, all⟩ := token
      cases text with
      | nil => exact absurd rfl given
      | cons c text =>
        have inside := all c List.mem_cons_self
        have outside := stops c rfl
        rw [inside] at outside
        cases outside
  | some bound =>
    cases residual : g.residual_token with
    | none =>
      rw [Factor.residualText, residual, Factor.residualText, has]
      exact Or.inl (Nat.succ_pos _)
    | some token =>
      rw [Factor.residualText, residual, Factor.residualText, has] at same ⊢
      obtain ⟨more, longer, _⟩ := run_within token.all follows.stops (List.cons.inj same).2
      cases more with
      | nil =>
        exact Or.inr (congrArg some (Word.ext (by simpa using longer.symm)))
      | cons c more =>
        left
        simp only [longer, List.nil_append, List.length_cons, List.length_append]
        omega

theorem stops_residual (follows : Follows f rest) : Stops isToken (f.residualText [] ++ rest) := by
  rw [Factor.residualText]
  cases f.residual_token with
  | none => exact follows.stops
  | some token => exact stops_cons (by decide)

theorem bound_at (follows : Follows f rest)
    (same : g.end_token.text ++ (g.residualText [] ++ suffix) =
      f.end_token.text ++ (f.residualText [] ++ rest)) :
    (g.end_token.text ++ g.residualText []).length < (f.end_token.text ++ f.residualText []).length ∨
      g.end_token = f.end_token ∧ g.residual_token = f.residual_token := by
  obtain ⟨more, longer, tail⟩ := run_within g.end_token.all (stops_residual follows) same
  cases more with
  | nil =>
    have ends : g.end_token = f.end_token := Word.ext (by rw [longer, List.append_nil])
    rcases residual_at follows tail with shorter | residual
    · left
      rw [ends, List.length_append, List.length_append]
      omega
    · exact Or.inr ⟨ends, residual⟩
  | cons c more =>
    left
    have char : isToken c = true := f.end_token.all c (by rw [longer]; simp)
    have none : g.residual_token = none := by
      apply residual_none_of_stops _ tail
      apply stops_cons
      by_contra comma
      obtain rfl := of_decide_eq_true (eq_true_of_ne_false comma)
      cases char
    rw [Factor.residualText, none, longer]
    simp only [List.length_append, List.length_cons, List.length_nil]
    omega

end AtFactor

theorem match_at_factor {f : Factor} {gap rest text suffix : List Char} {captures : Captures}
    (gaps : ∀ c ∈ gap, isGap c = true) (wide : gap ≠ []) (follows : Follows f rest)
    (matched : Matches factorPattern text captures)
    (same : text ++ suffix = f.text gap [] ++ rest) :
    text.length < (f.text gap []).length ∨ text = f.text gap [] ∧ captures = f.captures := by
  obtain ⟨g, gap', gaps', rfl, rfl⟩ := matches_factor matched
  simp only [Factor.text, List.append_assoc] at same
  have stops {p : Char → Bool} (apart : ∀ c, isGap c = true → p c = false) (str : List Char) :
      Stops p (gap ++ str) := by
    cases gap with
    | nil => exact absurd rfl wide
    | cons c gap => exact stops_cons (apart c (gaps c List.mem_cons_self))
  obtain ⟨more, longer, tail⟩ :=
    run_within g.dimension_name.all (stops (fun _ gap => (gap_apart gap).1) _) same
  cases more with
  | nil =>
    have names : g.dimension_name = f.dimension_name := Word.ext (by rw [longer, List.append_nil])
    obtain ⟨rfl, bounds⟩ := run_unique gaps' (stops_word (fun _ => not_isGap_of_isToken) g.end_token)
      gaps (stops_word (fun _ => not_isGap_of_isToken) f.end_token) tail
    rcases bound_at follows bounds with shorter | ⟨ends, residuals⟩
    · left
      rw [Factor.text, Factor.text, names]
      simp only [List.length_append] at shorter ⊢
      omega
    · right
      have same : g = f := by
        cases g
        cases f
        simp_all
      exact ⟨by rw [same], by rw [same]⟩
  | cons c more =>
    -- The name of the match ends inside the name of the factor.
    have letter : ∀ d ∈ c :: more, d.isAlpha = true := fun d member =>
      f.dimension_name.all d (by rw [longer]; exact List.mem_append_right _ member)
    have none : gap' = [] := by
      cases gap' with
      | nil => rfl
      | cons d gap' =>
        obtain ⟨rfl, _⟩ := List.cons.inj tail
        have apart := (gap_apart (gaps' d List.mem_cons_self)).1
        rw [letter d List.mem_cons_self] at apart
        cases apart
    rw [none, List.nil_append] at tail
    obtain ⟨beyond, bound, tail'⟩ :=
      run_within g.end_token.all (stops (fun _ gap => (gap_apart gap).2.1) _) tail
    have unmarked : g.residual_token = Option.none := by
      apply residual_none_of_stops _ tail'
      apply stops_of_apart (q := Char.isAlpha)
      · intro d alpha
        by_contra comma
        obtain rfl := of_decide_eq_true (eq_true_of_ne_false comma)
        cases alpha
      · exact fun d member => letter d (by rw [bound]; exact List.mem_append_right _ member)
      · exact stops (fun d gap => decide_eq_false (gap_apart gap).2.2.1) _
    left
    have lengths := congrArg List.length bound
    have width := List.length_pos_of_ne_nil wide
    rw [Factor.text, Factor.text, none, Factor.residualText, unmarked, longer]
    simp only [List.length_append, List.length_cons, List.length_nil] at lengths ⊢
    omega

theorem match_start {text : List Char} {captures : Captures}
    (matched : Matches factorPattern text captures) :
    ∃ c rest, text = c :: rest ∧ c.isAlpha = true := by
  obtain ⟨f, gap, _, rfl, _⟩ := matches_factor matched
  obtain ⟨⟨name, named, letters⟩, bound, residual⟩ := f
  cases name with
  | nil => exact absurd rfl named
  | cons c name => exact ⟨c, _, rfl, letters c List.mem_cons_self⟩

theorem factorPattern_consuming : Search.Consuming factorPattern := by
  intro text captures matched empty
  obtain ⟨c, rest, start, _⟩ := match_start matched
  rw [empty] at start
  cases start

theorem search_factor (re : Search factorPattern) {f : Factor} {junk rest : List Char}
    (clear : ∀ c ∈ junk, c.isAlpha = false) (left right : Blanks) (follows : Follows f rest) :
    re.search (junk ++ (f.text (left.1 ++ '=' :: right.1) [] ++ rest)) =
      some ⟨junk, f.text (left.1 ++ '=' :: right.1) [], f.captures, rest⟩ := by
  have gaps : ∀ c ∈ left.1 ++ '=' :: right.1, isGap c = true := by
    intro c member
    rw [isGap, Bool.or_eq_true_iff]
    rcases List.mem_append.mp member with early | late
    · exact Or.inl (left.2 c early)
    · rcases List.mem_cons.mp late with rfl | later
      · exact Or.inr rfl
      · exact Or.inl (right.2 c later)
  have wide : left.1 ++ '=' :: right.1 ≠ [] := by simp
  have matched := factor_matches f left right
  apply re.search_eq_some
  · refine ⟨rfl, matched, ?_, ?_⟩
    · exact fun _ _ _ _ split other => leftmost_of_start clear (match_start other) split
    · intro text captures suffix same other
      rcases match_at_factor gaps wide follows other same with shorter | ⟨whole, _⟩
      · exact Nat.le_of_lt shorter
      · exact Nat.le_of_eq (congrArg List.length whole)
  · intro captures other
    rcases match_at_factor gaps wide follows other rfl with shorter | ⟨_, determined⟩
    · exact absurd shorter (Nat.lt_irrefl _)
    · exact determined

theorem search_clear (re : Search factorPattern) {junk : List Char}
    (clear : ∀ c ∈ junk, c.isAlpha = false) : re.search junk = none := by
  apply re.search_eq_none
  intro before text captures suffix split matched
  obtain ⟨c, rest, rfl, letter⟩ := match_start matched
  have apart := clear c (by rw [split]; simp)
  rw [letter] at apart
  cases apart

/-! Lists of factors. -/

def Factor.written (f : Factor) (spacing : Spacing) : List Char :=
  f.text (spacing.left.1 ++ '=' :: spacing.right.1) spacing.inner.1

def written : List (Factor × Spacing) → List Char
  | [] => []
  | [(f, spacing)] => f.written spacing
  | (f, spacing) :: e :: rest =>
    f.written spacing ++ ',' :: (spacing.after.1 ++ written (e :: rest))

/-- The comma of a residual is followed by the residual, and no other comma could be one. -/
structure Spacing.Clear (f : Factor) (spacing : Spacing) : Prop where
  inner : f.residual_token ≠ none → spacing.inner.1 = []
  after : f.residual_token = none → spacing.after.1 ≠ []

instance (f : Factor) (spacing : Spacing) : Decidable (spacing.Clear f) :=
  decidable_of_iff ((f.residual_token ≠ none → spacing.inner.1 = []) ∧
      (f.residual_token = none → spacing.after.1 ≠ []))
    ⟨fun both => ⟨both.1, both.2⟩, fun clear => ⟨clear.inner, clear.after⟩⟩

theorem Spacing.Clear.written_eq {f : Factor} {spacing : Spacing} (clear : spacing.Clear f) :
    f.written spacing = f.text (spacing.left.1 ++ '=' :: spacing.right.1) [] := by
  rw [Factor.written, Factor.text, Factor.text, Factor.residualText, Factor.residualText]
  cases residual : f.residual_token with
  | none => rfl
  | some token => rw [clear.inner (by rw [residual]; simp)]

theorem follows_blanks (f : Factor) (tail : Blanks) : Follows f tail.1 := by
  obtain ⟨tail, blank⟩ := tail
  cases tail with
  | nil => exact ⟨stops_nil, fun _ _ same => nomatch same⟩
  | cons c tail =>
    have apart := space_apart (blank c List.mem_cons_self)
    refine ⟨stops_cons apart.2.1, fun _ more same => ?_⟩
    exact absurd (List.cons.inj same).1 apart.2.2.2.1

theorem Spacing.Clear.follows {f : Factor} {spacing : Spacing} (clear : spacing.Clear f)
    (more : List Char) : Follows f (',' :: (spacing.after.1 ++ more)) := by
  refine ⟨stops_cons (by decide), fun unmarked rest same => ?_⟩
  obtain rfl := (List.cons.inj same).2
  have some := clear.after unmarked
  obtain ⟨_, _, _, ⟨after, blank⟩⟩ := spacing
  cases after with
  | nil => exact absurd rfl some
  | cons c after => exact stops_cons (space_apart (blank c List.mem_cons_self)).2.1

/-- The search goes from one factor of a list to the next. -/
theorem searchAll_written (re : Search factorPattern) {list : List (Factor × Spacing)}
    (clear : ∀ e ∈ list, e.2.Clear e.1) (tail : Blanks) {junk : List Char}
    (junk_clear : ∀ c ∈ junk, c.isAlpha = false) :
    (re.searchAll (junk ++ (written list ++ tail.1))).map Found.captures =
      list.map fun e => e.1.captures := by
  have blank : ∀ c ∈ tail.1, c.isAlpha = false := fun c member => (space_apart (tail.2 c member)).1
  induction list generalizing junk with
  | nil =>
    rw [re.searchAll_of_none]
    · rfl
    · apply search_clear
      intro c member
      rcases List.mem_append.mp member with early | late
      · exact junk_clear c early
      · exact blank c late
  | cons e list ih =>
    obtain ⟨f, spacing⟩ := e
    obtain ⟨here, later⟩ := List.forall_mem_cons.mp clear
    cases list with
    | nil =>
      have found := search_factor re junk_clear spacing.left spacing.right (follows_blanks f tail)
      rw [written, here.written_eq, re.searchAll_of_some factorPattern_consuming found]
      have rest : re.searchAll tail.1 = [] := re.searchAll_of_none (search_clear re blank)
      simp only [rest]
      rfl
    | cons e' list =>
      have found := search_factor re junk_clear spacing.left spacing.right
        (here.follows (written (e' :: list) ++ tail.1))
      have next := @ih later (',' :: spacing.after.1) (by
        intro c member
        rcases List.mem_cons.mp member with rfl | inside
        · decide
        · exact (space_apart (spacing.after.2 c inside)).1)
      rw [written, here.written_eq]
      simp only [List.append_assoc, List.cons_append] at found next ⊢
      rw [re.searchAll_of_some factorPattern_consuming found, List.map_cons, next]
      rfl

def commentText : Option (List Char) → List Char
  | none => []
  | some comment => '#' :: comment

theorem uncommented_eq {str : List Char} (free : ∀ c ∈ str, c ≠ '#') (comment : Option (List Char)) :
    uncommented (String.ofList (str ++ commentText comment)) = str := by
  have all : ∀ c ∈ str, decide (c ≠ '#') = true := fun c member => decide_eq_true (free c member)
  rw [uncommented, String.toList_ofList, List.takeWhile_append_of_pos all]
  cases comment with
  | none => exact List.append_nil str
  | some comment => exact List.append_nil str

theorem Factor.written_free (f : Factor) (spacing : Spacing) : ∀ c ∈ f.written spacing, c ≠ '#' := by
  have token {word : Word isToken} : ∀ c ∈ word.text, c ≠ '#' := by
    rintro c member rfl
    exact absurd (word.all '#' member) (by decide)
  have blank (blanks : Blanks) : ∀ c ∈ blanks.1, c ≠ '#' := fun c member =>
    (space_apart (blanks.2 c member)).2.2.2.2
  have residual : ∀ c ∈ f.residualText spacing.inner.1, c ≠ '#' := by
    rw [Factor.residualText]
    cases f.residual_token with
    | none => simp
    | some word =>
      intro c member
      rcases List.mem_cons.mp member with rfl | member
      · decide
      · rcases List.mem_append.mp member with early | late
        · exact blank spacing.inner c early
        · exact token c late
  intro c member
  rw [Factor.written, Factor.text] at member
  simp only [List.mem_append, List.mem_cons] at member
  rcases member with name | (left | rfl | right) | bound | rest
  · rintro rfl
    exact absurd (f.dimension_name.all '#' name) (by decide)
  · exact blank spacing.left c left
  · decide
  · exact blank spacing.right c right
  · exact token c bound
  · exact residual c rest

theorem written_free (list : List (Factor × Spacing)) : ∀ c ∈ written list, c ≠ '#' := by
  induction list with
  | nil => simp [written]
  | cons e list ih =>
    obtain ⟨f, spacing⟩ := e
    cases list with
    | nil => exact f.written_free spacing
    | cons e' list =>
      intro c member
      rw [written, List.mem_append, List.mem_cons, List.mem_append] at member
      rcases member with here | rfl | blank | later
      · exact f.written_free spacing c here
      · decide
      · exact (space_apart (spacing.after.2 c blank)).2.2.2.2
      · exact ih c later

def Factor.add (macros : Macros) (s : SymbolTable × LoopBounds) (f : Factor) :
    Exec (SymbolTable × LoopBounds) :=
  addFactor macros s (String.ofList f.dimension_name.text) (String.ofList f.end_token.text) f.residual

/-- `ParseFactors` takes the factors of a list one after another, whatever the blanks and the
    comment. -/
theorem ParseFactors_written (re : Search factorPattern) (macros : Macros) (table : SymbolTable)
    {list : List (Factor × Spacing)} (clear : ∀ e ∈ list, e.2.Clear e.1) (tail : Blanks)
    (comment : Option (List Char)) :
    ParseFactors re macros table (String.ofList (written list ++ tail.1 ++ commentText comment)) =
      (list.map Prod.fst).foldlM (Factor.add macros) (table, ∅) := by
  have free : ∀ c ∈ written list ++ tail.1, c ≠ '#' := by
    intro c member
    rcases List.mem_append.mp member with inside | blank
    · exact written_free list c inside
    · exact (space_apart (tail.2 c blank)).2.2.2.2
  have found := @searchAll_written re list clear tail [] (by simp)
  let round := fun (s : SymbolTable × LoopBounds) (groups : Captures) =>
    addFactor macros s (String.ofList (capture groups 1)) (String.ofList (capture groups 2))
      (String.ofList (capture groups 4))
  have add (s : SymbolTable × LoopBounds) (f : Factor) : round s f.captures = f.add macros s := by
    obtain ⟨name, bound, residual⟩ := f
    cases residual <;> rfl
  have loop : ParseFactors re macros table
      (String.ofList (written list ++ tail.1 ++ commentText comment)) =
      ((re.searchAll (written list ++ tail.1)).map Found.captures).foldlM round (table, ∅) := by
    rw [ParseFactors, uncommented_eq free, List.foldlM_map]
    rfl
  rw [List.nil_append] at found
  rw [loop, found, List.foldlM_map, List.foldlM_map]
  simp only [add]

end TileExp.Mapping
