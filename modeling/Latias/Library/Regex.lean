import Mathlib.Data.List.Basic

/-! Regular expressions over classes of characters, with numbered groups, and their leftmost-longest
    search. -/

namespace Regex

/-- Classes repeated any number of times or at least once, single characters, sequences, options and
    groups. -/
inductive Pattern where
  | one (p : Char → Bool)
  | star (p : Char → Bool)
  | plus (p : Char → Bool)
  | seq (first second : Pattern)
  | opt (body : Pattern)
  | group (n : Nat) (body : Pattern)

abbrev Captures := List (Nat × List Char)

/-- The text of a group, empty where the group took no part. -/
def capture (captures : Captures) (n : Nat) : List Char := (captures.lookup n).getD []

def Matches : Pattern → List Char → Captures → Prop
  | .one p, text, captures => ∃ c, text = [c] ∧ p c = true ∧ captures = []
  | .star p, text, captures => (∀ c ∈ text, p c = true) ∧ captures = []
  | .plus p, text, captures => text ≠ [] ∧ (∀ c ∈ text, p c = true) ∧ captures = []
  | .seq a b, text, captures => ∃ s t c d, text = s ++ t ∧ captures = c ++ d ∧
      Matches a s c ∧ Matches b t d
  | .opt a, text, captures => (text = [] ∧ captures = []) ∨ Matches a text captures
  | .group n a, text, captures => ∃ inner, captures = (n, text) :: inner ∧ Matches a text inner

/-- A match in a string: what is before it, its text, the texts of its groups, and what is behind
    it. -/
structure Found where
  before : List Char
  text : List Char
  captures : Captures
  suffix : List Char
  deriving DecidableEq

def Found.str (found : Found) (n : Nat) : String := String.ofList (capture found.captures n)

/-- No match starts before it, and none that starts there is longer. -/
structure LeftmostLongest (p : Pattern) (str : List Char) (found : Found) : Prop where
  split : str = found.before ++ (found.text ++ found.suffix)
  matched : Matches p found.text found.captures
  leftmost : ∀ before text captures suffix, str = before ++ (text ++ suffix) →
    Matches p text captures → found.before.length ≤ before.length
  longest : ∀ text captures suffix, text ++ suffix = found.text ++ found.suffix →
    Matches p text captures → text.length ≤ found.text.length

/-- A search for leftmost-longest matches. Which texts the groups get where several choices give the
    same match is left open. -/
structure Search (p : Pattern) where
  search : List Char → Option Found
  found : ∀ str m, search str = some m → LeftmostLongest p str m
  absent : ∀ str, search str = none → ∀ before text captures suffix,
    str = before ++ (text ++ suffix) → ¬ Matches p text captures

namespace Search

variable {p : Pattern} {str : List Char} {m : Found} {fuel : Nat}

theorem search_eq_some (s : Search p) (best : LeftmostLongest p str m)
    (determined : ∀ captures, Matches p m.text captures → captures = m.captures) :
    s.search str = some m := by
  cases result : s.search str with
  | none => exact absurd best.matched (s.absent str result _ _ _ _ best.split)
  | some n =>
    have other := s.found str n result
    have starts : n.before.length = m.before.length :=
      Nat.le_antisymm (other.leftmost _ _ _ _ best.split best.matched)
        (best.leftmost _ _ _ _ other.split other.matched)
    obtain ⟨before, tails⟩ := List.append_inj (other.split.symm.trans best.split) starts
    have lengths : n.text.length = m.text.length :=
      Nat.le_antisymm (best.longest _ _ _ tails other.matched)
        (other.longest _ _ _ tails.symm best.matched)
    obtain ⟨text, suffix⟩ := List.append_inj tails lengths
    have captures := determined n.captures (text ▸ other.matched)
    cases n
    cases m
    simp only at before text suffix captures
    rw [before, text, suffix, captures]

theorem search_eq_none (s : Search p) (nowhere : ∀ before text captures suffix,
    str = before ++ (text ++ suffix) → ¬ Matches p text captures) : s.search str = none := by
  cases result : s.search str with
  | none => rfl
  | some n =>
    have other := s.found str n result
    exact absurd other.matched (nowhere _ _ _ _ other.split)

def rounds (s : Search p) : Nat → List Char → List Found
  | 0, _ => []
  | fuel + 1, str =>
    match s.search str with
    | none => []
    | some m => m :: s.rounds fuel m.suffix

/-- All matches of `while (regex_search(str, sm, re)) str = sm.suffix()`. -/
def searchAll (s : Search p) (str : List Char) : List Found := s.rounds (str.length + 1) str

def Consuming (p : Pattern) : Prop := ∀ text captures, Matches p text captures → text ≠ []

theorem suffix_shorter (s : Search p) (consuming : Consuming p) (result : s.search str = some m) :
    m.suffix.length < str.length := by
  have best := s.found str m result
  have some := List.length_pos_of_ne_nil (consuming _ _ best.matched)
  rw [best.split, List.length_append, List.length_append]
  omega

theorem rounds_enough (s : Search p) (consuming : Consuming p) (enough : str.length < fuel) :
    s.rounds fuel str = s.searchAll str := by
  have all : ∀ fuel fuel' str, str.length < fuel → str.length < fuel' →
      s.rounds fuel str = s.rounds fuel' str := by
    intro fuel
    induction fuel with
    | zero => exact fun fuel' str bound _ => absurd bound (Nat.not_lt_zero _)
    | succ fuel ih =>
      intro fuel' str bound bound'
      cases fuel' with
      | zero => exact absurd bound' (Nat.not_lt_zero _)
      | succ fuel' =>
        rw [rounds, rounds]
        cases result : s.search str with
        | none => rfl
        | some m =>
          have shorter := s.suffix_shorter consuming result
          simp only
          rw [ih fuel' m.suffix (by omega) (by omega)]
  exact all fuel _ str enough (Nat.lt_succ_self _)

theorem searchAll_of_none (s : Search p) (result : s.search str = none) : s.searchAll str = [] := by
  rw [searchAll, rounds, result]

theorem searchAll_of_some (s : Search p) (consuming : Consuming p) (result : s.search str = some m) :
    s.searchAll str = m :: s.searchAll m.suffix := by
  rw [searchAll, rounds, result]
  simp only
  rw [s.rounds_enough consuming (s.suffix_shorter consuming result)]

end Search

/-! Maximal runs of a class. -/

@[ext]
structure Word (p : Char → Bool) where
  text : List Char
  some : text ≠ []
  all : ∀ c ∈ text, p c = true
  deriving DecidableEq

def Word.ofAll {p : Char → Bool} (text : List Char) (some : text ≠ [])
    (all : text.all p = true) : Word p :=
  ⟨text, some, List.all_eq_true.mp all⟩

def Stops (p : Char → Bool) (str : List Char) : Prop := ∀ c ∈ str.head?, p c = false

section Runs

variable {p q : Char → Bool} {run rest run' rest' : List Char}

theorem stops_nil : Stops p [] := fun _ member => nomatch member

theorem stops_cons {c : Char} (stop : p c = false) : Stops p (c :: rest) := by
  intro d member
  cases member
  exact stop

theorem stops_of_apart (apart : ∀ c, q c = true → p c = false) (all : ∀ c ∈ run, q c = true)
    (stops : Stops p rest) : Stops p (run ++ rest) := by
  cases run with
  | nil => exact stops
  | cons c run => exact stops_cons (apart c (all c List.mem_cons_self))

theorem stops_word (apart : ∀ c, q c = true → p c = false) (word : Word q) :
    Stops p (word.text ++ rest) := by
  obtain ⟨text, given, all⟩ := word
  cases text with
  | nil => exact absurd rfl given
  | cons c text => exact stops_cons (apart c (all c List.mem_cons_self))

theorem run_within (all : ∀ c ∈ run, p c = true) (stops : Stops p rest')
    (same : run ++ rest = run' ++ rest') : ∃ more, run' = run ++ more ∧ rest = more ++ rest' := by
  rcases List.append_eq_append_iff.mp same with longer | ⟨beyond, split, tail⟩
  · exact longer
  · cases beyond with
    | nil => exact ⟨[], by rw [split, List.append_nil, List.append_nil], tail.symm⟩
    | cons c beyond =>
      have inside := all c (split ▸ List.mem_append_right run' List.mem_cons_self)
      have outside := stops c (by rw [tail]; rfl)
      rw [inside] at outside
      cases outside

theorem run_unique (all : ∀ c ∈ run, p c = true) (stops : Stops p rest)
    (all' : ∀ c ∈ run', p c = true) (stops' : Stops p rest')
    (same : run ++ rest = run' ++ rest') : run = run' ∧ rest = rest' := by
  obtain ⟨more, longer, tail⟩ := run_within all stops' same
  obtain ⟨more', longer', _⟩ := run_within all' stops same.symm
  have lengths := congrArg List.length longer
  have lengths' := congrArg List.length longer'
  rw [List.length_append] at lengths lengths'
  have none : more = [] := List.length_eq_zero_iff.mp (by omega)
  rw [none] at longer tail
  exact ⟨by rw [longer, List.append_nil], tail⟩

theorem leftmost_of_start {junk before text suffix : List Char} (clear : ∀ c ∈ junk, p c = false)
    (start : ∃ c rest, text = c :: rest ∧ p c = true)
    (split : junk ++ rest = before ++ (text ++ suffix)) : junk.length ≤ before.length := by
  rcases List.append_eq_append_iff.mp split with ⟨more, longer, _⟩ | ⟨beyond, shorter, tail⟩
  · rw [longer, List.length_append]
    omega
  · obtain ⟨c, others, rfl, inside⟩ := start
    cases beyond with
    | nil => exact Nat.le_of_eq (by rw [shorter, List.append_nil])
    | cons d beyond =>
      obtain ⟨rfl, _⟩ := List.cons.inj tail
      have outside := clear c (shorter ▸ List.mem_append_right before List.mem_cons_self)
      rw [inside] at outside
      cases outside

end Runs

/-! A search that tries every match. -/

/-- The ways to match the start of a string: text, groups and rest, the greedy ones first. -/
def ways : Pattern → List Char → List (List Char × Captures × List Char)
  | .one p, str =>
    match str with
    | c :: rest => if p c then [([c], [], rest)] else []
    | [] => []
  | .star p, str => spans p str
  | .plus p, str => (spans p str).filter fun way => way.1 ≠ []
  | .seq a b, str => (ways a str).flatMap fun first =>
      (ways b first.2.2).map fun second =>
        (first.1 ++ second.1, first.2.1 ++ second.2.1, second.2.2)
  | .opt a, str => ways a str ++ [([], [], str)]
  | .group n a, str => (ways a str).map fun way => (way.1, (n, way.1) :: way.2.1, way.2.2)
where
  spans (p : Char → Bool) : List Char → List (List Char × Captures × List Char)
    | [] => [([], [], [])]
    | c :: rest =>
      if p c then (spans p rest).map (fun way => (c :: way.1, [], way.2.2)) ++ [([], [], c :: rest)]
      else [([], [], c :: rest)]

theorem mem_spans {p : Char → Bool} {str text rest : List Char} {captures : Captures} :
    (text, captures, rest) ∈ ways.spans p str ↔
      str = text ++ rest ∧ (∀ c ∈ text, p c = true) ∧ captures = [] := by
  induction str generalizing text captures rest with
  | nil =>
    rw [ways.spans, List.mem_singleton, Prod.mk.injEq, Prod.mk.injEq]
    constructor
    · rintro ⟨rfl, rfl, rfl⟩
      simp
    · rintro ⟨split, _, rfl⟩
      have parts := List.append_eq_nil_iff.mp split.symm
      exact ⟨parts.1, rfl, parts.2⟩
  | cons c str ih =>
    rw [ways.spans]
    by_cases here : p c = true
    · rw [if_pos here, List.mem_append, List.mem_map, List.mem_singleton]
      constructor
      · rintro (⟨⟨t, cs, r⟩, member, same⟩ | same)
        · obtain ⟨split, all, _⟩ := ih.mp member
          cases same
          refine ⟨by rw [split]; rfl, ?_, rfl⟩
          exact List.forall_mem_cons.mpr ⟨here, all⟩
        · cases same
          simp
      · rintro ⟨split, all, rfl⟩
        cases text with
        | nil =>
          right
          rw [List.nil_append] at split
          rw [split]
        | cons d text =>
          left
          obtain ⟨rfl, tails⟩ := List.cons.inj split
          refine ⟨(text, [], rest), ih.mpr ⟨tails, ?_, rfl⟩, rfl⟩
          exact fun e member => all e (List.mem_cons_of_mem c member)
    · rw [if_neg here, List.mem_singleton]
      constructor
      · intro same
        cases same
        simp
      · rintro ⟨split, all, rfl⟩
        cases text with
        | nil =>
          rw [List.nil_append] at split
          rw [split]
        | cons d text =>
          obtain ⟨rfl, _⟩ := List.cons.inj split
          exact absurd (all c List.mem_cons_self) here

theorem mem_ways {p : Pattern} {str text rest : List Char} {captures : Captures} :
    (text, captures, rest) ∈ ways p str ↔ str = text ++ rest ∧ Matches p text captures := by
  induction p generalizing str text rest captures with
  | one p =>
    cases str with
    | nil =>
      simp only [ways, List.not_mem_nil, Matches, false_iff, not_and, not_exists]
      intro split c single
      rw [single] at split
      cases split
    | cons c str =>
      simp only [ways, Matches]
      by_cases here : p c = true
      · rw [if_pos here, List.mem_singleton, Prod.mk.injEq, Prod.mk.injEq]
        constructor
        · rintro ⟨rfl, rfl, rfl⟩
          exact ⟨rfl, c, rfl, here, rfl⟩
        · rintro ⟨split, d, rfl, _, rfl⟩
          obtain ⟨rfl, rest⟩ := List.cons.inj split
          exact ⟨rfl, rfl, rest.symm⟩
      · rw [if_neg here]
        simp only [List.not_mem_nil, false_iff, not_and, not_exists]
        rintro split d rfl there
        obtain ⟨rfl, _⟩ := List.cons.inj split
        exact absurd there here
  | star p => exact mem_spans
  | plus p =>
    rw [ways, List.mem_filter, mem_spans, Matches]
    simp only [ne_eq, decide_not, Bool.not_eq_eq_eq_not, Bool.not_true, decide_eq_false_iff_not]
    tauto
  | seq a b first second =>
    rw [ways, List.mem_flatMap, Matches]
    constructor
    · rintro ⟨⟨s, c, middle⟩, at_first, member⟩
      obtain ⟨⟨t, d, r⟩, at_second, same⟩ := List.mem_map.mp member
      cases same
      obtain ⟨split, one⟩ := first.mp at_first
      obtain ⟨split', two⟩ := second.mp at_second
      have inner : middle = t ++ r := split'
      refine ⟨?_, s, t, c, d, rfl, rfl, one, two⟩
      rw [split, inner, List.append_assoc]
    · rintro ⟨split, s, t, c, d, rfl, rfl, one, two⟩
      rw [List.append_assoc] at split
      exact ⟨(s, c, t ++ rest), first.mpr ⟨split, one⟩,
        List.mem_map.mpr ⟨(t, d, rest), second.mpr ⟨rfl, two⟩, rfl⟩⟩
  | opt a body =>
    rw [ways, List.mem_append, List.mem_singleton, body, Matches]
    constructor
    · rintro (taken | same)
      · exact ⟨taken.1, Or.inr taken.2⟩
      · cases same
        exact ⟨rfl, Or.inl ⟨rfl, rfl⟩⟩
    · rintro ⟨split, ⟨rfl, rfl⟩ | taken⟩
      · rw [List.nil_append] at split
        exact Or.inr (by rw [split])
      · exact Or.inl ⟨split, taken⟩
  | group n a body =>
    rw [ways, List.mem_map, Matches]
    constructor
    · rintro ⟨⟨t, inner, r⟩, member, same⟩
      cases same
      obtain ⟨split, taken⟩ := body.mp member
      exact ⟨split, inner, rfl, taken⟩
    · rintro ⟨split, inner, rfl, taken⟩
      exact ⟨(text, inner, rest), body.mpr ⟨split, taken⟩, rfl⟩

def longestWay : List (List Char × Captures × List Char) →
    Option (List Char × Captures × List Char)
  | [] => none
  | way :: others =>
    match longestWay others with
    | none => some way
    | some best => if way.1.length < best.1.length then some best else some way

theorem longestWay_eq_none {choices : List (List Char × Captures × List Char)}
    (result : longestWay choices = none) : choices = [] := by
  cases choices with
  | nil => rfl
  | cons way others =>
    rw [longestWay] at result
    split at result
    · cases result
    · split at result <;> cases result

theorem longestWay_eq_some {choices : List (List Char × Captures × List Char)}
    {best : List Char × Captures × List Char} (result : longestWay choices = some best) :
    best ∈ choices ∧ ∀ way ∈ choices, way.1.length ≤ best.1.length := by
  induction choices generalizing best with
  | nil => cases result
  | cons way others ih =>
    rw [longestWay] at result
    split at result
    · next none =>
      cases result
      rw [longestWay_eq_none none]
      simp
    · next better found =>
      obtain ⟨member, all⟩ := ih found
      split at result
      · next shorter =>
        cases result
        exact ⟨List.mem_cons_of_mem way member, List.forall_mem_cons.mpr ⟨by omega, all⟩⟩
      · next longer =>
        cases result
        refine ⟨List.mem_cons_self, List.forall_mem_cons.mpr ⟨Nat.le_refl _, ?_⟩⟩
        intro other inside
        have bound := all other inside
        omega

def searchWays (p : Pattern) : List Char → Option Found
  | [] => (longestWay (ways p [])).map fun way => ⟨[], way.1, way.2.1, way.2.2⟩
  | c :: rest =>
    match longestWay (ways p (c :: rest)) with
    | some way => some ⟨[], way.1, way.2.1, way.2.2⟩
    | none => (searchWays p rest).map fun m => { m with before := c :: m.before }

theorem leftmostLongest_of_way {p : Pattern} {str : List Char}
    {way : List Char × Captures × List Char} (best : longestWay (ways p str) = some way) :
    LeftmostLongest p str ⟨[], way.1, way.2.1, way.2.2⟩ := by
  obtain ⟨member, all⟩ := longestWay_eq_some best
  obtain ⟨split, matched⟩ := mem_ways.mp member
  refine ⟨split, matched, fun _ _ _ _ _ _ => Nat.zero_le _, ?_⟩
  intro text captures suffix same other
  exact all (text, captures, suffix) (mem_ways.mpr ⟨split.trans same.symm, other⟩)

theorem no_match_of_no_way {p : Pattern} {str : List Char} (none : longestWay (ways p str) = none)
    {text suffix : List Char} {captures : Captures} (split : str = text ++ suffix) :
    ¬ Matches p text captures := by
  intro matched
  have member := mem_ways.mpr ⟨split, matched⟩
  rw [longestWay_eq_none none] at member
  cases member

theorem searchWays_eq_some {p : Pattern} {str : List Char} {m : Found}
    (result : searchWays p str = some m) : LeftmostLongest p str m := by
  induction str generalizing m with
  | nil =>
    obtain ⟨way, best, rfl⟩ := Option.map_eq_some_iff.mp result
    exact leftmostLongest_of_way best
  | cons c rest ih =>
    rw [searchWays] at result
    split at result
    · next way best =>
      cases result
      exact leftmostLongest_of_way best
    · next none =>
      obtain ⟨m', later, rfl⟩ := Option.map_eq_some_iff.mp result
      have best := ih later
      refine ⟨congrArg (c :: ·) best.split, best.matched, ?_, best.longest⟩
      intro before text captures suffix split matched
      cases before with
      | nil => exact absurd matched (no_match_of_no_way none split)
      | cons d before =>
        have tails := (List.cons.inj split).2
        exact Nat.succ_le_succ (best.leftmost before text captures suffix tails matched)

theorem searchWays_eq_none {p : Pattern} {str : List Char} (result : searchWays p str = none)
    (before text : List Char) (captures : Captures) (suffix : List Char)
    (split : str = before ++ (text ++ suffix)) : ¬ Matches p text captures := by
  induction str generalizing before with
  | nil =>
    have none := Option.map_eq_none_iff.mp result
    have empty := List.append_eq_nil_iff.mp split.symm
    exact no_match_of_no_way none empty.2.symm
  | cons c rest ih =>
    rw [searchWays] at result
    split at result
    · cases result
    · next none =>
      cases before with
      | nil => exact no_match_of_no_way none split
      | cons d before =>
        exact ih (Option.map_eq_none_iff.mp result) before (List.cons.inj split).2

def Search.greedy (p : Pattern) : Search p where
  search := searchWays p
  found := fun _ _ => searchWays_eq_some
  absent := fun _ => searchWays_eq_none

end Regex
