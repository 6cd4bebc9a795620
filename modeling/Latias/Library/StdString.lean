import Mathlib.Data.List.DropRight

/-! Searches in a string and parts of it, by position. A position that is not there (`npos`) is
    `none`. -/

namespace StdString

variable {α : Type} {p : α → Bool} {l field rest : List α} {c d : α} {i : Nat}

theorem findIdx?_eq (p : α → Bool) (l : List α) :
    l.findIdx? p = if ∀ x ∈ l, p x = false then none
      else some (l.takeWhile fun x => !p x).length := by
  induction l with
  | nil => rfl
  | cons a l ih =>
    rw [List.findIdx?_cons]
    cases here : p a with
    | true => simp [here]
    | false =>
      rw [ih, List.takeWhile_cons_of_pos (by simp [here])]
      simp only [List.forall_mem_cons, here, true_and, Bool.false_eq_true, if_false]
      split <;> rfl

theorem drop_length_takeWhile (p : α → Bool) (l : List α) :
    l.drop (l.takeWhile p).length = l.dropWhile p := by
  have whole := @List.drop_left _ (l.takeWhile p) (l.dropWhile p)
  rwa [List.takeWhile_append_dropWhile] at whole

theorem drop_rdropWhile (p : α → Bool) (l : List α) (i : Nat) :
    (l.rdropWhile p).drop i = (l.drop i).rdropWhile p := by
  induction l using List.reverseRecOn with
  | nil => simp
  | append_singleton l a ih =>
    rw [List.rdropWhile_concat]
    rcases Nat.lt_or_ge l.length i with beyond | within
    · have all : (l ++ [a]).drop i = [] := by
        apply List.drop_eq_nil_of_le
        rw [List.length_append, List.length_singleton]
        exact beyond
      have all' : l.drop i = [] := List.drop_eq_nil_of_le (Nat.le_of_lt beyond)
      rw [all, List.rdropWhile_nil]
      split
      · rw [ih, all', List.rdropWhile_nil]
      · exact all
    · rw [List.drop_append_of_le_length within, List.rdropWhile_concat]
      split
      · exact ih
      · rw [List.drop_append_of_le_length within]

variable [DecidableEq α]

def find (c : α) (l : List α) (pos : Nat) : Option Nat :=
  ((l.drop pos).findIdx? (· = c)).map (pos + ·)

def find_first_not_of (c : α) (l : List α) : Option Nat := l.findIdx? (· ≠ c)

def find_last_not_of (c : α) (l : List α) : Option Nat :=
  (l.reverse.findIdx? (· ≠ c)).map (l.length - 1 - ·)

omit [DecidableEq α] in
/-- `l.substr(pos, count)`; it throws for a position after the end. -/
def substr (l : List α) (pos count : Option Nat) : Option (List α) :=
  match pos with
  | none => none
  | some pos =>
    if l.length < pos then none
    else match count with
      | none => some (l.drop pos)
      | some count => some ((l.drop pos).take count)

/-- `last - first + 1` for two positions. In the unsigned type `npos + 1` is 0, and a difference that
    wraps counts beyond every string. -/
def span (first last : Option Nat) : Option Nat :=
  match first with
  | none => none
  | some first =>
    let stop := (last.map (· + 1)).getD 0
    if first ≤ stop then some (stop - first) else none

theorem find_eq_none {pos : Nat} (absent : c ∉ l.drop pos) : find c l pos = none := by
  have none : ∀ x ∈ l.drop pos, decide (x = c) = false := fun x inside =>
    decide_eq_false fun same => absent (same ▸ inside)
  rw [find, findIdx?_eq, if_pos none]
  rfl

theorem find_eq_some {pos : Nat} (split : l.drop pos = field ++ c :: rest) (absent : c ∉ field) :
    find c l pos = some (pos + field.length) := by
  have before : ∀ x ∈ field, (x = c) = False := fun x inside =>
    eq_false fun same => absent (same ▸ inside)
  rw [find, findIdx?_eq, if_neg, split, List.takeWhile_append_of_pos]
  · simp
  · exact fun x inside => by simp [before x inside]
  · exact fun none => absurd (none c (by simp [split])) (by simp)

theorem find_head (c : α) (l : List α) : find c (c :: l) 0 = some 0 :=
  @find_eq_some _ (c :: l) [] l c _ 0 rfl List.not_mem_nil

theorem find_cases (c : α) (l : List α) (pos : Nat) :
    (c ∉ l.drop pos ∧ find c l pos = none) ∨
      ∃ field rest, l.drop pos = field ++ c :: rest ∧ c ∉ field ∧
        find c l pos = some (pos + field.length) := by
  by_cases member : c ∈ l.drop pos
  · obtain ⟨field, rest, split, absent⟩ := List.eq_append_cons_of_mem member
    exact Or.inr ⟨field, rest, split, absent, find_eq_some split absent⟩
  · exact Or.inl ⟨member, find_eq_none member⟩

theorem dropWhile_eq_nil (c : α) (l : List α) :
    l.dropWhile (fun x => decide (x = c)) = [] ↔ ∀ x ∈ l, x = c := by
  simp [List.dropWhile_eq_nil_iff]

theorem find_first_not_of_eq (c : α) (l : List α) :
    find_first_not_of c l = if ∀ x ∈ l, x = c then none else some (l.takeWhile (· = c)).length := by
  rw [find_first_not_of, findIdx?_eq]
  simp

theorem stop_find_last_not_of (c : α) (l : List α) :
    ((find_last_not_of c l).map (· + 1)).getD 0 = (l.rdropWhile (· = c)).length := by
  have lengths := congrArg List.length
    (@List.takeWhile_append_dropWhile _ (fun x => decide (x = c)) l.reverse)
  rw [List.length_append, List.length_reverse] at lengths
  rw [find_last_not_of, findIdx?_eq, List.rdropWhile, List.length_reverse]
  by_cases all : ∀ x ∈ l.reverse, x = c
  · rw [(dropWhile_eq_nil c _).mpr all, if_pos fun x inside => by simp [all x inside]]
    rfl
  · have positive := List.length_pos_iff.mpr (mt (dropWhile_eq_nil c _).mp all)
    rw [if_neg fun none => all fun x inside => by simpa using none x inside]
    simp only [decide_not, Bool.not_not, Option.map_some, Option.getD_some]
    omega

/-- What lies between the first position that is not `c` and the last that is not `d`. -/
def between (c d : α) (l : List α) : List α := (l.dropWhile (· = c)).rdropWhile (· = d)

theorem length_le_rdropWhile {before after : List α} (leading : ∀ x ∈ before, x = c)
    (other : ¬ ∀ x ∈ after, x = c) :
    before.length ≤ ((before ++ after).rdropWhile (· = d)).length := by
  rw [List.rdropWhile, List.reverse_append, List.dropWhile_append, List.length_reverse]
  split
  · next none =>
    rw [List.isEmpty_iff, dropWhile_eq_nil] at none
    have trailing : ∀ x ∈ after, x = d := fun x inside => none x (List.mem_reverse.mpr inside)
    have apart : c ≠ d := fun same => other fun x inside => (trailing x inside).trans same.symm
    have plain : before.reverse.dropWhile (fun x => decide (x = d)) = before.reverse := by
      cases reversed : before.reverse with
      | nil => rfl
      | cons y rest =>
        have inside : y ∈ before := List.mem_reverse.mp (reversed ▸ List.mem_cons_self)
        rw [List.dropWhile_cons_of_neg (by simp [leading y inside, apart])]
    rw [plain, List.length_reverse]
  · rw [List.length_append, List.length_reverse]
    exact Nat.le_add_left _ _

theorem substr_between (c d : α) (l : List α) :
    substr l (find_first_not_of c l) (span (find_first_not_of c l) (find_last_not_of d l)) =
      if ∀ x ∈ l, x = c then none else some (between c d l) := by
  rw [find_first_not_of_eq]
  split
  · rfl
  · next other =>
    have after := drop_length_takeWhile (fun x => decide (x = c)) l
    have within := (List.takeWhile_prefix (fun x => decide (x = c)) (l := l)).length_le
    have kept := List.prefix_iff_eq_take.mp (List.rdropWhile_prefix (fun x => decide (x = d)) l)
    have below : (l.takeWhile fun x => decide (x = c)).length ≤
        (l.rdropWhile fun x => decide (x = d)).length := by
      have leading : ∀ x ∈ l.takeWhile fun x => decide (x = c), x = c := by
        intro x inside
        have holds := List.mem_takeWhile_imp inside
        exact of_decide_eq_true holds
      have whole := @List.takeWhile_append_dropWhile _ (fun x => decide (x = c)) l
      have first := @length_le_rdropWhile _ c d _ _ (l.dropWhile fun x => decide (x = c)) leading
      rw [whole] at first
      refine first fun all => other fun x inside => ?_
      rw [← whole] at inside
      rcases List.mem_append.mp inside with early | late
      · exact leading x early
      · exact all x late
    have stop : span (some (l.takeWhile fun x => decide (x = c)).length) (find_last_not_of d l) =
        some ((l.rdropWhile fun x => decide (x = d)).length -
          (l.takeWhile fun x => decide (x = c)).length) := by
      simp only [span, stop_find_last_not_of]
      rw [if_pos below]
    rw [stop, substr, if_neg (Nat.not_lt.mpr within), ← List.drop_take, ← kept, drop_rdropWhile,
      after, between]

theorem between_of_all (all : ∀ x ∈ l, x = c) : between c d l = [] := by
  rw [between, (dropWhile_eq_nil c l).mpr all, List.rdropWhile_nil]

theorem between_padded {before middle after : List α} (opening : ∀ x ∈ before, x = c)
    (closing : ∀ x ∈ after, x = d) (head : middle.head? ≠ some c) (last : middle.getLast? ≠ some d) :
    between c d (before ++ middle ++ after) = middle := by
  have opened : (before ++ middle ++ after).dropWhile (fun x => decide (x = c)) =
      (middle ++ after).dropWhile fun x => decide (x = c) := by
    rw [List.append_assoc, List.dropWhile_append_of_pos]
    exact fun x inside => decide_eq_true (opening x inside)
  rw [between, opened]
  cases middle with
  | nil =>
    rw [List.rdropWhile_eq_nil_iff]
    exact fun x inside => decide_eq_true (closing x ((List.dropWhile_suffix _).subset inside))
  | cons x middle =>
    have plain : ¬ decide (x = c) = true := by simpa using head
    have closed : (x :: middle ++ after).rdropWhile (fun x => decide (x = d)) =
        (x :: middle).rdropWhile fun x => decide (x = d) := by
      rw [List.rdropWhile, List.reverse_append, List.dropWhile_append_of_pos]
      · rfl
      · exact fun y inside => decide_eq_true (closing y (List.mem_reverse.mp inside))
    have stops : (x :: (middle ++ after)).dropWhile (fun y => decide (y = c)) =
        x :: (middle ++ after) := List.dropWhile_cons_of_neg plain
    rw [List.cons_append, stops, ← List.cons_append, closed, List.rdropWhile_eq_self_iff]
    intro some final
    rw [List.getLast?_eq_some_getLast some] at last
    exact last (congrArg Option.some (of_decide_eq_true final))

end StdString
