import Mathlib.Data.List.TakeWhile

/-! The maximal runs of elements with a property in a list. -/

namespace Runs

variable {α : Type} {p : α → Bool} {a b l : List α} {s : α}

def runs (p : α → Bool) (l : List α) : List (List α) :=
  (l.splitOnP fun c => !p c).filter fun run => !run.isEmpty

@[simp] theorem runs_nil : runs p [] = [] := by
  rw [runs, List.splitOnP_nil]
  rfl

theorem runs_append_cons (a b : List α) (outside : p s = false) :
    runs p (a ++ s :: b) = runs p a ++ runs p b := by
  have sep : (fun c => !p c) s = true := by simp [outside]
  rw [runs, List.splitOnP_append_cons a b sep, List.filter_append]
  rfl

theorem runs_of_all (all : ∀ c ∈ a, p c = true) (some : a ≠ []) : runs p a = [a] := by
  have none : ∀ c ∈ a, (fun c => !p c) c = false := by
    intro c inside
    simp [all c inside]
  rw [runs, List.splitOnP_eq_singleton none]
  simp [some]

theorem runs_drop (outside : ∀ c ∈ a, p c = false) : runs p (a ++ b) = runs p b := by
  induction a with
  | nil => rfl
  | cons c a ih =>
    have split := @runs_append_cons α p c [] (a ++ b) (outside c List.mem_cons_self)
    rw [List.nil_append] at split
    rw [List.cons_append, split, runs_nil, List.nil_append]
    exact ih fun d inside => outside d (List.mem_cons_of_mem c inside)

theorem runs_drop_end (outside : ∀ c ∈ b, p c = false) : runs p (a ++ b) = runs p a := by
  cases b with
  | nil => rw [List.append_nil]
  | cons c b =>
    have rest := @runs_drop α p b [] fun d inside => outside d (List.mem_cons_of_mem c inside)
    rw [List.append_nil] at rest
    rw [runs_append_cons a b (outside c List.mem_cons_self), rest, runs_nil, List.append_nil]

theorem runs_dropWhile {q : α → Bool} (outside : ∀ c, q c = true → p c = false) (l : List α) :
    runs p (l.dropWhile q) = runs p l := by
  have dropped : ∀ c ∈ l.takeWhile q, p c = false := fun c inside =>
    outside c (List.mem_takeWhile_imp inside)
  have whole := @runs_drop α p (l.takeWhile q) (l.dropWhile q) dropped
  rwa [List.takeWhile_append_dropWhile, eq_comm] at whole

theorem runs_append (all : ∀ c ∈ a, p c = true) (some : a ≠ [])
    (ends : ∀ c ∈ b.head?, p c = false) : runs p (a ++ b) = a :: runs p b := by
  cases b with
  | nil => rw [List.append_nil, runs_nil, runs_of_all all some]
  | cons c b =>
    have rest := @runs_append_cons α p c [] b (ends c rfl)
    rw [List.nil_append, runs_nil, List.nil_append] at rest
    rw [runs_append_cons a b (ends c rfl), rest, runs_of_all all some]
    rfl

theorem mem_splitOnP {part : List α} (sep : α → Bool) (member : part ∈ l.splitOnP sep) :
    ∀ c ∈ part, sep c = false := by
  induction l generalizing part with
  | nil =>
    rw [List.splitOnP_nil] at member
    cases List.mem_singleton.mp member
    exact fun c inside => absurd inside List.not_mem_nil
  | cons d l ih =>
    rw [List.splitOnP_cons_eq_if_modifyHead] at member
    split at member
    · rcases List.mem_cons.mp member with rfl | later
      · exact fun c inside => absurd inside List.not_mem_nil
      · exact ih later
    · next keeps =>
      obtain ⟨first, rest, parts⟩ := List.exists_cons_of_ne_nil (List.splitOnP_ne_nil sep l)
      rw [parts] at ih member
      rcases List.mem_cons.mp member with rfl | later
      · intro c inside
        rcases List.mem_cons.mp inside with rfl | inside
        · exact Bool.eq_false_iff.mpr keeps
        · exact ih List.mem_cons_self c inside
      · exact ih (List.mem_cons_of_mem first later)

theorem mem_runs {run : List α} (member : run ∈ runs p l) : run ≠ [] ∧ ∀ c ∈ run, p c = true := by
  obtain ⟨part, some⟩ := List.mem_filter.mp member
  constructor
  · rintro rfl
    cases some
  · intro c inside
    have kept := mem_splitOnP _ part c inside
    simpa using kept

theorem mem_intercalate {c : α} (parts : List (List α)) (member : c ∈ [s].intercalate parts) :
    c = s ∨ ∃ part ∈ parts, c ∈ part := by
  induction parts with
  | nil => cases member
  | cons part parts ih =>
    cases parts with
    | nil =>
      rw [List.intercalate_singleton] at member
      exact Or.inr ⟨part, List.mem_cons_self, member⟩
    | cons next parts =>
      rw [List.intercalate_cons_cons, List.append_assoc, List.mem_append, List.mem_append] at member
      rcases member with here | sep | later
      · exact Or.inr ⟨part, List.mem_cons_self, here⟩
      · exact Or.inl (List.mem_singleton.mp sep)
      · rcases ih later with same | ⟨other, inside, found⟩
        · exact Or.inl same
        · exact Or.inr ⟨other, List.mem_cons_of_mem part inside, found⟩

/-- The runs of a text are those of its parts, when no separator is in a run. -/
theorem runs_intercalate (outside : p s = false) (parts : List (List α)) :
    runs p ([s].intercalate parts) = parts.flatMap (runs p) := by
  induction parts with
  | nil => exact runs_nil
  | cons part parts ih =>
    cases parts with
    | nil => simp
    | cons next parts =>
      rw [List.intercalate_cons_cons, List.append_assoc, List.singleton_append,
        runs_append_cons _ _ outside, ih]
      rfl

theorem runs_trimmed {before after : List α} (all : ∀ c ∈ a, p c = true) (some : a ≠ [])
    (outside_before : ∀ c ∈ before, p c = false) (outside_after : ∀ c ∈ after, p c = false) :
    runs p (before ++ a ++ after) = [a] := by
  rw [runs_drop_end outside_after, runs_drop outside_before, runs_of_all all some]

end Runs
