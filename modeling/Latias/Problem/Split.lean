import Latias.Library.Runs
import Mathlib.Data.List.DropRight

/-! `Split` against the names that a list of names writes. -/

namespace TileExp.Problem

open Runs

def isLetter (c : Char) : Bool := ('A' ≤ c && c ≤ 'Z') || ('a' ≤ c && c ≤ 'z')

def isSpace (c : Char) : Bool :=
  c = ' ' || c = '\t' || c = '\n' || c = '\r' || c = '\u000b' || c = '\u000c'

/-- `std::regex_search` for `([A-Za-z]+)[,]*[[:space:]]*`: the first group and the suffix of the
    leftmost longest match. -/
def regexSearch (str : List Char) : Option (List Char × List Char) :=
  match str.dropWhile fun c => !isLetter c with
  | [] => none
  | first :: rest =>
    some ((first :: rest).takeWhile isLetter,
      (((first :: rest).dropWhile isLetter).dropWhile fun c => c = ',').dropWhile isSpace)

/-- The loop of `Split`. Each match takes a letter, so the length of the text bounds it. -/
def splitLoop : Nat → List Char → List (List Char)
  | 0, _ => []
  | fuel + 1, str =>
    match regexSearch str with
    | none => []
    | some (name, suffix) => name :: splitLoop fuel suffix

def beforeHash (str : List Char) : List Char := str.takeWhile fun c => c ≠ '#'

def Split (buffer : String) : List String :=
  let str := beforeHash buffer.toList
  (splitLoop str.length str).map String.ofList

def trim (part : List Char) : List Char := (part.dropWhile isSpace).rdropWhile isSpace

def writtenNames (text : String) : List String :=
  if text.toList.all isSpace then []
  else ((text.toList.splitOn ',').map trim).map String.ofList

def LetterName (name : String) : Prop := name.toList ≠ [] ∧ ∀ c ∈ name.toList, isLetter c = true

instance (name : String) : Decidable (LetterName name) :=
  inferInstanceAs (Decidable (_ ∧ _))

variable {str name suffix : List Char} {text : String}

theorem space_not_letter (c : Char) (space : isSpace c = true) : isLetter c = false := by
  simp only [isSpace, Bool.or_eq_true, decide_eq_true_eq, or_assoc] at space
  rcases space with rfl | rfl | rfl | rfl | rfl | rfl <;> rfl

theorem comma_not_letter (c : Char) (comma : decide (c = ',') = true) : isLetter c = false := by
  rw [of_decide_eq_true comma]
  rfl

theorem regexSearch_none (call : regexSearch str = none) : runs isLetter str = [] := by
  unfold regexSearch at call
  split at call
  · next none =>
    have outside : ∀ c ∈ str, isLetter c = false := by
      intro c inside
      have dropped := List.dropWhile_eq_nil_iff.mp none c inside
      simpa using dropped
    have all := @runs_drop_end Char isLetter [] str outside
    rwa [List.nil_append] at all
  · cases call

theorem regexSearch_some (call : regexSearch str = some (name, suffix)) :
    runs isLetter str = name :: runs isLetter suffix ∧ suffix.length < str.length := by
  unfold regexSearch at call
  split at call
  · cases call
  · next first rest found =>
    obtain ⟨rfl, rfl⟩ := Prod.mk.inj (Option.some_inj.mp call)
    have letter : isLetter first = true := by
      have kept := List.head?_dropWhile_not (fun c => !isLetter c) str
      rw [found] at kept
      simpa using kept
    have start : runs isLetter str = runs isLetter (first :: rest) := by
      rw [← found, runs_dropWhile fun c other => by simpa using other]
    have some : (first :: rest).takeWhile isLetter ≠ [] := by
      simp [letter]
    have taken : ∀ c ∈ (first :: rest).takeWhile isLetter, isLetter c = true :=
      fun c inside => List.mem_takeWhile_imp inside
    have ends : ∀ c ∈ ((first :: rest).dropWhile isLetter).head?, isLetter c = false := by
      intro c next
      have kept := List.head?_dropWhile_not isLetter (first :: rest)
      rw [next] at kept
      simpa using kept
    have parts : (first :: rest).takeWhile isLetter ++ (first :: rest).dropWhile isLetter =
        first :: rest := List.takeWhile_append_dropWhile
    constructor
    · rw [start, runs_dropWhile space_not_letter, runs_dropWhile comma_not_letter]
      conv_lhs => rw [← parts]
      exact runs_append taken some ends
    · have lengths := congrArg List.length parts
      rw [List.length_append] at lengths
      have positive := List.length_pos_iff.mpr some
      have commas := List.length_dropWhile_le (fun c => decide (c = ','))
        ((first :: rest).dropWhile isLetter)
      have spaces := List.length_dropWhile_le isSpace
        (((first :: rest).dropWhile isLetter).dropWhile fun c => decide (c = ','))
      have before := List.length_dropWhile_le (fun c => !isLetter c) str
      rw [found] at before
      omega

theorem splitLoop_eq (fuel : Nat) :
    ∀ str : List Char, str.length ≤ fuel → splitLoop fuel str = runs isLetter str := by
  induction fuel with
  | zero =>
    intro str short
    cases List.length_eq_zero_iff.mp (Nat.le_zero.mp short)
    exact runs_nil.symm
  | succ fuel ih =>
    intro str short
    rw [splitLoop]
    cases call : regexSearch str with
    | none => exact (regexSearch_none call).symm
    | some found =>
      obtain ⟨name, suffix⟩ := found
      obtain ⟨run, shorter⟩ := regexSearch_some call
      rw [run, ← ih suffix (by omega)]

/-- `Split` returns the runs of letters before the first `#`. -/
theorem Split_eq (buffer : String) :
    Split buffer = (runs isLetter (beforeHash buffer.toList)).map String.ofList := by
  rw [Split, splitLoop_eq _ _ (Nat.le_refl _)]

theorem letterName_of_mem_Split {buffer name : String} (member : name ∈ Split buffer) :
    LetterName name := by
  rw [Split_eq] at member
  obtain ⟨run, inside, rfl⟩ := List.mem_map.mp member
  rw [LetterName, String.toList_ofList]
  exact mem_runs inside

theorem exists_trim (part : List Char) : ∃ before after : List Char,
    part = before ++ trim part ++ after ∧ (∀ c ∈ before, isSpace c = true) ∧
      ∀ c ∈ after, isSpace c = true := by
  refine ⟨part.takeWhile isSpace, (part.dropWhile isSpace).rtakeWhile isSpace, ?_, ?_, ?_⟩
  · rw [trim, List.append_assoc, List.rdropWhile_append_rtakeWhile, List.takeWhile_append_dropWhile]
  · exact fun c inside => List.mem_takeWhile_imp inside
  · exact fun c inside => List.mem_rtakeWhile_imp inside

theorem runs_of_blank {part : List Char} (blank : ∀ c ∈ part, isSpace c = true) :
    runs isLetter part = [] := by
  apply regexSearch_none
  have dropped : part.dropWhile (fun c => !isLetter c) = [] := by
    rw [List.dropWhile_eq_nil_iff]
    intro c inside
    rw [space_not_letter c (blank c inside)]
    rfl
  rw [regexSearch, dropped]

theorem runs_of_trim {part : List Char} (some : trim part ≠ [])
    (letters : ∀ c ∈ trim part, isLetter c = true) : runs isLetter part = [trim part] := by
  obtain ⟨before, after, parts, spaces_before, spaces_after⟩ := exists_trim part
  conv_lhs => rw [parts]
  exact runs_trimmed letters some (fun c inside => space_not_letter c (spaces_before c inside))
    (fun c inside => space_not_letter c (spaces_after c inside))

theorem beforeHash_eq_self {text : List Char}
    (letters : ∀ part ∈ text.splitOn ',', ∀ c ∈ trim part, isLetter c = true) :
    beforeHash text = text := by
  rw [beforeHash, List.takeWhile_eq_self_iff]
  intro c inside
  rw [decide_eq_true_eq]
  rintro rfl
  rw [← @List.intercalate_splitOn _ text _ _ ','] at inside
  rcases mem_intercalate _ inside with comma | ⟨part, member, found⟩
  · revert comma
    decide
  · obtain ⟨before, after, parts, spaces_before, spaces_after⟩ := exists_trim part
    rw [parts, List.mem_append, List.mem_append] at found
    rcases found with (early | mid) | late
    · exact absurd (spaces_before _ early) (by decide)
    · exact absurd (letters part member _ mid) (by decide)
    · exact absurd (spaces_after _ late) (by decide)

/-- `Split` returns the written names just when they are all made of letters. -/
theorem Split_eq_written_iff (text : String) :
    Split text = writtenNames text ↔ ∀ name ∈ writtenNames text, LetterName name := by
  constructor
  · intro same name member
    rw [← same] at member
    exact letterName_of_mem_Split member
  · intro letters
    rw [Split_eq, writtenNames]
    split
    · next blank =>
      rw [List.all_eq_true] at blank
      have none : runs isLetter (beforeHash text.toList) = [] :=
        runs_of_blank fun c inside => blank c ((List.takeWhile_prefix _).subset inside)
      rw [none, List.map_nil]
    · next some =>
      rw [writtenNames, if_neg some] at letters
      have parts : ∀ part ∈ text.toList.splitOn ',',
          trim part ≠ [] ∧ ∀ c ∈ trim part, isLetter c = true := by
        intro part member
        have letter := letters _ (List.mem_map_of_mem (List.mem_map_of_mem member))
        rwa [LetterName, String.toList_ofList] at letter
      rw [beforeHash_eq_self fun part member => (parts part member).2]
      congr 1
      conv_lhs => rw [← @List.intercalate_splitOn _ text.toList _ _ ',']
      rw [runs_intercalate (by decide), List.flatMap_def]
      have each : (text.toList.splitOn ',').map (runs isLetter) =
          (text.toList.splitOn ',').map fun part => [trim part] :=
        List.map_congr_left fun part member => runs_of_trim (parts part member).1 (parts part member).2
      rw [each, ← List.flatMap_def, ← List.map_eq_flatMap]

end TileExp.Problem
