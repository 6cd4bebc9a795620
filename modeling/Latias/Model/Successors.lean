import Latias.Common
import Latias.Library.Checked
import Latias.Library.StdString

/-! The successors of a level, given as one string: `[a, b, ...]`. -/

namespace TileExp.Model

open Checked StdString

def substr (str : List Char) (pos count : Option Nat) : Exec (List Char) :=
  match StdString.substr str pos count with
  | some part => .ok part
  | none => .error (.exception "out_of_range")

def trim (str : List Char) : Exec (List Char) := do
  let first_s := find_first_not_of ' ' str
  let last_s := find_last_not_of ' ' str
  let str_tmp ← substr str first_s (span first_s last_s)
  let first_l := find_first_not_of '[' str_tmp
  let last_r := find_last_not_of ']' str_tmp
  substr str_tmp first_l (span first_l last_r)

def pushPart (names : List (List Char)) (part : List Char) : List (List Char) :=
  if part = [] then names else names ++ [part]

/-- The loop of `parseName2Vec`: `start` and `names` after it, or nothing when it needs more
    rounds. -/
def parseLoop (name : List Char) :
    Nat → Nat → Option Nat → List (List Char) → Exec (Option (Nat × List (List Char)))
  | 0, _, _, _ => .ok none
  | _ + 1, start, none, names => .ok (some (start, names))
  | rounds + 1, start, some end_, names => do
    let part ← trim (← substr name (some start) (some (end_ - start)))
    parseLoop name rounds (end_ + 1) (find ',' name (end_ + 1)) (pushPart names part)

def lastPart (name : List Char) :
    Option (Nat × List (List Char)) → Exec (Option (List (List Char)))
  | none => .ok none
  | some (start, names) => do
    let part ← trim (← substr name (some start) none)
    .ok (some (pushPart names part))

def parseName2Vec (rounds : Nat) (name : List Char) : Exec (Option (List (List Char))) := do
  let loop ← parseLoop name rounds 0 (find ',' name 0) []
  lastPart name loop

def parseNameLoop :
    Nat → List Char → Option Nat → List (List Char) → Exec (Option (List Char × List (List Char)))
  | 0, _, _, _ => .ok none
  | _ + 1, Name, none, result => .ok (some (Name, result))
  | rounds + 1, Name, some pos_dot, result => do
    let part ← substr Name (some 0) (some pos_dot)
    let Name ← substr Name (some pos_dot) none
    parseNameLoop rounds Name (find ',' Name 0) (result ++ [part])

def lastName : Option (List Char × List (List Char)) → Exec (Option (List (List Char)))
  | none => .ok none
  | some (Name, result) => do
    let part ← substr Name (some 0) (find ']' Name 0)
    .ok (some (result ++ [part]))

def ParseName (rounds : Nat) (Name : List Char) : Exec (Option (List (List Char))) := do
  let pos_start := find '[' Name 0
  let pos_dot := find ',' Name 0
  let Name ← substr Name pos_start none
  let loop ← parseNameLoop rounds Name pos_dot []
  lastName loop

/-- The procedure returns the names, given enough rounds. -/
def Returns (parse : Nat → List Char → Exec (Option (List (List Char)))) (str : List Char)
    (names : List (List Char)) : Prop :=
  ∃ bound, ∀ rounds, bound ≤ rounds → parse rounds str = .ok (some names)

def stripped (field : List Char) : List Char := between ' ' ' ' field

def nameOf (field : List Char) : List Char := between '[' ']' (stripped field)

def Readable (field : List Char) : Prop := ¬ ∀ c ∈ stripped field, c = '['

instance (field : List Char) : Decidable (Readable field) := inferInstanceAs (Decidable (¬ _))

def namesOf (fields : List (List Char)) : List (List Char) :=
  (fields.map nameOf).filter (· ≠ [])

variable {name field rest : List Char} {names fields : List (List Char)} {rounds start : Nat}

theorem substr_of_all {c : Char} {str : List Char} (all : ∀ x ∈ str, x = c) (d : Char) :
    substr str (find_first_not_of c str)
        (span (find_first_not_of c str) (find_last_not_of d str)) =
      .error (.exception "out_of_range") := by
  rw [substr, substr_between, if_pos all]

theorem substr_of_other {c : Char} {str : List Char} (other : ¬ ∀ x ∈ str, x = c) (d : Char) :
    substr str (find_first_not_of c str)
        (span (find_first_not_of c str) (find_last_not_of d str)) = .ok (between c d str) := by
  rw [substr, substr_between, if_neg other]

theorem substr_from {str : List Char} {pos : Nat} (within : pos ≤ str.length) :
    substr str (some pos) none = .ok (str.drop pos) := by
  simp only [substr, StdString.substr, if_neg (Nat.not_lt.mpr within)]

theorem substr_part {str : List Char} {pos : Nat} (within : pos ≤ str.length) (count : Nat) :
    substr str (some pos) (some count) = .ok ((str.drop pos).take count) := by
  simp only [substr, StdString.substr, if_neg (Nat.not_lt.mpr within)]

theorem trim_eq (field : List Char) :
    trim field =
      if Readable field then .ok (nameOf field) else .error (.exception "out_of_range") := by
  by_cases blank : ∀ x ∈ field, x = ' '
  · have unreadable : ¬ Readable field := by
      simp [Readable, stripped, between_of_all blank]
    rw [trim, substr_of_all blank, if_neg unreadable, error_bind]
  · rw [trim, substr_of_other blank, ok_bind]
    by_cases readable : Readable field
    · rw [if_pos readable]
      exact substr_of_other readable ']'
    · rw [if_neg readable]
      exact substr_of_all (not_not.mp readable) ']'

theorem pushPart_eq (names : List (List Char)) (part : List Char) :
    pushPart names part = names ++ [part].filter (· ≠ []) := by
  unfold pushPart
  split <;> simp [*]

theorem trims_eq (fields : List (List Char)) :
    fields.mapM trim =
      if ∀ field ∈ fields, Readable field then .ok (fields.map nameOf)
      else .error (.exception "out_of_range") := by
  induction fields with
  | nil => simp [pure, Except.pure]
  | cons field fields ih =>
    rw [List.mapM_cons, trim_eq, ih]
    by_cases readable : Readable field
    · by_cases all : ∀ field ∈ fields, Readable field
      · rw [if_pos readable, if_pos all, if_pos (List.forall_mem_cons.mpr ⟨readable, all⟩)]
        rfl
      · rw [if_pos readable, if_neg all,
          if_neg fun both => all (List.forall_mem_cons.mp both).2]
        rfl
    · rw [if_neg readable, if_neg fun both => readable (List.forall_mem_cons.mp both).1]
      rfl

theorem parseLoop_eq (name : List Char) (enough : (name.drop start).count ',' < rounds)
    (within : start ≤ name.length) (names : List (List Char)) :
    (do let loop ← parseLoop name rounds start (find ',' name start) names
        lastPart name loop) =
      (do let parts ← ((name.drop start).splitOn ',').mapM trim
          .ok (some (names ++ parts.filter (· ≠ [])))) := by
  induction rounds generalizing start names with
  | zero => exact absurd enough (Nat.not_lt_zero _)
  | succ rounds ih =>
    rcases find_cases ',' name start with ⟨absent, none⟩ | ⟨field, rest, split, absent, here⟩
    · rw [none, List.splitOn_eq_singleton absent, parseLoop, ok_bind, lastPart,
        substr_from within, ok_bind, List.mapM_cons, List.mapM_nil]
      simp only [pushPart_eq]
      cases trim (name.drop start) <;> rfl
    · have lengths := congrArg List.length split
      rw [List.length_drop, List.length_append, List.length_cons] at lengths
      have part : substr name (some start) (some (start + field.length - start)) = .ok field := by
        rw [substr_part within, split, Nat.add_sub_cancel_left, List.take_left]
      have tail : name.drop (start + field.length + 1) = rest := by
        rw [Nat.add_assoc, ← List.drop_drop, split, ← List.drop_drop, List.drop_left]
        rfl
      have fewer : (name.drop (start + field.length + 1)).count ',' < rounds := by
        rw [split, List.count_append, List.count_cons_self] at enough
        rw [tail]
        omega
      rw [here, split, List.splitOn_append_cons_self_of_not_mem absent, List.mapM_cons, parseLoop,
        part, ok_bind]
      cases trimmed : trim field with
      | error e => rfl
      | ok part =>
        rw [ok_bind, ih fewer (by omega), tail, pushPart_eq]
        cases (rest.splitOn ',').mapM trim with
        | error e => rfl
        | ok parts =>
          rw [ok_bind, ok_bind, ok_bind, List.append_assoc, ← List.filter_append]
          rfl

/-- Given a round for each comma `parseName2Vec` ends: with the names of the fields that are not
    empty, or in an exception when a field has none. -/
theorem parseName2Vec_eq (name : List Char) (enough : name.count ',' < rounds) :
    parseName2Vec rounds name =
      if ∀ field ∈ name.splitOn ',', Readable field then .ok (some (namesOf (name.splitOn ',')))
      else .error (.exception "out_of_range") := by
  rw [parseName2Vec, parseLoop_eq name enough (Nat.zero_le _), List.drop_zero, trims_eq]
  split
  · rw [ok_bind, List.nil_append, namesOf]
  · rfl

theorem returns_iff (name : List Char) (names : List (List Char)) :
    Returns parseName2Vec name names ↔
      (∀ field ∈ name.splitOn ',', Readable field) ∧ names = namesOf (name.splitOn ',') := by
  constructor
  · rintro ⟨bound, returned⟩
    have call := returned (bound + name.count ',' + 1) (by omega)
    rw [parseName2Vec_eq name (by omega)] at call
    split at call
    · next readable =>
      cases call
      exact ⟨readable, rfl⟩
    · cases call
  · rintro ⟨readable, rfl⟩
    refine ⟨name.count ',' + 1, fun rounds enough => ?_⟩
    rw [parseName2Vec_eq name enough, if_pos readable]

structure Clean (name : List Char) : Prop where
  nonempty : name ≠ []
  comma : ',' ∉ name
  opening : '[' ∉ name
  closing : ']' ∉ name
  head : name.head? ≠ some ' '
  last : name.getLast? ≠ some ' '

def writtenFrom (field : List Char) (more : List (Nat × List Char)) : List Char :=
  field ++ (more.flatMap fun entry => ',' :: (List.replicate entry.1 ' ' ++ entry.2)) ++ [']']

def written (first : List Char) (more : List (Nat × List Char)) : List Char :=
  writtenFrom ('[' :: first) more

namespace Clean

variable {n : List Char}

theorem head_bracketed (clean : Clean n) (i j : Nat) :
    (List.replicate i '[' ++ n ++ List.replicate j ']').head? ≠ some ' ' := by
  cases i with
  | zero =>
    obtain ⟨x, rest, rfl⟩ := List.exists_cons_of_ne_nil clean.nonempty
    exact clean.head
  | succ i => simp [List.replicate_succ]

theorem last_bracketed (clean : Clean n) (i j : Nat) :
    (List.replicate i '[' ++ n ++ List.replicate j ']').getLast? ≠ some ' ' := by
  cases j with
  | zero =>
    obtain ⟨rest, x, rfl⟩ := (List.eq_nil_or_concat n).resolve_left clean.nonempty
    have last := clean.last
    rw [List.concat_eq_append] at last ⊢
    simpa [← List.append_assoc] using last
  | succ j =>
    rw [List.replicate_succ', ← List.append_assoc]
    simp

theorem stripped_field (clean : Clean n) (k i j : Nat) :
    stripped (List.replicate k ' ' ++ (List.replicate i '[' ++ n ++ List.replicate j ']')) =
      List.replicate i '[' ++ n ++ List.replicate j ']' := by
  have plain := @between_padded _ ' ' ' ' _ (List.replicate k ' ') _ []
    (fun x => List.eq_of_mem_replicate) (by simp) (clean.head_bracketed i j)
    (clean.last_bracketed i j)
  rwa [List.append_nil] at plain

theorem readable_field (clean : Clean n) (k i j : Nat) :
    Readable (List.replicate k ' ' ++ (List.replicate i '[' ++ n ++ List.replicate j ']')) := by
  intro all
  rw [clean.stripped_field] at all
  obtain ⟨x, inside⟩ := List.exists_mem_of_ne_nil n clean.nonempty
  have bracket := all x (by simp [inside])
  exact clean.opening (bracket ▸ inside)

theorem nameOf_field (clean : Clean n) (k i j : Nat) :
    nameOf (List.replicate k ' ' ++ (List.replicate i '[' ++ n ++ List.replicate j ']')) = n := by
  rw [nameOf, clean.stripped_field]
  apply between_padded
  · exact fun x => List.eq_of_mem_replicate
  · exact fun x => List.eq_of_mem_replicate
  · exact fun head => clean.opening (List.mem_of_mem_head? head)
  · exact fun last => clean.closing (List.mem_of_getLast? last)

theorem notMem_field (clean : Clean n) (k i : Nat) :
    ',' ∉ List.replicate k ' ' ++ (List.replicate i '[' ++ n) := by
  simp [clean.comma, List.mem_replicate]

theorem namesOf_cons (clean : Clean n) (k i j : Nat) (fields : List (List Char)) :
    namesOf ((List.replicate k ' ' ++ (List.replicate i '[' ++ n ++ List.replicate j ']')) ::
      fields) = n :: namesOf fields := by
  rw [namesOf, List.map_cons, clean.nameOf_field,
    List.filter_cons_of_pos (by simpa using clean.nonempty), namesOf]

end Clean

theorem splitOn_writtenFrom_nil (absent : ',' ∉ field) :
    (writtenFrom field []).splitOn ',' = [field ++ [']']] := by
  rw [writtenFrom, List.flatMap_nil, List.append_nil]
  apply List.splitOn_eq_singleton
  rw [List.mem_append, not_or]
  exact ⟨absent, by decide⟩

theorem writtenFrom_cons (field : List Char) (entry : Nat × List Char)
    (more : List (Nat × List Char)) : writtenFrom field (entry :: more) =
      field ++ ',' :: writtenFrom (List.replicate entry.1 ' ' ++ entry.2) more := by
  simp [writtenFrom]

theorem names_writtenFrom {more : List (Nat × List Char)} (clean : ∀ entry ∈ more, Clean entry.2)
    {n : List Char} (first : Clean n) (k i : Nat) :
    (∀ field ∈ (writtenFrom (List.replicate k ' ' ++ (List.replicate i '[' ++ n)) more).splitOn ',',
        Readable field) ∧
      namesOf ((writtenFrom (List.replicate k ' ' ++ (List.replicate i '[' ++ n)) more).splitOn ',') =
        n :: more.map Prod.snd := by
  induction more generalizing n k i with
  | nil =>
    have alone : List.replicate k ' ' ++ (List.replicate i '[' ++ n) ++ [']'] =
        List.replicate k ' ' ++ (List.replicate i '[' ++ n ++ List.replicate 1 ']') := by simp
    rw [splitOn_writtenFrom_nil (first.notMem_field k i), alone, first.namesOf_cons,
      List.forall_mem_singleton]
    exact ⟨first.readable_field k i 1, rfl⟩
  | cons entry more ih =>
    obtain ⟨head, tail⟩ := List.forall_mem_cons.mp clean
    have plain : List.replicate k ' ' ++ (List.replicate i '[' ++ n) =
        List.replicate k ' ' ++ (List.replicate i '[' ++ n ++ List.replicate 0 ']') := by simp
    obtain ⟨readable, names⟩ := ih tail head entry.1 0
    rw [List.replicate_zero, List.nil_append] at readable names
    rw [writtenFrom_cons, List.splitOn_append_cons_self_of_not_mem (first.notMem_field k i), plain,
      first.namesOf_cons, names, List.forall_mem_cons]
    exact ⟨⟨first.readable_field k i 0, readable⟩, rfl⟩

theorem returns_written {first : List Char} {more : List (Nat × List Char)} (clean : Clean first)
    (all : ∀ entry ∈ more, Clean entry.2) :
    Returns parseName2Vec (written first more) (first :: more.map Prod.snd) := by
  obtain ⟨readable, names⟩ := names_writtenFrom all clean 0 1
  exact (returns_iff _ _).mpr ⟨readable, names.symm⟩

/-- The cut before a comma leaves the comma, at which the loop stands from then on. -/
theorem parseNameLoop_comma (rest : List Char) (result : List (List Char)) :
    parseNameLoop rounds (',' :: rest) (some 0) result = .ok none := by
  induction rounds generalizing result with
  | zero => rfl
  | succ rounds ih =>
    rw [parseNameLoop, substr_part (Nat.zero_le _), substr_from (Nat.zero_le _), ok_bind, ok_bind,
      List.drop_zero, find_head]
    exact ih _

theorem ParseName_single {first : List Char} (clean : Clean first) :
    ParseName (rounds + 1) (written first []) = .ok (some ['[' :: first]) := by
  have text : written first [] = '[' :: first ++ [']'] := by simp [written, writtenFrom]
  have start : find '[' (written first []) 0 = some 0 := by
    rw [text]
    exact find_head _ _
  have none : find ',' (written first []) 0 = none := by
    apply find_eq_none
    rw [text]
    simp [clean.comma]
  have stop : find ']' (written first []) 0 = some (0 + ('[' :: first).length) := by
    apply find_eq_some
    · rw [List.drop_zero, text]
    · simp [clean.closing]
  rw [ParseName, start, none, substr_from (Nat.zero_le _), ok_bind, parseNameLoop, ok_bind, lastName,
    List.drop_zero, stop, substr_part (Nat.zero_le _), ok_bind, List.drop_zero, Nat.zero_add, text,
    List.take_left, List.nil_append]

theorem ParseName_many {first : List Char} (clean : Clean first) (entry : Nat × List Char)
    (more : List (Nat × List Char)) :
    ParseName rounds (written first (entry :: more)) = .ok none := by
  have text : written first (entry :: more) = '[' :: first ++
      ',' :: writtenFrom (List.replicate entry.1 ' ' ++ entry.2) more := writtenFrom_cons _ _ _
  have start : find '[' (written first (entry :: more)) 0 = some 0 := by
    rw [text]
    exact find_head _ _
  have comma : find ',' (written first (entry :: more)) 0 = some (0 + ('[' :: first).length) := by
    apply find_eq_some
    · rw [List.drop_zero, text]
    · simp [clean.comma]
  have within : ('[' :: first).length ≤ (written first (entry :: more)).length := by
    rw [text, List.length_append]
    exact Nat.le_add_right _ _
  have stuck : parseNameLoop rounds (written first (entry :: more))
      (some (0 + ('[' :: first).length)) [] = .ok none := by
    cases rounds with
    | zero => rfl
    | succ rounds =>
      rw [Nat.zero_add, parseNameLoop, substr_part (Nat.zero_le _), substr_from within, ok_bind,
        ok_bind, text, List.drop_left, find_head]
      exact parseNameLoop_comma _ _
  rw [ParseName, start, comma, substr_from (Nat.zero_le _), ok_bind, List.drop_zero, stuck, ok_bind,
    lastName]

theorem not_returns_ParseName {first : List Char} (clean : Clean first)
    (more : List (Nat × List Char)) :
    ¬ Returns ParseName (written first more) (first :: more.map Prod.snd) := by
  rintro ⟨bound, returned⟩
  have call := returned (bound + 1) (Nat.le_succ bound)
  cases more with
  | nil =>
    rw [ParseName_single clean] at call
    cases call
  | cons entry more =>
    rw [ParseName_many clean] at call
    cases call

/-- On the written lists of clean names `parseName2Vec` returns the names and `ParseName` never does.
    On any string `parseName2Vec` returns the names of the fields that are not empty just when every
    field has more than blanks and opening brackets. -/
theorem successors_parsed_iff {first : List Char} {more : List (Nat × List Char)}
    (clean : Clean first) (all : ∀ entry ∈ more, Clean entry.2) (name : List Char) :
    (Returns parseName2Vec (written first more) (first :: more.map Prod.snd) ∧
        ¬ Returns ParseName (written first more) (first :: more.map Prod.snd)) ∧
      (Returns parseName2Vec name (namesOf (name.splitOn ',')) ↔
        ∀ field ∈ name.splitOn ',', Readable field) := by
  refine ⟨⟨returns_written clean all, not_returns_ParseName clean more⟩, ?_⟩
  rw [returns_iff]
  exact and_iff_left rfl

theorem clean_a : Clean ['a'] := by
  constructor <;> decide

theorem successors_parsed_iff_a :
    (Returns parseName2Vec (written ['a'] [(1, ['a'])]) [['a'], ['a']] ∧
        ¬ Returns ParseName (written ['a'] [(1, ['a'])]) [['a'], ['a']]) ∧
      (Returns parseName2Vec ['a', ',', ' '] (namesOf (['a', ',', ' '].splitOn ',')) ↔
        ∀ field ∈ ['a', ',', ' '].splitOn ',', Readable field) :=
  @successors_parsed_iff ['a'] [(1, ['a'])] clean_a (by simpa using clean_a) ['a', ',', ' ']

theorem successors_misparsed :
    (¬ ∀ (first : List Char) (more : List (Nat × List Char)), Clean first →
      (∀ entry ∈ more, Clean entry.2) →
        Returns parseName2Vec (written first more) (first :: more.map Prod.snd) ∧
          Returns ParseName (written first more) (first :: more.map Prod.snd)) ∧
      ¬ ∀ name : List Char, ∃ names, Returns parseName2Vec name names ∧ [] ∉ names := by
  constructor
  · intro all
    exact not_returns_ParseName clean_a [] (all ['a'] [] clean_a (by simp)).2
  · intro all
    obtain ⟨names, returned, _⟩ := all []
    have readable := ((returns_iff [] names).mp returned).1
    have none : stripped [] = [] := between_of_all (by simp)
    exact readable [] (by simp) (by simp [none])

end TileExp.Model
