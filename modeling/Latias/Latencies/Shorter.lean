import Latias.Latencies.Unicast

/-! Latencies that get shorter without vanishing make shorter tiles that do not vanish. -/

namespace TileExp.Analysis

open Checked

/-- At least zero and at most another latency, which vanishes with it. -/
structure Shorter (n m : Int) : Prop where
  nonneg : 0 ≤ n
  le : n ≤ m
  vanishes : n = 0 → m = 0

namespace Shorter

variable {a b c d : Int} {l l' : List Int}

theorem refl (nonneg : 0 ≤ a) : Shorter a a := ⟨nonneg, Int.le_refl a, id⟩

theorem natCast {n m : Nat} (le : n ≤ m) (vanishes : n = 0 → m = 0) : Shorter n m := by
  constructor <;> omega

theorem add (first : Shorter a b) (second : Shorter c d) : Shorter (a + c) (b + d) := by
  obtain ⟨nonneg, le, vanishes⟩ := first
  obtain ⟨nonneg', le', vanishes'⟩ := second
  constructor <;> omega

theorem longest (first : Shorter a b) (second : Shorter c d) : Shorter (max a c) (max b d) := by
  obtain ⟨nonneg, le, vanishes⟩ := first
  obtain ⟨nonneg', le', vanishes'⟩ := second
  constructor <;> omega

theorem sum (all : List.Forall₂ Shorter l l') : Shorter l.sum l'.sum := by
  induction all with
  | nil => exact refl (Int.le_refl 0)
  | cons here _ ih =>
    rw [List.sum_cons, List.sum_cons]
    exact here.add ih

theorem peak (all : List.Forall₂ Shorter l l') : Shorter (Rounds.peak l) (Rounds.peak l') := by
  induction all with
  | nil => exact refl (Int.le_refl 0)
  | cons here _ ih =>
    rw [Rounds.peak_cons, Rounds.peak_cons]
    exact here.longest ih

theorem slowest (all : List.Forall₂ Shorter l l') (width rounds : Nat) :
    Shorter (Rounds.slowest width rounds l) (Rounds.slowest width rounds l') := by
  unfold Rounds.slowest
  induction rounds with
  | zero => exact refl (Int.le_refl 0)
  | succ rounds ih =>
    rw [Finset.sum_range_succ, Finset.sum_range_succ]
    exact ih.add (peak (List.forall₂_take width (List.forall₂_drop (rounds * width) all)))

end Shorter

structure ShorterEntry (entry entry' : Latency) : Prop where
  input_latency_ : Shorter entry.input_latency_ entry'.input_latency_
  output_latency_ : Shorter entry.output_latency_ entry'.output_latency_
  process_latency_ : Shorter entry.process_latency_ entry'.process_latency_

def ShorterRows : List (List Latency) → List (List Latency) → Prop :=
  List.Forall₂ (List.Forall₂ ShorterEntry)

structure BlockLatency.Shorter (block block' : BlockLatency) : Prop where
  input_latency_ : Analysis.Shorter block.input_latency_ block'.input_latency_
  process_latency_ : Analysis.Shorter block.process_latency_ block'.process_latency_
  output_latency_ : Analysis.Shorter block.output_latency_ block'.output_latency_

variable {ev : Evaluator} {node : NodePtr} {scope_type : ScopeType} {row row' : List Latency}
  {rows rows' : List (List Latency)} {entry entry' : Latency} {child_num : Nat}
  {dm_latency dm_latency' : Int} {result result' : BlockLatency} {blocks blocks' : List BlockLatency}

theorem linkLatency_shorter (exact : ∀ n, ev.toInt n = n) (con_type : ConType)
    (before : Shorter dm_latency dm_latency') (here : ShorterEntry entry entry') :
    Shorter (linkLatency ev con_type dm_latency entry) (linkLatency ev con_type dm_latency' entry') := by
  unfold linkLatency
  cases con_type with
  | HD =>
    simp only [exact]
    exact here.input_latency_.add here.output_latency_
  | FD =>
    simp only [exact]
    exact here.input_latency_.longest here.output_latency_
  | UC => exact before
  | BC => exact before
  | Ring => exact before
  | Mesh => exact before

theorem addChildLatency_shorter (link : Shorter dm_latency dm_latency')
    (here : ShorterEntry entry entry') (before : result.Shorter result') :
    (addChildLatency scope_type dm_latency entry result).Shorter
      (addChildLatency scope_type dm_latency' entry' result') := by
  obtain ⟨input, output, process⟩ := here
  cases scope_type with
  | Sequential =>
    exact ⟨before.input_latency_.add (output.add input), before.process_latency_.add process,
      before.output_latency_.add (output.add input)⟩
  | Parallel =>
    exact ⟨before.input_latency_.longest input, before.process_latency_.longest process,
      before.output_latency_.longest output⟩
  | Pipeline =>
    exact ⟨before.input_latency_.add link, before.process_latency_.add process,
      before.output_latency_.add link⟩
  | Sharing => exact before
  | Ring => exact before
  | Mesh => exact before

theorem rowLatency_shorter (exact : ∀ n, ev.toInt n = n) (all : List.Forall₂ ShorterEntry row row')
    (carried : Shorter dm_latency dm_latency') (before : result.Shorter result') :
    (rowLatency ev node scope_type child_num dm_latency result row).Shorter
      (rowLatency ev node scope_type child_num dm_latency' result' row') := by
  induction all generalizing child_num dm_latency dm_latency' result result' with
  | nil => exact before
  | cons here _ ih =>
    have link := linkLatency_shorter exact (ev.linkType node child_num) carried here
    exact ih link (addChildLatency_shorter link here before)

theorem blockOf_shorter (exact : ∀ n, ev.toInt n = n) (all : List.Forall₂ ShorterEntry row row') :
    (blockOf ev node scope_type row).Shorter (blockOf ev node scope_type row') := by
  have none : Shorter 0 0 := Shorter.refl (Int.le_refl 0)
  exact rowLatency_shorter exact all none ⟨none, none, none⟩

theorem tileBlocks_shorter (exact : ∀ n, ev.toInt n = n) (all : ShorterRows rows rows') :
    List.Forall₂ BlockLatency.Shorter (ev.tileBlocks node rows) (ev.tileBlocks node rows') := by
  unfold Evaluator.tileBlocks
  rw [List.forall₂_map_left_iff, List.forall₂_map_right_iff]
  exact all.imp fun _ _ here => blockOf_shorter exact here

theorem forall₂_shorter_map (all : List.Forall₂ BlockLatency.Shorter blocks blocks')
    (f : BlockLatency → Int) (keeps : ∀ a b : BlockLatency, a.Shorter b → Shorter (f a) (f b)) :
    List.Forall₂ Shorter (blocks.map f) (blocks'.map f) := by
  rw [List.forall₂_map_left_iff, List.forall₂_map_right_iff]
  exact all.imp keeps

theorem BlockLatency.Shorter.all {block block' : BlockLatency} (here : block.Shorter block') :
    Analysis.Shorter block.all block'.all :=
  (here.input_latency_.add here.output_latency_).add here.process_latency_

theorem tileLatency_shorter (exact : ∀ n, ev.toInt n = n) (all : ShorterRows rows rows')
    {temporal : Bool} {link : InterConNode} (plain : temporal = false → link.con_type_ ≠ .UC) :
    Shorter (tileLatency temporal link (ev.tileBlocks node rows))
      (tileLatency temporal link (ev.tileBlocks node rows')) := by
  have blocks := @tileBlocks_shorter ev node rows rows' exact all
  unfold tileLatency
  cases temporal with
  | true =>
    have input := Shorter.sum (forall₂_shorter_map blocks _ fun _ _ here => here.input_latency_)
    have process := Shorter.sum (forall₂_shorter_map blocks _ fun _ _ here => here.process_latency_)
    have output := Shorter.sum (forall₂_shorter_map blocks _ fun _ _ here => here.output_latency_)
    exact (input.longest process).longest output
  | false =>
    rw [if_neg Bool.false_ne_true, if_neg Bool.false_ne_true, blocks.length_eq]
    have none : Shorter 0 0 := Shorter.refl (Int.le_refl 0)
    cases kind : link.con_type_ with
    | UC => exact absurd kind (plain rfl)
    | BC => exact Shorter.slowest (forall₂_shorter_map blocks _ fun _ _ here => here.all) _ _
    | HD => exact none
    | FD => exact none
    | Ring => exact none
    | Mesh => exact none

theorem transferLatency_natCast (exact : ∀ n, ev.toInt n = n) {n bandwidth : Nat} {latency : Int}
    (call : transferLatency ev n bandwidth = .ok latency) :
    bandwidth ≠ 0 ∧ latency = ((n + bandwidth - 1) / bandwidth : Nat) := by
  obtain ⟨quotient, division, result⟩ := bind_eq_ok.mp call
  cases result
  obtain ⟨positive, rfl⟩ := divide_eq_ok division
  have sum : (n : Int) + bandwidth - 1 = (n + bandwidth - 1 : Nat) := by omega
  rw [exact, sum, Int.ofNat_tdiv]
  exact ⟨positive, rfl⟩

theorem ceil_div_succ (n : Nat) {width : Nat} (positive : width ≠ 0) :
    (n + 1 + width - 1) / width = n / width + 1 := by
  have shift : n + 1 + width - 1 = n + width := by omega
  rw [shift, Nat.add_div_right n (Nat.pos_of_ne_zero positive)]

/-- More bandwidth makes a transfer shorter, but does not make it vanish. -/
theorem transferLatency_shorter (exact : ∀ n, ev.toInt n = n) {data_movement latency latency' : Int}
    {bandwidth bandwidth' : Nat} (nonneg : 0 ≤ data_movement) (wider : bandwidth' ≤ bandwidth)
    (call : transferLatency ev data_movement bandwidth = .ok latency)
    (call' : transferLatency ev data_movement bandwidth' = .ok latency') : Shorter latency latency' := by
  obtain ⟨n, rfl⟩ := Int.eq_ofNat_of_zero_le nonneg
  obtain ⟨positive, rfl⟩ := transferLatency_natCast exact call
  obtain ⟨positive', rfl⟩ := transferLatency_natCast exact call'
  cases n with
  | zero =>
    have none {width : Nat} (some : width ≠ 0) : (0 + width - 1) / width = 0 :=
      Nat.div_eq_of_lt (by omega)
    rw [none positive, none positive']
    exact Shorter.refl (Int.le_refl 0)
  | succ n =>
    rw [ceil_div_succ n positive, ceil_div_succ n positive']
    have widths : n / bandwidth ≤ n / bandwidth' :=
      Nat.div_le_div_left wider (Nat.pos_of_ne_zero positive')
    exact Shorter.natCast (Nat.succ_le_succ widths) fun none => by cases none

end TileExp.Analysis
