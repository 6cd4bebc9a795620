import Latias.Common
import Latias.Library.DepthFirst
import Latias.Library.Numbering
import Mathlib.Data.Set.Card

/-! `Graph`: the levels of the architecture, each with the levels that succeed it, and their
    numbering by `BFS`. -/

namespace TileExp.Model

open DepthFirst Numbering

/-- The members of `Graph` that its edges and `BFS` use. `Idx` is an `unsigned`. -/
structure Graph where
  GraphList : Table (List String)
  Idx : Nat
  TopologyName2Id : Table Nat
  TopologyId2Name : AList fun _ : Nat => String

/-- What `GraphList[name]` holds: an absent name gets an empty vector. -/
def dests (GraphList : Table (List String)) (name : String) : List String :=
  (GraphList.lookup name).getD []

namespace Graph

def fresh (GraphList : Table (List String)) : Graph := ⟨GraphList, 0, ∅, ∅⟩

def AddVertex (g : Graph) (Name : String) : Graph :=
  if Name ∈ g.GraphList then g else { g with GraphList := g.GraphList.insert Name [] }

def addDest (Name : String) (g : Graph) (node : String) : Graph :=
  let g := g.AddVertex node
  { g with GraphList := g.GraphList.insert Name (dests g.GraphList Name ++ [node]) }

def AddEdge (g : Graph) (Name : String) (dest_node : List String) : Graph :=
  dest_node.foldl (addDest Name) (g.AddVertex Name)

def number (g : Graph) (NodeName : String) : Graph :=
  { g with
    TopologyName2Id := g.TopologyName2Id.insert NodeName g.Idx
    TopologyId2Name := g.TopologyId2Name.insert g.Idx NodeName
    Idx := (g.Idx + 1) % 2 ^ 32 }

/-- `BFS`, on the graph and `Visited`; `none` when it needs more calls inside each other. -/
def BFS : Nat → String → Graph × Finset String → Option (Graph × Finset String)
  | 0, _, _ => none
  | fuel + 1, NodeName, (g, Visited) =>
    if NodeName ∈ Visited then some (g, Visited)
    else
      -- `GraphList[NodeName]` inserts the name if it is absent
      let g := (g.number NodeName).AddVertex NodeName
      let wait_list := dests g.GraphList NodeName
      wait_list.foldlM (fun s dest => BFS fuel dest s) (g, insert NodeName Visited)

variable {g : Graph} {GraphList : Table (List String)} {name start : String} {fuel : Nat}
  {s s' : Graph × Finset String} {order : List String}

@[simp] theorem dests_AddVertex (g : Graph) (Name : String) :
    dests (g.AddVertex Name).GraphList = dests g.GraphList := by
  funext name
  unfold AddVertex
  split
  · rfl
  · next absent =>
    by_cases here : name = Name
    · subst here
      simp [dests, AList.lookup_eq_none.mpr absent]
    · simp [dests, AList.lookup_insert_ne here]

theorem mem_AddVertex {Name : String} :
    name ∈ (g.AddVertex Name).GraphList ↔ name = Name ∨ name ∈ g.GraphList := by
  unfold AddVertex
  split
  · next present =>
    refine ⟨Or.inr, ?_⟩
    rintro (rfl | member)
    · exact present
    · exact member
  · exact AList.mem_insert _

def Closed (GraphList : Table (List String)) : Prop :=
  ∀ name, ∀ dest ∈ dests GraphList name, dest ∈ GraphList

theorem Closed.AddVertex (closed : Closed g.GraphList) (Name : String) :
    Closed (g.AddVertex Name).GraphList := by
  intro name dest succ
  rw [dests_AddVertex] at succ
  exact mem_AddVertex.mpr (Or.inr (closed name dest succ))

theorem Closed.addDest (closed : Closed g.GraphList) (Name node : String) :
    Closed (g.addDest Name node).GraphList := by
  intro name dest succ
  have old {a : String} (member : a ∈ (g.AddVertex node).GraphList) :
      a ∈ (g.addDest Name node).GraphList := (AList.mem_insert _).mpr (Or.inr member)
  by_cases own : name = Name
  · subst own
    rw [Graph.addDest, dests, AList.lookup_insert, Option.getD_some, List.mem_append,
      List.mem_singleton] at succ
    rcases succ with succ | rfl
    · exact old (closed.AddVertex node name dest succ)
    · exact old (mem_AddVertex.mpr (Or.inl rfl))
  · rw [Graph.addDest, dests, AList.lookup_insert_ne own] at succ
    exact old (closed.AddVertex node name dest succ)

theorem Closed.AddEdge (closed : Closed g.GraphList) (Name : String) (dest_node : List String) :
    Closed (g.AddEdge Name dest_node).GraphList ∧
      ∀ name, name = Name ∨ name ∈ g.GraphList → name ∈ (g.AddEdge Name dest_node).GraphList := by
  have added : ∀ (l : List String) (g : Graph), Closed g.GraphList →
      Closed (l.foldl (Graph.addDest Name) g).GraphList ∧
        ∀ name ∈ g.GraphList, name ∈ (l.foldl (Graph.addDest Name) g).GraphList := by
    intro l
    induction l with
    | nil => exact fun g closed => ⟨closed, fun _ => id⟩
    | cons node l ih =>
      intro g closed
      obtain ⟨all, more⟩ := ih (g.addDest Name node) (closed.addDest Name node)
      refine ⟨all, fun name member => more name ?_⟩
      exact (AList.mem_insert _).mpr (Or.inr (mem_AddVertex.mpr (Or.inr member)))
  obtain ⟨all, more⟩ := added dest_node (g.AddVertex Name) (closed.AddVertex Name)
  exact ⟨all, fun name member => more name (mem_AddVertex.mpr member)⟩

def BuildGraph (levels : List (String × List String)) : Graph :=
  levels.foldl (fun g level => g.AddEdge level.1 level.2) (fresh ∅)

theorem closed_BuildGraph (levels : List (String × List String)) :
    Closed (BuildGraph levels).GraphList ∧
      ∀ level ∈ levels, level.1 ∈ (BuildGraph levels).GraphList := by
  induction levels using List.reverseRecOn with
  | nil =>
    refine ⟨fun name dest succ => ?_, by simp⟩
    cases succ
  | append_singleton levels level ih =>
    obtain ⟨closed, names⟩ := ih
    rw [BuildGraph, List.foldl_append]
    obtain ⟨all, more⟩ := closed.AddEdge level.1 level.2
    refine ⟨all, fun other member => more other.1 ?_⟩
    rcases List.mem_append.mp member with early | last
    · exact Or.inr (names other early)
    · rw [List.mem_singleton.mp last]
      exact Or.inl rfl

theorem unnumbered_BuildGraph (levels : List (String × List String)) :
    BuildGraph levels = fresh (BuildGraph levels).GraphList := by
  have vertex {g : Graph} {Name : String} (unnumbered : g = fresh g.GraphList) :
      g.AddVertex Name = fresh (g.AddVertex Name).GraphList := by
    rw [unnumbered, Graph.AddVertex]
    split <;> rfl
  have added : ∀ (Name : String) (l : List String) (g : Graph), g = fresh g.GraphList →
      l.foldl (Graph.addDest Name) g = fresh (l.foldl (Graph.addDest Name) g).GraphList := by
    intro Name l
    induction l with
    | nil => exact fun g => id
    | cons node l ih =>
      intro g unnumbered
      refine ih _ ?_
      have before := @vertex g node unnumbered
      rw [Graph.addDest, before]
      rfl
  induction levels using List.reverseRecOn with
  | nil => rfl
  | append_singleton levels level ih =>
    rw [BuildGraph, List.foldl_append]
    exact added level.1 level.2 _ (vertex ih)

theorem BFS_succ (call : BFS fuel name s = some s') : BFS (fuel + 1) name s = some s' := by
  induction fuel generalizing name s s' with
  | zero => cases call
  | succ fuel ih =>
    rw [BFS] at call ⊢
    split
    · next visited => rwa [if_pos visited] at call
    · next unseen =>
      rw [if_neg unseen] at call
      obtain ⟨_, run, rfl⟩ := foldlM_related call rfl (R := Eq)
        (g := fun s dest => BFS (fuel + 1) dest s) fun dest s t t' same first =>
          ⟨t', by rw [same]; exact ih first, rfl⟩
      exact run

theorem BFS_of_le {bound : Nat} (call : BFS bound name s = some s') (le : bound ≤ fuel) :
    BFS fuel name s = some s' := by
  induction le with
  | refl => exact call
  | step _ ih => exact BFS_succ ih

/-- What a walk that has entered the names in this order has made of a fresh graph. -/
structure Walked (GraphList : Table (List String)) (s : Graph × Finset String)
    (order : List String) : Prop where
  dests : dests s.1.GraphList = dests GraphList
  kept : (∀ name ∈ order, name ∈ GraphList) → s.1.GraphList = GraphList
  index : s.1.Idx = order.length % 2 ^ 32
  names : s.1.TopologyName2Id = byName (2 ^ 32) order
  ids : s.1.TopologyId2Name = byId (2 ^ 32) order
  visited : s.2 = order.toFinset

theorem walked_fresh (GraphList : Table (List String)) :
    Walked GraphList (fresh GraphList, ∅) [] := by
  constructor <;> simp [fresh]

theorem Walked.enter (walked : Walked GraphList s order) (name : String) :
    Walked GraphList ((s.1.number name).AddVertex name, insert name s.2) (order ++ [name]) := by
  have same {g : Graph} : (g.AddVertex name).Idx = g.Idx ∧
      (g.AddVertex name).TopologyName2Id = g.TopologyName2Id ∧
        (g.AddVertex name).TopologyId2Name = g.TopologyId2Name := by
    unfold AddVertex
    split <;> exact ⟨rfl, rfl, rfl⟩
  constructor
  · rw [dests_AddVertex]
    exact walked.dests
  · intro present
    have before := walked.kept fun a member => present a (List.mem_append_left _ member)
    have here : name ∈ (s.1.number name).GraphList := by
      rw [number, before]
      exact present name (by simp)
    rw [AddVertex, if_pos here]
    exact before
  · rw [same.1, number, walked.index, Nat.mod_add_mod, List.length_append, List.length_singleton]
  · rw [same.2.1, number, walked.names, walked.index, byName_append]
  · rw [same.2.2, number, walked.ids, walked.index, byId_append]
  · ext a
    simp [walked.visited]

theorem exists_BFS_of_walk {order' : List String} (walked : Walked GraphList s order)
    (walks : walk (dests GraphList) fuel name order = some order') :
    ∃ s', BFS fuel name s = some s' ∧ Walked GraphList s' order' := by
  refine exists_of_walk ?_ ?_ walked walks
  · intro fuel name s order walked member
    have seen : name ∈ s.2 := by
      rw [walked.visited, List.mem_toFinset]
      exact member
    rw [BFS, if_pos seen]
  · intro fuel name s order walked fresh
    have unseen : name ∉ s.2 := by
      rw [walked.visited, List.mem_toFinset]
      exact fresh
    refine ⟨_, walked.enter name, ?_⟩
    have wait_list := congrFun (walked.enter name).dests name
    rw [BFS, if_neg unseen, ← wait_list]

def nodes (GraphList : Table (List String)) (start : String) : Finset String :=
  insert start (GraphList.entries.flatMap fun entry => entry.2).toFinset

theorem mem_nodes_of_dest {a b : String} (succ : b ∈ Model.dests GraphList a) :
    b ∈ nodes GraphList start := by
  rw [Model.dests] at succ
  cases found : GraphList.lookup a with
  | none =>
    rw [found] at succ
    cases succ
  | some l =>
    rw [found] at succ
    apply Finset.mem_insert_of_mem
    rw [List.mem_toFinset, List.mem_flatMap]
    exact ⟨⟨a, l⟩, AList.mem_lookup_iff.mp found, succ⟩

theorem exists_BFS (GraphList : Table (List String)) (start : String) :
    ∃ s order bound, (∀ fuel, bound ≤ fuel → BFS fuel start (fresh GraphList, ∅) = some s) ∧
      Walked GraphList s order ∧ order.Nodup ∧ order.head? = some start ∧
        ∀ name, name ∈ order ↔ Reaches (dests GraphList) start name := by
  obtain ⟨order, walks⟩ := @walk_total _ (dests GraphList) start _ [] _ (nodes GraphList start)
    (fun _ _ _ succ => mem_nodes_of_dest succ) (Finset.mem_insert_self start _)
    (Nat.lt_succ_self _)
  obtain ⟨s, call, walked⟩ := exists_BFS_of_walk (walked_fresh GraphList) walks
  exact ⟨s, order, _, fun fuel => BFS_of_le call, walked, nodup_walk walks, head?_walk walks,
    fun name => mem_walk_iff walks⟩

theorem BFS_BuildGraph {levels : List (String × List String)} {root : String × List String}
    (level : root ∈ levels) :
    ∃ s bound, (∀ fuel, bound ≤ fuel → BFS fuel root.1 (BuildGraph levels, ∅) = some s) ∧
      s.1.GraphList = (BuildGraph levels).GraphList := by
  obtain ⟨closed, names⟩ := closed_BuildGraph levels
  obtain ⟨s, order, bound, call, walked, -, -, entered⟩ :=
    exists_BFS (BuildGraph levels).GraphList root.1
  rw [← unnumbered_BuildGraph] at call
  refine ⟨s, bound, call, walked.kept fun name member => ?_⟩
  induction (entered name).mp member with
  | refl => exact names root level
  | tail _ succ _ => exact closed _ _ succ

def Numbers (g : Graph) (GraphList : Table (List String)) (start : String) : Prop :=
  (∃ k, Bijective g.TopologyName2Id g.TopologyId2Name (Reaches (dests GraphList) start) k) ∧
    g.TopologyName2Id.lookup start = some 0

theorem Walked.numbers_iff (walked : Walked GraphList s order) (distinct : order.Nodup)
    (first : order.head? = some start)
    (entered : ∀ name, name ∈ order ↔ Reaches (Model.dests GraphList) start name) :
    s.1.Numbers GraphList start ↔ order.length ≤ 2 ^ 32 := by
  rw [Numbers, walked.names, walked.ids]
  constructor
  · rintro ⟨⟨k, bijective⟩, -⟩
    exact fits_of_inverse distinct (Nat.two_pow_pos 32) bijective.inverse
  · intro fits
    refine ⟨⟨order.length, ?_⟩, ?_⟩
    · have bijective := bijective_of_fits distinct fits
      exact ⟨bijective.inverse, fun name => (bijective.names name).trans (entered name),
        bijective.ids⟩
    · rw [List.head?_eq_getElem?] at first
      exact (lookup_byName distinct).mpr ⟨0, first, Nat.zero_mod _⟩

theorem ncard_reached (distinct : order.Nodup)
    (entered : ∀ name, name ∈ order ↔ Reaches (Model.dests GraphList) start name) :
    {name | Reaches (Model.dests GraphList) start name}.ncard = order.length := by
  have same : {name | Reaches (Model.dests GraphList) start name} = (order.toFinset : Set String) := by
    ext name
    simp [entered]
  rw [same, Set.ncard_coe_finset, List.toFinset_card_of_nodup distinct]

/-- From a fresh graph `BFS` ends on every map, and numbers what the start reaches just when those
    are at most 2^32 names. -/
theorem BFS_numbers_iff (GraphList : Table (List String)) (start : String) :
    ∃ s bound, (∀ fuel, bound ≤ fuel → BFS fuel start (fresh GraphList, ∅) = some s) ∧
      (s.1.Numbers GraphList start ↔
        {name | Reaches (Model.dests GraphList) start name}.ncard ≤ 2 ^ 32) := by
  obtain ⟨s, order, bound, call, walked, distinct, first, entered⟩ := exists_BFS GraphList start
  refine ⟨s, bound, call, ?_⟩
  rw [ncard_reached distinct entered]
  exact walked.numbers_iff distinct first entered

def star (n : Nat) : Table (List String) :=
  AList.insert "0" ((List.range n).map toString) ∅

theorem le_length_of_star (n : Nat)
    (entered : ∀ name, name ∈ order ↔ Reaches (Model.dests (star n)) "0" name) :
    n ≤ order.length := by
  have inside : (List.range n).map toString ⊆ order := by
    intro name member
    refine (entered name).mpr (Relation.ReflTransGen.single ?_)
    rwa [Model.dests, star, AList.lookup_insert]
  have shorter := ((List.nodup_range.map Keys.toString_nat_injective).subperm inside).length_le
  rwa [List.length_map, List.length_range] at shorter

/-- With 2^32 + 1 names `Idx` wraps, and the last name overwrites the first. -/
theorem numbers_wrap :
    ¬ ∃ s bound,
      (∀ fuel, bound ≤ fuel → BFS fuel "0" (fresh (star (2 ^ 32 + 1)), ∅) = some s) ∧
        s.1.Numbers (star (2 ^ 32 + 1)) "0" := by
  rintro ⟨s, bound, call, numbers⟩
  obtain ⟨s', order, bound', call', walked, distinct, first, entered⟩ :=
    exists_BFS (star (2 ^ 32 + 1)) "0"
  have same := (call (max bound bound') (le_max_left _ _)).symm.trans
    (call' (max bound bound') (le_max_right _ _))
  cases same
  have fits := (walked.numbers_iff distinct first entered).mp numbers
  have long := le_length_of_star (2 ^ 32 + 1) entered
  omega

end Graph

end TileExp.Model
