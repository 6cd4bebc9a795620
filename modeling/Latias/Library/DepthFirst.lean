import Mathlib.Data.Finset.Card
import Mathlib.Data.List.Nodup
import Mathlib.Logic.Relation

/-! The depth-first walk of a graph, as the list of the nodes in the order in which it enters them. -/

namespace DepthFirst

variable {α : Type} {succs : α → List α} {node a : α} {fuel : Nat} {entered entered' : List α}

def Reaches (succs : α → List α) : α → α → Prop :=
  Relation.ReflTransGen fun a b => b ∈ succs a

/-- What the walk from some nodes adds to the nodes entered before. -/
structure Extends (succs : α → List α) (starts entered entered' : List α) : Prop where
  kept : entered <+: entered'
  begun : ∀ a ∈ starts, a ∈ entered'
  nodup : entered.Nodup → entered'.Nodup
  reached : ∀ a ∈ entered', a ∈ entered ∨ ∃ start ∈ starts, Reaches succs start a
  closed : ∀ a ∈ entered', a ∈ entered ∨ ∀ b ∈ succs a, b ∈ entered'

theorem Extends.refl (entered : List α) : Extends succs [] entered entered :=
  ⟨List.prefix_rfl, by simp, id, fun _ => Or.inl, fun _ => Or.inl⟩

theorem Extends.trans {starts starts' middle : List α} (first : Extends succs starts entered middle)
    (second : Extends succs starts' middle entered') :
    Extends succs (starts ++ starts') entered entered' := by
  refine ⟨first.kept.trans second.kept, ?_, fun nodup => second.nodup (first.nodup nodup), ?_, ?_⟩
  · intro a member
    rcases List.mem_append.mp member with early | late
    · exact second.kept.subset (first.begun a early)
    · exact second.begun a late
  · intro a member
    rcases second.reached a member with early | ⟨start, inside, path⟩
    · refine (first.reached a early).imp_right ?_
      rintro ⟨start, inside, path⟩
      exact ⟨start, List.mem_append_left starts' inside, path⟩
    · exact Or.inr ⟨start, List.mem_append_right starts inside, path⟩
  · intro a member
    rcases second.closed a member with early | all
    · refine (first.closed a early).imp_right fun all b succ => ?_
      exact second.kept.subset (all b succ)
    · exact Or.inr all

theorem Extends.enter (fresh : node ∉ entered)
    (rest : Extends succs (succs node) (entered ++ [node]) entered') :
    Extends succs [node] entered entered' := by
  have own : node ∈ entered' := rest.kept.subset (by simp)
  have before : ∀ a, a ∈ entered ++ [node] → a ∈ entered ∨ a = node := by simp
  refine ⟨(List.prefix_append entered [node]).trans rest.kept, ?_, ?_, ?_, ?_⟩
  · intro a member
    rwa [List.mem_singleton.mp member]
  · intro nodup
    apply rest.nodup
    rw [List.nodup_append]
    refine ⟨nodup, List.nodup_singleton node, ?_⟩
    intro a member b single
    rw [List.mem_singleton.mp single]
    exact fun same => fresh (same ▸ member)
  · intro a member
    rcases rest.reached a member with early | ⟨start, succ, path⟩
    · refine (before a early).imp_right ?_
      rintro rfl
      exact ⟨a, List.mem_singleton_self a, Relation.ReflTransGen.refl⟩
    · exact Or.inr ⟨node, List.mem_singleton_self node, Relation.ReflTransGen.head succ path⟩
  · intro a member
    rcases rest.closed a member with early | all
    · refine (before a early).imp_right ?_
      rintro rfl
      exact rest.begun
    · exact Or.inr all

theorem extends_foldlM {f : List α → α → Option (List α)}
    (step : ∀ dest entered entered', f entered dest = some entered' →
      Extends succs [dest] entered entered') {starts : List α}
    (run : starts.foldlM f entered = some entered') : Extends succs starts entered entered' := by
  induction starts generalizing entered with
  | nil =>
    cases run
    exact Extends.refl _
  | cons dest starts ih =>
    rw [List.foldlM_cons] at run
    obtain ⟨between, first, rest⟩ := Option.bind_eq_some_iff.mp run
    exact (step dest entered between first).trans (ih rest)

theorem exists_foldlM {σ : Type} {f : σ → α → Option σ} {Inv : σ → Prop} {l : List α} {s : σ}
    (start : Inv s) (step : ∀ a ∈ l, ∀ s, Inv s → ∃ s', f s a = some s' ∧ Inv s') :
    ∃ s', l.foldlM f s = some s' := by
  induction l generalizing s with
  | nil => exact ⟨s, rfl⟩
  | cons a l ih =>
    obtain ⟨middle, first, kept⟩ := step a List.mem_cons_self s start
    obtain ⟨s', rest⟩ := ih kept fun b member => step b (List.mem_cons_of_mem a member)
    exact ⟨s', by rw [List.foldlM_cons, first]; exact rest⟩

theorem foldlM_related {σ τ : Type} {R : σ → τ → Prop} {f : τ → α → Option τ}
    {g : σ → α → Option σ} {l : List α} {s : σ} {t t' : τ} (run : l.foldlM f t = some t')
    (start : R s t)
    (step : ∀ a s t t', R s t → f t a = some t' → ∃ s', g s a = some s' ∧ R s' t') :
    ∃ s', l.foldlM g s = some s' ∧ R s' t' := by
  induction l generalizing s t with
  | nil =>
    cases run
    exact ⟨s, rfl, start⟩
  | cons a l ih =>
    rw [List.foldlM_cons] at run
    obtain ⟨middle, first, rest⟩ := Option.bind_eq_some_iff.mp run
    obtain ⟨s₁, first', related⟩ := step a s t middle start first
    obtain ⟨s', rest', last⟩ := ih rest related
    exact ⟨s', by rw [List.foldlM_cons, first']; exact rest', last⟩

variable [DecidableEq α]

def walk (succs : α → List α) : Nat → α → List α → Option (List α)
  | 0, _, _ => none
  | fuel + 1, node, entered =>
    if node ∈ entered then some entered
    else (succs node).foldlM (fun entered dest => walk succs fuel dest entered) (entered ++ [node])

theorem walk_extends (run : walk succs fuel node entered = some entered') :
    Extends succs [node] entered entered' := by
  induction fuel generalizing node entered entered' with
  | zero => cases run
  | succ fuel ih =>
    rw [walk] at run
    split at run
    · next member =>
      cases run
      refine ⟨List.prefix_rfl, ?_, id, fun _ => Or.inl, fun _ => Or.inl⟩
      intro a single
      rwa [List.mem_singleton.mp single]
    · next fresh => exact Extends.enter fresh (extends_foldlM (fun _ _ _ => ih) run)

/-- The walk ends in any finite set that holds the node and all successors: with every nested call
    there is one node less to enter. -/
theorem walk_total {nodes : Finset α} (closed : ∀ a ∈ nodes, ∀ b ∈ succs a, b ∈ nodes)
    (member : node ∈ nodes) (enough : (nodes \ entered.toFinset).card < fuel) :
    ∃ entered', walk succs fuel node entered = some entered' := by
  induction fuel generalizing node entered with
  | zero => exact absurd enough (Nat.not_lt_zero _)
  | succ fuel ih =>
    rw [walk]
    split
    · exact ⟨entered, rfl⟩
    · next fresh =>
      refine @exists_foldlM α (List α) _ (fun entered => (nodes \ entered.toFinset).card < fuel)
        _ _ ?_ ?_
      · have entering : nodes \ (entered ++ [node]).toFinset =
            (nodes \ entered.toFinset).erase node := by
          ext a
          simp [and_left_comm, not_or]
        have here : node ∈ nodes \ entered.toFinset := by simp [member, fresh]
        have some := Finset.card_pos.mpr ⟨node, here⟩
        rw [entering, Finset.card_erase_of_mem here]
        omega
      · intro dest succ middle enough
        obtain ⟨between, first⟩ := ih (closed node member dest succ) enough
        have grown : nodes \ between.toFinset ⊆ nodes \ middle.toFinset := by
          apply Finset.sdiff_subset_sdiff (Finset.Subset.refl nodes)
          intro a old
          exact List.mem_toFinset.mpr ((walk_extends first).kept.subset (List.mem_toFinset.mp old))
        exact ⟨between, first, Nat.lt_of_le_of_lt (Finset.card_le_card grown) enough⟩

/-- From an empty list the walk enters exactly the nodes that its start reaches, each once and the
    start first. -/
theorem mem_walk_iff (run : walk succs fuel node [] = some entered) :
    a ∈ entered ↔ Reaches succs node a := by
  have walked := walk_extends run
  constructor
  · intro member
    rcases walked.reached a member with before | ⟨start, single, path⟩
    · cases before
    · rwa [List.mem_singleton.mp single] at path
  · intro path
    induction path with
    | refl => exact walked.begun node (List.mem_singleton_self node)
    | tail _ succ ih =>
      exact (walked.closed _ ih).resolve_left List.not_mem_nil _ succ

theorem nodup_walk (run : walk succs fuel node [] = some entered) : entered.Nodup :=
  (walk_extends run).nodup List.nodup_nil

theorem head?_walk (run : walk succs fuel node [] = some entered) : entered.head? = some node := by
  cases fuel with
  | zero => cases run
  | succ fuel =>
    rw [walk, if_neg List.not_mem_nil] at run
    obtain ⟨rest, rfl⟩ := (extends_foldlM (fun _ _ _ => walk_extends) run).kept
    rfl

/-- A procedure that skips the nodes entered before, and otherwise enters the node and runs on its
    successors, follows the walk. -/
theorem exists_of_walk {σ : Type} {R : σ → List α → Prop} {run : Nat → α → σ → Option σ}
    (skip : ∀ fuel node s entered, R s entered → node ∈ entered → run (fuel + 1) node s = some s)
    (enter : ∀ fuel node s entered, R s entered → node ∉ entered →
      ∃ s', R s' (entered ++ [node]) ∧
        run (fuel + 1) node s = (succs node).foldlM (fun s dest => run fuel dest s) s')
    {s : σ} (start : R s entered) (walked : walk succs fuel node entered = some entered') :
    ∃ s', run fuel node s = some s' ∧ R s' entered' := by
  induction fuel generalizing node s entered entered' with
  | zero => cases walked
  | succ fuel ih =>
    rw [walk] at walked
    split at walked
    · next member =>
      cases walked
      exact ⟨s, skip fuel node s entered start member, start⟩
    · next fresh =>
      obtain ⟨s', entering, eq⟩ := enter fuel node s entered start fresh
      rw [eq]
      exact foldlM_related walked entering fun dest s t t' related first => ih related first

end DepthFirst
