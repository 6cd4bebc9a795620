import Latias.Library.RoseTree
import Mathlib.Logic.Equiv.Basic

/-! Trees that differ in the order of the children of their nodes. -/

namespace Rose

universe u

variable {α : Type u} {t t' : Rose α}

/-- Where each position goes when the children of the nodes change places. -/
structure Reordering (t t' : Rose α) where
  moved : Address ≃ Address
  root : moved [] = []
  child : ∀ i p, ∃ j, moved (i :: p) = j :: moved p
  value : ∀ p, (t'.get? (moved p)).map Rose.value = (t.get? p).map Rose.value

namespace Reordering

theorem symm_child (r : Reordering t t') (j : Nat) (p : Address) :
    ∃ i, r.moved.symm (j :: p) = i :: r.moved.symm p := by
  cases back : r.moved.symm (j :: p) with
  | nil =>
    have same := r.moved.symm_apply_eq.mp back
    rw [r.root] at same
    cases same
  | cons i q =>
    have same := r.moved.symm_apply_eq.mp back
    obtain ⟨k, above⟩ := r.child i q
    rw [above] at same
    injection same with _ parent
    exact ⟨i, by rw [parent, Equiv.symm_apply_apply]⟩

def symm (r : Reordering t t') : Reordering t' t where
  moved := r.moved.symm
  root := r.moved.symm_apply_eq.mpr r.root.symm
  child := r.symm_child
  value p := by
    have there := r.value (r.moved.symm p)
    rw [Equiv.apply_symm_apply] at there
    exact there.symm

@[simp] theorem symm_moved (r : Reordering t t') (p : Address) : r.symm.moved (r.moved p) = p :=
  r.moved.symm_apply_apply p

@[simp] theorem moved_symm (r : Reordering t t') (p : Address) : r.moved (r.symm.moved p) = p :=
  r.moved.apply_symm_apply p

theorem isSome_get? (r : Reordering t t') (p : Address) :
    (t'.get? (r.moved p)).isSome = (t.get? p).isSome := by
  have same := congrArg Option.isSome (r.value p)
  rwa [Option.isSome_map, Option.isSome_map] at same

theorem moved_append (r : Reordering t t') (q p : Address) :
    ∃ q', r.moved (q ++ p) = q' ++ r.moved p ∧ q'.length = q.length := by
  induction q with
  | nil => exact ⟨[], rfl, rfl⟩
  | cons i q ih =>
    obtain ⟨q', below, length⟩ := ih
    obtain ⟨j, here⟩ := r.child i (q ++ p)
    exact ⟨j :: q', by rw [List.cons_append, here, below]; rfl, congrArg Nat.succ length⟩

theorem moved_suffix (r : Reordering t t') {p q : Address} (under : p <:+ q) :
    r.moved p <:+ r.moved q := by
  obtain ⟨s, rfl⟩ := under
  obtain ⟨s', below, _⟩ := r.moved_append s p
  rw [below]
  exact List.suffix_append s' (r.moved p)

end Reordering

/-! The children of one node in another order. -/

def replaceAt (t : Rose α) : Address → Rose α → Rose α
  | [], u => u
  | i :: p, u =>
    match t.get? p with
    | none => t
    | some (mk v cs) => t.replaceAt p (mk v (cs.set i u))

theorem replaceAt_cons {p : Address} {v : α} {cs : List (Rose α)} (found : t.get? p = some (mk v cs))
    (i : Nat) (u : Rose α) : t.replaceAt (i :: p) u = t.replaceAt p (mk v (cs.set i u)) := by
  rw [replaceAt, found]

theorem get?_replaceAt {x : Address} (found : (t.get? x).isSome) (u : Rose α) (q : Address) :
    (t.replaceAt x u).get? (q ++ x) = u.get? q := by
  induction x generalizing u q with
  | nil => rw [List.append_nil]; rfl
  | cons i p ih =>
    rw [get?_cons] at found
    cases at_parent : t.get? p with
    | none => rw [at_parent] at found; cases found
    | some parent =>
      obtain ⟨v, cs⟩ := parent
      rw [at_parent, Option.bind_some, children_mk, isSome_getElem?] at found
      have split : q ++ i :: p = (q ++ [i]) ++ p := by rw [List.append_assoc]; rfl
      rw [replaceAt_cons at_parent, split, ih (by rw [at_parent]; rfl), get?_append, get?_cons,
        get?_nil, Option.bind_some, children_mk, List.getElem?_set_self found, Option.bind_some]

theorem value_replaceAt {x : Address} (found : (t.get? x).isSome) (u : Rose α) {p : Address}
    (outside : ¬ x <:+ p) :
    ((t.replaceAt x u).get? p).map Rose.value = (t.get? p).map Rose.value := by
  induction x generalizing u with
  | nil => exact absurd List.nil_suffix outside
  | cons i y ih =>
    rw [get?_cons] at found
    cases at_parent : t.get? y with
    | none => rw [at_parent] at found; cases found
    | some parent =>
      obtain ⟨v, cs⟩ := parent
      have above : (t.get? y).isSome := by rw [at_parent]; rfl
      rw [replaceAt_cons at_parent]
      by_cases under : y <:+ p
      · obtain ⟨q, rfl⟩ := under
        rw [get?_replaceAt above, get?_append, at_parent, Option.bind_some]
        rcases List.eq_nil_or_concat q with rfl | ⟨q, j, rfl⟩
        · rfl
        · have apart : i ≠ j := by
            rintro rfl
            exact outside ⟨q, by rw [List.concat_eq_append, List.append_assoc]; rfl⟩
          rw [List.concat_eq_append, get?_append, get?_append, get?_cons, get?_cons, get?_nil,
            get?_nil, Option.bind_some, Option.bind_some, children_mk, children_mk,
            List.getElem?_set_ne apart]
      · exact ih above _ under

def moveAt (x : Address) (σ : Nat → Nat) : Address → Address
  | [] => []
  | i :: p => (if p = x then σ i else i) :: moveAt x σ p

theorem moveAt_of_length_le {x : Address} (σ : Nat → Nat) {p : Address}
    (short : p.length ≤ x.length) : moveAt x σ p = p := by
  induction p with
  | nil => rfl
  | cons i p ih =>
    rw [List.length_cons] at short
    have apart : p ≠ x := by
      rintro rfl
      omega
    rw [moveAt, if_neg apart, ih (by omega)]

theorem length_moveAt (x : Address) (σ : Nat → Nat) (p : Address) :
    (moveAt x σ p).length = p.length := by
  induction p with
  | nil => rfl
  | cons i p ih => rw [moveAt, List.length_cons, List.length_cons, ih]

theorem moveAt_eq_iff (x : Address) (σ : Nat → Nat) (p : Address) : moveAt x σ p = x ↔ p = x := by
  constructor
  · intro same
    have length := length_moveAt x σ p
    rw [same] at length
    rwa [moveAt_of_length_le σ (by omega)] at same
  · rintro rfl
    exact moveAt_of_length_le σ (Nat.le_refl _)

theorem moveAt_moveAt (x : Address) {σ τ : Nat → Nat} (inverse : ∀ i, τ (σ i) = i) (p : Address) :
    moveAt x τ (moveAt x σ p) = p := by
  induction p with
  | nil => rfl
  | cons i p ih =>
    rw [moveAt, moveAt, ih]
    by_cases here : p = x
    · simp only [moveAt_eq_iff, here, if_true, inverse]
    · simp only [moveAt_eq_iff, here, if_false]

theorem moveAt_below (x : Address) (σ : Nat → Nat) (q : Address) (i : Nat) :
    moveAt x σ (q ++ i :: x) = q ++ σ i :: x := by
  induction q with
  | nil => rw [List.nil_append, moveAt, if_pos rfl, moveAt_of_length_le σ (Nat.le_refl _)]; rfl
  | cons j q ih =>
    have apart : q ++ i :: x ≠ x := by
      intro same
      have lengths := congrArg List.length same
      rw [List.length_append, List.length_cons] at lengths
      omega
    rw [List.cons_append, moveAt, if_neg apart, ih]
    rfl

theorem moveAt_outside {x : Address} (σ : Nat → Nat) {p : Address} (outside : ¬ x <:+ p) :
    moveAt x σ p = p := by
  induction p with
  | nil => rfl
  | cons i p ih =>
    have apart : p ≠ x := by
      rintro rfl
      exact outside (List.suffix_cons i p)
    rw [moveAt, if_neg apart, ih fun under => outside (under.trans (List.suffix_cons i p))]

def Reordering.ofIndices {x : Address} {v : α} {cs cs' : List (Rose α)} (σ : Equiv.Perm Nat)
    (found : t.get? x = some (.mk v cs)) (order : ∀ i, cs'[σ i]? = cs[i]?) :
    Reordering t (t.replaceAt x (.mk v cs')) where
  moved :=
    { toFun := moveAt x σ
      invFun := moveAt x σ.symm
      left_inv := moveAt_moveAt x σ.symm_apply_apply
      right_inv := moveAt_moveAt x σ.apply_symm_apply }
  root := rfl
  child i p := ⟨_, rfl⟩
  value p := by
    have here : (t.get? x).isSome := by rw [found]; rfl
    rw [Equiv.coe_fn_mk]
    by_cases under : x <:+ p
    · obtain ⟨q, rfl⟩ := under
      rcases List.eq_nil_or_concat q with rfl | ⟨q, i, rfl⟩
      · rw [List.nil_append, moveAt_of_length_le _ (Nat.le_refl _), found]
        have top := get?_replaceAt here (.mk v cs') []
        rw [List.nil_append] at top
        rw [top]
        rfl
      · have split : q.concat i ++ x = q ++ i :: x := by simp
        have shift : q ++ σ i :: x = (q ++ [σ i]) ++ x := by simp
        rw [split, moveAt_below, shift, get?_replaceAt here, get?_append, get?_append, get?_cons,
          get?_cons, get?_nil, found, Option.bind_some, Option.bind_some, children_mk, children_mk,
          order]
    · rw [moveAt_outside _ under, value_replaceAt here _ under]

theorem exists_indices {β : Type u} {cs cs' : List β} (permuted : cs.Perm cs') :
    ∃ σ : Equiv.Perm Nat, ∀ i, cs'[σ i]? = cs[i]? := by
  induction permuted with
  | nil => exact ⟨Equiv.refl Nat, fun i => rfl⟩
  | cons c _ ih =>
    obtain ⟨σ, order⟩ := ih
    let next : Equiv.Perm Nat :=
      { toFun := fun i => i.casesOn 0 fun i => σ i + 1
        invFun := fun i => i.casesOn 0 fun i => σ.symm i + 1
        left_inv := by
          intro i
          cases i with
          | zero => rfl
          | succ i => simp
        right_inv := by
          intro i
          cases i with
          | zero => rfl
          | succ i => simp }
    refine ⟨next, fun i => ?_⟩
    cases i with
    | zero => rfl
    | succ i => exact order i
  | swap c d cs =>
    refine ⟨Equiv.swap 0 1, fun i => ?_⟩
    match i with
    | 0 => rw [Equiv.swap_apply_left]; rfl
    | 1 => rw [Equiv.swap_apply_right]; rfl
    | i + 2 => rw [Equiv.swap_apply_of_ne_of_ne (by omega) (by omega)]; rfl
  | trans _ _ first second =>
    obtain ⟨σ, order⟩ := first
    obtain ⟨τ, order'⟩ := second
    exact ⟨σ.trans τ, fun i => (order' (σ i)).trans (order i)⟩

/-- Any permutation of the children of any node reorders the tree. -/
theorem Reordering.exists_of_perm {x : Address} {v : α} {cs cs' : List (Rose α)}
    (found : t.get? x = some (.mk v cs)) (permuted : cs.Perm cs') :
    Nonempty (Reordering t (t.replaceAt x (.mk v cs'))) := by
  obtain ⟨σ, order⟩ := exists_indices permuted
  exact ⟨ofIndices σ found order⟩

end Rose
