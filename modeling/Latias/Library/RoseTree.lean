import Mathlib.Data.List.Basic

/-- Finitely branching trees. A position is the list of child indices from the node up to
    the root, so the parent of `i :: p` is `p`. -/
inductive Rose (α : Type u) where
  | mk (value : α) (children : List (Rose α))

namespace Rose

variable {α : Type u}

def value : Rose α → α
  | mk v _ => v

def children : Rose α → List (Rose α)
  | mk _ cs => cs

@[simp] theorem value_mk (v : α) (cs : List (Rose α)) : (mk v cs).value = v := rfl

@[simp] theorem children_mk (v : α) (cs : List (Rose α)) : (mk v cs).children = cs := rfl

abbrev Address := List Nat

def get? (t : Rose α) : Address → Option (Rose α)
  | [] => some t
  | i :: p => (t.get? p).bind fun u => u.children[i]?

@[simp] theorem get?_nil (t : Rose α) : t.get? [] = some t := rfl

theorem get?_cons (t : Rose α) (i : Nat) (p : Address) :
    t.get? (i :: p) = (t.get? p).bind fun u => u.children[i]? := rfl

theorem get?_append (t : Rose α) (q p : Address) :
    t.get? (q ++ p) = (t.get? p).bind fun u => u.get? q := by
  induction q with
  | nil => simp
  | cons i q ih =>
    rw [List.cons_append, get?_cons, ih]
    cases t.get? p <;> rfl

theorem get?_child {t u : Rose α} {p : Address} {i : Nat} {c : Rose α}
    (found : t.get? p = some u) (child : u.children[i]? = some c) : t.get? (i :: p) = some c := by
  rw [get?_cons, found]
  exact child

/-- The proper ancestors of a position, nearest first. -/
def ancestors : Address → List Address
  | [] => []
  | _ :: p => p :: ancestors p

theorem mem_ancestors {a p : Address} : a ∈ ancestors p ↔ a <:+ p ∧ a ≠ p := by
  induction p with
  | nil => simp [ancestors]
  | cons i p ih =>
    rw [ancestors, List.mem_cons, ih, List.suffix_cons_iff]
    constructor
    · rintro (rfl | ⟨above, _⟩)
      · exact ⟨Or.inr List.suffix_rfl, (List.cons_ne_self i a).symm⟩
      · refine ⟨Or.inr above, ?_⟩
        rintro rfl
        exact absurd above.length_le (by simp)
    · rintro ⟨rfl | above, distinct⟩
      · exact absurd rfl distinct
      · by_cases same : a = p
        · exact Or.inl same
        · exact Or.inr ⟨above, same⟩

theorem ancestors_nodup (p : Address) : (ancestors p).Nodup := by
  induction p with
  | nil => exact List.nodup_nil
  | cons i p ih =>
    rw [ancestors, List.nodup_cons]
    exact ⟨fun own => (mem_ancestors.mp own).2 rfl, ih⟩

theorem ancestors_split {c q : Address} (above : c ∈ ancestors q) :
    ∃ before, ancestors q = before ++ c :: ancestors c ∧ ∀ a ∈ before, ¬ a <:+ c := by
  induction q with
  | nil => cases above
  | cons i q ih =>
    rcases List.mem_cons.mp above with rfl | above
    · exact ⟨[], rfl, by simp⟩
    · obtain ⟨before, split, higher⟩ := ih above
      refine ⟨q :: before, by rw [ancestors, split]; rfl, ?_⟩
      intro a member
      rcases List.mem_cons.mp member with rfl | member
      · obtain ⟨suffix, proper⟩ := mem_ancestors.mp above
        exact fun upward =>
        proper (suffix.eq_of_length (Nat.le_antisymm suffix.length_le upward.length_le))
      · exact higher a member

theorem mem_take_ancestors {a c q : Address} (above : c ∈ ancestors q) :
    a ∈ (ancestors q).take ((ancestors q).idxOf c) ↔ a ∈ ancestors q ∧ ¬ a <:+ c := by
  obtain ⟨before, split, higher⟩ := ancestors_split above
  have absent : c ∉ before := fun member => higher c member List.suffix_rfl
  rw [split, List.idxOf_append_of_notMem absent, List.idxOf_cons_self, Nat.add_zero,
    List.take_left]
  constructor
  · exact fun member => ⟨List.mem_append_left _ member, higher a member⟩
  · rintro ⟨member, low⟩
    refine (List.mem_append.mp member).resolve_right fun upper => ?_
    rcases List.mem_cons.mp upper with rfl | upper
    · exact low List.suffix_rfl
    · exact low (mem_ancestors.mp upper).1

mutual

def postorder : Address → Rose α → List Address
  | p, mk _ cs => postorders p 0 cs ++ [p]

def postorders : Address → Nat → List (Rose α) → List Address
  | _, _, [] => []
  | p, i, c :: cs => postorder (i :: p) c ++ postorders p (i + 1) cs

end

mutual

def preorder : Address → Rose α → List Address
  | p, mk _ cs => p :: preorders p 0 cs

def preorders : Address → Nat → List (Rose α) → List Address
  | _, _, [] => []
  | p, i, c :: cs => preorder (i :: p) c ++ preorders p (i + 1) cs

end

/-- Induction on a tree at its position, through the forest of its children from the `i`-th on. -/
@[elab_as_elim]
theorem position_induction {P : Address → Rose α → Prop} {S : Address → Nat → List (Rose α) → Prop}
    (node : ∀ p v cs, S p 0 cs → P p (mk v cs)) (nil : ∀ p i, S p i [])
    (cons : ∀ p i c cs, P (i :: p) c → S p (i + 1) cs → S p i (c :: cs)) (p : Address)
    (t : Rose α) : P p t :=
  postorder.induct P S node nil cons p t

@[elab_as_elim]
theorem position_induction₂ {P : Address → Rose α → Prop}
    {S T : Address → Nat → List (Rose α) → Prop}
    (node : ∀ p v cs, S p 0 cs → T p 0 cs → P p (mk v cs)) (first_nil : ∀ p i, S p i [])
    (first_cons : ∀ p i c cs, P (i :: p) c → S p (i + 1) cs → S p i (c :: cs))
    (second_nil : ∀ p i, T p i [])
    (second_cons : ∀ p i c cs, P (i :: p) c → T p (i + 1) cs → T p i (c :: cs)) (p : Address)
    (t : Rose α) : P p t :=
  position_induction (S := fun p i cs => S p i cs ∧ T p i cs)
    (fun p v cs both => node p v cs both.1 both.2) (fun p i => ⟨first_nil p i, second_nil p i⟩)
    (fun p i c cs here both =>
      ⟨first_cons p i c cs here both.1, second_cons p i c cs here both.2⟩) p t

theorem isSome_get?_concat (v : α) (cs : List (Rose α)) (r : Address) (j : Nat) :
    ((mk v cs).get? (r ++ [j])).isSome ↔ ∃ c, cs[j]? = some c ∧ (c.get? r).isSome := by
  rw [get?_append, get?_cons, get?_nil, Option.bind_some, children_mk]
  cases cs[j]? <;> simp

theorem mem_postorder (p : Address) (t : Rose α) (q : Address) :
    q ∈ postorder p t ↔ ∃ r, q = r ++ p ∧ (t.get? r).isSome := by
  induction p, t using position_induction (S := fun p i cs =>
    q ∈ postorders p i cs ↔ ∃ r j c, q = r ++ (i + j) :: p ∧ cs[j]? = some c ∧ (c.get? r).isSome) with
  | node p v cs ih =>
    rw [postorder, List.mem_append, List.mem_singleton, ih]
    constructor
    · rintro (⟨r, j, c, rfl, child, found⟩ | rfl)
      · exact ⟨r ++ [j], by simp, (isSome_get?_concat v cs r j).mpr ⟨c, child, found⟩⟩
      · exact ⟨[], by simp⟩
    · rintro ⟨r, rfl, found⟩
      rcases List.eq_nil_or_concat r with rfl | ⟨r, j, rfl⟩
      · exact Or.inr rfl
      · rw [List.concat_eq_append] at found ⊢
        obtain ⟨c, child, below⟩ := (isSome_get?_concat v cs r j).mp found
        exact Or.inl ⟨r, j, c, by simp, child, below⟩
  | nil p i => simp [postorders]
  | cons p i c cs first rest =>
    rw [postorders, List.mem_append, first, rest]
    constructor
    · rintro (⟨r, rfl, found⟩ | ⟨r, j, d, rfl, child, found⟩)
      · exact ⟨r, 0, c, by simp, rfl, found⟩
      · exact ⟨r, j + 1, d, by rw [Nat.add_right_comm, Nat.add_assoc], child, found⟩
    · rintro ⟨r, j, d, rfl, child, found⟩
      cases j with
      | zero => cases child; exact Or.inl ⟨r, by simp, found⟩
      | succ j =>
        exact Or.inr ⟨r, j, d, by rw [Nat.add_right_comm, Nat.add_assoc], child, found⟩

theorem preorder_perm (p : Address) (t : Rose α) : (preorder p t).Perm (postorder p t) := by
  induction p, t using position_induction (S := fun p i cs =>
    (preorders p i cs).Perm (postorders p i cs)) with
  | node p v cs ih =>
    rw [preorder, postorder]
    exact (ih.cons p).trans (List.perm_append_singleton p _).symm
  | nil p i => exact List.Perm.nil
  | cons p i c cs first rest => exact first.append rest

theorem mem_preorder (p : Address) (t : Rose α) (q : Address) :
    q ∈ preorder p t ↔ ∃ r, q = r ++ p ∧ (t.get? r).isSome := by
  rw [(preorder_perm p t).mem_iff, mem_postorder]

theorem child_unique {i j : Nat} {p q : Address} (first : (i :: p) <:+ q)
    (second : (j :: p) <:+ q) : i = j := by
  have same := (List.suffix_of_suffix_length_le first second (Nat.le_refl _)).eq_of_length rfl
  exact (List.cons.inj same).1

theorem mem_postorders {p q : Address} {i : Nat} {cs : List (Rose α)}
    (member : q ∈ postorders p i cs) : ∃ j, i ≤ j ∧ (j :: p) <:+ q := by
  induction cs generalizing i with
  | nil => cases member
  | cons c cs ih =>
    rcases List.mem_append.mp member with here | later
    · obtain ⟨r, rfl, _⟩ := (mem_postorder (i :: p) c q).mp here
      exact ⟨i, Nat.le_refl i, List.suffix_append r (i :: p)⟩
    · obtain ⟨j, bound, below⟩ := ih later
      exact ⟨j, by omega, below⟩

theorem postorder_pairwise (p : Address) (t : Rose α) :
    (postorder p t).Pairwise fun a b => ¬ a <:+ b := by
  induction p, t using position_induction (S := fun p i cs =>
    (postorders p i cs).Pairwise fun a b => ¬ a <:+ b) with
  | node p v cs ih =>
    rw [postorder, List.pairwise_append]
    refine ⟨ih, List.pairwise_singleton _ p, ?_⟩
    intro a inside b last above
    cases List.mem_singleton.mp last
    obtain ⟨j, _, below⟩ := mem_postorders inside
    exact absurd (below.trans above).length_le (by simp)
  | nil p i => exact List.Pairwise.nil
  | cons p i c cs first rest =>
    rw [postorders, List.pairwise_append]
    refine ⟨first, rest, ?_⟩
    intro a here b later above
    obtain ⟨r, rfl, _⟩ := (mem_postorder (i :: p) c a).mp here
    obtain ⟨j, bound, below⟩ := mem_postorders later
    have same := child_unique ((List.suffix_append r (i :: p)).trans above) below
    omega

theorem preorder_pairwise (p : Address) (t : Rose α) :
    (preorder p t).Pairwise fun a b => ¬ b <:+ a := by
  induction p, t using position_induction (S := fun p i cs =>
    (preorders p i cs).Pairwise (fun a b => ¬ b <:+ a) ∧
      (preorders p i cs).Perm (postorders p i cs)) with
  | node p v cs ih =>
    rw [preorder, List.pairwise_cons]
    refine ⟨?_, ih.1⟩
    intro b inside above
    obtain ⟨j, _, below⟩ := mem_postorders (ih.2.mem_iff.mp inside)
    exact absurd (below.trans above).length_le (by simp)
  | nil p i => exact ⟨List.Pairwise.nil, List.Perm.nil⟩
  | cons p i c cs first rest =>
    refine ⟨?_, (preorder_perm (i :: p) c).append rest.2⟩
    rw [preorders, List.pairwise_append]
    refine ⟨first, rest.1, ?_⟩
    intro a here b later above
    obtain ⟨r, rfl, _⟩ := (mem_preorder (i :: p) c a).mp here
    obtain ⟨j, bound, below⟩ := mem_postorders (rest.2.mem_iff.mp later)
    have same := child_unique (List.suffix_append r (i :: p)) (below.trans above)
    omega

def earlier (t : Rose α) : Address → List Address
  | [] => []
  | i :: p => earlier t p ++ postorders p 0 (((t.get? p).elim [] children).take i)

theorem postorders_append (p : Address) (i : Nat) (cs ds : List (Rose α)) :
    postorders p i (cs ++ ds) = postorders p i cs ++ postorders p (i + cs.length) ds := by
  induction cs generalizing i with
  | nil => rfl
  | cons c cs ih =>
    rw [List.cons_append, postorders, ih, postorders, List.append_assoc, List.length_cons]
    congr 3
    omega

theorem postorders_split {p : Address} {i : Nat} {cs : List (Rose α)} {c : Rose α}
    (child : cs[i]? = some c) :
    postorders p 0 cs =
      postorders p 0 (cs.take i) ++ postorder (i :: p) c ++ postorders p (i + 1) (cs.drop (i + 1)) := by
  obtain ⟨bound, rfl⟩ := List.getElem?_eq_some_iff.mp child
  have parts : cs = cs.take i ++ cs[i] :: cs.drop (i + 1) := by
    rw [← List.drop_eq_getElem_cons bound, List.take_append_drop]
  have length : 0 + (cs.take i).length = i := by
    rw [Nat.zero_add, List.length_take, Nat.min_eq_left (Nat.le_of_lt bound)]
  conv_lhs => rw [parts, postorders_append, length, postorders, ← List.append_assoc]

theorem postorder_split {t u : Rose α} {p : Address} (found : t.get? p = some u) :
    ∃ after, postorder [] t = earlier t p ++ postorder p u ++ after := by
  induction p generalizing u with
  | nil =>
    cases found
    exact ⟨[], by simp [earlier]⟩
  | cons i p ih =>
    rw [get?_cons] at found
    obtain ⟨parent, above, child⟩ := Option.bind_eq_some_iff.mp found
    obtain ⟨after, split⟩ := ih above
    obtain ⟨v, cs⟩ := parent
    rw [children_mk] at child
    refine ⟨postorders p (i + 1) (cs.drop (i + 1)) ++ [p] ++ after, ?_⟩
    rw [split, postorder, postorders_split child, earlier, above]
    simp only [Option.elim_some, children_mk, List.append_assoc]

theorem earlier_succ {t c : Rose α} {p : Address} {i : Nat} (found : t.get? (i :: p) = some c) :
    earlier t ((i + 1) :: p) = earlier t (i :: p) ++ postorder (i :: p) c := by
  rw [get?_cons] at found
  obtain ⟨parent, above, child⟩ := Option.bind_eq_some_iff.mp found
  obtain ⟨bound, rfl⟩ := List.getElem?_eq_some_iff.mp child
  have length : 0 + (parent.children.take i).length = i := by
    rw [Nat.zero_add, List.length_take, Nat.min_eq_left (Nat.le_of_lt bound)]
  rw [earlier, earlier, above, Option.elim_some, List.take_succ_eq_append_getElem bound,
    postorders_append, length, List.append_assoc, postorders, postorders, List.append_nil]

theorem not_below_of_earlier {t : Rose α} {p q : Address} (found : (t.get? p).isSome)
    (before : q ∈ earlier t p) : ¬ p <:+ q := by
  obtain ⟨u, at_p⟩ := Option.isSome_iff_exists.mp found
  obtain ⟨after, split⟩ := postorder_split at_p
  have order := postorder_pairwise [] t
  have inside : q ∈ postorder [] t := by simp [split, before]
  rw [split, List.append_assoc, List.pairwise_append] at order
  rintro ⟨r, rfl⟩
  obtain ⟨r', same, present⟩ := (mem_postorder [] t (r ++ p)).mp inside
  rw [List.append_nil] at same
  rw [← same, get?_append, at_p, Option.bind_some] at present
  have below : r ++ p ∈ postorder p u := (mem_postorder p u _).mpr ⟨r, rfl, present⟩
  exact order.2.2 _ before _ (List.mem_append_left after below) List.suffix_rfl

def map {β : Type u} (f : α → β) : Rose α → Rose β
  | mk v cs => mk (f v) (maps cs)
where
  maps : List (Rose α) → List (Rose β)
    | [] => []
    | c :: cs => map f c :: maps cs

section

variable {β : Type u} (f : α → β)

theorem children_map (t : Rose α) : (t.map f).children = t.children.map (map f) := by
  obtain ⟨v, cs⟩ := t
  show map.maps f cs = _
  induction cs with
  | nil => rfl
  | cons c cs ih =>
    rw [map.maps, ih]
    rfl

theorem get?_map (t : Rose α) (p : Address) : (t.map f).get? p = (t.get? p).map (map f) := by
  induction p with
  | nil => rfl
  | cons i p ih =>
    rw [get?_cons, get?_cons, ih]
    cases t.get? p with
    | none => rfl
    | some u => rw [Option.map_some, Option.bind_some, Option.bind_some, children_map, List.getElem?_map]

end

def size : Rose α → Nat
  | mk _ cs => sizes cs + 1
where
  sizes : List (Rose α) → Nat
    | [] => 0
    | c :: cs => size c + sizes cs

@[elab_as_elim]
theorem children_induction {motive : Rose α → Prop}
    (step : ∀ v cs, (∀ c ∈ cs, motive c) → motive (mk v cs)) (t : Rose α) : motive t :=
  position_induction (P := fun _ t => motive t) (S := fun _ _ cs => ∀ c ∈ cs, motive c)
    (fun _ => step) (fun _ _ _ member => absurd member List.not_mem_nil)
    (fun _ _ _ _ first rest => List.forall_mem_cons.mpr ⟨first, rest⟩) [] t

end Rose
