import Mathlib.Data.List.Basic

/-! Computations that may fail, as functions into `Except`, and the rules for their loops. -/

namespace Checked

variable {ε α β σ : Type}

theorem bind_eq_ok {x : Except ε α} {f : α → Except ε β} {b : β} :
    (x >>= f) = .ok b ↔ ∃ a, x = .ok a ∧ f a = .ok b := by
  cases x <;> simp [Bind.bind, Except.bind]

theorem mem_toOption {x : Except ε α} {a : α} : a ∈ x.toOption ↔ x = .ok a := by
  cases x <;> simp [Except.toOption]

theorem exists_of_isOk {x : Except ε α} (completed : x.isOk = true) : ∃ a, x = .ok a := by
  cases x with
  | ok a => exact ⟨a, rfl⟩
  | error e => cases completed

@[simp] theorem ok_bind (a : α) (f : α → Except ε β) : (Except.ok a >>= f) = f a := rfl

@[simp] theorem error_bind (e : ε) (f : α → Except ε β) :
    ((Except.error e : Except ε α) >>= f) = .error e := rfl

theorem bind_congr_of_ok {x : Except ε α} {f g : α → Except ε β}
    (same : ∀ a, x = .ok a → f a = g a) : (x >>= f) = (x >>= g) := by
  cases x with
  | error e => rfl
  | ok a => exact same a rfl

def iterate (f : σ → Except ε σ) : Nat → σ → Except ε σ
  | 0, s => .ok s
  | n + 1, s => do
    let s ← f s
    iterate f n s

theorem iterate_induction {f : σ → Except ε σ} {n : Nat} {s s' : σ} (run : iterate f n s = .ok s')
    (motive : Nat → σ → Prop) (start : motive 0 s)
    (step : ∀ i s s', i < n → motive i s → f s = .ok s' → motive (i + 1) s') : motive n s' := by
  induction n generalizing s motive with
  | zero => cases run; exact start
  | succ n ih =>
    obtain ⟨middle, first, rest⟩ := bind_eq_ok.mp run
    apply ih rest (fun i => motive (i + 1)) (step 0 s middle (Nat.succ_pos n) start first)
    intro i s s' bound held stepped
    exact step (i + 1) s s' (Nat.succ_lt_succ bound) held stepped

/-- An iteration whose states are `g i t` is a loop over the indices on the part `t`. -/
theorem iterate_eq_foldlM {τ : Type} {f : σ → Except ε σ} {g : Nat → τ → σ}
    {h : τ → Nat → Except ε τ} (step : ∀ i t, f (g i t) = (do let t ← h t i; .ok (g (i + 1) t)))
    (n : Nat) (t : τ) :
    iterate f n (g 0 t) = (do let t ← (List.range n).foldlM h t; .ok (g n t)) := by
  have shifted : ∀ n i t, iterate f n (g i t) =
      (do let t ← (List.range' i n).foldlM h t; .ok (g (i + n) t)) := by
    intro n
    induction n with
    | zero => exact fun i t => rfl
    | succ n ih =>
      intro i t
      rw [iterate, step, List.range'_succ, List.foldlM_cons, bind_assoc, bind_assoc]
      refine bind_congr fun t => ?_
      rw [ok_bind, ih, Nat.add_right_comm, Nat.add_assoc]
  rw [shifted, List.range_eq_range', Nat.zero_add]

theorem foldlM_induction {f : σ → α → Except ε σ} {l : List α} {s s' : σ}
    (run : l.foldlM f s = .ok s') (motive : List α → σ → Prop) (start : motive [] s)
    (step : ∀ done a rest s s', l = done ++ a :: rest → motive done s → f s a = .ok s' →
      motive (done ++ [a]) s') : motive l s' := by
  induction l generalizing s motive with
  | nil => cases run; exact start
  | cons a l ih =>
    rw [List.foldlM_cons] at run
    obtain ⟨middle, first, rest⟩ := bind_eq_ok.mp run
    apply ih rest (fun done => motive (a :: done)) (step [] a l s middle rfl start first)
    intro done b rest s s' split held stepped
    exact step (a :: done) b rest s s' (by rw [split]; rfl) held stepped

theorem foldlM_total {f : σ → α → Except ε σ} {l : List α} {Inv : σ → Prop} {s : σ} (start : Inv s)
    (step : ∀ a ∈ l, ∀ s, Inv s → ∃ s', f s a = .ok s' ∧ Inv s') :
    ∃ s', l.foldlM f s = .ok s' ∧ Inv s' := by
  induction l generalizing s with
  | nil => exact ⟨s, rfl, start⟩
  | cons a l ih =>
    obtain ⟨middle, first, kept⟩ := step a List.mem_cons_self s start
    obtain ⟨s', rest, last⟩ := ih kept fun b member => step b (List.mem_cons_of_mem a member)
    exact ⟨s', by rw [List.foldlM_cons, first]; exact rest, last⟩

theorem foldlM_completes {f : σ → α → Except ε σ} {l : List α} {s : σ} (motive : List α → σ → Prop)
    (start : motive [] s)
    (step : ∀ done a rest s, l = done ++ a :: rest → motive done s →
      ∃ s', f s a = .ok s' ∧ motive (done ++ [a]) s') : ∃ s', l.foldlM f s = .ok s' ∧ motive l s' := by
  induction l generalizing s motive with
  | nil => exact ⟨s, rfl, start⟩
  | cons a l ih =>
    obtain ⟨middle, first, held⟩ := step [] a l s rfl start
    obtain ⟨s', rest, last⟩ := ih (fun done => motive (a :: done)) held
      fun done b rest s split held => step (a :: done) b rest s (by rw [split]; rfl) held
    exact ⟨s', by rw [List.foldlM_cons, first]; exact rest, last⟩

theorem foldlM_congr {f g : σ → α → Except ε σ} {l : List α} {Inv : σ → Prop}
    (same : ∀ a ∈ l, ∀ s, Inv s → f s a = g s a)
    (kept : ∀ a s s', Inv s → g s a = .ok s' → Inv s') {s : σ} (start : Inv s) :
    l.foldlM f s = l.foldlM g s := by
  induction l generalizing s with
  | nil => rfl
  | cons a l ih =>
    rw [List.foldlM_cons, List.foldlM_cons, same a List.mem_cons_self s start]
    apply bind_congr_of_ok
    intro s' stepped
    exact ih (fun b member => same b (List.mem_cons_of_mem a member)) (kept a s s' start stepped)

/-- Two loops whose bodies keep the states related. -/
theorem foldlM_related {τ : Type} {R : σ → τ → Prop} {f : σ → α → Except ε σ}
    {g : τ → α → Except ε τ} {l : List α} {s s' : σ} {t : τ} (run : l.foldlM f s = .ok s')
    (start : R s t)
    (step : ∀ a s s' t, R s t → f s a = .ok s' → ∃ t', g t a = .ok t' ∧ R s' t') :
    ∃ t', l.foldlM g t = .ok t' ∧ R s' t' := by
  induction l generalizing s t with
  | nil =>
    cases run
    exact ⟨t, rfl, start⟩
  | cons a l ih =>
    rw [List.foldlM_cons] at run
    obtain ⟨middle, first, rest⟩ := bind_eq_ok.mp run
    obtain ⟨t₁, first', related⟩ := step a s middle t start first
    obtain ⟨t', rest', last⟩ := ih rest related
    exact ⟨t', by rw [List.foldlM_cons, first']; exact rest', last⟩

theorem foldlM_pair {τ : Type} {R : σ → τ → Prop} {f : σ → α → Except ε σ} {g : τ → α → Except ε τ}
    {l : List α} {s s' : σ} {t t' : τ} (run : l.foldlM f s = .ok s') (run' : l.foldlM g t = .ok t')
    (start : R s t)
    (step : ∀ a ∈ l, ∀ s t s' t', R s t → f s a = .ok s' → g t a = .ok t' → R s' t') : R s' t' := by
  induction l generalizing s t with
  | nil =>
    cases run
    cases run'
    exact start
  | cons a l ih =>
    rw [List.foldlM_cons] at run run'
    obtain ⟨middle, first, rest⟩ := bind_eq_ok.mp run
    obtain ⟨middle', first', rest'⟩ := bind_eq_ok.mp run'
    have related := step a List.mem_cons_self s t middle middle' start first first'
    exact ih rest rest' related fun b member => step b (List.mem_cons_of_mem a member)

/-- A loop whose body follows another through a map of the states follows it as a whole. -/
theorem foldlM_commutes {τ : Type} {f : σ → τ} {g : τ → α → Except ε τ} {h : σ → α → Except ε σ}
    (step : ∀ s a, g (f s) a = (do let s ← h s a; .ok (f s))) (l : List α) (s : σ) :
    l.foldlM g (f s) = (do let s ← l.foldlM h s; .ok (f s)) := by
  induction l generalizing s with
  | nil => rfl
  | cons a l ih =>
    rw [List.foldlM_cons, List.foldlM_cons, step, bind_assoc, bind_assoc]
    refine bind_congr fun s => ?_
    rw [ok_bind, ih]

theorem length_of_range_eq {n i : Nat} {done rest : List Nat}
    (split : List.range n = done ++ i :: rest) : done.length = i := by
  have found : (List.range n)[done.length]? = some i := by
    rw [split, List.getElem?_append_right (Nat.le_refl _), Nat.sub_self]
    rfl
  obtain ⟨bound, value⟩ := List.getElem?_eq_some_iff.mp found
  rwa [List.getElem_range] at value

theorem check_bind_eq_ok {check : Except ε Unit} {next : Except ε β} {b : β} :
    (do check; next) = .ok b ↔ check = .ok () ∧ next = .ok b := by
  rw [bind_eq_ok]
  exact ⟨fun ⟨_, first, second⟩ => ⟨first, second⟩, fun ⟨first, second⟩ => ⟨(), first, second⟩⟩

theorem forM_eq_ok {l : List α} {f : α → Except ε Unit} :
    l.forM f = .ok () ↔ ∀ a ∈ l, f a = .ok () := by
  induction l with
  | nil => exact iff_of_true rfl (by simp)
  | cons a l ih =>
    have step : (a :: l).forM f = (do f a; l.forM f) := rfl
    rw [step, check_bind_eq_ok, List.forall_mem_cons, ← ih]

theorem mapM_eq_ok {f : α → Except ε β} {l : List α} {l' : List β} (run : l.mapM f = .ok l') :
    List.Forall₂ (fun a b => f a = .ok b) l l' := by
  induction l generalizing l' with
  | nil => cases run; exact List.Forall₂.nil
  | cons a l ih =>
    rw [List.mapM_cons] at run
    obtain ⟨b, first, run⟩ := bind_eq_ok.mp run
    obtain ⟨bs, rest, result⟩ := bind_eq_ok.mp run
    cases result
    exact List.Forall₂.cons first (ih rest)

theorem each_of_mapM {f : α → Except ε β} {l : List α} {l' : List β} (run : l.mapM f = .ok l') {a : α}
    (member : a ∈ l) : ∃ b ∈ l', f a = .ok b := by
  have pairs := mapM_eq_ok run
  clear run
  induction pairs with
  | nil => cases member
  | @cons a' b l l' made _ ih =>
    rcases List.mem_cons.mp member with rfl | later
    · exact ⟨b, List.mem_cons_self, made⟩
    · obtain ⟨b', inside, made⟩ := ih later
      exact ⟨b', List.mem_cons_of_mem b inside, made⟩

theorem mapM_total {f : α → Except ε β} {l : List α} (each : ∀ a ∈ l, ∃ b, f a = .ok b) :
    ∃ l', l.mapM f = .ok l' := by
  induction l with
  | nil => exact ⟨[], rfl⟩
  | cons a l ih =>
    obtain ⟨b, first⟩ := each a List.mem_cons_self
    obtain ⟨bs, rest⟩ := ih fun a' member => each a' (List.mem_cons_of_mem a member)
    exact ⟨b :: bs, by rw [List.mapM_cons, first, ok_bind, rest]; rfl⟩

theorem mapM_eq_map {f : α → Except ε β} {g : α → β} {l : List α} (each : ∀ a ∈ l, f a = .ok (g a)) :
    l.mapM f = .ok (l.map g) := by
  induction l with
  | nil => rfl
  | cons a l ih =>
    obtain ⟨first, rest⟩ := List.forall_mem_cons.mp each
    rw [List.mapM_cons, first, ok_bind, ih rest]
    rfl

theorem map_of_mapM {γ : Type} {f : α → Except ε β} {g : α → γ} {h : β → γ} {l : List α} {l' : List β}
    (run : l.mapM f = .ok l') (each : ∀ a b, f a = .ok b → h b = g a) : l'.map h = l.map g := by
  have pairs := mapM_eq_ok run
  clear run
  induction pairs with
  | nil => rfl
  | cons made _ ih => rw [List.map_cons, List.map_cons, ih, each _ _ made]

theorem mem_of_mapM {f : α → Except ε β} {l : List α} {l' : List β} (run : l.mapM f = .ok l')
    {b : β} (member : b ∈ l') : ∃ a ∈ l, f a = .ok b := by
  have pairs := mapM_eq_ok run
  clear run
  induction pairs with
  | nil => cases member
  | cons made _ ih =>
    rcases List.mem_cons.mp member with rfl | later
    · exact ⟨_, List.mem_cons_self, made⟩
    · obtain ⟨a, inside, made⟩ := ih later
      exact ⟨a, List.mem_cons_of_mem _ inside, made⟩

theorem foldlM_of_bind {g : α → Except ε β} {f : σ → β → Except ε σ} {l : List α} {s s' : σ}
    (run : l.foldlM (fun s a => do let b ← g a; f s b) s = .ok s') :
    ∃ l', List.Forall₂ (fun a b => g a = .ok b) l l' ∧ l'.foldlM f s = .ok s' := by
  induction l generalizing s with
  | nil => exact ⟨[], List.Forall₂.nil, run⟩
  | cons a l ih =>
    rw [List.foldlM_cons] at run
    obtain ⟨middle, first, rest⟩ := bind_eq_ok.mp run
    obtain ⟨b, made, first⟩ := bind_eq_ok.mp first
    obtain ⟨l', pairs, run⟩ := ih rest
    refine ⟨b :: l', List.Forall₂.cons made pairs, ?_⟩
    rw [List.foldlM_cons, first]
    exact run

/-- Whatever stops the computation satisfies `p`. -/
structure Stops (p : ε → Prop) (x : Except ε α) : Prop where
  of_error : ∀ e, x = .error e → p e

section Stops

variable {p : ε → Prop}

theorem stops_ok (a : α) : Stops p (Except.ok a) := by
  constructor
  intro e stopped
  cases stopped

theorem stops_error {e : ε} (allowed : p e) : Stops p (Except.error e : Except ε α) := by
  constructor
  intro e' stopped
  cases stopped
  exact allowed

theorem Stops.bind {x : Except ε α} {f : α → Except ε β} (first : Stops p x)
    (rest : ∀ a, x = .ok a → Stops p (f a)) : Stops p (x >>= f) := by
  cases x with
  | error e => exact stops_error (first.of_error e rfl)
  | ok a => exact rest a rfl

theorem Stops.first {x : Except ε α} {f : α → Except ε β} (stops : Stops p (x >>= f)) : Stops p x := by
  cases x with
  | error e => exact stops_error (stops.of_error e rfl)
  | ok a => exact stops_ok a

theorem stops_foldlM {f : σ → α → Except ε σ} {l : List α} (Inv : σ → Prop)
    (each : ∀ a ∈ l, ∀ s, Inv s → Stops p (f s a))
    (keeps : ∀ a ∈ l, ∀ s s', Inv s → f s a = .ok s' → Inv s') (s : σ) (start : Inv s) :
    Stops p (l.foldlM f s) := by
  induction l generalizing s with
  | nil => exact stops_ok s
  | cons a l ih =>
    rw [List.foldlM_cons]
    apply (each a List.mem_cons_self s start).bind
    intro s' step
    exact ih (fun b member => each b (List.mem_cons_of_mem a member))
      (fun b member => keeps b (List.mem_cons_of_mem a member)) s'
      (keeps a List.mem_cons_self s s' start step)

theorem stops_mapM {f : α → Except ε β} {l : List α} (each : ∀ a ∈ l, Stops p (f a)) :
    Stops p (l.mapM f) := by
  induction l with
  | nil => exact stops_ok []
  | cons a l ih =>
    rw [List.mapM_cons]
    apply (each a List.mem_cons_self).bind
    intro b _
    apply (ih fun a' member => each a' (List.mem_cons_of_mem a member)).bind
    intro bs _
    exact stops_ok (b :: bs)

end Stops

end Checked
