import Mathlib.Data.List.Forall2

/-! Lists of one length whose entries are related, and computations that give a result. -/
namespace StateDiagram

theorem map_eq_ok {ε α β : Type} {f : α → β} {x : Except ε α} {b : β} (h : x.map f = .ok b) :
    ∃ a, x = .ok a ∧ f a = b := by
  cases x with
  | error e => cases h
  | ok a => exact ⟨a, rfl, Except.ok.inj h⟩

theorem bind_eq_ok {ε α β : Type} {f : α → Except ε β} {x : Except ε α} {b : β}
    (h : x >>= f = .ok b) : ∃ a, x = .ok a ∧ f a = .ok b := by
  cases x with
  | error e => cases h
  | ok a => exact ⟨a, rfl, h⟩

theorem forall₂_map_of_forall {α β : Type} {R : α → β → Prop} {g : α → β} {xs : List α}
    (h : ∀ a ∈ xs, R a (g a)) : List.Forall₂ R xs (xs.map g) :=
  List.forall₂_map_right_iff.2 (List.forall₂_same.2 h)

theorem exists_mem_of_forall₂ {α β : Type} {R : α → β → Prop} {xs : List α} {ys : List β}
    (h : List.Forall₂ R xs ys) {b : β} (hb : b ∈ ys) : ∃ a ∈ xs, R a b := by
  induction h with
  | nil => cases hb
  | @cons a b' xs ys hab _ ih =>
    cases List.mem_cons.1 hb with
    | inl heq => exact ⟨a, List.mem_cons_self .., heq ▸ hab⟩
    | inr hb =>
      obtain ⟨a', ha', hr⟩ := ih hb
      exact ⟨a', List.mem_cons_of_mem a ha', hr⟩

theorem forall₂_mapIdx {α β : Type} {R : α → β → Prop} {f : Nat → α → β} {xs : List α}
    (h : ∀ i, ∀ x ∈ xs, R x (f i x)) : List.Forall₂ R xs (xs.mapIdx f) := by
  induction xs generalizing f with
  | nil => exact .nil
  | cons x xs ih =>
    rw [List.mapIdx_cons]
    exact .cons (h 0 x (by simp)) (ih fun i y hy => h (i + 1) y (List.mem_cons_of_mem x hy))

theorem forall₂_filter {α β : Type} {R : α → β → Prop} {p : α → Bool} {q : β → Bool}
    (hpq : ∀ a b, R a b → p a = q b) {xs : List α} {ys : List β} (h : List.Forall₂ R xs ys) :
    List.Forall₂ R (xs.filter p) (ys.filter q) := by
  induction h with
  | nil => exact .nil
  | @cons a b xs ys hab _ ih =>
    cases hp : p a with
    | false =>
      rw [List.filter_cons_of_neg (by simp [hp]),
        List.filter_cons_of_neg (by simp [← hpq a b hab, hp])]
      exact ih
    | true =>
      rw [List.filter_cons_of_pos hp, List.filter_cons_of_pos (hpq a b hab ▸ hp)]
      exact .cons hab ih

theorem forall₂_imp {α β : Type} {R S : α → β → Prop} {xs : List α} {ys : List β}
    (h : List.Forall₂ R xs ys) (hS : ∀ x ∈ xs, ∀ y ∈ ys, R x y → S x y) : List.Forall₂ S xs ys := by
  induction h with
  | nil => exact .nil
  | @cons x y xs ys hxy _ ih =>
    exact .cons (hS x (List.mem_cons_self ..) y (List.mem_cons_self ..) hxy)
      (ih fun x' hx' y' hy' => hS x' (List.mem_cons_of_mem x hx') y' (List.mem_cons_of_mem y hy'))

theorem forall₂_comp {α β γ : Type} {R : α → β → Prop} {S : β → γ → Prop} {T : α → γ → Prop}
    (hT : ∀ a b c, R a b → S b c → T a c) {xs : List α} {ys : List β} {zs : List γ}
    (h : List.Forall₂ R xs ys) (h' : List.Forall₂ S ys zs) : List.Forall₂ T xs zs := by
  induction h generalizing zs with
  | nil =>
    cases h'
    exact .nil
  | cons hab _ ih =>
    cases h' with
    | cons hbc h' => exact .cons (hT _ _ _ hab hbc) (ih h')

theorem forall₂_of_mapM_eq_ok {ε α β : Type} {f : α → Except ε β} {xs : List α} {ys : List β}
    (h : xs.mapM f = .ok ys) : List.Forall₂ (fun x y => f x = .ok y) xs ys := by
  induction xs generalizing ys with
  | nil =>
    rw [List.mapM_nil] at h
    obtain rfl := Except.ok.inj h
    exact .nil
  | cons x xs ih =>
    rw [List.mapM_cons] at h
    obtain ⟨y, hy, h⟩ := bind_eq_ok h
    obtain ⟨ys, hys, h⟩ := bind_eq_ok h
    obtain rfl := Except.ok.inj h
    exact .cons hy (ih hys)

/-- What holds of any two entries of a list, the first before the second, is carried over to the
entries that they are related to. -/
theorem pairwise_iff_of_forall₂ {α β : Type} {R : α → β → Prop} {S P : α → α → Prop}
    {Q : β → β → Prop} {xs : List α} {ys : List β} (h : List.Forall₂ R xs ys) (hS : xs.Pairwise S)
    (hPQ : ∀ a a' b b', R a b → R a' b' → S a a' → (P a a' ↔ Q b b')) :
    xs.Pairwise P ↔ ys.Pairwise Q := by
  induction h with
  | nil => simp
  | @cons a b xs ys hab h ih =>
    obtain ⟨ha, hxs⟩ := List.pairwise_cons.1 hS
    rw [List.pairwise_cons, List.pairwise_cons, ih hxs]
    refine and_congr_left' ⟨fun hP b' hb' => ?_, fun hQ a' ha' => ?_⟩
    · obtain ⟨a', ha', hab'⟩ := exists_mem_of_forall₂ h hb'
      exact (hPQ a a' b b' hab hab' (ha a' ha')).1 (hP a' ha')
    · obtain ⟨b', hb', hab'⟩ := exists_mem_of_forall₂ h.flip ha'
      exact (hPQ a a' b b' hab hab' (ha a' ha')).2 (hQ b' hb')

end StateDiagram
