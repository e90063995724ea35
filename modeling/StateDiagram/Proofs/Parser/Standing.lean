import StateDiagram.Proofs.Parser.Layout

/-! The arena of a parse with its active state and its saved states. All of them stand in the same
arena, where their chains may share units. A saved state holds the units up to its current one:
none of them is ahead of a later state, and none belongs to an open phrase that counts as parsed in
a single way. No unit of a chain is below a unit of another. -/
namespace StateDiagram

open StateDiagram.Tree Arena

namespace Post

/-- The subphrase of the next unit. -/
def subAhead (e : Post) : Option Nat :=
  e.place.ahead.head?.bind fun t => t.parts.head?.map slot

/-- The state after the unit in slot `i` has been matched to node `n`. -/
def remark (i n : Nat) (e : Post) : Post :=
  ⟨e.state, ⟨e.place.opened, e.place.ahead.map (Tree.remark i n)⟩⟩

/-- The state after a part of a chain has been collapsed into its first unit, which has become `t`
and goes on with `rest`. -/
def collapse (t : Tree) (rest : List Tree) (e : Post) : Post :=
  if t.slot ∈ e.awaited then
    ⟨e.state, ⟨e.place.opened, e.place.ahead.takeWhile (fun u => u.slot ≠ t.slot) ++ t :: rest⟩⟩
  else e

end Post

/-- Phrases that count as parsed in a single way, from the innermost one outwards, hold no unit
that a saved state holds. -/
def Free (saved : List Post) : Bool → List Frame → List (List Tree) → Prop
  | true, f :: fs, o :: os =>
    (∀ t ∈ o, ∀ e ∈ saved, t.slot ∉ e.held) ∧ Free saved f.unique fs os
  | _, _, _ => True

/-- The next unit has not been collapsed since the state was saved. -/
def Post.Settled (e : Post) : Prop :=
  e.place.ahead = [] ∨ e.state.nextSub = e.subAhead

theorem Post.Settled.congr {f g : Post} (h : f.Settled) (hstate : g.state = f.state)
    (hahead : g.place.view.ahead = f.place.view.ahead) (hsub : g.subAhead = f.subAhead) :
    g.Settled := by
  have hnil : ∀ e : Post, e.place.ahead = [] ↔ e.place.view.ahead = [] := fun e => by
    simp [Place.view]
  unfold Settled at h ⊢
  rwa [hnil, hahead, hsub, hstate, ← hnil]

/-- A saved state and the choices that it has left. They stay legal as long as the next unit is
not collapsed; dummy moves stay legal even then. -/
structure Waiting {σ : Type} (p : Parser σ) (a : Arena) (e : Post) : Prop where
  unique : e.state.unique = false
  choices : ∃ cs, e.state.choices = some cs ∧ ∀ c ∈ cs,
    c.isDummy = true ∨ e.Settled → Parser.Legal p e.place.view c
  nextSub : ∀ j, e.state.nextSub = some j → j < a.size

/-- Rows and wholes with whatever values. -/
abbrev Parser.Proper {σ : Type} (p : Parser σ) (x : Place Form) : Prop :=
  p.Fits (fun _ _ => True) x

/-- The active state and the saved states of a parse. -/
structure Standing {σ : Type} (p : Parser σ) (a : Arena) (e : Post) (saved : List Post) : Prop where
  lays : ∀ f ∈ e :: saved, f.Lays a
  proper : ∀ f ∈ e :: saved, p.Proper f.place.view
  apart : (e :: saved).Pairwise fun f g => ∀ i ∈ f.awaited, i ∉ g.held
  layered : ∀ f ∈ e :: saved, ∀ g ∈ e :: saved, ∀ i ∈ f.units.map slot, i ∉ inner g.units
  free : Free saved e.state.unique e.state.frames e.place.opened
  choices : ∀ cs, e.state.choices = some cs → ∀ c ∈ cs, Parser.Legal p e.place.view c
  waiting : ∀ f ∈ saved, Waiting p a f

theorem free_false (saved : List Post) (fs : List Frame) (os : List (List Tree)) :
    Free saved false fs os := by
  cases fs <;> cases os <;> trivial

theorem Free.of_held {saved saved' : List Post}
    (hheld : saved'.map Post.held ⊆ saved.map Post.held) :
    ∀ {u : Bool} {fs : List Frame} {os : List (List Tree)}, Free saved u fs os →
      Free saved' u fs os := by
  intro u fs os h
  induction os generalizing u fs with
  | nil => cases u <;> cases fs <;> trivial
  | cons o os ih =>
    cases u with
    | false => exact free_false ..
    | true =>
      cases fs with
      | nil => trivial
      | cons f fs =>
        refine ⟨fun t ht e he => ?_, ih h.2⟩
        obtain ⟨e', he', heq⟩ := List.mem_map.1 (hheld (List.mem_map_of_mem he))
        rw [← heq]
        exact h.1 t ht e' he'

theorem free_of_forall {saved : List Post} : ∀ {u : Bool} {fs : List Frame}
    {os : List (List Tree)}, (∀ t ∈ os.flatten, ∀ e ∈ saved, t.slot ∉ e.held) →
      Free saved u fs os := by
  intro u fs os h
  induction os generalizing u fs with
  | nil => cases u <;> cases fs <;> trivial
  | cons o os ih =>
    cases u with
    | false => exact free_false ..
    | true =>
      cases fs with
      | nil => trivial
      | cons f fs =>
        rw [List.flatten_cons] at h
        exact ⟨fun t ht => h t (List.mem_append_left _ ht),
          ih fun t ht => h t (List.mem_append_right _ ht)⟩

namespace Standing

variable {σ : Type} {p : Parser σ} {a : Arena} {e : Post} {saved : List Post}

/-- Chains with the units of such chains have no unit below another either. -/
theorem layered_of_units (h : Standing p a e saved) {es : List Post}
    (hunits : ∀ f ∈ es, ∃ f' ∈ e :: saved, f'.units = f.units) :
    ∀ f ∈ es, ∀ g ∈ es, ∀ i ∈ f.units.map slot, i ∉ inner g.units := by
  intro f hf g hg
  obtain ⟨f', hf', hfu⟩ := hunits f hf
  obtain ⟨g', hg', hgu⟩ := hunits g hg
  rw [← hfu, ← hgu]
  exact h.layered f' hf' g' hg'

/-- A state that differs in nothing that its chain, its open phrases or its choices depend on. -/
theorem restate (h : Standing p a e saved) (st : State) (hhead : st.head = e.state.head)
    (hcurrent : st.current = e.state.current) (hbeginning : st.beginning = e.state.beginning)
    (hframes : st.frames = e.state.frames) (hunique : st.unique = true → e.state.unique = true)
    (hchoices : ∀ cs, st.choices = some cs → ∀ c ∈ cs, Parser.Legal p e.place.view c) :
    Standing p a ⟨st, e.place⟩ saved where
  lays := by
    obtain ⟨hlays, hsaved⟩ := List.forall_mem_cons.1 h.lays
    exact List.forall_mem_cons.2 ⟨hlays.restate hhead hcurrent hbeginning hframes, hsaved⟩
  proper := List.forall_mem_cons.2 (List.forall_mem_cons.1 h.proper)
  apart := List.pairwise_cons.2 (List.pairwise_cons.1 h.apart)
  layered := by
    have hunits : Post.units ⟨st, e.place⟩ = e.units := by
      rw [Post.units, Post.units, hhead]
    exact h.layered_of_units (List.forall_mem_cons.2 ⟨⟨e, List.mem_cons_self .., hunits.symm⟩,
      fun f hf => ⟨f, List.mem_cons_of_mem e hf, rfl⟩⟩)
  free := by
    change Free saved st.unique st.frames e.place.opened
    cases hu : st.unique with
    | false => exact free_false ..
    | true =>
      rw [hframes, ← hunique hu]
      exact h.free
  choices := hchoices
  waiting := h.waiting

/-- The active state is saved. -/
theorem save (h : Standing p a e saved) (hwaiting : Waiting p a e) :
    Standing p a e (e :: saved) where
  lays := List.forall_mem_cons.2 ⟨h.lays e (List.mem_cons_self ..), h.lays⟩
  proper := List.forall_mem_cons.2 ⟨h.proper e (List.mem_cons_self ..), h.proper⟩
  apart := by
    have hself : ∀ i ∈ e.awaited, i ∉ e.held := fun i hi hheld =>
      (List.nodup_append.1 (h.lays e (List.mem_cons_self ..)).nodup).2.2 i hheld i hi rfl
    exact List.pairwise_cons.2 ⟨List.forall_mem_cons.2 ⟨hself, (List.pairwise_cons.1 h.apart).1⟩,
      h.apart⟩
  layered := h.layered_of_units (List.forall_mem_cons.2 ⟨⟨e, List.mem_cons_self .., rfl⟩,
    fun f hf => ⟨f, hf, rfl⟩⟩)
  free := by
    rw [hwaiting.unique]
    exact free_false ..
  choices := h.choices
  waiting := List.forall_mem_cons.2 ⟨hwaiting, h.waiting⟩

/-- The latest saved state takes the place of the active one. -/
theorem resume {e₀ : Post} (h : Standing p a e₀ (e :: saved)) {choices : Option (List Choice)}
    (hlegal : ∀ cs, choices = some cs → ∀ c ∈ cs, Parser.Legal p e.place.view c) :
    Standing p a ⟨{ e.state with choices }, e.place⟩ saved where
  lays := by
    obtain ⟨-, hlays, hsaved⟩ := List.forall_mem_cons.1 h.lays |>.imp_right List.forall_mem_cons.1
    exact List.forall_mem_cons.2 ⟨hlays.restate rfl rfl rfl rfl, hsaved⟩
  proper := List.forall_mem_cons.2 (List.forall_mem_cons.1 (List.forall_mem_cons.1 h.proper).2)
  apart := List.pairwise_cons.2 (List.pairwise_cons.1 (List.pairwise_cons.1 h.apart).2)
  layered := h.layered_of_units (List.forall_mem_cons.2 ⟨⟨e, by simp, rfl⟩,
    fun f hf => ⟨f, by simp [hf], rfl⟩⟩)
  free := by
    change Free saved e.state.unique _ _
    rw [(h.waiting e (List.mem_cons_self ..)).unique]
    exact free_false ..
  choices := hlegal
  waiting := (List.forall_mem_cons.1 h.waiting).2

end Standing

namespace Parser

variable {σ : Type} {p : Parser σ}

/-- What is legal depends on the open phrases and on the word of the next unit. -/
theorem Legal.congr {x y : Place Form} {c : Choice} (h : Legal p x c) (ho : x.opened = y.opened)
    (hw : c.isDummy = true ∨ x.ahead.head?.map Form.word = y.ahead.head?.map Form.word) :
    Legal p y c := by
  obtain ⟨os, us⟩ := x
  obtain ⟨os', us'⟩ := y
  obtain rfl : os = os' := ho
  have hnext : ∀ {u : Form} {vs : List Form}, us = u :: vs → c.isDummy = false →
      ∃ v ws, us' = v :: ws ∧ v.word = u.word := by
    intro u vs hus hc
    obtain hw | hw := hw
    · rw [hc] at hw
      cases hw
    · cases us' with
      | nil => simp [hus] at hw
      | cons v ws => exact ⟨v, ws, rfl, by simpa [hus] using hw.symm⟩
  cases h with
  | initial hn =>
    obtain ⟨v, ws, rfl, hv⟩ := hnext rfl rfl
    exact .initial (hv ▸ hn)
  | nonDummy hat hl hd hm ht =>
    obtain ⟨v, ws, rfl, hv⟩ := hnext rfl rfl
    exact .nonDummy hat hl hd (hv ▸ hm) ht
  | dummy hat hl hd ht => exact .dummy hat hl hd ht
  | final hat htype => exact .final hat htype

end Parser

end StateDiagram
