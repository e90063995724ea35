import StateDiagram.Proofs.Parser.Derivation

/-! How a state of a parse stands in the arena. Its chain runs from the header through the units of
the open phrases to the units that are still to come, and its counters say where the open phrases
begin. The choices at the current unit are then those that its place offers. -/
namespace StateDiagram

open StateDiagram.Tree Arena

/-- The header of a chain. -/
def header (i : Nat) : Tree :=
  .node i headerWord none none []

@[simp] theorem slot_header (i : Nat) : (header i).slot = i := rfl

@[simp] theorem parts_header (i : Nat) : (header i).parts = [] := rfl

@[simp] theorem form_header (i : Nat) : (header i).form = .unit headerWord none none [] := by
  simp [header]

/-- The innermost phrase begins `beginning` units after the header, and so on outwards. -/
inductive Nested {α : Type} : Nat → List Frame → List (List α) → Prop where
  | outside : Nested 0 [] []
  | inside {f : Frame} {fs : List Frame} {o : List α} {os : List (List α)} : o ≠ [] →
    Nested f.beginning fs os → Nested (os.flatten.length + 1) (f :: fs) (o :: os)

theorem length_flatten_of_map {α β γ : Type} {f : α → γ} {g : β → γ} {os : List (List α)}
    {os' : List (List β)} (h : os'.map (·.map g) = os.map (·.map f)) :
    os'.flatten.length = os.flatten.length := by
  simpa [Function.comp_def] using congrArg (fun xs => xs.flatten.length) h

theorem Nested.map {α β : Type} {b : Nat} {fs : List Frame} {os : List (List α)}
    (h : Nested b fs os) : ∀ {os' : List (List β)} {γ : Type} (f : α → γ) (g : β → γ),
      os'.map (·.map g) = os.map (·.map f) → Nested b fs os' := by
  induction h with
  | outside =>
    intro os' γ f g heq
    obtain rfl : os' = [] := by simpa using heq
    exact .outside
  | @inside fr fs o os ho _ ih =>
    intro os' γ f g heq
    cases os' with
    | nil => simp at heq
    | cons o' os' =>
      simp only [List.map_cons, List.cons.injEq] at heq
      rw [← length_flatten_of_map heq.2]
      refine .inside (fun hnil => ho ?_) (ih f g heq.2)
      subst hnil
      simpa using heq.1.symm

theorem Nested.of_cons {α : Type} {b : Nat} {fs : List Frame} {o : List α} {os : List (List α)}
    (h : Nested b fs (o :: os)) : ∃ f fs', fs = f :: fs' ∧ b = os.flatten.length + 1 ∧ o ≠ [] ∧
      Nested f.beginning fs' os := by
  cases h with
  | inside ho hos => exact ⟨_, _, rfl, rfl, ho, hos⟩

/-- The innermost phrase grows by a unit. -/
theorem Nested.push {α β γ : Type} {b : Nat} {fs : List Frame} {o : List α} {os : List (List α)}
    (h : Nested b fs (o :: os)) (f : α → γ) (g : β → γ) (t : β) (o' : List β)
    {os' : List (List β)} (heq : os'.map (·.map g) = os.map (·.map f)) :
    Nested b fs ((t :: o') :: os') := by
  obtain ⟨fr, fs', rfl, rfl, -, hrest⟩ := h.of_cons
  rw [← length_flatten_of_map heq]
  exact .inside (List.cons_ne_nil t o') (hrest.map f g heq)

theorem Nested.of_nil {α : Type} {b : Nat} {fs : List Frame} (h : @Nested α b fs []) :
    b = 0 ∧ fs = [] := by
  cases h
  exact ⟨rfl, rfl⟩

/-- A state of a parse with its place. -/
structure Post where
  state : State
  place : Place Tree

namespace Post

/-- The chain of a state, the header first. -/
def units (e : Post) : List Tree :=
  header e.state.head :: (e.place.spine ++ e.place.ahead)

/-- The slots from the header to the current unit. -/
def held (e : Post) : List Nat :=
  e.state.head :: e.place.spine.map slot

/-- The slots of the units that are still to come. -/
def awaited (e : Post) : List Nat :=
  e.place.ahead.map slot

/-- The state stands in the arena as its place says. -/
structure Lays (a : Arena) (e : Post) : Prop where
  spans : a.Spans (some e.state.head) e.units none
  current : e.state.current = lastSlot e.state.head e.place.spine
  nested : Nested e.state.beginning e.state.frames e.place.opened

variable {a b : Arena} {e : Post}

theorem map_slot_units (e : Post) : e.units.map slot = e.held ++ e.awaited := by
  simp [units, held, awaited]

theorem awaited_subset (e : Post) : ∀ i ∈ e.awaited, i ∈ e.units.map slot := by
  intro i hi
  rw [map_slot_units]
  exact List.mem_append_right _ hi

theorem held_subset (e : Post) : ∀ i ∈ e.held, i ∈ e.units.map slot := by
  intro i hi
  rw [map_slot_units]
  exact List.mem_append_left _ hi

theorem inner_units (e : Post) : inner e.units = inner e.place.spine ++ inner e.place.ahead := by
  simp [units, inner_cons]

theorem Lays.nodup (h : e.Lays a) : (e.held ++ e.awaited).Nodup := by
  rw [← map_slot_units]
  exact h.spans.nodup

theorem Lays.keep (h : e.Lays a) (hk : Keeps a b) : e.Lays b :=
  ⟨h.spans.keep hk, h.current, h.nested⟩

theorem Lays.lt (h : e.Lays a) {i : Nat} (hi : i ∈ e.held ++ e.awaited) : i < a.size := by
  rw [← map_slot_units] at hi
  exact h.spans.lt i (mem_slotsOf.2 (.inl hi))

theorem Lays.inner_lt (h : e.Lays a) {i : Nat} (hi : i ∈ inner e.units) : i < a.size :=
  h.spans.lt i (mem_slotsOf.2 (.inr hi))

theorem Lays.current_mem (h : e.Lays a) : e.state.current ∈ e.held := by
  rw [h.current]
  exact lastSlot_mem _ _

/-- The chain up to the current unit, and the rest of it. -/
theorem Lays.split (h : e.Lays a) :
    a.Spans (some e.state.head) (header e.state.head :: e.place.spine) (start e.place.ahead none) ∧
      a.Spans (start e.place.ahead none) e.place.ahead none := by
  have hunits : a.Spans (some e.state.head)
      ((header e.state.head :: e.place.spine) ++ e.place.ahead) none := h.spans
  obtain ⟨m, hspine, hahead⟩ := hunits.split
  obtain rfl := hahead.start
  exact ⟨hspine, hahead⟩

/-- The current unit of the innermost phrase, if one is open. -/
def here? (e : Post) : Option Tree :=
  e.place.opened.head?.bind List.head?

/-- The current unit is the latest one of the innermost phrase. -/
theorem Lays.innermost (h : e.Lays a) {o : List Tree} {os : List (List Tree)}
    (ho : e.place.opened = o :: os) : ∃ t o', o = t :: o' ∧
      e.place.spine = (o' :: os).flatten.reverse ++ [t] ∧ e.state.current = t.slot := by
  have hnested := h.nested
  rw [ho] at hnested
  obtain ⟨-, -, -, -, hne, -⟩ := hnested.of_cons
  obtain ⟨t, o', rfl⟩ := List.exists_cons_of_ne_nil hne
  have hspine : e.place.spine = (o' :: os).flatten.reverse ++ [t] := by
    simp [Place.spine, ho]
  refine ⟨t, o', rfl, hspine, ?_⟩
  rw [h.current, hspine, lastSlot_append]
  rfl

theorem Lays.opened_eq_nil (h : e.Lays a) :
    e.place.opened = [] ↔ e.state.current = e.state.head := by
  constructor
  · intro hnil
    rw [h.current, Place.spine, hnil]
    rfl
  · intro hcur
    cases ho : e.place.opened with
    | nil => rfl
    | cons o os =>
      obtain ⟨t, o', -, hspine, hslot⟩ := h.innermost ho
      have hn := h.nodup
      rw [held, List.cons_append, List.nodup_cons, hspine, ← hcur, hslot] at hn
      exact absurd (by simp) hn.1

/-- The current unit in the arena. -/
theorem Lays.unit (h : e.Lays a) : ∃ u, a.get? e.state.current = some u ∧
    u.next = start e.place.ahead none ∧ u.node = e.here?.bind matched := by
  obtain ⟨hspine, -⟩ := h.split
  cases ho : e.place.opened with
  | nil =>
    have hnil : e.place.spine = [] := by rw [Place.spine, ho]; rfl
    rw [hnil, ← List.nil_append [header e.state.head]] at hspine
    obtain ⟨u, hu, hnext, -, hnode, -⟩ := hspine.last
    refine ⟨u, ?_, hnext, ?_⟩
    · rw [h.opened_eq_nil.1 ho]
      exact hu
    · simp [here?, ho, hnode, header]
  | cons o os =>
    obtain ⟨t, o', rfl, hlast, hcur⟩ := h.innermost ho
    rw [hlast, ← List.cons_append] at hspine
    obtain ⟨u, hu, hnext, -, hnode, -⟩ := hspine.last
    exact ⟨u, hcur ▸ hu, hnext, by simp [here?, ho, hnode]⟩

/-- A state with the same chain and the same open phrases. -/
theorem Lays.restate (h : e.Lays a) {st : State} (hhead : st.head = e.state.head)
    (hcurrent : st.current = e.state.current) (hbeginning : st.beginning = e.state.beginning)
    (hframes : st.frames = e.state.frames) : Lays a ⟨st, e.place⟩ := by
  refine ⟨?_, ?_, ?_⟩
  · rw [units, hhead]
    exact h.spans
  · rw [hcurrent, hhead]
    exact h.current
  · rw [hbeginning, hframes]
    exact h.nested

end Post

namespace Parser

variable {σ : Type} {p : Parser σ}

theorem at?_view {o : List Tree} : p.at? (o.map form) =
    (o.head?.bind matched).bind fun n => p.grammar.nodes[n]? := by
  cases o <;> simp [at?]

theorem nextWord_eq {s : Session σ} {x : Place Tree} (h : Post.Lays s.arena ⟨s.state, x⟩)
    {u : Phrase} (hu : u.next = Arena.start x.ahead none) :
    nextWord s u = .ok (x.view.ahead.head?.map Form.word) := by
  obtain ⟨-, hahead⟩ := h.split
  unfold nextWord
  rw [hu]
  cases hr : x.ahead with
  | nil => simp [Arena.start, Place.view, hr]
  | cons t r =>
    simp only [hr] at hahead
    obtain ⟨v, -, hv, ht, -⟩ := hahead.cons_inv
    have hw : v.word = t.word := by
      rw [ht, word_node]
    simp only [Arena.start, fetch_of_get? hv, bind, Except.bind, pure, Except.pure, Place.view, hr,
      List.map_cons, List.head?_cons, Option.map_some, word_bare, hw]

/-- The choices at the current unit are those that the place offers. -/
theorem choices_eq {s : Session σ} {x : Place Tree} (h : Post.Lays s.arena ⟨s.state, x⟩)
    (hat : ∀ o ∈ x.view.opened, ∃ node, p.at? o = some node) (dummies : Dummies) :
    p.choices s dummies = .ok (p.offered s.goals dummies x.view) := by
  obtain ⟨u, hu, hnext, hnode⟩ := h.unit
  have hopened := h.opened_eq_nil
  simp only [choices, fetch_of_get? hu, nextWord_eq h hnext, bind, Except.bind, pure, Except.pure]
  cases ho : x.opened with
  | nil =>
    rw [if_pos (hopened.1 ho)]
    cases hr : x.ahead <;> simp [offered, Place.view, ho, hr]
  | cons o os =>
    have hcur : ¬s.state.current = s.state.head := fun heq => by
      have := hopened.2 heq
      simp [ho] at this
    rw [if_neg hcur]
    obtain ⟨node, hn⟩ := hat (o.map form) (by simp [Place.view, ho])
    have hn' := hn
    rw [at?_view] at hn'
    obtain ⟨n, hmatched, hget⟩ := Option.bind_eq_some_iff.1 hn'
    have hun : u.node = some n := by
      rw [hnode, Post.here?, ho]
      exact hmatched
    simp only [hun, nodeOf, hget]
    cases hk : node.kind <;> simp [offered, Place.view, ho, hn, hk]

end Parser

end StateDiagram
