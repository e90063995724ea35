import StateDiagram.Proofs.Parser.Carried
import StateDiagram.Proofs.Related

/-! Moves that take up one more unit: the next one is matched to a node, or a dummy unit is put in
front of it. -/
namespace StateDiagram

open StateDiagram.Tree Arena

variable {σ : Type} {p : Parser σ}

/-- A session with the place of its active state and with its saved states. -/
structure Stands (p : Parser σ) (s : Session σ) (x : Place Tree) (saved : List Post) : Prop where
  standing : Standing p s.arena ⟨s.state, x⟩ saved
  stack : s.saved = saved.map Post.state

/-- What a move makes of a session: its active state comes to another place, and its saved states
are carried over. -/
structure Moved (p : Parser σ) (s s' : Session σ) (x x' : Place Tree) (saved saved' : List Post) :
    Prop where
  stands : Stands p s' x' saved'
  carried : List.Forall₂ (Carried p ⟨s.state, x⟩ s.arena s'.arena x') saved saved'
  goals : s'.goals = s.goals
  steps : s'.steps = s.steps
  path : s'.state.path = s.state.path

theorem Moved.restate {s s' : Session σ} {x x' : Place Tree} {saved saved' : List Post}
    (h : Moved p s s' x x' saved saved') (st : State) (host : σ)
    (hhead : st.head = s'.state.head) (hcurrent : st.current = s'.state.current)
    (hbeginning : st.beginning = s'.state.beginning) (hframes : st.frames = s'.state.frames)
    (hunique : st.unique = s'.state.unique) (hpath : st.path = s'.state.path)
    (hchoices : ∀ cs, st.choices = some cs → ∀ c ∈ cs, Parser.Legal p x'.view c) :
    Moved p s { s' with state := st, host } x x' saved saved' where
  stands := ⟨h.stands.standing.restate st hhead hcurrent hbeginning hframes
    hunique.symm.trans hchoices, h.stands.stack⟩
  carried := h.carried
  goals := h.goals
  steps := h.steps
  path := hpath.trans h.path

namespace Stands

variable {s : Session σ} {x : Place Tree} {saved : List Post}

theorem lays (h : Stands p s x saved) : Post.Lays s.arena ⟨s.state, x⟩ :=
  h.standing.lays _ (List.mem_cons_self ..)

theorem proper (h : Stands p s x saved) : p.Proper x.view :=
  h.standing.proper _ (List.mem_cons_self ..)

theorem layered (h : Stands p s x saved) : Layered (Post.units ⟨s.state, x⟩) :=
  h.standing.layered _ (List.mem_cons_self ..) _ (List.mem_cons_self ..)

theorem apart (h : Stands p s x saved) {f : Post} (hf : f ∈ saved) :
    ∀ i ∈ Post.awaited ⟨s.state, x⟩, i ∉ f.held :=
  (List.pairwise_cons.1 h.standing.apart).1 f hf

/-- The active state and each saved state have their places. -/
theorem post_of_mem (h : Stands p s x saved) {st : State} (hst : st ∈ s.state :: s.saved) :
    ∃ e ∈ (⟨s.state, x⟩ : Post) :: saved, e.state = st := by
  rw [h.stack] at hst
  cases List.mem_cons.1 hst with
  | inl heq => exact ⟨_, List.mem_cons_self .., heq.symm⟩
  | inr hst =>
    obtain ⟨e, he, rfl⟩ := List.mem_map.1 hst
    exact ⟨e, List.mem_cons_of_mem _ he, rfl⟩

theorem isEmpty_eq (h : Stands p s x saved) : s.saved.isEmpty = saved.isEmpty := by
  rw [h.stack]
  cases saved <;> rfl

/-- A chain of old units of the active state and of fresh ones, if what is below it was below that
state before or is no unit of it. -/
theorem layered_of (h : Stands p s x saved) {ts : List Tree}
    (htop : ∀ i ∈ ts.map slot, i ∈ (Post.units ⟨s.state, x⟩).map slot ∨ s.arena.size ≤ i)
    (hinner : ∀ i ∈ inner ts, i ∈ inner (Post.units ⟨s.state, x⟩) ∨ i ∉ ts.map slot) :
    Layered ts := by
  intro i hi hin
  cases hinner i hin with
  | inl hold =>
    cases htop i hi with
    | inl htop => exact h.layered i htop hold
    | inr hfresh =>
      have hlt := h.lays.inner_lt hold
      omega
  | inr hout => exact hout hi

/-- No saved state holds a fresh unit. -/
theorem free_of_fresh (h : Stands p s x saved) {u : Bool} {fs : List Frame} {os : List (List Tree)}
    (hfresh : ∀ t ∈ os.flatten, s.arena.size ≤ t.slot) : Free saved u fs os :=
  free_of_forall fun t ht e he hheld => by
    have hlt := (h.standing.lays e (List.mem_cons_of_mem _ he)).lt (List.mem_append_left _ hheld)
    have hle := hfresh t ht
    omega

/-- The active state is replaced and the saved states are carried over. -/
theorem shift (h : Stands p s x saved) (s' : Session σ) (x' : Place Tree) (g : Post → Post)
    (hg : ∀ f ∈ saved, Carried p ⟨s.state, x⟩ s.arena s'.arena x' f (g f))
    (hframe : s'.saved = s.saved ∧ s'.goals = s.goals ∧ s'.steps = s.steps ∧
      s'.state.path = s.state.path)
    (hlays' : Post.Lays s'.arena ⟨s'.state, x'⟩) (hproper' : p.Proper x'.view)
    (hapart' : ∀ f ∈ saved, ∀ i ∈ Post.awaited ⟨s'.state, x'⟩, i ∉ f.held)
    (htop' : ∀ i ∈ (Post.units ⟨s'.state, x'⟩).map slot,
      i ∈ (Post.units ⟨s.state, x⟩).map slot ∨ s.arena.size ≤ i)
    (hlayered' : Layered (Post.units ⟨s'.state, x'⟩))
    (hinner' : saved ≠ [] → ∀ i ∈ inner (Post.units ⟨s'.state, x'⟩),
      i ∈ inner (Post.units ⟨s.state, x⟩) ∨ s.arena.size ≤ i)
    (hfree' : Free saved s'.state.unique s'.state.frames x'.opened)
    (hchoices' : ∀ cs, s'.state.choices = some cs → ∀ c ∈ cs, Parser.Legal p x'.view c) :
    Moved p s s' x x' saved (saved.map g) where
  stands := by
    have hstanding : Standing p s'.arena ⟨s'.state, x'⟩ (saved.map g) :=
      h.standing.shift g hg hlays' hproper' hapart' htop' hlayered' hinner' hfree' hchoices'
    refine ⟨hstanding, ?_⟩
    rw [hframe.1, h.stack, List.map_map]
    exact List.map_congr_left fun f hf => (hg f hf).state.symm
  carried := forall₂_map_of_forall hg
  goals := hframe.2.1
  steps := hframe.2.2.1
  path := hframe.2.2.2

/-- The next unit is found from the current one. -/
theorem next {u : Tree} {us : List Tree} (h : Stands p s x saved) (hahead : x.ahead = u :: us) :
    ∃ v, s.arena.nextOf s.state.current = .ok u.slot ∧ s.arena.get? u.slot = some v ∧
      v.word = u.word := by
  obtain ⟨w, hw, hnext, -⟩ := h.lays.unit
  obtain ⟨-, hspan⟩ := h.lays.split
  rw [hahead] at hnext hspan
  obtain ⟨v, -, hv, hu, -⟩ := hspan.cons_inv
  refine ⟨v, nextOf_of_next hw hnext, hv, ?_⟩
  rw [hu, word_node]

/-- The next unit is matched to a node and becomes the current one. -/
theorem enter {u : Tree} {us : List Tree} (h : Stands p s x saved) (hahead : x.ahead = u :: us)
    (n : Nat) (st : State) (os : List (List Tree)) (hhead : st.head = s.state.head)
    (hcurrent : st.current = u.slot) (hchoices : st.choices = none)
    (hpath : st.path = s.state.path) (hflat : os.flatten = u.mark n :: x.opened.flatten)
    (hnested : Nested st.beginning st.frames os)
    (hproper : p.Proper (Place.view ⟨os, us⟩)) (hfree : Free saved st.unique st.frames os) :
    Moved p s { s with arena := s.arena.setNode u.slot (some n), state := st } x ⟨os, us⟩ saved
      (saved.map (Post.remark u.slot n)) := by
  have hslots : u.slot ∈ Post.awaited ⟨s.state, x⟩ := by simp [Post.awaited, hahead]
  have hnodup := h.lays.nodup
  have hheld : u.slot ∉ Post.held ⟨s.state, x⟩ := fun hmem =>
    (List.nodup_append.1 hnodup).2.2 _ hmem _ hslots rfl
  have htop := Post.awaited_subset _ _ hslots
  have hus : us.map (Tree.remark u.slot n) = us := by
    refine map_remark_of_notMem n ?_
    have := (List.nodup_append.1 hnodup).2.1
    rw [Post.awaited, hahead, List.map_cons, List.nodup_cons] at this
    exact this.1
  have hunits : Post.units ⟨st, ⟨os, us⟩⟩ = (Post.remark u.slot n ⟨s.state, x⟩).units := by
    simp [Post.units, Post.remark, Place.spine, hflat, hhead, hahead, hus, Tree.remark]
  have hlays := h.lays.remark (n := n) hheld (h.layered _ htop)
  refine h.shift _ _ _ (fun f hf => ?_) ⟨rfl, rfl, rfl, hpath⟩ ?_ hproper ?_ ?_ ?_ ?_ hfree ?_
  · have hf' := List.mem_cons_of_mem (⟨s.state, x⟩ : Post) hf
    exact .remark (h.standing.lays f hf') (h.standing.proper f hf') (h.standing.waiting f hf)
      (h.apart hf _ hslots) (h.standing.layered _ (List.mem_cons_self ..) f hf' _ htop)
  · refine ⟨?_, ?_, hnested⟩
    · rw [hunits, hhead]
      exact hlays.spans
    · change st.current = lastSlot st.head os.flatten.reverse
      rw [hcurrent, hflat, List.reverse_cons, lastSlot_append]
      simp [lastSlot]
  · intro f hf i hi
    refine h.apart hf i ?_
    simp only [Post.awaited, hahead] at hi ⊢
    exact List.mem_cons_of_mem _ hi
  · intro i hi
    rw [hunits, Post.map_slot_units, Post.awaited_remark] at hi
    rw [Post.map_slot_units]
    exact .inl hi
  · intro i hi
    rw [hunits, Post.inner_units_remark]
    rw [hunits, Post.map_slot_units, Post.awaited_remark] at hi
    exact h.layered i (Post.map_slot_units _ ▸ hi)
  · intro _ i hi
    rw [hunits, Post.inner_units_remark] at hi
    exact .inl hi
  · intro cs hcs
    rw [hchoices] at hcs
    cases hcs

/-- A phrase is begun at the next unit. -/
theorem initial {u : Tree} {us : List Tree} {n : Nat} {node : Node} (h : Stands p s x saved)
    (hahead : x.ahead = u :: us) (hnode : p.grammar.nodes[n]? = some node)
    (hproper : p.Proper (x.view.after p.config.dummyWord none (.initial n))) :
    ∃ s', p.moveInitial n s = .ok s' ∧
      Moved p s s' x ⟨[u.mark n] :: x.opened, us⟩ saved (saved.map (Post.remark u.slot n)) ∧
      Place.view ⟨[u.mark n] :: x.opened, us⟩ =
        x.view.after p.config.dummyWord none (.initial n) ∧
      s'.state = { s.state with
        current := u.slot
        choices := none
        frames := ⟨s.state.beginning, s.state.features, s.state.unique⟩ :: s.state.frames
        beginning := x.opened.flatten.length + 1
        features := []
        unique := !node.incoming && p.grammar.isUnique u.word } ∧ s'.host = s.host := by
  obtain ⟨v, hnext, hv, hword⟩ := h.next hahead
  have hview : Place.view ⟨[u.mark n] :: x.opened, us⟩ =
      x.view.after p.config.dummyWord none (.initial n) := by
    simp [Place.view, Place.after, hahead, bare]
  let unique := !node.incoming && p.grammar.isUnique u.word
  let st : State := { s.state with
    current := u.slot
    choices := none
    frames := ⟨s.state.beginning, s.state.features, s.state.unique⟩ :: s.state.frames
    beginning := x.opened.flatten.length + 1
    features := []
    unique := unique }
  have hslots : u.slot ∈ Post.awaited ⟨s.state, x⟩ := by simp [Post.awaited, hahead]
  have hfree : Free saved unique st.frames ([u.mark n] :: x.opened) := by
    cases hu : unique with
    | false => exact free_false ..
    | true =>
      refine ⟨fun t ht e he => ?_, h.standing.free⟩
      obtain rfl := List.mem_singleton.1 ht
      rw [slot_mark]
      exact h.apart he _ hslots
  have hmoved := h.enter hahead n st ([u.mark n] :: x.opened) rfl rfl rfl rfl rfl
    (.inside (List.cons_ne_nil _ _) h.lays.nested) (hview ▸ hproper) hfree
  -- the counter is read off the chain as it is after the unit has been matched
  have hposition : (s.arena.setNode u.slot (some n)).position s.state.head u.slot =
      x.opened.flatten.length + 1 := by
    have hspans := hmoved.stands.lays.spans
    have hunits : Post.units ⟨st, ⟨[u.mark n] :: x.opened, us⟩⟩ =
        (header s.state.head :: x.spine) ++ u.mark n :: us := by
      simp [Post.units, Place.spine, st]
    rw [hunits] at hspans
    have hpos := hspans.position
    rw [slot_mark] at hpos
    simpa [Place.spine] using hpos
  refine ⟨_, ?_, hmoved, hview, rfl, rfl⟩
  simp only [Parser.moveInitial, Parser.nodeOf, hnext, fetch_of_get? hv, hnode, hword, hposition,
    bind, Except.bind, pure, Except.pure, st, unique]

/-- The open phrase goes on to the next unit. -/
theorem nonDummy {u : Tree} {us o : List Tree} {os : List (List Tree)} {n : Nat}
    (h : Stands p s x saved) (hopened : x.opened = o :: os) (hahead : x.ahead = u :: us)
    (hproper : p.Proper (x.view.after p.config.dummyWord none (.nonDummy n))) :
    ∃ s', p.moveNonDummy n s = .ok s' ∧
      Moved p s s' x ⟨(u.mark n :: o) :: os, us⟩ saved (saved.map (Post.remark u.slot n)) ∧
      Place.view ⟨(u.mark n :: o) :: os, us⟩ =
        x.view.after p.config.dummyWord none (.nonDummy n) ∧
      s'.state = { s.state with
        current := u.slot
        choices := none
        unique := s.state.unique && p.grammar.isUnique u.word } ∧ s'.host = s.host := by
  obtain ⟨v, hnext, hv, hword⟩ := h.next hahead
  have hview : Place.view ⟨(u.mark n :: o) :: os, us⟩ =
      x.view.after p.config.dummyWord none (.nonDummy n) := by
    simp [Place.view, Place.after, hopened, hahead, bare]
  let unique := s.state.unique && p.grammar.isUnique u.word
  let st : State := { s.state with current := u.slot, choices := none, unique := unique }
  have hslots : u.slot ∈ Post.awaited ⟨s.state, x⟩ := by simp [Post.awaited, hahead]
  have hnested := h.lays.nested
  have hfree := h.standing.free
  simp only [hopened] at hnested hfree
  obtain ⟨f, fs, hframes, -⟩ := hnested.of_cons
  have hfree' : Free saved unique st.frames ((u.mark n :: o) :: os) := by
    cases hu : unique with
    | false => exact free_false ..
    | true =>
      have hold : s.state.unique = true := (Bool.and_eq_true_iff.1 hu).1
      rw [hold, hframes] at hfree
      change Free saved true s.state.frames _
      rw [hframes]
      refine ⟨fun t ht e he => ?_, hfree.2⟩
      cases List.mem_cons.1 ht with
      | inl heq =>
        rw [heq, slot_mark]
        exact h.apart he _ hslots
      | inr ht => exact hfree.1 t ht e he
  have hmoved := h.enter hahead n st ((u.mark n :: o) :: os) rfl rfl rfl rfl (by simp [hopened])
    (hnested.push slot slot (u.mark n) o rfl) (hview ▸ hproper) hfree'
  refine ⟨_, ?_, hmoved, hview, rfl, rfl⟩
  simp only [Parser.moveNonDummy, hnext, fetch_of_get? hv, hword, bind, Except.bind, pure,
    Except.pure, st, unique]

end Stands

end StateDiagram
