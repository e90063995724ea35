import StateDiagram.Proofs.Parser.Skipped

/-! Moves that complete the open phrase. Its units go below a single one, on a copy of the chain or
in place; the phrase around it is then the open one again, and its choices are computed anew. -/
namespace StateDiagram

open StateDiagram.Tree Arena

variable {σ : Type} {p : Parser σ}

/-- The state after the innermost phrase has been closed, for its frame `f` and the frames around
it. -/
def State.closed (st : State) (head current : Nat) (f : Frame) (fs : List Frame) : State :=
  { st with
    head, current
    frames := fs
    unique := f.unique && st.unique
    features := f.features
    beginning := f.beginning }

/-- The innermost phrase in the arena: its first unit `f`, the units `us` behind it, and the unit
before it. -/
structure Part (s : Session σ) (x : Place Tree) (o : List Tree) (os : List (List Tree)) (f : Tree)
    (us : List Tree) (fr : Frame) (fs : List Frame) (prev : Nat) : Prop where
  units : o.reverse = f :: us
  spine : x.spine = os.flatten.reverse ++ f :: us
  chain : s.arena.Spans (some s.state.head)
    (header s.state.head :: os.flatten.reverse ++ (f :: us ++ x.ahead)) none
  current : s.state.current = lastSlot f.slot us
  frames : s.state.frames = fr :: fs
  nested : Nested fr.beginning fs os
  prev_eq : prev = lastSlot s.state.head os.flatten.reverse
  ahead : s.arena.ahead (s.state.beginning - 1) s.state.head = .ok prev
  first : s.arena.nextOf prev = .ok f.slot

variable {s : Session σ} {x : Place Tree} {saved : List Post} {o : List Tree}
  {os : List (List Tree)}

/-- A unit over forms of the units of the open phrase is that phrase when it is completed. -/
theorem view_completed {os' : List (List Tree)} {ts : List Tree} {dummy : String}
    (hopened : x.opened = o :: os) (hos : os'.map (·.map form) = os.map (·.map form))
    (hts : ts.map form = o.reverse.map form) (i : Nat) (type : String) (value : Option Value) :
    Place.view ⟨os', .node i type none value ts :: x.ahead⟩ =
      x.view.after dummy value (.final type) := by
  simp only [Place.view, Place.after, hopened, List.map_cons, hos, bare, form_node, hts, Form.clear,
    List.map_reverse]

namespace Stands

theorem part (h : Stands p s x saved) (hopened : x.opened = o :: os) :
    ∃ f us fr fs prev, Part s x o os f us fr fs prev := by
  have hnested := h.lays.nested
  simp only [hopened] at hnested
  obtain ⟨fr, fs, hframes, hbeginning, hne, hrest⟩ := hnested.of_cons
  obtain ⟨f, us, hunits⟩ : ∃ f us, o.reverse = f :: us :=
    List.exists_cons_of_ne_nil (by simpa using hne)
  have hspine : x.spine = os.flatten.reverse ++ f :: us := by
    simp [Place.spine, hopened, hunits]
  have hchain : s.arena.Spans (some s.state.head)
      (header s.state.head :: os.flatten.reverse ++ (f :: us ++ x.ahead)) none := by
    have hspans := h.lays.spans
    rw [Post.units, hspine] at hspans
    simpa using hspans
  have hcurrent : s.state.current = lastSlot f.slot us := by
    have hcur := h.lays.current
    rw [hspine, lastSlot_append] at hcur
    exact hcur
  -- the unit before the phrase is reached by as many links as the counter says
  obtain ⟨ts, t, hts, hlast⟩ := exists_concat (header s.state.head) os.flatten.reverse
  have hback := hchain
  rw [hts, List.append_assoc] at hback
  obtain ⟨m, hfront, hrestchain⟩ := hback.split
  obtain rfl : m = some t.slot := hrestchain.start
  have hlen : ts.length = s.state.beginning - 1 := by
    have hlength := congrArg List.length hts
    simp only [List.length_cons, List.length_reverse, List.length_append,
      List.length_nil] at hlength
    rw [hbeginning]
    omega
  have hahead := hfront.ahead
  rw [hlen] at hahead
  have hfirst : s.arena.nextOf t.slot = .ok f.slot := hrestchain.nextOf rfl
  have hprev : t.slot = lastSlot s.state.head os.flatten.reverse := hlast.symm
  exact ⟨f, us, fr, fs, t.slot, hunits, hspine, hchain, hcurrent, hframes, hrest, hprev, hahead,
    hfirst⟩

/-- When the innermost phrase is closed, those around it have the slots that they had. -/
theorem free_closed {fr : Frame} {fs : List Frame} (h : Stands p s x saved)
    (hopened : x.opened = o :: os) (hframes : s.state.frames = fr :: fs) :
    Free saved (fr.unique && s.state.unique) fs os := by
  have hfree := h.standing.free
  simp only [hopened, hframes] at hfree
  cases hu : s.state.unique with
  | false =>
    rw [Bool.and_false]
    exact free_false ..
  | true =>
    rw [hu] at hfree
    rw [Bool.and_true]
    exact hfree.2

end Stands

namespace Part

variable {f : Tree} {us : List Tree} {fr : Frame} {fs : List Frame} {prev : Nat} {T : Tree}

theorem units_eq (h : Part s x o os f us fr fs prev) : Post.units ⟨s.state, x⟩ =
    header s.state.head :: os.flatten.reverse ++ (f :: us ++ x.ahead) := by
  simp [Post.units, h.spine]

theorem reduce_onCopy (h : Part s x o os f us fr fs prev) {type : String} {value : Option Value}
    (hcopy : p.collapses s = false) {head current : Nat} {b : Arena}
    (hrun : s.arena.reduceByCopy type value s.state.head f.slot s.state.current =
      .ok (head, current, b)) :
    (p.reduce type value s >>= Parser.closeFrame) =
      .ok { s with arena := b, state := s.state.closed head current fr fs } := by
  simp only [Parser.reduce, h.ahead, h.first, hcopy, hrun, Parser.closeFrame, h.frames, bind,
    Except.bind, pure, Except.pure, State.closed]
  rfl

theorem reduce_inPlace (h : Part s x o os f us fr fs prev) {type : String} {value : Option Value}
    (hplace : p.collapses s = true) {b : Arena}
    (hrun : s.arena.reduceInPlace type value (!s.saved.isEmpty) f.slot s.state.current = .ok b) :
    (p.reduce type value s >>= Parser.closeFrame) =
      .ok { s with arena := b, state := s.state.closed s.state.head prev fr fs } := by
  simp only [Parser.reduce, h.ahead, h.first, hplace, if_true, hrun, Parser.closeFrame, h.frames,
    bind, Except.bind, pure, Except.pure, State.closed]

/-- Below a copy of the chain with a unit `T` in place of the phrase is what was below the chain, and
the copies of the units of the phrase. -/
theorem inner_copied (h : Part s x o os f us fr fs prev) {k j head : Nat}
    (hT : T.parts = renumber (j + 1) (f :: us)) {i : Nat}
    (hi : i ∈ inner (renumber k (header head :: os.flatten.reverse) ++ T :: x.ahead)) :
    i ∈ inner (Post.units ⟨s.state, x⟩) ∨ j < i ∧ i < j + (us.length + 2) := by
  rw [inner_append, inner_renumber, inner_cons T, hT, List.mem_append, List.mem_append, mem_slotsOf,
    inner_renumber] at hi
  rw [h.units_eq, inner_append, inner_append, List.mem_append, List.mem_append]
  obtain hi | (hi | hi) | hi := hi
  · exact .inl (.inl hi)
  · have hfresh := fresh_renumber hi
    rw [List.length_cons] at hfresh
    exact .inr (by omega)
  · exact .inl (.inr (.inl hi))
  · exact .inl (.inr (.inr hi))

end Part

namespace Stands

/-- No unit of a copy of the chain with a unit `T` in place of the phrase is below another. -/
theorem layered_copied {f T : Tree} {us : List Tree} {fr : Frame} {fs : List Frame} {prev : Nat}
    (h : Stands p s x saved) (hpart : Part s x o os f us fr fs prev) {k head : Nat}
    (hk : k = s.arena.size + (us.length + 2)) (hslot : T.slot = s.arena.size)
    (hT : T.parts = renumber (s.arena.size + 1) (f :: us)) :
    Layered (renumber k (header head :: os.flatten.reverse) ++ T :: x.ahead) := by
  refine h.layered_of (fun i hi => ?_) fun i hi => ?_
  · exact (slot_copied hi).imp (Post.awaited_subset ⟨s.state, x⟩ i) (by omega)
  · refine (hpart.inner_copied hT hi).imp_right fun hnew hi' => ?_
    obtain hold | heq | hfresh := slot_copied hi'
    · have hlt := h.lays.lt (List.mem_append_right _ hold)
      omega
    · omega
    · omega

/-- The phrase is completed on a copy of the chain. -/
theorem reduceOnCopy (h : Stands p s x saved) (hopened : x.opened = o :: os) (type : String)
    (value : Option Value) (hcopy : p.collapses s = false)
    (hproper : p.Proper (x.view.after p.config.dummyWord value (.final type))) :
    ∃ s' x' fr fs, s.state.frames = fr :: fs ∧
      (p.reduce type value s >>= Parser.closeFrame) =
        .ok { s' with state := { s'.state with choices := s.state.choices } } ∧
      Moved p s s' x x' saved saved ∧
      x'.view = x.view.after p.config.dummyWord value (.final type) ∧
      (∀ t ∈ x'.opened.flatten, s.arena.size ≤ t.slot) ∧ x'.ahead.head?.bind matched = none ∧
      (∃ head current, s'.state = { s.state.closed head current fr fs with choices := none }) ∧
      s'.host = s.host := by
  obtain ⟨f, us, fr, fs, prev, hpart⟩ := h.part hopened
  let k := s.arena.size + (us.length + 2)
  obtain ⟨b, hrun, hkeep, hspan⟩ := hpart.chain.reduceByCopy type value
  rw [← hpart.current] at hrun
  let stop := lastSlot k (renumber (k + 1) os.flatten.reverse)
  let st : State := { s.state.closed k stop fr fs with choices := none }
  let s' : Session σ := { s with arena := b, state := st }
  let T : Tree := .node s.arena.size type none value (renumber (s.arena.size + 1) (f :: us))
  let x' : Place Tree := ⟨recopyAll (k + 1) os, T :: x.ahead⟩
  have hview : x'.view = x.view.after p.config.dummyWord value (.final type) :=
    view_completed hopened (form_recopyAll _ _) (by rw [form_renumber, hpart.units]) _ type value
  have hspine' : x'.spine = renumber (k + 1) os.flatten.reverse := flatten_recopyAll _ _
  have hunits' : Post.units ⟨st, x'⟩ =
      renumber k (header s.state.head :: os.flatten.reverse) ++ T :: x.ahead := by
    simp only [Post.units, hspine', x', st, State.closed, Tree.renumber, header, put,
      List.cons_append]
  have hlays' : Post.Lays b ⟨st, x'⟩ := by
    refine ⟨?_, ?_, hpart.nested.map form form (form_recopyAll _ _)⟩
    · rw [hunits']
      exact hspan
    · rw [hspine']
      rfl
  have hlayered' : Layered (Post.units ⟨st, x'⟩) := hunits' ▸ h.layered_copied hpart rfl rfl rfl
  have htop' : ∀ i ∈ (Post.units ⟨st, x'⟩).map slot,
      i ∈ (Post.units ⟨s.state, x⟩).map slot ∨ s.arena.size ≤ i := by
    intro i hi
    rw [hunits'] at hi
    exact (slot_copied hi).imp (Post.awaited_subset ⟨s.state, x⟩ i) (fun hi => by
      have hslot : T.slot = s.arena.size := rfl
      omega)
  have hinner' : ∀ i ∈ inner (Post.units ⟨st, x'⟩),
      i ∈ inner (Post.units ⟨s.state, x⟩) ∨ s.arena.size ≤ i := fun i hi =>
    (hpart.inner_copied rfl (hunits' ▸ hi)).imp_right fun hi => Nat.le_of_lt hi.1
  have hfresh : ∀ t ∈ x'.opened.flatten, s.arena.size ≤ t.slot := by
    intro t ht
    have hle : k + 1 ≤ t.slot := mem_recopyAll ht
    omega
  have hawaited' : ∀ i ∈ Post.awaited ⟨st, x'⟩,
      i ∈ Post.awaited ⟨s.state, x⟩ ∨ s.arena.size ≤ i := by
    intro i hi
    have hi' : i ∈ s.arena.size :: Post.awaited ⟨s.state, x⟩ := hi
    exact (List.mem_cons.1 hi').symm.imp_right fun heq => Nat.le_of_eq heq.symm
  refine ⟨s', x', fr, fs, hpart.frames, hpart.reduce_onCopy hcopy hrun, ?_, hview, hfresh, rfl,
    ⟨k, stop, rfl⟩, rfl⟩
  exact h.onward s' x' hkeep ⟨rfl, rfl, rfl, rfl⟩ hlays' (hview ▸ hproper) hawaited' htop' hlayered'
    hinner' (h.free_of_fresh hfresh) (by simp [s', st])

end Stands

namespace Part

variable {f : Tree} {us : List Tree} {fr : Frame} {fs : List Frame} {prev : Nat} {T : Tree}

/-- The chain with a unit `T` in place of the phrase. Neither the first nor the last unit of the
phrase is read on the way to it. -/
theorem spans_collapsed (h : Part s x o os f us fr fs prev)
    (hlayered : Layered (Post.units ⟨s.state, x⟩)) {b : Arena}
    (hspan : b.Spans (some f.slot) (T :: x.ahead) none)
    (hsame : ∀ j < s.arena.size, j ≠ f.slot → j ≠ lastSlot f.slot us →
      b.get? j = s.arena.get? j) :
    b.Spans (some s.state.head) (header s.state.head :: os.flatten.reverse ++ T :: x.ahead)
      none := by
  rw [h.units_eq] at hlayered
  have hnodup := h.chain.nodup
  rw [List.map_append, List.nodup_append] at hnodup
  obtain ⟨m, hfront, hrest⟩ := h.chain.split
  obtain rfl : m = some f.slot := hrest.start
  have haway : ∀ j ∈ slotsOf (header s.state.head :: os.flatten.reverse),
      ∀ i ∈ (f :: us ++ x.ahead).map slot, j ≠ i := by
    intro j hj i hi heq
    rw [mem_slotsOf] at hj
    cases hj with
    | inl hj => exact hnodup.2.2 j hj i hi heq
    | inr hj =>
      refine hlayered i ?_ ?_
      · rw [List.map_append]
        exact List.mem_append_right _ hi
      · rw [inner_append, ← heq]
        exact List.mem_append_left _ hj
  refine h.chain.splice rfl hspan fun j hj => hsame j (hfront.lt j hj) ?_ ?_
  · exact haway j hj f.slot (by simp)
  · exact haway j hj _ (lastSlot_mem_append f us x.ahead)

/-- The units of that chain are old ones, but none that stood in the phrase behind its first. -/
theorem top_collapsed (h : Part s x o os f us fr fs prev) (hT : T.slot = f.slot) :
    ∀ i ∈ (header s.state.head :: os.flatten.reverse ++ T :: x.ahead).map slot,
      i ∈ (Post.units ⟨s.state, x⟩).map slot ∧ i ∉ us.map slot := by
  intro i hi
  have hnodup := h.chain.nodup
  rw [h.units_eq]
  simp only [List.map_append, List.map_cons, List.cons_append, List.nodup_cons, List.nodup_append,
    List.mem_append, List.mem_cons, hT] at hi hnodup ⊢
  grind

theorem inner_collapsed (h : Part s x o os f us fr fs prev) {held : Bool}
    (hT : T.parts = lowered held s.arena.size f us) :
    ∀ i ∈ inner (header s.state.head :: os.flatten.reverse ++ T :: x.ahead),
      i ∈ inner (Post.units ⟨s.state, x⟩) ∨ s.arena.size ≤ i ∨ held = false ∧ i ∈ us.map slot := by
  intro i hi
  rw [inner_append, inner_cons T, hT, List.mem_append, List.mem_append] at hi
  rw [h.units_eq, inner_append, inner_append, List.mem_append, List.mem_append]
  rcases hi with hi | hi | hi
  · exact .inl (.inl hi)
  · rcases slots_lowered hi with hi | hi | hi
    · exact .inr (.inl hi)
    · exact .inl (.inr (.inl hi))
    · exact .inr (.inr hi)
  · exact .inl (.inr (.inr hi))

end Part

namespace Stands

variable {f T : Tree} {us : List Tree} {fr : Frame} {fs : List Frame} {prev : Nat}

/-- No saved state holds the first unit of a phrase that counts as parsed in a single way. -/
theorem first_notMem_held (h : Stands p s x saved) (hopened : x.opened = o :: os)
    (hpart : Part s x o os f us fr fs prev) (hunique : s.state.unique = true) {e : Post}
    (he : e ∈ saved) : f.slot ∉ e.held := by
  have hfree := h.standing.free
  simp only [hopened, hpart.frames, hunique] at hfree
  refine hfree.1 f ?_ e he
  rw [← List.mem_reverse, hpart.units]
  exact List.mem_cons_self ..

/-- What a saved state is when a phrase of the active one is collapsed in place. -/
theorem carried_collapse (h : Stands p s x saved) (hopened : x.opened = o :: os)
    (hpart : Part s x o os f us fr fs prev) {type : String} {value : Option Value}
    (hproper : p.Proper (x.view.after p.config.dummyWord value (.final type)))
    (hsave : p.config.saveUnique = true) (hunique : s.state.unique = true) {b : Arena}
    (hT : T = .node f.slot type none value (lowered true s.arena.size f us))
    (hspan : b.Spans (some f.slot) (T :: x.ahead) none) (hsize : s.arena.size ≤ b.size)
    (hsame : ∀ j < s.arena.size, j ≠ f.slot → b.get? j = s.arena.get? j) {e : Post}
    (he : e ∈ saved) :
    Carried p ⟨s.state, x⟩ s.arena b ⟨os, T :: x.ahead⟩ e (e.collapse T x.ahead) := by
  have he' := List.mem_cons_of_mem (⟨s.state, x⟩ : Post) he
  have hparts : T.parts = f.put s.arena.size :: renumber (s.arena.size + 1) us := by
    rw [hT]
    rfl
  have hrow : (o.map form).reverse = (f :: us).map form := by
    rw [← List.map_reverse, hpart.units]
  have hbare : T.bare = .unit type none value (o.map form).reverse := by
    rw [hT, bare, form_node, form_lowered, hrow]
    rfl
  have hbelow : ∀ i ∈ inner (f :: us), i ∈ slotsOf T.parts := by
    intro i hi
    rw [inner_cons, List.mem_append] at hi
    rw [hparts, slotsOf_cons, parts_put, List.cons_append, List.mem_cons, List.mem_append]
    refine .inr (hi.imp_right fun hi => ?_)
    rw [mem_slotsOf, inner_renumber]
    exact .inr hi
  obtain ⟨m, -, hrest⟩ := hpart.chain.split
  obtain rfl : m = some f.slot := hrest.start
  have hcollapsed : Collapsed s.arena b f us x.ahead T :=
    ⟨by rw [hT]; rfl, hrest, hspan, hsize, hsame, by simp [hparts], hbelow⟩
  have hslots : f.slot ∈ (Post.units ⟨s.state, x⟩).map slot := by
    rw [hpart.units_eq]
    simp
  have hview : (⟨s.state, x⟩ : Post).place.view.opened = o.map form :: os.map (·.map form) := by
    simp [Place.view, hopened]
  have hfirst : (⟨s.state, x⟩ : Post).first? = some f.slot := by
    have hlast : o.getLast? = some f := by
      rw [← List.head?_reverse, hpart.units]
      rfl
    simp [Post.first?, hopened, hlast]
  obtain ⟨ws, hwhole⟩ : ∃ ws, p.Whole (fun _ _ => True)
      (.unit type none value (o.map form).reverse) ws := by
    refine hproper.ahead _ ?_
    simp [Place.after, Place.view, hopened]
  exact .collapse (h.standing.lays e he') (h.standing.proper e he') (h.standing.waiting e he)
    hcollapsed (h.first_notMem_held hopened hpart hunique he)
    (h.standing.layered _ (List.mem_cons_self ..) e he' _ hslots) hsave hunique hview hrow hbare
    hwhole hfirst rfl rfl

/-- No unit of the chain with the collapsed phrase is below another. -/
theorem layered_collapsed (h : Stands p s x saved) (hpart : Part s x o os f us fr fs prev)
    {held : Bool} (hslot : T.slot = f.slot) (hT : T.parts = lowered held s.arena.size f us) :
    Layered (header s.state.head :: os.flatten.reverse ++ T :: x.ahead) := by
  refine h.layered_of (fun i hi => .inl (hpart.top_collapsed hslot i hi).1) fun i hi => ?_
  refine (hpart.inner_collapsed hT i hi).imp_right fun hnew hi' => ?_
  obtain ⟨hold, hout⟩ := hpart.top_collapsed hslot i hi'
  cases hnew with
  | inl hfresh =>
    have hlt := h.lays.lt (Post.map_slot_units _ ▸ hold)
    omega
  | inr hin => exact hout hin.2

/-- As long as states are saved, a phrase is collapsed in place only if it was parsed in a single
way. -/
theorem unique_of_collapses (h : Stands p s x saved) (hplace : p.collapses s = true)
    (hsaved : saved ≠ []) :
    (!s.saved.isEmpty) = true ∧ p.config.saveUnique = true ∧ s.state.unique = true := by
  have hempty : s.saved.isEmpty = false :=
    h.isEmpty_eq.trans (List.isEmpty_eq_false_iff.2 hsaved)
  refine ⟨by simp [hempty], ?_⟩
  simpa [Parser.collapses, hempty] using hplace

/-- The phrase is collapsed into its first unit. -/
theorem reduceInPlace (h : Stands p s x saved) (hopened : x.opened = o :: os) (type : String)
    (value : Option Value) (hplace : p.collapses s = true)
    (hproper : p.Proper (x.view.after p.config.dummyWord value (.final type))) :
    ∃ s' T fr fs, s.state.frames = fr :: fs ∧
      (p.reduce type value s >>= Parser.closeFrame) =
        .ok { s' with state := { s'.state with choices := s.state.choices } } ∧
      Moved p s s' x ⟨os, T :: x.ahead⟩ saved (saved.map (Post.collapse T x.ahead)) ∧
      Place.view ⟨os, T :: x.ahead⟩ = x.view.after p.config.dummyWord value (.final type) ∧
      T.matched = none ∧
      (∃ head current, s'.state = { s.state.closed head current fr fs with choices := none }) ∧
      s'.host = s.host := by
  obtain ⟨f, us, fr, fs, prev, hpart⟩ := h.part hopened
  have hlayered := h.layered
  rw [hpart.units_eq] at hlayered
  obtain ⟨m, -, hrest⟩ := hpart.chain.split
  obtain rfl : m = some f.slot := hrest.start
  let held := !s.saved.isEmpty
  obtain ⟨b, hrun, hsize, hsame, hspan⟩ := hrest.reduceInPlace type value held
    (hlayered.sublist (List.sublist_append_right _ _))
  rw [← hpart.current] at hrun
  let T : Tree := .node f.slot type none value (lowered held s.arena.size f us)
  let x' : Place Tree := ⟨os, T :: x.ahead⟩
  let st : State := { s.state.closed s.state.head prev fr fs with choices := none }
  let s' : Session σ := { s with arena := b, state := st }
  have hview : x'.view = x.view.after p.config.dummyWord value (.final type) :=
    view_completed hopened rfl (by rw [form_lowered, hpart.units]) _ type value
  have hunits' : Post.units ⟨st, x'⟩ =
      header s.state.head :: os.flatten.reverse ++ T :: x.ahead := by
    simp [Post.units, x', st, State.closed, Place.spine]
  have hlays' : Post.Lays b ⟨st, x'⟩ := by
    refine ⟨?_, hpart.prev_eq, hpart.nested⟩
    rw [hunits']
    exact hpart.spans_collapsed h.layered hspan fun j hj hne hne' => hsame j hj hne (.inr hne')
  have hslot : T.slot = f.slot := rfl
  have hparts : T.parts = lowered held s.arena.size f us := rfl
  have hlayered' : Layered (Post.units ⟨st, x'⟩) :=
    hunits' ▸ h.layered_collapsed hpart hslot hparts
  have htop' := hpart.top_collapsed hslot
  have hinner' := hpart.inner_collapsed hparts
  rw [← hunits'] at htop' hinner'
  have hcarried : ∀ e ∈ saved, Carried p ⟨s.state, x⟩ s.arena b x' e (e.collapse T x.ahead) := by
    intro e he
    obtain ⟨hheld, hsave, hunique⟩ := h.unique_of_collapses hplace (List.ne_nil_of_mem he)
    exact h.carried_collapse hopened hpart hproper hsave hunique (by rw [← hheld]) hspan hsize
      (fun j hj hne => hsame j hj hne (.inl hheld)) he
  refine ⟨s', T, fr, fs, hpart.frames, hpart.reduce_inPlace hplace hrun, ?_, hview, rfl,
    ⟨s.state.head, prev, rfl⟩, rfl⟩
  refine h.shift s' x' _ hcarried ⟨rfl, rfl, rfl, rfl⟩ hlays' (hview ▸ hproper) ?_
    (fun i hi => .inl (htop' i hi).1) hlayered' ?_ (h.free_closed hopened hpart.frames)
    (by simp [s', st])
  · intro e he i hi hmem
    have hi' : i ∈ f.slot :: Post.awaited ⟨s.state, x⟩ := hi
    cases List.mem_cons.1 hi' with
    | inl heq =>
      obtain ⟨-, -, hunique⟩ := h.unique_of_collapses hplace (List.ne_nil_of_mem he)
      exact h.first_notMem_held hopened hpart hunique he (heq ▸ hmem)
    | inr hi => exact h.apart he i hi hmem
  · intro hsaved i hi
    refine (hinner' i hi).imp_right fun hnew => hnew.resolve_right fun hin => ?_
    have hheld : held = true := (h.unique_of_collapses hplace hsaved).1
    rw [hheld] at hin
    cases hin.1

end Stands

end StateDiagram
