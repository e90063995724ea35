import StateDiagram.Proofs.Parser.Leaves

/-! Saved states are persistent. From the step that saves a state until it is taken up again, no
step changes the units that it holds or anything below its units; without collapses in place, the
units that it still has ahead keep all but their nodes. -/
namespace StateDiagram

open StateDiagram.Tree Arena

variable {σ : Type} {p : Parser σ}

/-- The saved state `f` in the arena `a` has become `g` in the arena `b`. -/
structure Persists (p : Parser σ) (a b : Arena) (f g : Post) : Prop where
  state : g.state = f.state
  opened : g.place.opened = f.place.opened
  heldSame : ∀ i ∈ f.held, b.get? i = a.get? i
  innerSame : ∀ i ∈ inner f.units, b.get? i = a.get? i ∧ i ∈ inner g.units
  aheadSame : p.config.saveUnique = false → g.awaited = f.awaited ∧
    g.place.view.ahead = f.place.view.ahead ∧
    ∀ i ∈ f.awaited, (b.get? i).map Phrase.unmarked = (a.get? i).map Phrase.unmarked

namespace Persists

variable {a b c : Arena} {f g h : Post}

theorem refl (p : Parser σ) (a : Arena) (f : Post) : Persists p a a f f :=
  ⟨rfl, rfl, fun _ _ => rfl, fun _ hi => ⟨rfl, hi⟩, fun _ => ⟨rfl, rfl, fun _ _ => rfl⟩⟩

theorem spine_eq (hfg : Persists p a b f g) : g.place.spine = f.place.spine := by
  rw [Place.spine, Place.spine, hfg.opened]

theorem held_eq (hfg : Persists p a b f g) : g.held = f.held := by
  rw [Post.held, Post.held, hfg.spine_eq, hfg.state]

theorem trans (hfg : Persists p a b f g) (hgh : Persists p b c g h) : Persists p a c f h where
  state := hgh.state.trans hfg.state
  opened := hgh.opened.trans hfg.opened
  heldSame i hi := (hgh.heldSame i (hfg.held_eq ▸ hi)).trans (hfg.heldSame i hi)
  innerSame i hi := by
    obtain ⟨hsame, hmem⟩ := hfg.innerSame i hi
    obtain ⟨hsame', hmem'⟩ := hgh.innerSame i hmem
    exact ⟨hsame'.trans hsame, hmem'⟩
  aheadSame hcopy := by
    obtain ⟨hawaited, hview, hsame⟩ := hfg.aheadSame hcopy
    obtain ⟨hawaited', hview', hsame'⟩ := hgh.aheadSame hcopy
    exact ⟨hawaited'.trans hawaited, hview'.trans hview, fun i hi =>
      (hsame' i (hawaited ▸ hi)).trans (hsame i hi)⟩

theorem of_carried {e : Post} {x : Place Tree} (hc : Carried p e a b x f g) :
    Persists p a b f g where
  state := hc.state
  opened := hc.opened
  heldSame := hc.heldSame
  innerSame := hc.innerSame
  aheadSame hcopy := by
    obtain ⟨hawaited, hsame⟩ := hc.aheadSame hcopy
    refine ⟨hawaited, ?_, hsame⟩
    cases hc.ahead with
    | same hahead _ => exact hahead
    | collapsed hsave =>
      rw [hcopy] at hsave
      cases hsave

theorem units_eq (hfg : Persists p a b f g) :
    g.units = header f.state.head :: f.place.spine ++ g.place.ahead := by
  rw [Post.units, hfg.state, hfg.spine_eq, List.cons_append]

/-- What the chain of a saved state keeps. -/
theorem chain (hfg : Persists p a b f g) (hf : f.Lays a) (hg : g.Lays b) :
    ∃ ts ts' k, a.Spans (some f.state.head) ts none ∧ b.Spans (some f.state.head) ts' none ∧
      ts[k]?.map slot = some f.state.current ∧ ts'.take (k + 1) = ts.take (k + 1) ∧
      (∀ i ∈ (ts.take (k + 1)).map slot ++ inner ts, b.get? i = a.get? i) ∧
      (p.config.saveUnique = false → ts'.map bare = ts.map bare ∧ ∀ i ∈ ts.map slot,
        (b.get? i).map Phrase.unmarked = (a.get? i).map Phrase.unmarked) := by
  have htake : ∀ us, (header f.state.head :: f.place.spine ++ us).take
      (f.place.spine.length + 1) = header f.state.head :: f.place.spine := fun us => by
    rw [List.cons_append, List.take_succ_cons, List.take_left]
  refine ⟨f.units, g.units, f.place.spine.length, hf.spans, hfg.state ▸ hg.spans, ?_, ?_, ?_,
    fun hcopy => ⟨?_, ?_⟩⟩
  · rw [hf.current]
    exact getElem?_lastSlot (header f.state.head) f.place.spine f.place.ahead
  · rw [hfg.units_eq, Post.units, htake]
    exact (htake f.place.ahead).symm
  · intro i hi
    rw [Post.units, ← List.cons_append, htake, List.mem_append] at hi
    cases hi with
    | inl hi => exact hfg.heldSame i hi
    | inr hi => exact (hfg.innerSame i hi).1
  · obtain ⟨-, hahead, -⟩ := hfg.aheadSame hcopy
    have hbare : g.place.ahead.map bare = f.place.ahead.map bare := hahead
    rw [hfg.units_eq, Post.units, ← List.cons_append, List.map_append, List.map_append, hbare]
  · obtain ⟨-, -, hsame⟩ := hfg.aheadSame hcopy
    intro i hi
    rw [Post.map_slot_units, List.mem_append] at hi
    cases hi with
    | inl hi => rw [hfg.heldSame i hi]
    | inr hi => exact hsame i hi

end Persists

theorem forall₂_append_inv {α β : Type} {R : α → β → Prop} {xs xs' : List α} {ys : List β}
    (h : List.Forall₂ R (xs ++ xs') ys) : ∃ zs zs', ys = zs ++ zs' ∧ List.Forall₂ R xs zs ∧
      List.Forall₂ R xs' zs' := by
  induction xs generalizing ys with
  | nil => exact ⟨[], ys, rfl, .nil, h⟩
  | cons x xs ih =>
    cases h with
    | cons hx h =>
      obtain ⟨zs, zs', rfl, hzs, hzs'⟩ := ih h
      exact ⟨_ :: zs, zs', rfl, .cons hx hzs, hzs'⟩

/-- Where the saved states of a session come from by a step: all but the ones that are new or have
been taken up are the old ones, carried over. -/
theorem Stepped.saved {s s' : Session σ} {x x' : Place Tree} {saved saved' : List Post}
    (h : Stepped p s x saved s' x' saved') (hs : Stands p s x saved) :
    ∃ old, List.Forall₂ (Persists p s.arena s'.arena) old saved' ∧ (∀ e ∈ old, e.Lays s.arena) ∧
      (old = saved ∨ (∃ e, old = e :: saved) ∨ ∃ e, saved = e :: old) := by
  have hsame : ∀ fs : List Post, List.Forall₂ (Persists p s.arena s.arena) fs fs := fun fs =>
    List.forall₂_same.2 fun f _ => .refl p s.arena f
  have hlays : ∀ e ∈ saved, e.Lays s.arena := fun e he =>
    hs.standing.lays e (List.mem_cons_of_mem _ he)
  cases h with
  | kept _ harena _ _ _ => exact ⟨saved, harena ▸ hsame saved, hlays, .inl rfl⟩
  | @resumed e saved' heq _ hresumed =>
    subst heq
    exact ⟨saved', hresumed.arena ▸ hsame saved', fun f hf => hlays f (List.mem_cons_of_mem e hf),
      .inr (.inr ⟨e, rfl⟩)⟩
  | took _ h =>
    have hold : ∀ (c : Choice) (others : List Choice),
        (∀ e ∈ pushed c others ⟨s.state, x⟩ saved, e.Lays s.arena) ∧
        (pushed c others ⟨s.state, x⟩ saved = saved ∨
          ∃ e, pushed c others ⟨s.state, x⟩ saved = e :: saved) := by
      intro c others
      unfold pushed
      split
      · exact ⟨hlays, .inl rfl⟩
      · exact ⟨List.forall_mem_cons.2 ⟨hs.lays.setOut c others, hlays⟩, .inr ⟨_, rfl⟩⟩
    have hmoved : ∀ {c : Choice} {others : List Choice} {s₁ : Session σ},
        Moved p (s.setOut c others x) s₁ x x' (pushed c others ⟨s.state, x⟩ saved) saved' →
        List.Forall₂ (Persists p s.arena s₁.arena) (pushed c others ⟨s.state, x⟩ saved) saved' :=
      fun hm => hm.carried.imp fun _ _ hc => .of_carried hc
    cases h with
    | blocked _ => exact ⟨saved, hsame saved, hlays, .inl rfl⟩
    | @refused c others _ _ _ hr =>
      obtain ⟨features, host, rfl⟩ := hr.same
      exact ⟨_, hsame _, (hold c others).1, (hold c others).2.imp_right .inl⟩
    | @vetoed c others _ _ _ _ _ _ _ hm =>
      exact ⟨_, hmoved hm.moved, (hold c others).1, (hold c others).2.imp_right .inl⟩
    | @made c others _ s₁ _ _ _ hm =>
      have hforall : List.Forall₂ (Persists p s.arena s₁.arena) _ saved' := hmoved hm.moved
      exact ⟨_, hforall, (hold c others).1, (hold c others).2.imp_right .inl⟩

/-- The saved state `f` of the arena `a`, below which the states `rest` are saved, is still saved
in the session. -/
def Session.Tracks (p : Parser σ) (a : Arena) (f : Post) (rest : List State) (s : Session σ) :
    Prop :=
  ∃ x pre g below, Stands p s x (pre ++ g :: below) ∧ below.map Post.state = rest ∧
    Persists p a s.arena f g

theorem map_state_eq {a b : Arena} {fs gs : List Post} (h : List.Forall₂ (Persists p a b) fs gs) :
    gs.map Post.state = fs.map Post.state := by
  induction h with
  | nil => rfl
  | cons hfg _ ih => rw [List.map_cons, List.map_cons, hfg.state, ih]

/-- A step keeps track of a saved state as long as it is not taken up. -/
theorem Session.Tracks.step {a : Arena} {f : Post} {rest : List State} {s s' : Session σ}
    (h : s.Tracks p a f rest) (hg : p.grammar.Sound) (hstep : p.Step s s')
    (hdepth : rest.length < s'.saved.length) : s'.Tracks p a f rest := by
  obtain ⟨x, pre, g, below, hs, hbelow, hpersists⟩ := h
  obtain ⟨x', saved', hstepped⟩ := hs.step hg hstep
  have hs' := hstepped.stands hs
  obtain ⟨old, hforall, -, hold⟩ := hstepped.saved hs
  have hlength : saved'.length = old.length := hforall.length_eq.symm
  have hsaved : ∃ pre', old = pre' ++ g :: below := by
    obtain rfl | ⟨e, rfl⟩ | ⟨e, heq⟩ := hold
    · exact ⟨pre, rfl⟩
    · exact ⟨e :: pre, rfl⟩
    · cases pre with
      | cons e' pre =>
        obtain ⟨-, rfl⟩ := List.cons.inj heq
        exact ⟨pre, rfl⟩
      | nil =>
        obtain ⟨-, rfl⟩ := List.cons.inj heq
        have hrest : rest.length = below.length := by rw [← hbelow, List.length_map]
        rw [hs'.stack, List.length_map] at hdepth
        omega
  obtain ⟨pre', rfl⟩ := hsaved
  obtain ⟨zs, zs', rfl, -, hforall'⟩ := forall₂_append_inv hforall
  cases hforall' with
  | cons hg' hbelow' =>
    exact ⟨x', zs, _, _, hs', (map_state_eq hbelow').trans hbelow, hpersists.trans hg'⟩

/-- Steps after each of which more than `n` states are saved. -/
def Parser.KeepsSaved (p : Parser σ) (n : Nat) : Session σ → Session σ → Prop :=
  Relation.ReflTransGen fun s s' => p.Step s s' ∧ n < s'.saved.length

theorem Session.Tracks.steps {a : Arena} {f : Post} {rest : List State} {s s' : Session σ}
    (h : s.Tracks p a f rest) (hg : p.grammar.Sound) (hsteps : p.KeepsSaved rest.length s s') :
    s'.Tracks p a f rest := by
  induction hsteps with
  | refl => exact h
  | tail _ hstep ih => exact ih.step hg hstep.1 hstep.2

/-- A backup takes up the latest of the saved states as it was saved, its choices apart, and leaves
the arena alone. -/
theorem Stands.takesUp {s : Session σ} {x : Place Tree} {saved : List Post} {st : State}
    {rest : List State} (hs : Stands p s x saved) (hg : p.grammar.Sound)
    (hsaved : s.saved = st :: rest) : ∃ s', p.backup s = .ok (true, s') ∧ s'.saved = rest ∧
      s'.arena = s.arena ∧ s'.state = { st with choices := s'.state.choices } := by
  obtain ⟨e, below, rfl, rfl, rfl⟩ := List.map_eq_cons_iff.1 (hs.stack.symm.trans hsaved)
  obtain ⟨s', hrun, hs', hresumed⟩ := hs.backup hg
  exact ⟨s', hrun, hs'.stack, hresumed.arena, hresumed.state⟩

namespace Parser

/-- Let a step of a parse, from wherever the calls of a host have led, leave a state saved, be it
that the step has just saved it. As long as that state is not taken up, its units up to the current
one and all that is below its units stay as they were before that step; and if phrases are never
collapsed in place, the rest of its chain keeps all but the nodes that units are matched to. A backup that
takes it up goes on in the same arena from the same header and the same current unit. -/
theorem saved_persist {g : Grammar} (hg : g.Built) (hm : g.marked = true) (config : Config)
    (semantics : Option (Semantics σ)) (host : σ) (cs : List Call) :
    ∃ p s, make g config semantics = .ok p ∧ p.calls cs (.empty host) = .ok s ∧
      ∀ s₁ s₂ pre st rest, p.Step s s₁ → s₁.saved = pre ++ st :: rest →
        p.KeepsSaved rest.length s₁ s₂ →
          (∃ pre', s₂.saved = pre' ++ st :: rest) ∧
          (s₂.saved = st :: rest → ∃ s₃, p.backup s₂ = .ok (true, s₃) ∧ s₃.saved = rest ∧
            s₃.arena = s₂.arena ∧ s₃.state = { st with choices := s₃.state.choices }) ∧
          ∃ ts ts' k, s.arena.Spans (some st.head) ts none ∧
            s₂.arena.Spans (some st.head) ts' none ∧ ts[k]?.map slot = some st.current ∧
            ts'.take (k + 1) = ts.take (k + 1) ∧
            (∀ i ∈ (ts.take (k + 1)).map slot ++ inner ts, s₂.arena.get? i = s.arena.get? i) ∧
            (config.saveUnique = false → ts'.map bare = ts.map bare ∧ ∀ i ∈ ts.map slot,
              (s₂.arena.get? i).map Phrase.unmarked = (s.arena.get? i).map Phrase.unmarked) := by
  let p : Parser σ := ⟨g, config, semantics⟩
  have hsound : p.grammar.Sound := hg.sound
  obtain ⟨s, hrun, x, saved, hs⟩ := calls_placed hsound cs (.start p [] [] host)
  refine ⟨p, s, if_pos hm, hrun, fun s₁ s₂ pre st rest hstep hsaved hkeeps => ?_⟩
  obtain ⟨x₁, saved₁, hstepped⟩ := hs.step hsound hstep
  have hs₁ := hstepped.stands hs
  obtain ⟨old, hforall, hlays, -⟩ := hstepped.saved hs
  obtain ⟨pre₁, rest₁, rfl, -, hrest₁⟩ := List.map_eq_append_iff.1 (hs₁.stack.symm.trans hsaved)
  obtain ⟨f₁, below₁, rfl, rfl, hbelow₁⟩ := List.map_eq_cons_iff.1 hrest₁
  obtain ⟨zs, zs', rfl, -, hforall'⟩ := forall₂_append_inv hforall.flip
  cases hforall' with
  | @cons _ f _ below hf hbelow =>
    have htracks : s₁.Tracks p s.arena f rest := ⟨x₁, pre₁, f₁, below₁, hs₁, hbelow₁, hf⟩
    obtain ⟨x₂, pre₂, f₂, below₂, hs₂, hbelow₂, hpersists⟩ := htracks.steps hsound hkeeps
    have hstate : f₂.state = f₁.state := hpersists.state.trans hf.state.symm
    have hlaysf : f.Lays s.arena := hlays f (by simp)
    have hlays₂ : f₂.Lays s₂.arena := hs₂.standing.lays f₂ (by simp)
    refine ⟨⟨pre₂.map Post.state, ?_⟩, hs₂.takesUp hsound, hf.state ▸ hpersists.chain hlaysf hlays₂⟩
    rw [hs₂.stack, List.map_append, List.map_cons, hbelow₂, hstate]

/-- A phrase that two links lead on from. The state with the completed phrase ahead of it is saved
when the first link is taken; the next step completes the parse on a copy, and the backup after it
finds the saved chain. -/
theorem saved_persist_two :
    let g := (Grammar.ofNodes [
      { word := "x", id := "1", initial := true,
        kind := .continues [{ word := "T", id := "1" }, { word := "T", id := "2" }] none },
      { word := "a", id := "1", initial := true, kind := .ends "T" none },
      { word := "T", id := "1", kind := .ends "S" none },
      { word := "T", id := "2", kind := .ends "Q" none }] []).mark
    let config : Config := { saveUnique := false }
    g.marked = true ∧ config.saveUnique = false ∧
      ∃ p s s₁ s₂ s₃ st, make g config (none : Option (Semantics Unit)) = .ok p ∧
        p.calls [.startTokens ["x", "a"] ["S"], .advance, .advance, .advance] (.empty ()) = .ok s ∧
        p.advance s = .ok (.succeed, s₁) ∧ s₁.saved = [st] ∧
        p.advance s₁ = .ok (.succeed, s₂) ∧ s₂.saved = [st] ∧ s₂.isDone = true ∧
        p.backup s₂ = .ok (true, s₃) ∧ s₃.saved = [] ∧ s₃.arena = s₂.arena ∧
        s₃.state = { st with choices := some [.nonDummy 3] } ∧
        ∃ ts ts' k, s.arena.Spans (some st.head) ts none ∧
          s₃.arena.Spans (some s₃.state.head) ts' none ∧
          ts[k]?.map slot = some s₃.state.current ∧ ts'.take (k + 1) = ts.take (k + 1) ∧
          ts'.map bare = ts.map bare ∧
          ∀ i ∈ (ts.take (k + 1)).map slot ++ inner ts, s₃.arena.get? i = s.arena.get? i := by
  intro g config
  have hg : g.Built := .mark (Grammar.built_ofNodes (by simp [Node.Fresh, Node.links]) _)
  obtain ⟨p, s, hp, hrun, hpersist⟩ := saved_persist hg rfl config
    (none : Option (Semantics Unit)) ()
    [.startTokens ["x", "a"] ["S"], .advance, .advance, .advance]
  let q : Parser Unit := ⟨g, config, none⟩
  obtain rfl : q = p := Except.ok.inj hp
  have hcomputed : (do
      let s ← q.calls [.startTokens ["x", "a"] ["S"], .advance, .advance, .advance] (.empty ())
      let first ← q.advance s
      let second ← q.advance first.2
      let back ← q.backup second.2
      return ([first.1, second.1], [second.2.isDone, back.1],
        [first.2.saved.length, second.2.saved.length], back.2.state.choices)) =
        (.ok ([.succeed, .succeed], [true, true], [1, 1], some [.nonDummy 3]) :
          Except Fault _) := by
    decide +kernel
  obtain ⟨s', hrun', h⟩ := bind_eq_ok hcomputed
  obtain rfl : s = s' := Except.ok.inj (hrun.symm.trans hrun')
  obtain ⟨⟨signal₁, s₁⟩, hfirst, h⟩ := bind_eq_ok h
  obtain ⟨⟨signal₂, s₂⟩, hsecond, h⟩ := bind_eq_ok h
  obtain ⟨⟨found, s₃⟩, hback, h⟩ := bind_eq_ok h
  simp only [pure, Except.pure, Except.ok.injEq, Prod.mk.injEq, List.cons.injEq, and_true] at h
  obtain ⟨⟨rfl, rfl⟩, ⟨hdone, rfl⟩, ⟨hone, hone'⟩, hchoices⟩ := h
  obtain ⟨st, hst⟩ := List.length_eq_one_iff.1 hone
  have hkeeps : q.KeepsSaved 0 s₁ s₂ := .single ⟨.advance hsecond, hone'.symm ▸ Nat.one_pos⟩
  obtain ⟨⟨pre, hpre⟩, hresume, ts, ts', k, hts, hts', hcurrent, htake, hsame, hcopied⟩ :=
    hpersist s₁ s₂ [] st [] (.advance hfirst) hst hkeeps
  obtain rfl : pre = [] := by
    rw [hpre, List.length_append, List.length_singleton] at hone'
    exact List.eq_nil_of_length_eq_zero (Nat.succ.inj hone')
  obtain ⟨s', hback', hsaved, harena, hstate⟩ := hresume hpre
  obtain rfl : s₃ = s' := by
    rw [hback] at hback'
    cases hback'
    rfl
  rw [hchoices] at hstate
  refine ⟨rfl, rfl, q, s, s₁, s₂, s₃, st, rfl, hrun, hfirst, hst, hsecond, hpre, hdone, hback,
    hsaved, harena, hstate, ts, ts', k, hts, ?_, ?_, htake, (hcopied rfl).1, ?_⟩
  · rw [harena, hstate]
    exact hts'
  · rw [hstate]
    exact hcurrent
  · rw [harena]
    exact hsame

end Parser

end StateDiagram
