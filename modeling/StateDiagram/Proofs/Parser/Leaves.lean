import StateDiagram.Proofs.Parser.Correct

/-! No token is lost, doubled or moved. The leaves of a phrase structure, read from left to right
without the units that consume nothing, are the tokens of the input. Moves group them, copies and
collapses keep them, and so they are the same in every state of a parse. -/
namespace StateDiagram

open StateDiagram.Tree Arena

variable {σ : Type}

namespace Form

mutual

def leaves : Form → List String
  | unit w _ _ [] => [w]
  | unit _ _ _ (p :: ps) => leaves p ++ leavesOf ps

/-- The words of the units without subphrases, at whatever depth. -/
def leavesOf : List Form → List String
  | [] => []
  | u :: us => leaves u ++ leavesOf us

end

@[simp] theorem leavesOf_nil : leavesOf [] = [] := rfl

@[simp] theorem leavesOf_cons (u : Form) (us : List Form) :
    leavesOf (u :: us) = leaves u ++ leavesOf us := rfl

@[simp] theorem leavesOf_append (us vs : List Form) :
    leavesOf (us ++ vs) = leavesOf us ++ leavesOf vs := by
  induction us with
  | nil => rfl
  | cons u us ih => simp [ih]

theorem leaves_unit {ps : List Form} (w : String) (n : Option Nat) (v : Option Value)
    (h : ps ≠ []) : leaves (unit w n v ps) = leavesOf ps := by
  cases ps with
  | nil => exact absurd rfl h
  | cons p ps => rfl

@[simp] theorem leaves_mark (n : Nat) (u : Form) : leaves (u.mark n) = leaves u := by
  obtain ⟨w, m, v, ps⟩ := u
  cases ps <;> rfl

@[simp] theorem leaves_clear (u : Form) : leaves u.clear = leaves u := by
  obtain ⟨w, m, v, ps⟩ := u
  cases ps <;> rfl

@[simp] theorem leavesOf_clear (us : List Form) : leavesOf (us.map clear) = leavesOf us := by
  induction us with
  | nil => rfl
  | cons u us ih => simp [ih]

end Form

open Form

/-- The words that stand for tokens. -/
def Parser.real (p : Parser σ) (ws : List String) : List String :=
  ws.filter fun w => w ≠ p.config.dummyWord

@[simp] theorem Parser.real_append (p : Parser σ) (ws vs : List String) :
    p.real (ws ++ vs) = p.real ws ++ p.real vs := by
  simp [real]

@[simp] theorem Parser.real_dummy (p : Parser σ) (ws : List String) :
    p.real (p.config.dummyWord :: ws) = p.real ws := by
  simp [real]

/-- The tokens of a place. -/
def Place.yield (p : Parser σ) (x : Place Form) : List String :=
  p.real (leavesOf (x.spine ++ x.ahead))

variable {p : Parser σ}

theorem Parser.Row.ne_nil {V : Node → Option Value → Prop} {o : List Form} {ws : List String}
    (h : p.Row V o ws) : o ≠ [] := by
  rintro rfl
  cases h

/-- A move keeps the tokens. -/
theorem Parser.Legal.yield {x : Place Form} {c : Choice} (hc : p.Legal x c) (hx : p.Proper x)
    (v : Option Value) : (x.after p.config.dummyWord v c).yield p = x.yield p := by
  cases hc with
  | initial hn => simp [Place.yield, Place.spine, Place.after]
  | nonDummy hat hl hd hm ht => simp [Place.yield, Place.spine, Place.after]
  | dummy hat hl hd ht => simp [Place.yield, Place.spine, Place.after, leaves]
  | @final o os us node type hat htype =>
    obtain ⟨ws, hrow⟩ := hx.opened o (List.mem_cons_self ..)
    have hne : o.reverse ≠ [] := fun hnil => hrow.ne_nil (List.reverse_eq_nil_iff.1 hnil)
    simp [Place.yield, Place.spine, Place.after, leaves_unit _ _ _ hne]

/-- A collapse keeps the tokens ahead of a saved state. -/
theorem Regrouped.yield {e f g : Post} {x : Place Tree} (h : Regrouped p e x f g)
    (he : p.Proper e.place.view) : leavesOf g.place.view.ahead = leavesOf f.place.view.ahead := by
  cases h with
  | same hahead _ => rw [hahead]
  | @collapsed o pre os i type v _ _ hopened _ _ hx hf hg _ _ =>
    obtain ⟨ws, hrow⟩ := he.opened o (by simp [hopened])
    have hne : o.reverse ≠ [] := fun hnil => hrow.ne_nil (List.reverse_eq_nil_iff.1 hnil)
    rw [hf, hg, hx, leavesOf_append, leavesOf_append, leavesOf_append, leavesOf_cons,
      leavesOf_clear, leaves_unit _ _ _ hne]

theorem Carried.yield {e f g : Post} {a b : Arena} {x : Place Tree}
    (h : Carried p e a b x f g) (he : p.Proper e.place.view) :
    g.place.view.yield p = f.place.view.yield p := by
  have hspine : g.place.view.spine = f.place.view.spine := by
    simp [Place.spine, Place.view, h.opened]
  rw [Place.yield, Place.yield, hspine, leavesOf_append, leavesOf_append, h.ahead.yield he]

/-- The session stands somewhere, and all its states have the tokens `ws`. -/
def Session.Yields (p : Parser σ) (s : Session σ) (ws : List String) : Prop :=
  ∃ x saved, Stands p s x saved ∧ x.view.yield p = ws ∧ ∀ e ∈ saved, e.place.view.yield p = ws

theorem mem_pushed {c : Choice} {others : List Choice} {e f : Post} {saved : List Post}
    (h : f ∈ pushed c others e saved) : f.place = e.place ∨ f ∈ saved := by
  unfold pushed at h
  split at h
  · exact .inr h
  · exact (List.mem_cons.1 h).imp_left fun heq => by rw [heq]

theorem Took.yields {cs : List Choice} {s s' : Session σ} {x x' : Place Tree}
    {saved saved' : List Post} {signal : Signal} {ws : List String}
    (h : Took p cs s x saved signal s' x' saved') (hs : Stands p s x saved)
    (hcs : ∀ c ∈ cs, p.Legal x.view c) (hx : x.view.yield p = ws)
    (hsaved : ∀ e ∈ saved, e.place.view.yield p = ws) : s'.Yields p ws := by
  have hpushed : ∀ {c : Choice} {others : List Choice},
      ∀ e ∈ pushed c others ⟨s.state, x⟩ saved, e.place.view.yield p = ws := by
    intro c others e he
    cases mem_pushed he with
    | inl heq => rw [heq, hx]
    | inr he => exact hsaved e he
  have hmade : ∀ {c : Choice} {others : List Choice} {v : Option Value} {signal : Signal}
      {s' : Session σ}, p.Legal x.view c → Made p c v signal (s.setOut c others x) s' x x'
        (pushed c others ⟨s.state, x⟩ saved) saved' →
      x'.view.yield p = ws ∧ ∀ e ∈ saved', e.place.view.yield p = ws := by
    intro c others v signal s' hc h
    refine ⟨by rw [h.view, hc.yield hs.proper, hx], fun g hg => ?_⟩
    obtain ⟨f, hf, hcarried⟩ := exists_mem_of_forall₂ h.moved.carried hg
    rw [hcarried.yield hs.proper, hpushed f hf]
  refine ⟨x', saved', h.stands hs, ?_⟩
  cases h with
  | blocked _ => exact ⟨hx, hsaved⟩
  | refused _ h => exact ⟨hx, hpushed⟩
  | vetoed heq _ h => exact hmade (hcs _ (by simp [heq])) h
  | made heq h => exact hmade (hcs _ (by simp [heq])) h

/-- Every step keeps the tokens of all states. -/
theorem Session.Yields.step {s s' : Session σ} {ws : List String} (h : s.Yields p ws)
    (hg : p.grammar.Sound) (hstep : p.Step s s') : s'.Yields p ws := by
  obtain ⟨x, saved, hs, hx, hsaved⟩ := h
  obtain ⟨x', saved', hstepped⟩ := hs.step hg hstep
  cases hstepped with
  | took hcs htook =>
    exact htook.yields hs (fun c hc => hs.legal_untried c (hcs.subset hc)) hx hsaved
  | kept hs' _ _ _ _ => exact ⟨x, saved, hs', hx, hsaved⟩
  | @resumed e saved' heq hs' _ =>
    subst heq
    exact ⟨e.place, saved', hs', hsaved e (List.mem_cons_self ..), fun f hf =>
      hsaved f (List.mem_cons_of_mem e hf)⟩

theorem Session.Yields.steps {s s' : Session σ} {ws : List String} (h : s.Yields p ws)
    (hg : p.grammar.Sound) (hsteps : Relation.ReflTransGen p.Step s s') : s'.Yields p ws := by
  induction hsteps with
  | refl => exact h
  | tail _ hstep ih => exact ih.step hg hstep

theorem Session.yields_start (p : Parser σ) (tokens goals : List String) (host : σ) :
    (Session.start tokens goals host).Yields p (p.real tokens) := by
  refine ⟨_, [], stands_start p tokens goals host, ?_, fun e he => nomatch he⟩
  have hleaves : ∀ ws : List String,
      leavesOf (ws.map fun w => Form.unit w none none []) = ws := by
    intro ws
    induction ws with
    | nil => rfl
    | cons w ws ih => simp [leaves, ih]
  simp only [Place.yield, Place.view, bare_tokenUnits, Place.spine, List.map_nil,
    List.flatten_nil, List.reverse_nil, List.nil_append, hleaves]

/-- The chain of a state with its tokens. -/
theorem Session.Yields.chains {s : Session σ} {ws : List String} (h : s.Yields p ws) :
    ∀ st ∈ s.state :: s.saved, ∃ t ts, s.arena.Spans (some st.head) (t :: ts) none ∧
      p.real (leavesOf (ts.map form)) = ws := by
  obtain ⟨x, saved, hs, hx, hsaved⟩ := h
  intro st hst
  obtain ⟨e, he, rfl⟩ := hs.post_of_mem hst
  have hyield : e.place.view.yield p = ws := by
    cases List.mem_cons.1 he with
    | inl heq => rw [heq, hx]
    | inr he => exact hsaved e he
  refine ⟨_, _, (hs.standing.lays e he).spans, ?_⟩
  have hbare : e.place.view.ahead = (e.place.ahead.map form).map clear := by
    simp [Place.view, bare, Function.comp_def]
  have hspine : e.place.view.spine = e.place.spine.map form := by
    simp [Place.spine, Place.view]
  rw [← hyield, Place.yield, hbare, hspine, List.map_append, leavesOf_append, leavesOf_append,
    leavesOf_clear]

namespace Parser

/-- Whatever calls go on with a parse, the leaves of the phrase structures of the active state and
of all saved states are the tokens, those with the dummy word apart. -/
theorem calls_leaves {g : Grammar} (hg : g.Built) (hm : g.marked = true) (config : Config)
    (semantics : Option (Semantics σ)) (tokens goals : List String) (s₀ : Session σ)
    {cs : List Call} (hcs : ∀ c ∈ cs, c.goesOn = true) :
    ∃ p s, make g config semantics = .ok p ∧ p.calls cs (startTokens tokens goals s₀) = .ok s ∧
      ∀ st ∈ s.state :: s.saved, ∃ t ts, s.arena.Spans (some st.head) (t :: ts) none ∧
        (leavesOf (ts.map form)).filter (fun w => w ≠ config.dummyWord) =
          tokens.filter fun w => w ≠ config.dummyWord := by
  let p : Parser σ := ⟨g, config, semantics⟩
  have hsound : p.grammar.Sound := hg.sound
  have hstart : (startTokens tokens goals s₀).Placed p := .start p tokens goals s₀.host
  obtain ⟨s, hrun, hsteps⟩ := calls_steps hsound hcs hstart
  exact ⟨p, s, if_pos hm, hrun,
    ((Session.yields_start p tokens goals s₀.host).steps hsound hsteps).chains⟩

theorem calls_leaves_one :
    let g := ((Grammar.addNode { word := "a", id := "1", kind := .ends "T" none, initial := true }
      {}).mark)
    g.marked = true ∧ (∀ c ∈ [Call.advance, .advance], c.goesOn = true) ∧
      ∃ p s, make g {} (none : Option (Semantics Unit)) = .ok p ∧
        p.calls [.advance, .advance] (startTokens ["a", "$$"] ["T"] (.empty ())) = .ok s ∧
        ∀ st ∈ s.state :: s.saved, ∃ t ts, s.arena.Spans (some st.head) (t :: ts) none ∧
          (leavesOf (ts.map form)).filter (fun w => w ≠ ({} : Config).dummyWord) =
            ["a", "$$"].filter fun w => w ≠ ({} : Config).dummyWord :=
  ⟨rfl, by decide, calls_leaves (.mark (.addNode .new (by simp [Node.Fresh, Node.links]))) rfl {}
    none _ _ _ (by decide)⟩

end Parser

end StateDiagram
