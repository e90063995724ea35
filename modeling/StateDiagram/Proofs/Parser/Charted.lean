import StateDiagram.Proofs.Parser.Search

/-! Parses that never collapse a phrase in place, without semantics. Every state has come along a
way from the tokens, and its choices are left of those that are offered there. So the path of a
complete parse can be replayed. -/
namespace StateDiagram

open StateDiagram.Tree Arena

variable {σ : Type} {p : Parser σ}

/-- A saved state that has come along a way. The next unit is as it was when the state was saved. -/
structure Post.Charted (p : Parser σ) (goals : List String) (x₀ : Place Form) (e : Post) : Prop where
  way : p.Way goals x₀ e.state.path e.place.view
  settled : e.Settled
  choices : ∃ cs, e.state.choices = some cs ∧ ∀ c ∈ cs, c ∈ p.fresh goals e.state.path e.place.view

/-- All states of a session have come along ways. -/
structure Charted (p : Parser σ) (x₀ : Place Form) (s : Session σ) (x : Place Tree)
    (saved : List Post) : Prop where
  stands : Stands p s x saved
  way : p.Way s.goals x₀ s.state.path x.view
  untried : ∀ c ∈ s.untried p x, c ∈ p.fresh s.goals s.state.path x.view
  saved : ∀ e ∈ saved, e.Charted p s.goals x₀

/-- The subphrase of the next unit in the arena. -/
theorem Post.Lays.subAhead_eq {a : Arena} {e : Post} (h : e.Lays a) :
    e.subAhead = e.awaited.head?.bind fun i => (a.get? i).bind Phrase.sub := by
  obtain ⟨-, hahead⟩ := h.split
  unfold subAhead awaited
  cases hx : e.place.ahead with
  | nil => rfl
  | cons t ts =>
    rw [hx] at hahead
    obtain ⟨u, -, hu, -, hsub, -⟩ := hahead.cons_inv
    have hstart : u.sub = t.parts.head?.map slot := by
      rw [hsub.start]
      cases t.parts <;> rfl
    simp [hu, hstart]

theorem Carried.charted {e f g : Post} {a b : Arena} {x : Place Tree} {goals : List String}
    {x₀ : Place Form} (h : Carried p e a b x f g) (hf : f.Lays a)
    (hcopy : p.config.saveUnique = false) (hcharted : f.Charted p goals x₀) :
    g.Charted p goals x₀ := by
  obtain ⟨hawaited, hahead, hsame⟩ := (Persists.of_carried h).aheadSame hcopy
  have hview : g.place.view = f.place.view := by
    rw [Place.view, h.opened]
    exact congrArg (Place.mk _) hahead
  refine ⟨?_, ?_, ?_⟩
  · rw [h.state, hview]
    exact hcharted.way
  · refine hcharted.settled.imp (fun hnil => ?_) fun hsub => ?_
    · rw [← List.map_eq_nil_iff (f := slot)] at hnil ⊢
      exact hawaited.trans hnil
    · rw [h.state, hsub, hf.subAhead_eq, h.lays.subAhead_eq, hawaited]
      cases hi : f.awaited with
      | nil => rfl
      | cons i is =>
        have hi' := hsame i (by simp [hi])
        cases ha : a.get? i <;> cases hb : b.get? i <;>
          simp [ha, hb, Phrase.unmarked] at hi' ⊢
        exact hi'.2.2.1.symm
  · rw [h.state, hview]
    exact hcharted.choices

namespace Charted

variable {s s' : Session σ} {x x' : Place Tree} {saved saved' : List Post} {x₀ : Place Form}

theorem start (p : Parser σ) (tokens goals : List String) (host : σ) :
    Charted p (.ofTokens tokens) (.start tokens goals host) ⟨[], tokenUnits 1 tokens⟩ [] := by
  refine ⟨stands_start p tokens goals host, ?_, fun c hc => hc, by simp⟩
  rw [Place.view_tokenUnits]
  exact .start

/-- The states that are saved when the active one sets out on a choice. -/
theorem pushed (h : Charted p x₀ s x saved) (c : Choice) {others : List Choice}
    (hothers : ∀ d ∈ others, d ∈ s.untried p x) :
    ∀ e ∈ pushed c others ⟨s.state, x⟩ saved, e.Charted p s.goals x₀ := by
  unfold StateDiagram.pushed
  cases others with
  | nil => exact h.saved
  | cons d ds =>
    have hpath : (Post.setOut c (d :: ds) ⟨s.state, x⟩).path = s.state.path :=
      (Post.setOut_frame c (d :: ds) ⟨s.state, x⟩).2.2.2.2.1
    refine List.forall_mem_cons.2 ⟨⟨?_, .inr rfl, d :: ds, rfl, fun c' hc' => ?_⟩, h.saved⟩
    · rw [hpath]
      exact h.way
    · rw [hpath]
      exact h.untried c' (hothers c' hc')

theorem advanced {c : Choice} {others : List Choice} (h : Charted p x₀ s x saved)
    (hcopy : p.config.saveUnique = false) (hc : ∀ d ∈ c :: others, d ∈ s.untried p x)
    (ha : Advanced p c others s x saved s' x' saved') : Charted p x₀ s' x' saved' := by
  refine ⟨ha.stands, ?_, ?_, fun g hg => ?_⟩
  · rw [ha.path, ha.view, ha.goals]
    exact .step h.way (h.untried c (hc c (List.mem_cons_self ..)))
  · rw [ha.untried, ha.path, ha.goals]
    exact fun d hd => hd
  · obtain ⟨f, hf, hcarried⟩ := exists_mem_of_forall₂ ha.carried hg
    have hout := h.stands.setOut c fun d hd =>
      h.stands.legal_untried d (hc d (List.mem_cons_of_mem c hd))
    rw [ha.goals]
    exact hcarried.charted (hout.standing.lays f (List.mem_cons_of_mem _ hf)) hcopy
      (h.pushed c (fun d hd => hc d (List.mem_cons_of_mem c hd)) f hf)

theorem resumed {e : Post} (h : Charted p x₀ s x (e :: saved)) (hs' : Stands p s' e.place saved)
    (hr : Resumed p s s' e) : Charted p x₀ s' e.place saved := by
  obtain ⟨hway, hsettled, cs, hcs, hfresh⟩ := h.saved e (List.mem_cons_self ..)
  have hpath : s'.state.path = e.state.path := by rw [hr.state]
  have hchoices : s'.state.choices = some cs := (hr.settled hsettled).trans hcs
  refine ⟨hs', ?_, ?_, fun f hf => ?_⟩
  · rw [hpath, hr.goals]
    exact hway
  · rw [Session.untried, hchoices, hpath, hr.goals]
    exact hfresh
  · rw [hr.goals]
    exact h.saved f (List.mem_cons_of_mem e hf)

/-- Every round of a search leads along ways. -/
theorem turn {stage : Parser.Stage} (h : Charted p x₀ s x saved)
    (hcopy : p.config.saveUnique = false) (hturn : Turn p s x saved stage s' x' saved') :
    Charted p x₀ s' x' saved' := by
  cases hturn with
  | advanced heq ha => exact h.advanced hcopy (fun d hd => heq ▸ hd) ha
  | @resumed e saved' _ hnil heq hs' hr =>
    subst heq
    exact h.resumed hs' hr
  | exhausted _ _ hs' => exact ⟨hs', h.way, fun c hc => (nomatch hc), fun e he => (nomatch he)⟩

/-- Every step leads along ways. -/
theorem step (h : Charted p x₀ s x saved) (hg : p.grammar.Sound) (hsem : p.semantics = none)
    (hcopy : p.config.saveUnique = false) (hstep : p.Step s s') :
    ∃ x' saved', Charted p x₀ s' x' saved' := by
  obtain ⟨x', saved', hstepped⟩ := h.stands.step hg hstep
  refine ⟨x', saved', ?_⟩
  cases hstepped with
  | kept hs' _ hgoals hpath huntried =>
    refine ⟨hs', ?_, ?_, ?_⟩
    · rw [hgoals, hpath]
      exact h.way
    · rw [huntried, hgoals, hpath]
      exact h.untried
    · rw [hgoals]
      exact h.saved
  | @resumed e saved' heq hs' hr =>
    subst heq
    exact h.resumed hs' hr
  | took hcs htook =>
    obtain ⟨-, -, rfl, rfl, rfl⟩ | ⟨c, others, rfl, -, ha⟩ :=
      htook.advanced h.stands (fun c hc => h.stands.legal_untried c (hcs.subset hc)) hsem
    · exact ⟨htook.stands h.stands, h.way, fun c hc => (nomatch hc), h.saved⟩
    · exact h.advanced hcopy (fun d hd => hcs.subset hd) ha

theorem steps (h : Charted p x₀ s x saved) (hg : p.grammar.Sound) (hsem : p.semantics = none)
    (hcopy : p.config.saveUnique = false) (hsteps : Relation.ReflTransGen p.Step s s') :
    ∃ x' saved', Charted p x₀ s' x' saved' := by
  induction hsteps with
  | refl => exact ⟨x, saved, h⟩
  | tail _ hstep ih =>
    obtain ⟨x', saved', h'⟩ := ih
    exact h'.step hg hsem hcopy hstep

end Charted

end StateDiagram
