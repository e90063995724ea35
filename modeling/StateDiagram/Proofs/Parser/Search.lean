import StateDiagram.Proofs.Parser.Ways

/-! The search for the next parse, without semantics. Each of its rounds takes the next choice, or,
if none is left, takes up the latest saved state. -/
namespace StateDiagram

open StateDiagram.Tree Arena

variable {σ : Type} {p : Parser σ}

/-- What one round of a search makes of a session. -/
inductive Turn (p : Parser σ) (s : Session σ) (x : Place Tree) (saved : List Post) :
    Parser.Stage → Session σ → Place Tree → List Post → Prop where
  | advanced {c : Choice} {others : List Choice} {s' : Session σ} {x' : Place Tree}
    {saved' : List Post} : s.untried p x = c :: others →
      Advanced p c others s x saved s' x' saved' →
        Turn p s x saved (if x'.view.isDone s.goals then .complete else .searching) s' x' saved'
  | resumed {e : Post} {saved' : List Post} {s' : Session σ} : s.untried p x = [] →
    saved = e :: saved' → Stands p s' e.place saved' → Resumed p s s' e →
      Turn p s x saved .searching s' e.place saved'
  | exhausted : s.untried p x = [] → saved = [] →
    Stands p { s with state := { s.state with choices := some [] } } x [] →
      Turn p s x saved .failed { s with state := { s.state with choices := some [] } } x []

/-- A search: whether it succeeds, and where it leads. -/
inductive Search (p : Parser σ) : Session σ → Place Tree → List Post → Bool →
    Session σ → Place Tree → List Post → Prop where
  | found {s s' : Session σ} {x x' : Place Tree} {saved saved' : List Post} :
    Turn p s x saved .complete s' x' saved' → Search p s x saved true s' x' saved'
  | failed {s s' : Session σ} {x x' : Place Tree} {saved saved' : List Post} :
    Turn p s x saved .failed s' x' saved' → Search p s x saved false s' x' saved'
  | on {b : Bool} {s s₁ s' : Session σ} {x x₁ x' : Place Tree} {saved saved₁ saved' : List Post} :
    Turn p s x saved .searching s₁ x₁ saved₁ → Search p s₁ x₁ saved₁ b s' x' saved' →
      Search p s x saved b s' x' saved'

namespace Turn

variable {s s' : Session σ} {x x' : Place Tree} {saved saved' : List Post} {stage : Parser.Stage}

theorem stands (h : Turn p s x saved stage s' x' saved') : Stands p s' x' saved' := by
  cases h with
  | advanced _ h => exact h.stands
  | resumed _ _ h _ => exact h
  | exhausted _ _ h => exact h

theorem goals (h : Turn p s x saved stage s' x' saved') : s'.goals = s.goals := by
  cases h with
  | advanced _ h => exact h.goals
  | resumed _ _ _ h => exact h.goals
  | exhausted _ _ _ => rfl

/-- A round that completes a parse takes a choice. -/
theorem complete_inv (h : Turn p s x saved .complete s' x' saved') : ∃ c others,
    s.untried p x = c :: others ∧ Advanced p c others s x saved s' x' saved' ∧
      x'.view.isDone s.goals = true := by
  generalize hstage : Parser.Stage.complete = stage at h
  cases h with
  | @advanced c others _ _ _ heq ha =>
    refine ⟨c, others, heq, ha, ?_⟩
    by_contra hnot
    rw [if_neg hnot] at hstage
    cases hstage
  | resumed _ _ _ _ => cases hstage
  | exhausted _ _ _ => cases hstage

end Turn

namespace Stands

variable {s : Session σ} {x : Place Tree} {saved : List Post}

theorem turn (h : Stands p s x saved) (hg : p.grammar.Sound) (hsem : p.semantics = none) :
    ∃ stage s' x' saved', p.stage s = .ok (stage, s') ∧ Turn p s x saved stage s' x' saved' := by
  obtain ⟨signal, s₁, x₁, saved₁, hrun, htook⟩ := h.advance hg
  simp only [Parser.stage, hrun, bind, Except.bind, pure, Except.pure]
  obtain ⟨hnil, rfl, hs₁, rfl, rfl⟩ | ⟨c, others, heq, rfl, hadvanced⟩ :=
    htook.advanced h h.legal_untried hsem
  · have hstands : Stands p s₁ x₁ saved₁ := htook.stands h
    cases saved₁ with
    | nil =>
      rw [hstands.backup_nil]
      subst hs₁
      exact ⟨_, _, x₁, [], rfl, .exhausted hnil rfl hstands⟩
    | cons e saved₁ =>
      obtain ⟨s₂, hback, hs₂, hr⟩ := hstands.backup hg
      rw [hback]
      have hresumed : Resumed p s s₂ e := by
        subst hs₁
        exact ⟨hr.state, hr.arena, hr.goals, hr.host, hr.steps, hr.settled, hr.unsettled⟩
      exact ⟨_, s₂, e.place, saved₁, rfl, .resumed hnil rfl hs₂ hresumed⟩
  · refine ⟨_, s₁, x₁, saved₁, rfl, ?_⟩
    have hdone : s₁.isDone = x₁.view.isDone s.goals := by
      rw [hadvanced.stands.isDone_eq, hadvanced.goals]
    rw [hdone]
    exact .advanced heq hadvanced

/-- A search that comes to an end runs through rounds. -/
theorem search (hg : p.grammar.Sound) (hsem : p.semantics = none) (fuel : Nat) :
    ∀ {s s' : Session σ} {x : Place Tree} {saved : List Post} {b : Bool}, Stands p s x saved →
      p.parse fuel s = .ok (some b, s') → ∃ x' saved', Search p s x saved b s' x' saved' := by
  induction fuel with
  | zero =>
    intro s s' x saved b _ hrun
    cases hrun
  | succ fuel ih =>
    intro s s' x saved b h hrun
    obtain ⟨stage, s₁, x₁, saved₁, hstage, hturn⟩ := h.turn hg hsem
    simp only [Parser.parse, hstage, bind, Except.bind, pure, Except.pure] at hrun
    cases stage with
    | complete =>
      cases hrun
      exact ⟨x₁, saved₁, .found hturn⟩
    | failed =>
      cases hrun
      exact ⟨x₁, saved₁, .failed hturn⟩
    | searching =>
      obtain ⟨x', saved', hsearch⟩ := ih hturn.stands hrun
      exact ⟨x', saved', .on hturn hsearch⟩

end Stands

namespace Search

variable {s s' : Session σ} {x x' : Place Tree} {saved saved' : List Post} {b : Bool}

theorem goals (h : Search p s x saved b s' x' saved') : s'.goals = s.goals := by
  induction h with
  | found h => exact h.goals
  | failed h => exact h.goals
  | on h _ ih => exact ih.trans h.goals

theorem stands (h : Search p s x saved b s' x' saved') : Stands p s' x' saved' := by
  induction h with
  | found h => exact h.stands
  | failed h => exact h.stands
  | on _ _ ih => exact ih

theorem done (h : Search p s x saved true s' x' saved') : x'.view.isDone s.goals = true := by
  generalize hb : true = b at h
  induction h with
  | failed h => cases hb
  | on h _ ih => exact h.goals ▸ ih hb
  | found h =>
    obtain ⟨-, -, -, -, hdone⟩ := h.complete_inv
    exact hdone

/-- What holds of the sessions of a search, round after round. -/
theorem induct {P : Session σ → Place Tree → List Post → Prop}
    (hturn : ∀ {s s' : Session σ} {x x' : Place Tree} {saved saved' : List Post}
      {stage : Parser.Stage}, P s x saved → Turn p s x saved stage s' x' saved' → P s' x' saved')
    (h : Search p s x saved b s' x' saved') (hs : P s x saved) : P s' x' saved' := by
  induction h with
  | found h => exact hturn hs h
  | failed h => exact hturn hs h
  | on h _ ih => exact ih (hturn hs h)

end Search

end StateDiagram
