import StateDiagram.Proofs.Parser.Charted
import StateDiagram.Proofs.Parser.Finished

/-! Replays, without semantics. To replay choices is to ask whether they are a way from the tokens
to a complete parse. The path of a parse is one as long as no phrase is ever collapsed in place; a
phrase that was collapsed stays so when an earlier state is taken up, and the path of that state
does not say how it came about. -/
namespace StateDiagram

open StateDiagram.Tree Arena

variable {σ : Type} {p : Parser σ}

namespace Stands

variable {s : Session σ} {x : Place Tree} {saved : List Post} {x₀ : Place Form}

/-- A certain choice succeeds if it is among those that have not been tried. -/
theorem advanced_with (h : Stands p s x saved) (hg : p.grammar.Sound) (hsem : p.semantics = none)
    (c : Choice) :
    (c ∉ s.untried p x ∧ ∃ s', p.advanceWith c s = .ok (.noAdvance, s') ∧ Stands p s' x saved) ∨
    (c ∈ s.untried p x ∧ ∃ others s' x' saved', p.advanceWith c s = .ok (.succeed, s') ∧
      Advanced p c others s x saved s' x' saved') := by
  obtain ⟨hc, hrun, hs'⟩ | ⟨hc, signal, s', x', saved', hrun, htook⟩ := h.advanceWith hg c
  · exact .inl ⟨hc, _, hrun, hs'⟩
  · have hlegal : ∀ d ∈ c :: (s.untried p x).erase c, p.Legal x.view d :=
      List.forall_mem_cons.2 ⟨h.legal_untried c hc, fun d hd =>
        h.legal_untried d (List.mem_of_mem_erase hd)⟩
    obtain ⟨hnil, -⟩ | ⟨d, others, heq, rfl, hadvanced⟩ := htook.advanced h hlegal hsem
    · cases hnil
    · obtain ⟨rfl, -⟩ := List.cons.inj heq
      exact .inr ⟨hc, others, s', x', saved', hrun, hadvanced⟩

end Stands

/-- A session whose moves are a way from `x₀`, with all choices left that are offered where it has
come to. -/
structure OnWay (p : Parser σ) (x₀ : Place Form) (s : Session σ) (x : Place Tree)
    (saved : List Post) : Prop where
  stands : Stands p s x saved
  way : p.Way s.goals x₀ s.state.path x.view
  untried : s.untried p x = p.fresh s.goals s.state.path x.view
  finished : x.view.isDone s.goals = true → ∃ u, x.view = ⟨[], [u]⟩ ∧ s.Finished u

namespace OnWay

variable {s s' : Session σ} {x x' : Place Tree} {saved saved' : List Post} {x₀ : Place Form}

theorem start (p : Parser σ) (tokens goals : List String) (host : σ) :
    OnWay p (.ofTokens tokens) (.start tokens goals host) ⟨[], tokenUnits 1 tokens⟩ [] := by
  have hstart := stands_start p tokens goals host
  refine ⟨hstart, Place.view_tokenUnits 1 tokens ▸ .start, rfl, fun hdone => ?_⟩
  obtain ⟨-, u, hahead, hgoal⟩ := Place.isDone_iff.1 hdone
  have hu : Place.view ⟨[], tokenUnits 1 tokens⟩ = ⟨[], [u]⟩ := by rw [← hahead]; rfl
  have hmatched : ((tokenUnits 1 tokens).head?.bind matched) = none := by
    cases tokens <;> rfl
  exact ⟨u, hu, hstart.finished hu hgoal hmatched⟩

theorem advanced {c : Choice} {others : List Choice} (h : OnWay p x₀ s x saved)
    (hc : c ∈ s.untried p x) (ha : Advanced p c others s x saved s' x' saved') :
    OnWay p x₀ s' x' saved' where
  stands := ha.stands
  way := by
    rw [ha.path, ha.view, ha.goals]
    exact .step h.way (h.untried ▸ hc)
  untried := by rw [ha.untried, ha.path, ha.goals]
  finished hdone := by
    rw [ha.goals] at hdone
    obtain ⟨o, type, u, -, -, -, -, hview, -, hu⟩ :=
      ha.finished (h.stands.legal_untried c hc) hdone
    exact ⟨u, hview, hu⟩

/-- No way goes on by a choice that has been tried or is not offered. -/
theorem untried_of_way {c : Choice} {cs : List Choice} {y : Place Form} (h : OnWay p x₀ s x saved)
    (hy : p.Way s.goals x₀ (cs ++ c :: s.state.path) y) : c ∈ s.untried p x := by
  obtain ⟨z, hz⟩ := hy.before
  cases hz with
  | step hx hfresh =>
    rw [hx.unique h.way, ← h.untried] at hfresh
    exact hfresh

/-- To follow choices succeeds if and only if they lead on to a complete parse. -/
theorem follow (hg : p.grammar.Sound) (hsem : p.semantics = none) (cs : List Choice) :
    ∀ {s : Session σ} {x : Place Tree} {saved : List Post}, OnWay p x₀ s x saved →
      ∃ b s' x' saved', p.follow cs s = .ok (b, s') ∧ Stands p s' x' saved' ∧
        (b = true → p.Way s.goals x₀ (cs.reverse ++ s.state.path) x'.view ∧
          x'.view.isDone s.goals = true ∧ ∃ u, x'.view = ⟨[], [u]⟩ ∧ s'.Finished u) ∧
        ∀ y, p.Way s.goals x₀ (cs.reverse ++ s.state.path) y → y.isDone s.goals = true →
          b = true := by
  induction cs with
  | nil =>
    intro s x saved h
    refine ⟨_, s, x, saved, rfl, h.stands, fun hdone => ?_, fun y hy hdone => ?_⟩
    · have hx : x.view.isDone s.goals = true := h.stands.isDone_eq.symm.trans hdone
      exact ⟨h.way, hx, h.finished hx⟩
    · rw [h.stands.isDone_eq, h.way.unique hy, hdone]
  | cons c cs ih =>
    intro s x saved h
    have hpath : (c :: cs).reverse ++ s.state.path = cs.reverse ++ c :: s.state.path := by simp
    rw [hpath]
    obtain ⟨hc, s', hrun, hs'⟩ | ⟨hc, others, s', x', saved', hrun, ha⟩ :=
      h.stands.advanced_with hg hsem c
    · refine ⟨false, s', x, saved, ?_, hs', Bool.noConfusion, fun y hy => ?_⟩
      · simp [Parser.follow, hrun, bind, Except.bind, pure, Except.pure]
      · exact absurd (h.untried_of_way hy) hc
    · obtain ⟨b, s'', x'', saved'', hrun', hs'', htrue, hconv⟩ := ih (h.advanced hc ha)
      rw [ha.goals, ha.path] at htrue hconv
      refine ⟨b, s'', x'', saved'', ?_, hs'', htrue, hconv⟩
      simp only [Parser.follow, hrun, bind, Except.bind]
      exact hrun'

end OnWay

namespace Parser

/-- To replay choices on an input succeeds if and only if they are a way from its tokens to a
complete parse, and then the phrase structure is the one to which the way leads. -/
theorem replay_way (hg : p.grammar.Sound) (hsem : p.semantics = none) (input : String)
    (goals : List String) (cs : List Choice) (s : Session σ) :
    ∃ b s', p.replay input goals cs s = .ok (b, s') ∧
      (b = true → ∃ u, p.Way goals (.ofTokens (p.config.segmenter.segment input)) cs.reverse
        ⟨[], [u]⟩ ∧ u.word ∈ goals ∧ s'.Finished u) ∧
      ∀ y, p.Way goals (.ofTokens (p.config.segmenter.segment input)) cs.reverse y →
        y.isDone goals = true → b = true := by
  obtain ⟨b, s', x', saved', hrun, hs', htrue, hconv⟩ :=
    (OnWay.start p (p.config.segmenter.segment input) goals s.host).follow hg hsem cs
  refine ⟨b, s', hrun, fun hb => ?_, fun y hy hdone => hconv y ?_ hdone⟩
  · obtain ⟨hway', hdone, u, hview', hu⟩ := htrue hb
    rw [hview'] at hway' hdone
    obtain ⟨-, v, hv, hgoal⟩ := Place.isDone_iff.1 hdone
    obtain ⟨rfl, -⟩ := List.cons.inj hv
    exact ⟨u, by simpa [Session.start] using hway', hgoal, hu⟩
  · simpa [Session.start] using hy

/-- Without collapses in place: when a search has found a parse, whatever calls were made before
it, to replay the moves on its path on a fresh parse of the same input succeeds and ends with the
same phrase structure, type and value. -/
theorem replay_taken {g : Grammar} (hg : g.Built) (hm : g.marked = true) {config : Config}
    (hcopy : config.saveUnique = false) (input : String) (goals : List String) (s₀ : Session σ)
    {cs : List Call} (hcs : ∀ c ∈ cs, c.goesOn = true) :
    ∃ p s, make g config none = .ok p ∧ p.calls cs (p.start input goals s₀) = .ok s ∧
      ∀ fuel s', p.parse fuel s = .ok (some true, s') → ∀ s₁, ∃ s'' u,
        p.replay input goals s'.taken s₁ = .ok (true, s'') ∧ s'.Finished u ∧ s''.Finished u := by
  let p : Parser σ := ⟨g, config, none⟩
  have hsound : p.grammar.Sound := hg.sound
  let tokens := config.segmenter.segment input
  have hstart : (p.start input goals s₀).Placed p := .start p tokens goals s₀.host
  obtain ⟨s, hrun, hsteps⟩ := calls_steps hsound hcs hstart
  obtain ⟨x, saved, hs⟩ :=
    (Charted.start p tokens goals s₀.host).steps hsound rfl hcopy hsteps
  have hgoals : s.goals = goals := hstart.steps_goals hsound hsteps
  refine ⟨p, s, if_pos hm, hrun, fun fuel s' hparse s₁ => ?_⟩
  obtain ⟨x', saved', hsearch⟩ := hs.stands.search hsound rfl fuel hparse
  have hs' : Charted p (.ofTokens tokens) s' x' saved' :=
    hsearch.induct (fun h hturn => h.turn hcopy hturn) hs
  obtain ⟨u, hview, hgoal, hfinished⟩ := hsearch.finished hs.stands
  have hway : p.Way goals (.ofTokens tokens) s'.taken.reverse ⟨[], [u]⟩ := by
    rw [Session.taken, List.reverse_reverse, ← hview, ← hgoals, ← hsearch.goals]
    exact hs'.way
  obtain ⟨b, s'', hreplay, htrue, hconv⟩ := replay_way hsound rfl input goals s'.taken s₁
  obtain rfl : b = true := hconv ⟨[], [u]⟩ hway
    (Place.isDone_iff.2 ⟨rfl, u, rfl, hgoals ▸ hgoal⟩)
  obtain ⟨v, hway', -, hv⟩ := htrue rfl
  obtain rfl : u = v := by simpa using hway.unique hway'
  exact ⟨s'', u, hreplay, hfinished, hv⟩

/-- A grammar in which the node of the first word can go on with an empty unit or with a phrase
that the second word alone makes up. -/
def twoWays : Grammar :=
  (Grammar.ofNodes [
    { word := "x", id := "1", initial := true,
      kind := .continues [{ word := "$$", id := "1" }, { word := "T", id := "1" }] none },
    { word := "$$", id := "1", kind := .continues [{ word := "T", id := "2" }] none },
    { word := "T", id := "1", kind := .ends "S" none },
    { word := "T", id := "2", kind := .ends "S" none },
    { word := "u", id := "1", initial := true, kind := .ends "T" none }] []).mark

theorem twoWays_built : twoWays.Built :=
  .mark (Grammar.built_ofNodes (by simp [Node.Fresh, Node.links]) _)

/-- The second parse goes on from the state before the empty unit to a phrase that it has to build
itself. -/
theorem replay_taken_copied :
    let config : Config := { saveUnique := false }
    twoWays.marked = true ∧ config.saveUnique = false ∧
      (∀ c ∈ [Call.parse 10, .backup], c.goesOn = true) ∧
      ∃ p s s' s'' u, make twoWays config (none : Option (Semantics Unit)) = .ok p ∧
        p.calls [.parse 10, .backup] (p.start "x u" ["S"] (.empty ())) = .ok s ∧
        p.parse 10 s = .ok (some true, s') ∧
        s'.taken = [.initial 0, .initial 4, .final "T", .nonDummy 2, .final "S"] ∧
        p.replay "x u" ["S"] s'.taken (.empty ()) = .ok (true, s'') ∧
        s'.Finished u ∧ s''.Finished u := by
  intro config
  have hcopy : config.saveUnique = false := rfl
  have hcalls : ∀ c ∈ [Call.parse 10, .backup], c.goesOn = true := by decide
  obtain ⟨p, s, hp, hrun, hreplay⟩ :=
    replay_taken twoWays_built rfl hcopy "x u" ["S"] (.empty ()) hcalls
  let q : Parser Unit := ⟨twoWays, config, none⟩
  obtain rfl : q = p := Except.ok.inj hp
  have hcomputed : (do
      let s ← q.calls [.parse 10, .backup] (q.start "x u" ["S"] (.empty ()))
      let r ← q.parse 10 s
      return (r.1, r.2.taken)) =
        (.ok (some true, [.initial 0, .initial 4, .final "T", .nonDummy 2, .final "S"]) :
          Except Fault _) := by
    decide +kernel
  obtain ⟨s₁, hrun', h⟩ := bind_eq_ok hcomputed
  obtain rfl : s = s₁ := Except.ok.inj (hrun.symm.trans hrun')
  obtain ⟨⟨found, s'⟩, hparse, h⟩ := bind_eq_ok h
  simp only [pure, Except.pure, Except.ok.injEq, Prod.mk.injEq] at h
  obtain ⟨rfl, htaken⟩ := h
  obtain ⟨s'', u, hreplayed, hs', hs''⟩ := hreplay 10 s' hparse (.empty ())
  exact ⟨rfl, hcopy, hcalls, q, s, s', s'', u, rfl, hrun, hparse, htaken, hreplayed, hs', hs''⟩

/-- With the default settings the law does not hold. The first parse takes the empty unit and
collapses the second word in place; the second parse goes on from the state before the empty unit
to the collapsed phrase, and its path has no moves that build that phrase. -/
theorem replay_taken_collapsed :
    twoWays.Built ∧ twoWays.marked = true ∧ ({} : Config).saveUnique = true ∧
      (do
        let p : Parser Unit := ⟨twoWays, {}, none⟩
        let (first, s) ← p.parse 10 (p.start "x u" ["S"] (.empty ()))
        let (found, s) ← p.backup s
        let (second, s) ← p.parse 10 s
        let (replayed, _) ← p.replay "x u" ["S"] s.taken s
        return (first, found, second, replayed)) =
          (.ok (some true, true, some true, false) : Except Fault _) :=
  ⟨twoWays_built, rfl, rfl, by decide +kernel⟩

end Parser

end StateDiagram
