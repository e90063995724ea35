import StateDiagram.Proofs.Parser.Rounds

/-! Searches that have come to an end without a parse. When nothing is left to try, nothing is left
for the next search either, unless the last choice entered a node and the action of that node
refused it: the move has been made by then, and its place counts as one that is yet to be tried. -/
namespace StateDiagram

open Relation

variable {σ : Type} {p : Parser σ}

namespace Parser

/-- Rounds of a search that lead from one session to another. -/
def Searches (p : Parser σ) : Session σ → Session σ → Prop :=
  ReflTransGen fun s s' => p.stage s = .ok (.searching, s')

/-- There is no advance, and no state is saved that could be taken up instead. -/
structure GivesOut (p : Parser σ) (s s' : Session σ) : Prop where
  advance : p.advance s = .ok (.noAdvance, s')
  saved : s'.saved = []

/-- The next choice is a move to a node, and the action of that node refuses it. -/
def RefusesEntry (p : Parser σ) (s : Session σ) : Prop :=
  ∃ c cs n s₁ s₂, p.pending s = .ok (c :: cs) ∧ c.node? = some n ∧ commit c cs s = .ok s₁ ∧
    p.perform c s₁ = .ok (.noAdvance, s₂)

/-- No choice is left, and no saved state. -/
structure Exhausted (s : Session σ) : Prop where
  choices : s.state.choices = some []
  saved : s.saved = []

variable {s s' t : Session σ}

theorem GivesOut.stage (h : p.GivesOut s s') : p.stage s = .ok (.failed, s') := by
  simp [Parser.stage, h.advance, Parser.backup, h.saved, bind, Except.bind, pure, Except.pure]

/-- A search that goes through rounds takes one advance for each of them. -/
theorem Searches.rounds (h : p.Searches s t) :
    ∃ k, (∀ fuel, p.parse (k + fuel) s = p.parse fuel t) ∧
      ∀ made left, p.boundedFrom made (k + left) s = p.boundedFrom (made + k) left t := by
  obtain ⟨k, hrounds⟩ : ∃ k, p.Rounds k s t := by
    induction h using ReflTransGen.head_induction_on with
    | refl => exact ⟨0, .refl t⟩
    | head hstage _ ih =>
      obtain ⟨k, hrounds⟩ := ih
      exact ⟨k + 1, .head hstage hrounds⟩
  exact ⟨k, hrounds.parse, hrounds.boundedFrom⟩

/-- A round fails because an action or a value gives up, or because nothing is left to try. -/
theorem stage_failed (h : p.stage s = .ok (.failed, s')) :
    p.advance s = .ok (.quit, s') ∨ p.GivesOut s s' := by
  obtain ⟨hadvance, -⟩ | ⟨-, hstage⟩ | ⟨t, found, hadvance, hback, hstage⟩ := stage_cases h
  · exact .inl hadvance
  · cases hdone : s'.isDone <;> simp [hdone] at hstage
  · cases found with
    | true => cases hstage
    | false =>
      obtain ⟨hsaved, rfl⟩ := backup_false hback
      exact .inr ⟨hadvance, hsaved⟩

namespace Exhausted

/-- An advance finds nothing to try and leaves everything as it is. -/
theorem givesOut (h : Exhausted s) : p.GivesOut s s := by
  refine ⟨?_, h.saved⟩
  have hsame : { s with state := { s.state with choices := some [] } } = s := by rw [← h.choices]
  simp only [advance, pending, h.choices, bind, Except.bind, take, pure, Except.pure, hsame]

theorem parse (h : Exhausted s) (fuel : Nat) : p.parse (fuel + 1) s = .ok (some false, s) := by
  rw [Parser.parse, h.givesOut.stage]
  rfl

theorem parseBounded (h : Exhausted s) (max : Nat) :
    p.parseBounded max s = .ok (-(min max 1 : Nat), s) := by
  cases max with
  | zero => rfl
  | succ max =>
    rw [Parser.parseBounded, boundedFrom, h.givesOut.stage]
    simp [bind, Except.bind, pure, Except.pure]

end Exhausted

/-- Nothing is left to try afterwards, unless an action has refused the move that was made last;
then the choices behind that move are yet to be computed. -/
theorem GivesOut.exhausted {x : Place Tree} {saved : List Post} (h : p.GivesOut s s')
    (hs : Stands p s x saved) (hg : p.grammar.Sound) :
    Exhausted s' ∨ p.RefusesEntry s ∧ s'.state.choices = none := by
  have hpending := hs.pending_eq hg
  have hadvance : p.take (s.untried p x) s = .ok (.noAdvance, s') := by
    have hrun := h.advance
    rw [Parser.advance, hpending] at hrun
    exact hrun
  cases huntried : s.untried p x with
  | nil =>
    rw [huntried] at hadvance
    cases hadvance
    exact .inl ⟨rfl, h.saved⟩
  | cons c others =>
    have hlegal : ∀ d ∈ c :: others, p.Legal x.view d := huntried ▸ hs.legal_untried
    have hout := hs.setOut c fun d hd => hlegal d (List.mem_cons_of_mem c hd)
    obtain ⟨signal, s₁, hrun, hmade⟩ := hout.perform hg (hlegal c (List.mem_cons_self ..))
    rw [huntried, hs.take_cons hrun] at hadvance
    obtain ⟨rfl, rfl⟩ : signal = .noAdvance ∧ s₁ = s' := by
      obtain ⟨rfl, heq⟩ := Prod.mk.inj (Except.ok.inj hadvance)
      exact ⟨rfl, heq⟩
    obtain ⟨v, x', saved', hmade⟩ | hrefused := hmade
    · have hentry : ∀ type, c ≠ .final type := fun type heq => by
        cases (hmade.completed ⟨type, heq⟩).1
      obtain ⟨n, hn⟩ : ∃ n, c.node? = some n := by
        cases c with
        | final type => exact absurd rfl (hentry type)
        | initial n => exact ⟨n, rfl⟩
        | nonDummy n => exact ⟨n, rfl⟩
        | dummy n => exact ⟨n, rfl⟩
      exact .inr ⟨⟨c, others, n, _, _, hpending.trans (by rw [huntried]), hn,
        hs.commit_eq c others, hrun⟩, hmade.entered hentry⟩
    · obtain ⟨features, host, rfl⟩ := hrefused.same
      -- had another choice remained, the state would have been saved with it
      have hnone : others = [] := by
        cases others with
        | nil => rfl
        | cons d ds => cases h.saved
      subst hnone
      exact .inl ⟨rfl, h.saved⟩

/-- Wherever the calls of a host have led, let a search end because there is no advance and no saved
state, and let the move made last not be one that an action refused. Then it fails, and each search
after it fails as well and changes nothing. -/
theorem searches_exhausted {g : Grammar} (hg : g.Built) (hm : g.marked = true) (config : Config)
    (semantics : Option (Semantics σ)) (host : σ) (cs : List Call) :
    ∃ p s, make g config semantics = .ok p ∧ p.calls cs (.empty host) = .ok s ∧
      ∀ t s', p.Searches s t → p.GivesOut t s' → ¬p.RefusesEntry t →
        (∃ k, (∀ fuel, k < fuel → p.parse fuel s = .ok (some false, s')) ∧
          ∀ max, k < max → p.parseBounded max s = .ok (-(k + 1), s')) ∧
        (∀ fuel, p.parse (fuel + 1) s' = .ok (some false, s')) ∧
        ∀ max, ∃ n ≤ 0, p.parseBounded max s' = .ok (n, s') := by
  let p : Parser σ := ⟨g, config, semantics⟩
  have hsound : p.grammar.Sound := hg.sound
  obtain ⟨s, hrun, hs⟩ := calls_placed hsound cs (.start p [] [] host)
  refine ⟨p, s, if_pos hm, hrun, fun t s' hsearches hout hkept => ?_⟩
  have ht : t.Placed p := by
    clear hout hkept
    induction hsearches with
    | refl => exact hs
    | tail _ hstage ih =>
      obtain ⟨stage, s₁, hrun, hsteps⟩ := stage_steps ih hsound
      rw [hstage] at hrun
      cases hrun
      exact ih.steps hsound hsteps
  obtain ⟨x, saved, ht⟩ := ht
  have hexhausted : Exhausted s' := (hout.exhausted ht hsound).resolve_right fun h => hkept h.1
  obtain ⟨k, hparse, hbounded⟩ := hsearches.rounds
  refine ⟨⟨k, fun fuel hfuel => ?_, fun max hmax => ?_⟩, hexhausted.parse, fun max =>
    ⟨_, by omega, hexhausted.parseBounded max⟩⟩
  · obtain ⟨fuel, rfl⟩ := Nat.exists_eq_add_of_lt hfuel
    rw [Nat.add_assoc, hparse, parse, hout.stage]
    rfl
  · obtain ⟨left, rfl⟩ := Nat.exists_eq_add_of_lt hmax
    rw [parseBounded, Nat.add_assoc, hbounded, boundedFrom, hout.stage]
    simp [bind, Except.bind, pure, Except.pure]

/-- A value that the host refuses: after the move that enters the phrase nothing is left to try. -/
theorem searches_exhausted_value :
    let g := ((Grammar.addNode { word := "a", id := "1", kind := .ends "S" (some "v"),
                                 initial := true } {}).mark)
    let refuses : Semantics Unit :=
      { action := fun _ c host => (.succeed, c.features, host)
        value := fun _ c host => (.noAdvance, c.features, host) }
    g.marked = true ∧ ∃ p s s', make g {} (some refuses) = .ok p ∧
      p.calls [.startTokens ["a"] ["S"], .advance] (.empty ()) = .ok s ∧ p.GivesOut s s' ∧
      ¬p.RefusesEntry s ∧ (∀ fuel, p.parse (fuel + 1) s' = .ok (some false, s')) ∧
      ∀ max, ∃ n ≤ 0, p.parseBounded max s' = .ok (n, s') := by
  intro g refuses
  have hg : g.Built := .mark (.addNode .new (by simp [Node.Fresh, Node.links]))
  obtain ⟨p, s, hmake, hrun, h⟩ := searches_exhausted hg rfl {} (some refuses) ()
    [.startTokens ["a"] ["S"], .advance]
  obtain rfl : ⟨g, {}, some refuses⟩ = p := Except.ok.inj hmake
  let p : Parser Unit := ⟨g, {}, some refuses⟩
  have hpending : (p.calls [.startTokens ["a"] ["S"], .advance] (.empty ()) >>= p.pending) =
      .ok [.final "S"] := by decide +kernel
  have hadvance : (p.calls [.startTokens ["a"] ["S"], .advance] (.empty ()) >>= p.advance).map
      (fun r => (r.1, r.2.saved.isEmpty)) = .ok (.noAdvance, true) := by decide +kernel
  rw [hrun] at hpending hadvance
  change p.pending s = _ at hpending
  change (p.advance s).map _ = _ at hadvance
  obtain ⟨⟨signal, s'⟩, hadvance, hout⟩ := map_eq_ok hadvance
  obtain ⟨rfl, hsaved⟩ := Prod.mk.inj hout
  have hout : p.GivesOut s s' := ⟨hadvance, List.isEmpty_iff.1 hsaved⟩
  -- the choice that is refused completes the phrase and enters no node
  have hkept : ¬p.RefusesEntry s := by
    rintro ⟨c, cs, n, -, -, hcs, hn, -⟩
    obtain ⟨rfl, -⟩ := List.cons.inj (Except.ok.inj (hpending.symm.trans hcs))
    cases hn
  exact ⟨rfl, p, s, s', rfl, hrun, hout, hkept, (h s s' .refl hout hkept).2⟩

/-- An action that the host refuses: the search fails with nothing left to try, and the next one
accepts the very move that was refused. -/
theorem refused_entry_accepted :
    let g := ((Grammar.addNode { word := "a", id := "1", kind := .ends "S" none, initial := true,
                                 action := some "veto" } {}).mark)
    let vetoes : Semantics Unit :=
      { action := fun _ c host => (.noAdvance, c.features, host)
        value := fun e c host => (.value (.string e), c.features, host) }
    ∃ p s s' s'', make g {} (some vetoes) = .ok p ∧
      p.calls [.startTokens ["a"] ["S"]] (.empty ()) = .ok s ∧ p.GivesOut s s' ∧
      p.parse 9 s = .ok (some false, s') ∧ p.parse 9 s' = .ok (some true, s'') := by
  intro g vetoes
  let p : Parser Unit := ⟨g, {}, some vetoes⟩
  let s : Session Unit := .start ["a"] ["S"] ()
  have hruns : (p.advance s).map (fun r => (r.1, r.2.saved.isEmpty,
      (p.parse 9 r.2).map Prod.fst)) = .ok (.noAdvance, true, .ok (some true)) := by decide +kernel
  obtain ⟨⟨signal, s'⟩, hadvance, hruns⟩ := map_eq_ok hruns
  obtain ⟨rfl, hruns⟩ := Prod.mk.inj hruns
  obtain ⟨hsaved, hruns⟩ := Prod.mk.inj hruns
  obtain ⟨⟨found, s''⟩, hparse, rfl⟩ := map_eq_ok hruns
  have hout : p.GivesOut s s' := ⟨hadvance, List.isEmpty_iff.1 hsaved⟩
  refine ⟨p, s, s', s'', rfl, rfl, hout, ?_, hparse⟩
  rw [parse, hout.stage]
  rfl

end Parser

end StateDiagram
