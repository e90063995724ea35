import StateDiagram.Proofs.Parser.Search

/-! Complete parses. What is left is a header and a phrase that is matched to no node; its word is
the type of the parse, its value the value. -/
namespace StateDiagram

open StateDiagram.Tree Arena

variable {σ : Type} {p : Parser σ}

def Form.value : Form → Option Value
  | unit _ _ v _ => v

@[simp] theorem Form.value_unit (w : String) (n : Option Nat) (v : Option Value)
    (ps : List Form) : (unit w n v ps).value = v := rfl

@[simp] theorem Form.value_clear (u : Form) : u.clear.value = u.value := by
  cases u
  rfl

@[simp] theorem Tree.value_form (t : Tree) : t.form.value = t.value := by
  cases t
  simp

theorem Tree.form_eq_bare {t : Tree} (h : t.matched = none) : t.form = t.bare := by
  obtain ⟨i, w, n, v, ps⟩ := t
  obtain rfl : n = none := h
  simp [bare, Form.clear]

/-- The phrase structure consists of the header and of one unit. -/
def Session.Shows (s : Session σ) (u : Form) : Prop :=
  ∃ h t, s.arena.Spans (some s.state.head) [h, t] none ∧ t.form = u ∧
    h.form = .unit headerWord none none []

/-- A complete parse: its phrase structure, its type and its value. -/
structure Session.Finished (s : Session σ) (u : Form) : Prop where
  shows : s.Shows u
  type : s.completedType? = some u.word
  value : s.completedValue? = u.value

namespace Stands

variable {s : Session σ} {x : Place Tree} {saved : List Post}

theorem finished {u : Form} (h : Stands p s x saved) (hx : x.view = ⟨[], [u]⟩)
    (hgoal : u.word ∈ s.goals) (htop : x.ahead.head?.bind matched = none) : s.Finished u := by
  have hopened : x.opened = [] := List.map_eq_nil_iff.1 (congrArg Place.opened hx)
  obtain ⟨t, ts, hahead, hu, hts⟩ := Place.ahead_of_view (congrArg Place.ahead hx)
  obtain rfl := List.map_eq_nil_iff.1 hts
  have hmatched : t.matched = none := by simpa [hahead] using htop
  have hform : t.form = u := (form_eq_bare hmatched).trans hu
  have hspans := h.lays.spans
  have hunits : Post.units ⟨s.state, x⟩ = [header s.state.head, t] := by
    simp [Post.units, Place.spine, hopened, hahead]
  rw [hunits] at hspans
  have hdone : s.isDone = true := by
    rw [h.isDone_eq, Place.isDone_iff]
    exact ⟨congrArg Place.opened hx, u, congrArg Place.ahead hx, hgoal⟩
  obtain ⟨v, -, hv, -, -, hrest⟩ := hspans.cons_inv
  obtain ⟨w, hnext, hw, ht, -, -⟩ := hrest.cons_inv
  have hunit : s.topUnit? = some w := by
    simp only [slot_header] at hv
    simp [Session.topUnit?, Session.top?, hv, hnext, hw]
  have hword : w.word = u.word := by rw [← hform, word_form, ht, word_node]
  have hvalue : w.value = u.value := by rw [← hform, value_form, ht, value_node]
  refine ⟨⟨_, t, hspans, hform, form_header _⟩, ?_, ?_⟩
  · simp [Session.completedType?, hdone, hunit, hword]
  · simp [Session.completedValue?, hdone, hunit, hvalue]

end Stands

/-- Only a move that completes a phrase leads to a complete parse, and that phrase is matched to
no node. -/
theorem Advanced.finished {c : Choice} {others : List Choice} {s s' : Session σ}
    {x x' : Place Tree} {saved saved' : List Post}
    (h : Advanced p c others s x saved s' x' saved') (hc : p.Legal x.view c)
    (hdone : x'.view.isDone s.goals = true) :
    ∃ o type u, x.view.opened = [o] ∧ c = .final type ∧
      u = .unit type none (p.plainValue o) o.reverse ∧ x.view.ahead = [] ∧ x'.view = ⟨[], [u]⟩ ∧
      u.word ∈ s.goals ∧ s'.Finished u := by
  obtain ⟨hopened, u, hahead, hgoal⟩ := Place.isDone_iff.1 hdone
  obtain ⟨o, us, type, ho, rfl, hus, hu⟩ := hc.completes h.view hopened
  rw [hahead] at hu
  obtain ⟨rfl, hnil⟩ := List.cons.inj hu
  obtain rfl : us = [] := hnil.symm
  have hvalue : p.valueAt x.view = p.plainValue o := by simp [Parser.valueAt, ho]
  have hview : x'.view = ⟨[], [.unit type none (p.plainValue o) o.reverse]⟩ := by
    rw [← hvalue, ← hahead, ← hopened]
  refine ⟨o, type, _, ho, rfl, rfl, hus, hview, hgoal, ?_⟩
  have htop : x'.ahead.head?.bind matched = none := by
    cases h.grown with
    | final _ _ _ _ _ htop => exact htop
  exact h.stands.finished hview (by rw [h.goals]; exact hgoal) htop

/-- A search that succeeds ends with a phrase that one last move has completed. -/
theorem Search.finished {s s' : Session σ} {x x' : Place Tree} {saved saved' : List Post}
    (h : Search p s x saved true s' x' saved') (hs : Stands p s x saved) :
    ∃ u, x'.view = ⟨[], [u]⟩ ∧ u.word ∈ s.goals ∧ s'.Finished u := by
  generalize hb : true = b at h
  induction h with
  | failed h => cases hb
  | on h _ ih =>
    obtain ⟨u, hview, hgoal, hfinished⟩ := ih h.stands hb
    exact ⟨u, hview, h.goals ▸ hgoal, hfinished⟩
  | @found s s' x x' saved saved' h =>
    obtain ⟨c, others, heq, ha, hdone⟩ := h.complete_inv
    have hc : p.Legal x.view c := hs.legal_untried c (by simp [heq])
    obtain ⟨o, type, u, -, -, -, -, hview, hgoal, hfinished⟩ := ha.finished hc hdone
    exact ⟨u, hview, hgoal, hfinished⟩

end StateDiagram
