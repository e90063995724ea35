import StateDiagram.Proofs.Grammar.Renumbered

/-! Where the nodes of a relisted grammar lead. Each node has become another one, and where edges
are kept it leads to the same phrase types as before. -/
namespace StateDiagram

open Relation

theorem ends_of_forget {n m : Node} (h : m.forget.kind = n.forget.kind) :
    m.type? = n.type? ∧ m.value? = n.value? := by
  have hforget : ∀ n : Node, n.forget.type? = n.type? ∧ n.forget.value? = n.value? := fun n => by
    obtain ⟨word, id, kind⟩ := n
    cases kind <;> exact ⟨rfl, rfl⟩
  obtain ⟨htype, hvalue⟩ := hforget m
  obtain ⟨htype', hvalue'⟩ := hforget n
  rw [← htype, ← hvalue, ← htype', ← hvalue', Node.type?, Node.type?, Node.value?, Node.value?, h]
  exact ⟨rfl, rfl⟩

namespace Grammar.Relists

open StateDiagram.Digraph

variable {g h : Grammar} {R : Node → Node → Prop}

section

variable (r : Relists R g h) (hR : ∀ n m, R n m → g.Replaces n m)
include r hR

theorem replaces : Relists g.Replaces g h :=
  ⟨r.words, r.nodes.imp hR⟩

theorem ends (hg : g.Listed) {i : Nat} {type : String} :
    Ends h (g.placeOf i) type ↔ Ends g i type := by
  constructor
  · rintro ⟨m, hm, htype⟩
    obtain ⟨n, hn, hnm⟩ := r.node_at hg hm
    exact ⟨n, hn, (ends_of_forget (hR n m hnm).kind).1 ▸ htype⟩
  · rintro ⟨n, hn, htype⟩
    obtain ⟨m, hm, hnm⟩ := r.node hg hn
    exact ⟨m, hm, (ends_of_forget (hR n m hnm).kind).1.trans htype⟩

/-- The nodes end the same phrase types as before. -/
theorem mem_phraseTypes_iff (hg : g.Listed) {type : String} :
    type ∈ h.phraseTypes ↔ type ∈ g.phraseTypes := by
  rw [mem_phraseTypes, mem_phraseTypes]
  constructor
  · rintro ⟨k, m, hm, htype⟩
    obtain ⟨i, -, rfl, -⟩ := r.node_back hg hm
    exact ⟨i, (r.ends hR hg).1 ⟨m, hm, htype⟩⟩
  · rintro ⟨i, hends⟩
    exact ⟨g.placeOf i, (r.ends hR hg).2 hends⟩

/-- Every edge of the relisted grammar was one before, if no node has become initial. -/
theorem edge_back (hg : g.Built) (hh : h.Built)
    (hinitial : ∀ n m, R n m → m.initial = true → n.initial = true) {i v : Nat}
    (hv : (ofGrammar h).Edge (g.placeOf i) v) :
    ∃ j, v = g.placeOf j ∧ (ofGrammar g).Edge i j := by
  obtain ⟨m, hm, hedge⟩ := edge_ofGrammar.1 hv
  obtain ⟨n, hn, hnm⟩ := r.node_at hg.listed hm
  obtain ⟨l', hl', ht⟩ | hphrase := hedge
  · obtain ⟨l, hl, hword, hid⟩ := exists_mem_of_forall₂ (links_of_forget (hR n m hnm).kind) hl'
    rw [(r.replaces hR).target hg hh hn hm hl hl' hword hid, Option.map_eq_some_iff] at ht
    obtain ⟨j, ht, rfl⟩ := ht
    exact ⟨j, rfl, edge_ofGrammar.2 ⟨n, hn, .inl ⟨l, hl, ht⟩⟩⟩
  · obtain ⟨type, htype, hmem, m', hm', hm'initial⟩ := mem_phraseTargets.1 hphrase
    rw [r.instances hg.listed hh.listed fun n m hnm => (hR n m hnm).word, List.mem_map] at hmem
    obtain ⟨j, hj, rfl⟩ := hmem
    obtain ⟨n', hn', hnm'⟩ := r.node_at hg.listed hm'
    exact ⟨j, rfl, edge_ofGrammar.2 ⟨n, hn, .inr (mem_phraseTargets.2
      ⟨type, (ends_of_forget (hR n m hnm).kind).1 ▸ htype, hj, n', hn',
        hinitial n' m' hnm' hm'initial⟩)⟩⟩

/-- An edge to a node that is still initial is kept. -/
theorem edge_kept (hg : g.Built) (hh : h.Built) {i j : Nat}
    (hinitial : ∀ n m, g.nodes[j]? = some n → R n m → n.initial = true → m.initial = true)
    (hedge : (ofGrammar g).Edge i j) : (ofGrammar h).Edge (g.placeOf i) (g.placeOf j) := by
  obtain ⟨n, hn, hedge⟩ := edge_ofGrammar.1 hedge
  obtain ⟨m, hm, hnm⟩ := r.node hg.listed hn
  obtain ⟨l, hl, ht⟩ | hphrase := hedge
  · obtain ⟨l', hl', hword, hid⟩ :=
      exists_mem_of_forall₂ (links_of_forget (hR n m hnm).kind).flip hl
    refine edge_ofGrammar.2 ⟨m, hm, .inl ⟨l', hl', ?_⟩⟩
    rw [(r.replaces hR).target hg hh hn hm hl hl' hword hid, ht]
    rfl
  · obtain ⟨type, htype, hmem, n', hn', hn'initial⟩ := mem_phraseTargets.1 hphrase
    obtain ⟨m', hm', hnm'⟩ := r.node hg.listed hn'
    refine edge_ofGrammar.2 ⟨m, hm, .inr (mem_phraseTargets.2
      ⟨type, (ends_of_forget (hR n m hnm).kind).1.trans htype, ?_, m', hm',
        hinitial n' m' hn' hnm' hn'initial⟩)⟩
    rw [r.instances hg.listed hh.listed fun n m hnm => (hR n m hnm).word]
    exact List.mem_map_of_mem hmem

/-- Each node leads to the same phrase types as before, if the edges are kept over which it leads
to them. -/
theorem leadsTo (hg : g.Listed)
    (hback : ∀ i v, (ofGrammar h).Edge (g.placeOf i) v →
      ∃ j, v = g.placeOf j ∧ (ofGrammar g).Edge i j)
    {type : String} (hkept : ∀ i j, (ofGrammar g).Edge i j → LeadsTo g j type →
      (ofGrammar h).Edge (g.placeOf i) (g.placeOf j)) {i : Nat} :
    LeadsTo h (g.placeOf i) type ↔ LeadsTo g i type := by
  rw [leadsTo_def]
  constructor
  · rintro ⟨k, hpath, hends⟩
    generalize hu : g.placeOf i = u at hpath
    induction hpath using ReflTransGen.head_induction_on generalizing i with
    | refl => exact leadsTo_def.2 ⟨i, .refl, (r.ends hR hg).1 (hu ▸ hends)⟩
    | head hedge _ ih =>
      obtain ⟨j, rfl, hedge'⟩ := hback i _ (hu ▸ hedge)
      exact (ih rfl).of_edge hedge'
  · rw [leadsTo_def]
    rintro ⟨j, hpath, hends⟩
    induction hpath using ReflTransGen.head_induction_on with
    | refl => exact ⟨_, .refl, (r.ends hR hg).2 hends⟩
    | head hedge hrest ih =>
      obtain ⟨k, hpath, hk⟩ := ih
      exact ⟨k, .head (hkept _ _ hedge (leadsTo_def.2 ⟨j, hrest, hends⟩)) hpath, hk⟩

end

end Grammar.Relists

end StateDiagram
