import StateDiagram.Proofs.Grammar.Built
import StateDiagram.Proofs.Parser.Place

/-! What a grammar derives. A row of units follows the links of the grammar from an initial node
on; when it comes to a node that ends a phrase, it is a whole unit of that type. Rows and wholes
are taken with the tokens that they stand for. -/
namespace StateDiagram.Parser

open Form

variable {σ : Type}

mutual

/-- Units matched to nodes that follow each other in the grammar, the latest first, with the tokens
that they stand for. `V` says which values a phrase that ends at a node can have. -/
inductive Row (p : Parser σ) (V : Node → Option Value → Prop) : List Form → List String → Prop where
  | first {u : Form} {ws : List String} {n : Nat} : Whole p V u ws →
    Choice.initial n ∈ p.openings u.word none → Row p V [u.mark n] ws
  | next {o : List Form} {ws ws' : List String} {u : Form} {node : Node} {l : Link} {n : Nat} :
    Row p V o ws → Whole p V u ws' → p.at? o = some node → l ∈ node.links →
      l.word ≠ p.config.dummyWord → u.word = l.word ∨ l.word = p.config.anythingWord →
        p.grammar.target? l = some n → Row p V (u.mark n :: o) (ws ++ ws')
  | skip {o : List Form} {ws : List String} {node : Node} {l : Link} {n : Nat} : Row p V o ws →
    p.at? o = some node → l ∈ node.links → l.word = p.config.dummyWord →
      p.grammar.target? l = some n → Row p V (unit p.config.dummyWord (some n) none [] :: o) ws

/-- A token, or a phrase with all its parts. -/
inductive Whole (p : Parser σ) (V : Node → Option Value → Prop) : Form → List String → Prop where
  | token (word : String) : Whole p V (unit word none none []) [word]
  | phrase {o : List Form} {ws : List String} {node : Node} {type : String} {v : Option Value} :
    Row p V o ws → p.at? o = some node → node.type? = some type → V node v →
      Whole p V (unit type none v o.reverse) ws

end

variable {p : Parser σ} {V : Node → Option Value → Prop}

theorem node_of_at? {o : List Form} {node : Node} (h : p.at? o = some node) :
    ∃ i : Nat, p.grammar.nodes[i]? = some node := by
  obtain ⟨-, -, i, -, hi⟩ := at?_eq_some.1 h
  exact ⟨i, hi⟩

@[simp] theorem at?_cons_mark (u : Form) (n : Nat) (o : List Form) :
    p.at? (u.mark n :: o) = p.grammar.nodes[n]? := by
  simp [at?]

@[simp] theorem at?_cons_unit (w : String) (n : Nat) (v : Option Value) (ps o : List Form) :
    p.at? (unit w (some n) v ps :: o) = p.grammar.nodes[n]? := by
  simp [at?]

/-- The entry for a word has nodes of this word, or of its fallback if the lexicon lacks the word. -/
theorem word_of_mem_entry (hg : p.grammar.Sound) {word : String} {n : Nat}
    (h : n ∈ p.entry word) : ∃ node, p.grammar.nodes[n]? = some node ∧ (node.word = word ∨
      word ≠ p.config.anythingWord ∧ p.grammar.lookup? word = none ∧
        node.word = p.fallback word) := by
  unfold entry at h
  cases hlookup : p.grammar.lookup? word with
  | some ids =>
    rw [hlookup] at h
    have hmem : n ∈ p.grammar.instances word := by rwa [Grammar.instances, hlookup]
    obtain ⟨node, hnode, hword⟩ := hg.listed word n hmem
    exact ⟨node, hnode, .inl hword⟩
  | none =>
    rw [hlookup] at h
    by_cases hany : word = p.config.anythingWord
    · rw [if_pos hany] at h
      cases h
    · rw [if_neg hany] at h
      obtain ⟨node, hnode, hword⟩ := hg.listed _ n h
      exact ⟨node, hnode, .inr ⟨hany, rfl, hword⟩⟩

theorem node_of_mem_openings {word : String} {expected : Option (List String)} {n : Nat}
    (h : Choice.initial n ∈ p.openings word expected) : ∃ node,
      p.grammar.nodes[n]? = some node ∧ node.initial = true ∧
        (n ∈ p.entry word ∨ n ∈ p.entry p.config.anythingWord) := by
  rw [openings, List.mem_append, mem_initials, mem_initials] at h
  obtain ⟨m, hm, node, hnode, hb, hc⟩ | ⟨m, hm, node, hnode, hb, hc⟩ := h <;>
    obtain rfl := Choice.initial.inj hc
  · exact ⟨node, hnode, initial_of_canBegin hb, .inl hm⟩
  · exact ⟨node, hnode, initial_of_canBegin hb, .inr hm⟩

/-- A row always stands at a node of the grammar. -/
theorem Row.at_node {o : List Form} {ws : List String} (h : Row p V o ws)
    (hg : p.grammar.Sound) : ∃ node, p.at? o = some node := by
  cases h with
  | first _ hn =>
    obtain ⟨node, hnode, -⟩ := node_of_mem_openings hn
    exact ⟨node, by rw [at?_cons_mark, hnode]⟩
  | next _ _ hat hl _ _ ht =>
    obtain ⟨i, hi⟩ := node_of_at? hat
    obtain ⟨m, hm, -⟩ := hg.node_of_target hi hl ht
    exact ⟨m, by rw [at?_cons_mark, hm]⟩
  | skip _ hat hl _ ht =>
    obtain ⟨i, hi⟩ := node_of_at? hat
    obtain ⟨m, hm, -⟩ := hg.node_of_target hi hl ht
    exact ⟨m, by rw [at?_cons_unit, hm]⟩

/-- A place whose open phrases are rows and whose other units are whole. -/
structure Fits (p : Parser σ) (V : Node → Option Value → Prop) (x : Place Form) : Prop where
  opened : ∀ o ∈ x.opened, ∃ ws, Row p V o ws
  ahead : ∀ u ∈ x.ahead, ∃ ws, Whole p V u ws

/-- A legal move leads from rows and wholes to rows and wholes. -/
theorem Fits.after {x : Place Form} {c : Choice} {v : Option Value} (h : Fits p V x)
    (hc : Legal p x c)
    (hv : ∀ o os type node, x.opened = o :: os → c = .final type → p.at? o = some node → V node v) :
    Fits p V (x.after p.config.dummyWord v c) := by
  cases hc with
  | @initial os u us n hn =>
    obtain ⟨ws, hu⟩ := h.ahead u (by simp)
    refine ⟨fun o ho => ?_, fun w hw => h.ahead w (List.mem_cons_of_mem u hw)⟩
    obtain rfl | ho := List.mem_cons.1 ho
    · exact ⟨ws, .first hu hn⟩
    · exact h.opened o ho
  | @nonDummy o os u us node l n hat hl hw hm ht =>
    obtain ⟨ws, ho⟩ := h.opened o (by simp)
    obtain ⟨ws', hu⟩ := h.ahead u (by simp)
    refine ⟨fun r hr => ?_, fun w hw => h.ahead w (List.mem_cons_of_mem u hw)⟩
    obtain rfl | hr := List.mem_cons.1 hr
    · exact ⟨_, .next ho hu hat hl hw hm ht⟩
    · exact h.opened r (List.mem_cons_of_mem o hr)
  | @dummy o os us node l n hat hl hw ht =>
    obtain ⟨ws, ho⟩ := h.opened o (by simp)
    refine ⟨fun r hr => ?_, h.ahead⟩
    obtain rfl | hr := List.mem_cons.1 hr
    · exact ⟨_, .skip ho hat hl hw ht⟩
    · exact h.opened r (List.mem_cons_of_mem o hr)
  | @final o os us node type hat htype =>
    obtain ⟨ws, ho⟩ := h.opened o (by simp)
    refine ⟨fun r hr => h.opened r (List.mem_cons_of_mem o hr), fun w hw => ?_⟩
    obtain rfl | hw := List.mem_cons.1 hw
    · exact ⟨_, .phrase ho hat htype (hv o os type node rfl rfl hat)⟩
    · exact h.ahead w hw

end StateDiagram.Parser
