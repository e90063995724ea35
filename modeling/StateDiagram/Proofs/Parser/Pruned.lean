import StateDiagram.Proofs.Grammar.Optimized
import StateDiagram.Proofs.Parser.Replayed

/-! Parses with an optimized grammar, without semantics. What an optimized grammar knows of phrase
types only takes away choices that no way to a complete parse goes through: a phrase that is begun
on such a way serves, alone or as the first part of larger phrases, some link of the node around
it or some goal, and the node that begins it leads to the node that ends the phrase that does. -/
namespace StateDiagram.Parser

open Form

variable {σ : Type} (p : Parser σ)

/-- The parser with the optimized grammar. -/
def optimized : Parser σ :=
  { p with grammar := p.grammar.optimize }

/-- Nothing is known of the phrase types that a node begins or goes on with. -/
def Unlimited : Prop :=
  ∀ (i : Nat) (n : Node), p.grammar.nodes[i]? = some n → n.begins = none ∧ n.types? = none

/-- The word that stands for anything is not used. -/
structure Strict : Prop where
  entry : p.grammar.lookup? p.config.anythingWord = none
  link : ∀ (i : Nat) (n : Node), p.grammar.nodes[i]? = some n → ∀ l ∈ n.links,
    l.word ≠ p.config.anythingWord

variable {p}

theorem mem_openings_iff {w : String} {expected : Option (List String)} {n : Nat} :
    Choice.initial n ∈ p.openings w expected ↔ (n ∈ p.entry w ∨ n ∈ p.entry p.config.anythingWord) ∧
      ∃ node, p.grammar.nodes[n]? = some node ∧ canBegin node expected = true := by
  simp only [openings, List.mem_append, mem_initials, Choice.initial.injEq]
  constructor
  · rintro (⟨m, hm, node, hnode, hb, rfl⟩ | ⟨m, hm, node, hnode, hb, rfl⟩)
    · exact ⟨.inl hm, node, hnode, hb⟩
    · exact ⟨.inr hm, node, hnode, hb⟩
  · rintro ⟨hn | hn, node, hnode, hb⟩
    · exact .inl ⟨n, hn, node, hnode, hb, rfl⟩
    · exact .inr ⟨n, hn, node, hnode, hb, rfl⟩

theorem Strict.entry_eq (h : p.Strict) : p.entry p.config.anythingWord = [] := by
  simp [Parser.entry, h.entry]

theorem Strict.not_mem_entry (h : p.Strict) (n : Nat) : n ∉ p.entry p.config.anythingWord := by
  simp [h.entry_eq]

/-- If the begin sets are not known, every initial node can begin whatever is expected. -/
theorem Unlimited.canBegin (h : p.Unlimited) {i : Nat} {n : Node}
    (hi : p.grammar.nodes[i]? = some n) (expected : Option (List String)) :
    Parser.canBegin n expected = n.initial := by
  simp [Parser.canBegin, (h i n hi).1]

theorem at?_optimized {o : List Form} {node : Node} (h : p.at? o = some node) :
    ∃ i, p.grammar.nodes[i]? = some node ∧
      p.optimized.at? o = some (p.grammar.optimizedNode i node) := by
  obtain ⟨u, hu, i, hi, hnode⟩ := at?_eq_some.1 h
  refine ⟨i, hnode, at?_eq_some.2 ⟨u, hu, i, hi, ?_⟩⟩
  rw [optimized, Grammar.optimize_nodes, hnode]
  rfl

theorem at?_optimized_none {o : List Form} (h : p.at? o = none) : p.optimized.at? o = none := by
  simp only [at?, optimized, Grammar.optimize_nodes] at h ⊢
  cases ho : o.head? with
  | none => rfl
  | some u =>
    cases hm : u.matched with
    | none => simp [hm]
    | some i => simpa [ho, hm] using h

theorem moved_optimized (c : Choice) (x : Place Form) : p.optimized.moved c x = p.moved c x := by
  have hplain : ∀ o, p.optimized.plainValue o = p.plainValue o := by
    intro o
    cases hat : p.at? o with
    | none => simp [plainValue, hat, at?_optimized_none hat]
    | some node =>
      obtain ⟨i, hi, hat'⟩ := at?_optimized hat
      simp [plainValue, hat, hat', (Grammar.optimizedNode_frame p.grammar i node).2.2.2.2.1]
  have hvalue : p.optimized.valueAt x = p.valueAt x := by
    rw [valueAt, valueAt, show p.optimized.plainValue = p.plainValue from funext hplain]
  rw [moved, moved, hvalue]
  rfl

theorem dummyChoice_settle (d : Dummies) (l : Link) :
    p.optimized.dummyChoice d (p.grammar.settle l) = p.dummyChoice d l := by
  simp only [dummyChoice, optimized, Grammar.target_settle]

theorem stepChoice_settle (w : String) (l : Link) :
    p.optimized.stepChoice w (p.grammar.settle l) = p.stepChoice w l := by
  simp only [stepChoice, optimized, Grammar.target_settle]
  rfl

/-- Where a phrase is open, the optimized node is the one that is looked at. -/
theorem at?_of_optimized {o : List Form} {node' : Node} (h : p.optimized.at? o = some node') :
    ∃ i node, p.grammar.nodes[i]? = some node ∧ p.at? o = some node ∧
      p.grammar.optimizedNode i node = node' := by
  cases hat : p.at? o with
  | none =>
    rw [at?_optimized_none hat] at h
    cases h
  | some node =>
    obtain ⟨i, hi, hat'⟩ := at?_optimized hat
    exact ⟨i, node, hi, rfl, Option.some.inj (hat'.symm.trans h)⟩

/-- Choices that begin no phrase are offered as before. -/
theorem offered_optimized {goals : List String} {d : Dummies} {x : Place Form} {c : Choice}
    (hc : ∀ n, c ≠ .initial n) :
    c ∈ p.optimized.offered goals d x ↔ c ∈ p.offered goals d x := by
  obtain ⟨os, us⟩ := x
  cases os with
  | nil =>
    cases us with
    | nil => exact Iff.rfl
    | cons u us => exact iff_of_false (notMem_openings hc) (notMem_openings hc)
  | cons o os =>
    cases hat : p.at? o with
    | none => simp [mem_offered_cons, hat, at?_optimized_none hat]
    | some node =>
      obtain ⟨i, hi, hat'⟩ := at?_optimized hat
      obtain ⟨-, -, -, htype, -, hlinks⟩ := Grammar.optimizedNode_frame p.grammar i node
      simp only [mem_offered_cons, hat, hat', Option.some.injEq, exists_eq_left', htype, hlinks,
        mem_linkChoices, notMem_openings hc, and_false, or_false, List.mem_map,
        exists_exists_and_eq_and, dummyChoice_settle, stepChoice_settle]
      rfl

/-- What optimization knows of the types that a node begins only takes away choices. -/
theorem Unlimited.openings_of_optimized (h : p.Unlimited) {w : String}
    {expected expected' : Option (List String)} {n : Nat}
    (hn : Choice.initial n ∈ p.optimized.openings w expected) :
    Choice.initial n ∈ p.openings w expected' := by
  obtain ⟨hentry, node', hnode', hb⟩ := mem_openings_iff.1 hn
  rw [optimized, Grammar.optimize_nodes, Option.map_eq_some_iff] at hnode'
  obtain ⟨node, hnode, rfl⟩ := hnode'
  have hinitial : node.initial = true := by
    rw [← (Grammar.optimizedNode_frame p.grammar n node).2.2.1]
    exact initial_of_canBegin hb
  exact mem_openings_iff.2 ⟨hentry, node, hnode, by rw [h.canBegin hnode, hinitial]⟩

/-- An optimized grammar offers no phrase that is not offered without what it knows. -/
theorem fresh_of_optimized (h : p.Unlimited) {goals : List String} {path : List Choice}
    {x : Place Form} {c : Choice} (hc : c ∈ p.optimized.fresh goals path x) :
    c ∈ p.fresh goals path x := by
  refine fresh_mono (fun d hd => ?_) hc
  by_cases hinit : ∃ n, c = .initial n
  · obtain ⟨n, rfl⟩ := hinit
    obtain ⟨os, us⟩ := x
    cases os with
    | nil =>
      cases us with
      | nil => exact hd
      | cons u us => exact h.openings_of_optimized hd
    | cons o os =>
      obtain ⟨node', hat', u, us, rfl, ⟨l', hl', hdummy, -⟩, hn⟩ := initial_mem_offered.1 hd
      obtain ⟨i, node, hi, hat, rfl⟩ := at?_of_optimized hat'
      rw [(Grammar.optimizedNode_frame p.grammar i node).2.2.2.2.2] at hl'
      obtain ⟨l, hl, rfl⟩ := List.mem_map.1 hl'
      have htypes : node.types? = none := (h i node hi).2
      exact initial_mem_offered.2 ⟨node, hat, u, us, rfl, ⟨l, hl, hdummy, by rw [htypes]; rfl⟩,
        h.openings_of_optimized hn⟩
  · exact (offered_optimized fun n hn => hinit ⟨n, hn⟩).1 hd

theorem Way.of_optimized (h : p.Unlimited) {goals : List String} {x₀ x : Place Form}
    {path : List Choice} (hway : p.optimized.Way goals x₀ path x) : p.Way goals x₀ path x := by
  induction hway with
  | start => exact .start
  | step _ hc ih =>
    rw [moved_optimized]
    exact .step ih (fresh_of_optimized h hc)

theorem dummy_notMem_offered {goals : List String} {x : Place Form} {n : Nat} :
    Choice.dummy n ∉ p.offered goals .none x := by
  intro h
  obtain ⟨os, us⟩ := x
  obtain ⟨o, os, -, -, rfl, -⟩ := (legal_of_mem_offered h).dummy_inv
  obtain ⟨-, -, -, -, -, -, hadmits⟩ := dummy_mem_offered_cons.1 h
  cases hadmits

theorem isFinal_of_type? {node : Node} {type : String} (h : node.type? = some type) :
    node.isFinal = true := by
  unfold Node.type? at h
  unfold Node.isFinal
  cases hk : node.kind with
  | ends t v => rfl
  | continues links types => simp [hk] at h

variable (p) in
/-- Some choices lead on to a complete parse. -/
inductive Hopeful (goals : List String) : List Choice → Place Form → Prop where
  | done {path : List Choice} {x : Place Form} : x.isDone goals = true → Hopeful goals path x
  | step {path : List Choice} {x : Place Form} {c : Choice} : c ∈ p.fresh goals path x →
    Hopeful goals (c :: path) (p.moved c x) → Hopeful goals path x

/-- Every place on a way to a complete parse is hopeful. -/
theorem Way.hopeful {goals : List String} {x₀ x y : Place Form} {path cs : List Choice}
    (h : p.Way goals x₀ path x) (hy : p.Way goals x₀ (cs ++ path) y)
    (hdone : y.isDone goals = true) : p.Hopeful goals path x := by
  have hback : ∀ cs y, p.Way goals x₀ (cs ++ path) y → p.Hopeful goals (cs ++ path) y →
      p.Hopeful goals path x := by
    intro cs
    induction cs with
    | nil =>
      intro y hy hhope
      rw [h.unique hy]
      exact hhope
    | cons c cs ih =>
      intro y hy hhope
      cases hy with
      | step hz hc => exact ih _ hz (.step hc hhope)
  exact hback cs y hy (.done hdone)

variable (p) in
/-- A phrase of this type can be used where the phrases `os` are open: a link of the node of the
innermost one asks for it, or it is a goal. -/
def Serves (goals : List String) (type : String) : List (List Form) → Prop
  | [] => type ∈ goals
  | o :: _ => ∃ node l, p.at? o = some node ∧ l ∈ node.links ∧ l.word ≠ p.config.dummyWord ∧
      l.word = type

variable (p) in
/-- The row has come to a node that ends no phrase. -/
def Unended (o : List Form) : Prop :=
  ∃ node, p.at? o = some node ∧ node.isFinal = false

variable (p) in
/-- All phrases around the innermost one have been left at nodes that end no phrase, and once a
phrase has been completed this holds of the innermost one too. -/
structure Underway (path : List Choice) (x : Place Form) : Prop where
  around : ∀ o ∈ x.opened.tail, p.Unended o
  innermost : ∀ type path', path = .final type :: path' → ∀ o ∈ x.opened, p.Unended o

theorem Underway.step {goals : List String} {path : List Choice} {x : Place Form} {c : Choice}
    (h : p.Underway path x) (hc : c ∈ p.fresh goals path x) :
    p.Underway (c :: path) (p.moved c x) := by
  have hlegal := legal_of_mem_fresh hc
  cases hlegal with
  | @initial os u us n hn =>
    refine ⟨fun o ho => ?_, fun type path' heq => by cases heq⟩
    cases os with
    | nil => cases ho
    | cons o' os =>
      obtain rfl | ho := List.mem_cons.1 ho
      · obtain ⟨d, hd⟩ := offered_of_mem_fresh hc
        obtain ⟨node, hat, -, -, -, ⟨l, hl, -⟩, -⟩ := initial_mem_offered.1 hd
        exact ⟨node, hat, isFinal_of_mem_links hl⟩
      · exact h.around o ho
  | nonDummy hat hl hd hm ht => exact ⟨h.around, fun type path' heq => by cases heq⟩
  | dummy hat hl hd ht => exact ⟨h.around, fun type path' heq => by cases heq⟩
  | final hat htype =>
    exact ⟨fun o ho => h.around o (List.mem_of_mem_tail ho), fun _ _ _ o ho => h.around o ho⟩

theorem Way.underway {goals : List String} {x₀ x : Place Form} {path : List Choice}
    (h : p.Way goals x₀ path x) (h₀ : x₀.opened = []) : p.Underway path x := by
  induction h with
  | start => exact ⟨by simp [h₀], fun type path' heq => by cases heq⟩
  | step _ hc ih => exact ih.step hc

variable (p) in
/-- The node of the row leads to the end of a phrase that can be used around the row. -/
def Aims (goals : List String) (r : List Form) (os : List (List Form)) : Prop :=
  ∃ u i type, r.head? = some u ∧ u.matched = some i ∧ Digraph.LeadsTo p.grammar i type ∧
    p.Serves goals type os

theorem Aims.back {goals : List String} {o : List Form} {os : List (List Form)} {node : Node}
    {u : Form} {n : Nat} (h : p.Aims goals (u :: o) os) (hu : u.matched = some n)
    (hat : p.at? o = some node) {l : Link} (hl : l ∈ node.links)
    (ht : p.grammar.target? l = some n) : p.Aims goals o os := by
  obtain ⟨v, hv, i, hi, hnode⟩ := at?_eq_some.1 hat
  obtain ⟨w, j, type, hw, hj, hleads, hserves⟩ := h
  obtain rfl : u = w := Option.some.inj hw
  obtain rfl : n = j := Option.some.inj (hu.symm.trans hj)
  exact ⟨v, i, type, hv, hi, hleads.of_edge (Digraph.mem_edges_of_link hnode hl ht), hserves⟩

variable (p) in
/-- Every open phrase is there for a use around it. -/
def AllAim (goals : List String) : List (List Form) → Prop
  | [] => True
  | r :: os => p.Aims goals r os ∧ AllAim goals os

variable (p) in
/-- A phrase of this type serves where the phrases `os` are open, or a node begins with it that leads
to the end of a phrase that does. -/
def Helps (goals : List String) (type : String) (os : List (List Form)) : Prop :=
  p.Serves goals type os ∨ ∃ i node type', i ∈ p.grammar.instances type ∧
    p.grammar.nodes[i]? = some node ∧ node.initial = true ∧ Digraph.LeadsTo p.grammar i type' ∧
      p.Serves goals type' os

variable (p) in
/-- The open phrases are there for a use around them, and so is a phrase that has just been
completed, perhaps as the first part of a larger one. -/
structure Aimed (goals : List String) (path : List Choice) (x : Place Form) : Prop where
  opened : p.AllAim goals x.opened
  completed : ∀ type path' u us, path = .final type :: path' → x.ahead = u :: us → u.word = type →
    type ∈ p.grammar.phraseTypes → p.Helps goals type x.opened

namespace Aimed

variable {goals : List String} {path : List Choice} {o : List Form} {os : List (List Form)}
  {u : Form} {us : List Form} {node : Node} {l : Link} {n : Nat}

/-- What holds after a phrase has been begun holds before. -/
theorem of_initial (hstrict : p.Strict)
    (htyped : ∀ type ∈ p.grammar.phraseTypes, (p.grammar.lookup? type).isSome = true)
    (h : p.Aimed goals (.initial n :: path) ⟨[u.mark n] :: os, us⟩)
    (hn : Choice.initial n ∈ p.openings u.word none) : p.Aimed goals path ⟨os, u :: us⟩ := by
  obtain ⟨⟨w, i, type', hw, hi, hleads, hserves⟩, hos⟩ := h.opened
  refine ⟨hos, fun type path' v vs _ hv hword htype => ?_⟩
  obtain ⟨rfl, -⟩ := List.cons.inj hv
  obtain rfl : u.mark n = w := Option.some.inj hw
  obtain rfl : n = i := by simpa using hi
  obtain ⟨hentry, node, hnode, hb⟩ := mem_openings_iff.1 hn
  have hlisted := hentry.resolve_right (hstrict.not_mem_entry n)
  obtain ⟨ids, hids⟩ := Option.isSome_iff_exists.1 (htyped type htype)
  have hinst : n ∈ p.grammar.instances type := by
    rw [Grammar.instances]
    rw [hword, entry, hids] at hlisted
    rwa [hids]
  exact .inr ⟨n, node, type', hinst, hnode, initial_of_canBegin hb, hleads, hserves⟩

theorem of_nonDummy (hstrict : p.Strict)
    (h : p.Aimed goals (.nonDummy n :: path) ⟨(u.mark n :: o) :: os, us⟩)
    (hat : p.at? o = some node) (hl : l ∈ node.links) (hd : l.word ≠ p.config.dummyWord)
    (hm : u.word = l.word ∨ l.word = p.config.anythingWord) (ht : p.grammar.target? l = some n) :
    p.Aimed goals path ⟨o :: os, u :: us⟩ := by
  refine ⟨⟨h.opened.1.back (matched_mark n u) hat hl ht, h.opened.2⟩, ?_⟩
  intro type path' w ws _ hw hword _
  obtain ⟨rfl, -⟩ := List.cons.inj hw
  obtain ⟨i, hi⟩ := node_of_at? hat
  exact .inl ⟨node, l, hat, hl, hd,
    (hm.resolve_right (hstrict.link i node hi l hl)).symm.trans hword⟩

theorem of_dummy
    (h : p.Aimed goals (.dummy n :: path) ⟨(.unit p.config.dummyWord (some n) none [] :: o) :: os, us⟩)
    (hat : p.at? o = some node) (hl : l ∈ node.links) (ht : p.grammar.target? l = some n)
    (hc : Choice.dummy n ∈ p.fresh goals path ⟨o :: os, us⟩) : p.Aimed goals path ⟨o :: os, us⟩ := by
  refine ⟨⟨h.opened.1.back rfl hat hl ht, h.opened.2⟩, ?_⟩
  rintro type path' w ws rfl
  have hnone : Choice.dummy n ∈ p.offered goals .none ⟨o :: os, us⟩ := hc
  exact absurd hnone dummy_notMem_offered

/-- What the completed phrase is there for, its node leads to. -/
theorem of_final {type : String} {v : Option Value}
    (h : p.Aimed goals (.final type :: path) ⟨os, .unit type none v o.reverse :: us⟩)
    (hunder : p.Underway path ⟨o :: os, us⟩) (hat : p.at? o = some node)
    (htype : node.type? = some type) : p.Aimed goals path ⟨o :: os, us⟩ := by
  obtain ⟨w, hw, i, hi, hnode⟩ := at?_eq_some.1 hat
  have hphrase : type ∈ p.grammar.phraseTypes := Grammar.mem_phraseTypes.2 ⟨i, node, hnode, htype⟩
  refine ⟨⟨?_, h.opened⟩, fun type' path' _ _ heq => ?_⟩
  · obtain hserves | ⟨j, m, type', hj, hm, hinitial, hleads, hserves⟩ :=
      h.completed type path _ us rfl rfl rfl hphrase
    · exact ⟨w, i, type, hw, hi, ⟨i, node, .refl, hnode, htype⟩, hserves⟩
    · exact ⟨w, i, type', hw, hi,
        hleads.of_edge (Digraph.mem_edges_of_phrase hnode htype hj hm hinitial), hserves⟩
  · obtain ⟨node', hat', hnot⟩ := hunder.innermost type' path' heq o (List.mem_cons_self ..)
    obtain rfl := Option.some.inj (hat.symm.trans hat')
    rw [isFinal_of_type? htype] at hnot
    cases hnot

end Aimed

/-- On the way to a complete parse every open phrase is there for a use around it, and so is a
phrase that has just been completed. -/
theorem Hopeful.aims (hstrict : p.Strict)
    (htyped : ∀ type ∈ p.grammar.phraseTypes, (p.grammar.lookup? type).isSome = true)
    {goals : List String} {path : List Choice} {x : Place Form} (h : p.Hopeful goals path x)
    (hunder : p.Underway path x) : p.Aimed goals path x := by
  induction h with
  | @done path x hdone =>
    obtain ⟨os, us⟩ := x
    obtain ⟨rfl, u, rfl, hgoal⟩ := Place.isDone_iff.1 hdone
    refine ⟨trivial, fun type path' v us _ hv hword _ => .inl ?_⟩
    obtain ⟨rfl, -⟩ := List.cons.inj hv
    exact hword ▸ hgoal
  | @step path x c hc _ ih =>
    have haimed := ih (hunder.step hc)
    cases legal_of_mem_fresh hc with
    | initial hn => exact haimed.of_initial hstrict htyped hn
    | nonDummy hat hl hd hm ht => exact haimed.of_nonDummy hstrict hat hl hd hm ht
    | dummy hat hl _ ht => exact haimed.of_dummy hat hl ht hc
    | final hat htype => exact haimed.of_final hunder hat htype

/-- A node that leads to a type is among those that begin it in the optimized grammar. -/
theorem initial_mem_optimized (hg : p.grammar.Sound) {n : Nat} {type w : String}
    {types : List String} {expected : Option (List String)}
    (hleads : Digraph.LeadsTo p.grammar n type) (htypes : type ∈ types)
    (hn : Choice.initial n ∈ p.openings w expected) :
    Choice.initial n ∈ p.optimized.openings w (some types) := by
  obtain ⟨hentry, node, hnode, hb⟩ := mem_openings_iff.1 hn
  have hinitial : node.initial = true := initial_of_canBegin hb
  refine mem_openings_iff.2 ⟨hentry, p.grammar.optimizedNode n node, ?_, ?_⟩
  · simp [optimized, Grammar.optimize_nodes, hnode]
  · have hmem := (Digraph.leadsTo_iff hg).1 hleads
    simp only [Parser.canBegin, Grammar.begins_optimizedNode p.grammar n hinitial,
      (Grammar.optimizedNode_frame p.grammar n node).2.2.1, hinitial, Bool.true_and,
      List.any_eq_true, List.contains_iff_mem, Text.mem_sortedSet]
    exact ⟨type, htypes, hmem⟩

/-- On the way to a complete parse an optimized grammar offers every choice that is taken. -/
theorem fresh_optimized (hg : p.grammar.Sound) (hstrict : p.Strict)
    (htyped : ∀ type ∈ p.grammar.phraseTypes, (p.grammar.lookup? type).isSome = true)
    {goals : List String} {path : List Choice} {x : Place Form} {c : Choice}
    (hc : c ∈ p.fresh goals path x) (hunder : p.Underway path x)
    (hope : p.Hopeful goals (c :: path) (p.moved c x)) : c ∈ p.optimized.fresh goals path x := by
  refine fresh_mono (fun d hd => ?_) hc
  by_cases hinit : ∃ n, c = .initial n
  · obtain ⟨n, rfl⟩ := hinit
    obtain ⟨u, us, hahead, hn⟩ := (legal_of_mem_offered hd).initial_inv
    obtain ⟨os, us'⟩ := x
    obtain rfl : us' = u :: us := hahead
    obtain ⟨w, i, type, hw, hi, hleads, hserves⟩ :=
      (hope.aims hstrict htyped (hunder.step hc)).opened.1
    obtain rfl : u.mark n = w := Option.some.inj hw
    obtain rfl : n = i := by simpa using hi
    cases os with
    | nil => exact initial_mem_optimized hg hleads hserves hn
    | cons o os =>
      obtain ⟨node, l, hat, hl, hdummy, rfl⟩ := hserves
      obtain ⟨i, hi, hat'⟩ := at?_optimized hat
      obtain ⟨j, m, -, hm, htype⟩ := id hleads
      obtain ⟨types, htypes, hmem⟩ := Grammar.types_of_links p.grammar i hl
      have hword : l.word ∈ types := hmem (Grammar.mem_phraseTypes.2 ⟨j, m, hm, htype⟩)
      refine initial_mem_offered.2 ⟨_, hat', u, us, rfl, ⟨p.grammar.settle l, ?_, hdummy, ?_⟩, ?_⟩
      · rw [(Grammar.optimizedNode_frame p.grammar i node).2.2.2.2.2]
        exact List.mem_map_of_mem hl
      · rw [htypes]
        exact List.contains_iff_mem.2 hword
      · rw [htypes]
        exact initial_mem_optimized hg hleads hword hn
  · exact (offered_optimized fun n hn => hinit ⟨n, hn⟩).2 hd

theorem Way.optimized (hg : p.grammar.Sound) (hstrict : p.Strict)
    (htyped : ∀ type ∈ p.grammar.phraseTypes, (p.grammar.lookup? type).isSome = true)
    {goals : List String} {x₀ x y : Place Form} (h₀ : x₀.opened = []) {cs path : List Choice}
    (h : p.Way goals x₀ path x) (hy : p.Way goals x₀ (cs ++ path) y)
    (hdone : y.isDone goals = true) : p.optimized.Way goals x₀ path x := by
  induction h generalizing cs with
  | start => exact .start
  | @step path x c hway hc ih =>
    have hope := (Way.step hway hc).hopeful hy hdone
    rw [← moved_optimized]
    have hy' : p.Way goals x₀ ((cs ++ [c]) ++ path) y := by simpa using hy
    refine .step (ih hy') ?_
    exact fresh_optimized hg hstrict htyped hc (hway.underway h₀) hope

/-- To replay choices with a grammar and with the same grammar optimized comes to the same: both
succeed, with the same phrase structure, or both fail. Nothing may be known of phrase types
beforehand, and the word that stands for anything may not be used. -/
theorem replay_optimized {g : Grammar} (hg : g.Built) (hm : g.marked = true) (config : Config)
    (hsets : ∀ n ∈ g.nodes.toList, n.begins = none ∧ n.types? = none)
    (hentry : g.lookup? config.anythingWord = none)
    (hlink : ∀ n ∈ g.nodes.toList, ∀ l ∈ n.links, l.word ≠ config.anythingWord)
    (htyped : ∀ type ∈ g.phraseTypes, (g.lookup? type).isSome = true)
    (input : String) (goals : List String) (cs : List Choice) (s s' : Session σ) :
    ∃ p p' b s₁ s₂, make g config none = .ok p ∧ make g.optimize config none = .ok p' ∧
      p.replay input goals cs s = .ok (b, s₁) ∧ p'.replay input goals cs s' = .ok (b, s₂) ∧
        (b = true → ∃ u, s₁.Finished u ∧ s₂.Finished u) := by
  let p : Parser σ := ⟨g, config, none⟩
  have hmem : ∀ {i : Nat} {n : Node}, p.grammar.nodes[i]? = some n → n ∈ g.nodes.toList :=
    fun hi => List.mem_of_getElem? (by simpa using hi)
  have hsound : p.grammar.Sound := hg.sound
  have hsound' : p.optimized.grammar.Sound := (Grammar.Built.computeTypes (.expandBegins hg)).sound
  have hunlimited : p.Unlimited := fun i n hi => hsets n (hmem hi)
  have hstrict : p.Strict := ⟨hentry, fun i n hi => hlink n (hmem hi)⟩
  let x₀ := Place.ofTokens (config.segmenter.segment input)
  obtain ⟨b, s₁, hrun, htrue, hconv⟩ := replay_way hsound (p := p) rfl input goals cs s
  obtain ⟨b', s₂, hrun', htrue', hconv'⟩ :=
    replay_way hsound' (p := p.optimized) rfl input goals cs s'
  have hforth : b = true → b' = true ∧ ∃ u, s₁.Finished u ∧ s₂.Finished u := by
    intro hb
    obtain ⟨u, hway, hgoal, hu⟩ := htrue hb
    have hdone : Place.isDone goals ⟨[], [u]⟩ = true := Place.isDone_iff.2 ⟨rfl, u, rfl, hgoal⟩
    have hway' : p.optimized.Way goals x₀ cs.reverse ⟨[], [u]⟩ :=
      hway.optimized hsound hstrict htyped rfl (show p.Way goals x₀ ([] ++ _) _ from hway) hdone
    have hb' := hconv' _ hway' hdone
    obtain ⟨v, hwayv, -, hv⟩ := htrue' hb'
    obtain rfl : u = v := by simpa using hway'.unique hwayv
    exact ⟨hb', u, hu, hv⟩
  have hback : b' = true → b = true := by
    intro hb'
    obtain ⟨u, hway, hgoal, -⟩ := htrue' hb'
    exact hconv _ (hway.of_optimized hunlimited) (Place.isDone_iff.2 ⟨rfl, u, rfl, hgoal⟩)
  have heq : b = b' := Bool.eq_iff_iff.2 ⟨fun hb => (hforth hb).1, hback⟩
  exact ⟨p, p.optimized, b, s₁, s₂, if_pos hm, if_pos hm, hrun, heq ▸ hrun', fun hb =>
    (hforth hb).2⟩

/-- Two noun phrases around a verb. The first one is begun as the beginning of a sentence, and the
second one as the noun phrase that the verb asks for; the second node of "the" begins neither. -/
theorem replay_optimized_one :
    let g := (Grammar.ofNodes [
      { word := "the", id := "1", initial := true,
        kind := .continues [{ word := "dog", id := "1" }] none },
      { word := "the", id := "2", initial := true, kind := .ends "Q" none },
      { word := "dog", id := "1", kind := .ends "NP" none },
      { word := "NP", id := "1", initial := true,
        kind := .continues [{ word := "sees", id := "1" }] none },
      { word := "sees", id := "1", kind := .continues [{ word := "NP", id := "2" }] none },
      { word := "NP", id := "2", kind := .ends "S" none }] ["Q", "S"]).mark
    let config : Config := {}
    let cs : List Choice := [.initial 0, .nonDummy 2, .final "NP", .initial 3, .nonDummy 4,
      .initial 0, .nonDummy 2, .final "NP", .nonDummy 5, .final "S"]
    g.marked = true ∧ (∀ n ∈ g.nodes.toList, n.begins = none ∧ n.types? = none) ∧
      g.lookup? config.anythingWord = none ∧
      (∀ n ∈ g.nodes.toList, ∀ l ∈ n.links, l.word ≠ config.anythingWord) ∧
      (∀ type ∈ g.phraseTypes, (g.lookup? type).isSome = true) ∧
      ∃ p p' s₁ s₂ u, make g config (none : Option (Semantics Unit)) = .ok p ∧
        make g.optimize config none = .ok p' ∧
        p.replay "the dog sees the dog" ["S"] cs (.empty ()) = .ok (true, s₁) ∧
        p'.replay "the dog sees the dog" ["S"] cs (.empty ()) = .ok (true, s₂) ∧
        s₁.Finished u ∧ s₂.Finished u := by
  intro g config cs
  have hg : g.Built := .mark (Grammar.built_ofNodes (by simp [Node.Fresh, Node.links]) _)
  have hsets : ∀ n ∈ g.nodes.toList, n.begins = none ∧ n.types? = none := by decide +kernel
  have hentry : g.lookup? config.anythingWord = none := by decide +kernel
  have hlink : ∀ n ∈ g.nodes.toList, ∀ l ∈ n.links, l.word ≠ config.anythingWord := by
    decide +kernel
  have htyped : ∀ type ∈ g.phraseTypes, (g.lookup? type).isSome = true := by decide +kernel
  obtain ⟨p, p', b, s₁, s₂, hp, hp', hrun, hrun', hfinished⟩ :=
    replay_optimized hg rfl config hsets hentry hlink htyped "the dog sees the dog" ["S"] cs
      (.empty ()) (.empty ())
  let q : Parser Unit := ⟨g, config, none⟩
  obtain rfl : q = p := Except.ok.inj hp
  obtain rfl : q.optimized = p' := Except.ok.inj hp'
  have hcomputed : (q.replay "the dog sees the dog" ["S"] cs (.empty ())).map Prod.fst =
      .ok true := by
    decide +kernel
  obtain rfl : b = true := by
    rw [hrun] at hcomputed
    exact Except.ok.inj hcomputed
  obtain ⟨u, hu, hu'⟩ := hfinished rfl
  exact ⟨rfl, hsets, hentry, hlink, htyped, q, q.optimized, s₁, s₂, u, rfl, rfl, hrun, hrun', hu,
    hu'⟩

end StateDiagram.Parser
