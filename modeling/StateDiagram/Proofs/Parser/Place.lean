import StateDiagram.Parser.Drive
import StateDiagram.Proofs.Phrase.Forms

/-! Where a parse has come to, seen apart from the arena: the phrases that are open, with the units
that they have so far, and the units that are still to come. A move changes only this; the choices
are read off from it. -/
namespace StateDiagram

/-- The open phrases, the innermost first, each with its units, the latest first; and the units
that are still to come. -/
structure Place (α : Type) where
  opened : List (List α)
  ahead : List α

namespace Place

variable {α : Type}

/-- The units up to the current one, from left to right. -/
def spine (x : Place α) : List α :=
  x.opened.flatten.reverse

/-- The place without the slots of its units. -/
def view (x : Place Tree) : Place Form :=
  ⟨x.opened.map (·.map Tree.form), x.ahead.map Tree.bare⟩

/-- The place that a choice leads to. `value` is the value of the phrase that a final move
completes. -/
def after (dummy : String) (value : Option Value) : Choice → Place Form → Place Form
  | .initial n, ⟨os, u :: us⟩ => ⟨[u.mark n] :: os, us⟩
  | .nonDummy n, ⟨o :: os, u :: us⟩ => ⟨(u.mark n :: o) :: os, us⟩
  | .dummy n, ⟨o :: os, us⟩ => ⟨(.unit dummy (some n) none [] :: o) :: os, us⟩
  | .final type, ⟨o :: os, us⟩ => ⟨os, .unit type none value o.reverse :: us⟩
  | _, x => x

theorem opened_of_view {x : Place Tree} {o : List Form} {os : List (List Form)}
    (h : x.view.opened = o :: os) : ∃ o' os', x.opened = o' :: os' ∧ o'.map Tree.form = o ∧
      os'.map (·.map Tree.form) = os := by
  obtain ⟨o', os', hx, ho, hos⟩ := List.map_eq_cons_iff.1 h
  exact ⟨o', os', hx, ho, hos⟩

theorem ahead_of_view {x : Place Tree} {u : Form} {us : List Form} (h : x.view.ahead = u :: us) :
    ∃ t ts, x.ahead = t :: ts ∧ t.bare = u ∧ ts.map Tree.bare = us := by
  obtain ⟨t, ts, hx, ht, hts⟩ := List.map_eq_cons_iff.1 h
  exact ⟨t, ts, hx, ht, hts⟩

end Place

namespace Parser

variable {σ : Type} (p : Parser σ)

/-- The grammar node that an open phrase has come to. -/
def at? (o : List Form) : Option Node :=
  o.head?.bind fun u => u.matched.bind fun n => p.grammar.nodes[n]?

/-- The choices at a place, in the order in which they are tried. -/
def offered (goals : List String) (dummies : Dummies) (x : Place Form) : List Choice :=
  match x.opened with
  | [] =>
    match x.ahead with
    | u :: _ => p.openings u.word (some goals)
    | [] => []
  | o :: _ =>
    match p.at? o with
    | some node =>
      match node.kind with
      | .ends type _ => [.final type]
      | .continues links types =>
        p.linkChoices types (x.ahead.head?.map Form.word) dummies false links
    | none => []

/-- The choices that the grammar allows at a place, whatever types are expected. -/
inductive Legal : Place Form → Choice → Prop where
  | initial {os : List (List Form)} {u : Form} {us : List Form} {n : Nat} :
    Choice.initial n ∈ p.openings u.word none → Legal ⟨os, u :: us⟩ (.initial n)
  | nonDummy {o : List Form} {os : List (List Form)} {u : Form} {us : List Form} {node : Node}
    {l : Link} {n : Nat} : p.at? o = some node → l ∈ node.links → l.word ≠ p.config.dummyWord →
      u.word = l.word ∨ l.word = p.config.anythingWord → p.grammar.target? l = some n →
        Legal ⟨o :: os, u :: us⟩ (.nonDummy n)
  | dummy {o : List Form} {os : List (List Form)} {us : List Form} {node : Node} {l : Link}
    {n : Nat} : p.at? o = some node → l ∈ node.links → l.word = p.config.dummyWord →
      p.grammar.target? l = some n → Legal ⟨o :: os, us⟩ (.dummy n)
  | final {o : List Form} {os : List (List Form)} {us : List Form} {node : Node} {type : String} :
    p.at? o = some node → node.type? = some type → Legal ⟨o :: os, us⟩ (.final type)

variable {p}

theorem Legal.initial_inv {x : Place Form} {n : Nat} (h : Legal p x (.initial n)) :
    ∃ u us, x.ahead = u :: us ∧ Choice.initial n ∈ p.openings u.word none := by
  cases h with
  | initial hn => exact ⟨_, _, rfl, hn⟩

theorem Legal.nonDummy_inv {x : Place Form} {n : Nat} (h : Legal p x (.nonDummy n)) :
    ∃ o os u us node l, x.opened = o :: os ∧ x.ahead = u :: us ∧ p.at? o = some node ∧
      l ∈ node.links ∧ l.word ≠ p.config.dummyWord ∧
      (u.word = l.word ∨ l.word = p.config.anythingWord) ∧ p.grammar.target? l = some n := by
  cases h with
  | nonDummy hat hl hd hm ht => exact ⟨_, _, _, _, _, _, rfl, rfl, hat, hl, hd, hm, ht⟩

theorem Legal.dummy_inv {x : Place Form} {n : Nat} (h : Legal p x (.dummy n)) :
    ∃ o os node l, x.opened = o :: os ∧ p.at? o = some node ∧ l ∈ node.links ∧
      l.word = p.config.dummyWord ∧ p.grammar.target? l = some n := by
  cases h with
  | dummy hat hl hd ht => exact ⟨_, _, _, _, rfl, hat, hl, hd, ht⟩

theorem Legal.final_inv {x : Place Form} {type : String} (h : Legal p x (.final type)) :
    ∃ o os node, x.opened = o :: os ∧ p.at? o = some node ∧ node.type? = some type := by
  cases h with
  | final hat htype => exact ⟨_, _, _, rfl, hat, htype⟩

/-- Only the end of a phrase puts a unit before those to come. -/
theorem Legal.final_of_cons {x : Place Form} {c : Choice} {u : Form} {v : Option Value}
    {dummy : String} (h : Legal p x c) (hahead : (x.after dummy v c).ahead = u :: x.ahead) :
    ∃ type, c = .final type := by
  have hlen := congrArg List.length hahead
  cases h with
  | final => exact ⟨_, rfl⟩
  | initial =>
    simp only [Place.after, List.length_cons] at hlen
    omega
  | nonDummy =>
    simp only [Place.after, List.length_cons] at hlen
    omega
  | dummy => simp [Place.after] at hlen

/-- The node of an open phrase is the one that its latest unit is matched to. -/
theorem at?_eq_some {o : List Form} {node : Node} : p.at? o = some node ↔
    ∃ u, o.head? = some u ∧ ∃ i, u.matched = some i ∧ p.grammar.nodes[i]? = some node := by
  simp only [at?, Option.bind_eq_some_iff]

theorem nodeOf_eq {n : Nat} {node : Node} (h : p.nodeOf n = .ok node) :
    p.grammar.nodes[n]? = some node := by
  unfold nodeOf at h
  cases hn : p.grammar.nodes[n]? with
  | none => simp [hn] at h
  | some m => simpa [hn] using h

theorem mem_initials {word : String} {expected : Option (List String)} {c : Choice} :
    c ∈ p.initials word expected ↔ ∃ n ∈ p.entry word, ∃ node, p.grammar.nodes[n]? = some node ∧
      canBegin node expected = true ∧ c = .initial n := by
  simp only [initials, List.mem_map, List.mem_filter, Option.any_eq_true]
  constructor
  · rintro ⟨n, ⟨hn, node, hnode, hb⟩, rfl⟩
    exact ⟨n, hn, node, hnode, hb, rfl⟩
  · rintro ⟨n, hn, node, hnode, hb, rfl⟩
    exact ⟨n, ⟨hn, node, hnode, hb⟩, rfl⟩

theorem initial_of_canBegin {node : Node} {expected : Option (List String)}
    (h : canBegin node expected = true) : node.initial = true := by
  unfold canBegin at h
  rw [Bool.and_eq_true] at h
  exact h.1

theorem canBegin_none_of_canBegin {node : Node} {expected : Option (List String)}
    (h : canBegin node expected = true) : canBegin node none = true := by
  unfold canBegin
  cases node.begins <;> simp [initial_of_canBegin h]

theorem openings_none_of_mem {word : String} {expected : Option (List String)} {c : Choice}
    (h : c ∈ p.openings word expected) : c ∈ p.openings word none := by
  rw [openings, List.mem_append, mem_initials, mem_initials] at h ⊢
  obtain ⟨n, hn, node, hnode, hb, hc⟩ | ⟨n, hn, node, hnode, hb, hc⟩ := h
  · exact .inl ⟨n, hn, node, hnode, canBegin_none_of_canBegin hb, hc⟩
  · exact .inr ⟨n, hn, node, hnode, canBegin_none_of_canBegin hb, hc⟩

theorem mem_openings {word : String} {expected : Option (List String)} {c : Choice}
    (h : c ∈ p.openings word expected) : ∃ n, c = .initial n := by
  rw [openings, List.mem_append, mem_initials, mem_initials] at h
  obtain ⟨n, -, -, -, -, hc⟩ | ⟨n, -, -, -, -, hc⟩ := h <;> exact ⟨n, hc⟩

theorem notMem_openings {word : String} {expected : Option (List String)} {c : Choice}
    (h : ∀ n, c ≠ .initial n) : c ∉ p.openings word expected := fun hc =>
  have ⟨n, hn⟩ := mem_openings hc
  h n hn

theorem mem_dummyChoice {dummies : Dummies} {l : Link} {c : Choice} :
    c ∈ p.dummyChoice dummies l ↔
      ∃ n, p.grammar.target? l = some n ∧ dummies.admits n = true ∧ c = .dummy n := by
  unfold dummyChoice
  cases ht : p.grammar.target? l with
  | none => simp
  | some n => by_cases ha : dummies.admits n = true <;> simp [ha]

theorem mem_stepChoice {word : String} {l : Link} {c : Choice} :
    c ∈ p.stepChoice word l ↔ (word = l.word ∨ l.word = p.config.anythingWord) ∧
      ∃ n, p.grammar.target? l = some n ∧ c = .nonDummy n := by
  unfold stepChoice
  by_cases hw : word = l.word ∨ l.word = p.config.anythingWord
  · rw [if_pos hw]
    cases ht : p.grammar.target? l <;> simp [hw]
  · rw [if_neg hw]
    simp [hw]

/-- What links offer: dummy moves, moves to the next unit, and once for all of them the phrases
that can begin there. -/
theorem mem_linkChoices {types : Option (List String)} {next : Option String} {dummies : Dummies}
    {opened : Bool} {ls : List Link} {c : Choice} :
    c ∈ p.linkChoices types next dummies opened ls ↔
      (∃ l ∈ ls, l.word = p.config.dummyWord ∧ c ∈ p.dummyChoice dummies l) ∨
      ∃ word, next = some word ∧
        ((∃ l ∈ ls, l.word ≠ p.config.dummyWord ∧ c ∈ p.stepChoice word l) ∨
          opened = false ∧ (∃ l ∈ ls, l.word ≠ p.config.dummyWord ∧ opens types l = true) ∧
            c ∈ p.openings word types) := by
  induction ls generalizing opened with
  | nil => simp [linkChoices]
  | cons l ls ih =>
    unfold linkChoices
    by_cases hd : l.word = p.config.dummyWord
    · rw [if_pos hd, List.mem_append, ih]
      simp [hd, or_assoc]
    · rw [if_neg hd]
      cases next with
      | none =>
        rw [ih]
        simp [hd]
      | some word =>
        cases opened with
        | true =>
          simp only [Bool.not_true, Bool.false_and, Bool.false_eq_true, if_false, List.mem_append,
            ih]
          simp [hd, or_left_comm]
        | false =>
          by_cases ho : opens types l = true
          · simp only [ho, Bool.not_false, Bool.and_self, if_true, List.mem_append, ih]
            simp [hd, ho, or_left_comm, or_comm, or_assoc]
          · simp only [ho, Bool.and_false, Bool.false_eq_true, if_false, List.mem_append, ih]
            simp only [List.mem_cons, exists_eq_or_imp, hd, ho, ne_eq, not_false_eq_true, false_and,
              true_and, false_or, or_assoc, or_left_comm, Bool.false_eq_true, Option.some.injEq,
              exists_eq_left']

section Offered

variable {goals : List String} {dummies : Dummies} {o : List Form} {os : List (List Form)}
  {us : List Form}

/-- What is offered where a phrase is open: its end, or else what the links of its node offer. -/
theorem mem_offered_cons {c : Choice} : c ∈ p.offered goals dummies ⟨o :: os, us⟩ ↔
    ∃ node, p.at? o = some node ∧ ((∃ type, node.type? = some type ∧ c = .final type) ∨
      c ∈ p.linkChoices node.types? (us.head?.map Form.word) dummies false node.links) := by
  cases hat : p.at? o with
  | none => simp [offered, hat]
  | some node =>
    cases hk : node.kind with
    | ends type value =>
      simp [offered, hat, hk, Node.type?, Node.types?, Node.links, linkChoices]
    | continues links types => simp [offered, hat, hk, Node.type?, Node.types?, Node.links]

theorem final_mem_offered {type : String} : .final type ∈ p.offered goals dummies ⟨o :: os, us⟩ ↔
    ∃ node, p.at? o = some node ∧ node.type? = some type := by
  simp [mem_offered_cons, mem_linkChoices, mem_dummyChoice, mem_stepChoice, notMem_openings]

theorem dummy_mem_offered_cons {n : Nat} : .dummy n ∈ p.offered goals dummies ⟨o :: os, us⟩ ↔
    ∃ node, p.at? o = some node ∧ ∃ l ∈ node.links, l.word = p.config.dummyWord ∧
      p.grammar.target? l = some n ∧ dummies.admits n = true := by
  simp [mem_offered_cons, mem_linkChoices, mem_dummyChoice, mem_stepChoice, notMem_openings]

theorem nonDummy_mem_offered {n : Nat} : .nonDummy n ∈ p.offered goals dummies ⟨o :: os, us⟩ ↔
    ∃ node, p.at? o = some node ∧ ∃ u us', us = u :: us' ∧
      ∃ l ∈ node.links, l.word ≠ p.config.dummyWord ∧
        (u.word = l.word ∨ l.word = p.config.anythingWord) ∧ p.grammar.target? l = some n := by
  cases us <;> simp [mem_offered_cons, mem_linkChoices, mem_dummyChoice, mem_stepChoice,
    notMem_openings]

theorem initial_mem_offered {n : Nat} : .initial n ∈ p.offered goals dummies ⟨o :: os, us⟩ ↔
    ∃ node, p.at? o = some node ∧ ∃ u us', us = u :: us' ∧
      (∃ l ∈ node.links, l.word ≠ p.config.dummyWord ∧ opens node.types? l = true) ∧
        .initial n ∈ p.openings u.word node.types? := by
  cases us <;> simp [mem_offered_cons, mem_linkChoices, mem_dummyChoice, mem_stepChoice]

theorem legal_of_mem_offered {x : Place Form} {c : Choice} (h : c ∈ p.offered goals dummies x) :
    Legal p x c := by
  obtain ⟨os, us⟩ := x
  cases os with
  | nil =>
    cases us with
    | nil => cases h
    | cons u us =>
      obtain ⟨n, rfl⟩ := mem_openings h
      exact .initial (openings_none_of_mem h)
  | cons o os =>
    cases c with
    | initial n =>
      obtain ⟨node, -, u, us, rfl, -, hn⟩ := initial_mem_offered.1 h
      exact .initial (openings_none_of_mem hn)
    | nonDummy n =>
      obtain ⟨node, hat, u, us, rfl, l, hl, hd, hm, ht⟩ := nonDummy_mem_offered.1 h
      exact .nonDummy hat hl hd hm ht
    | dummy n =>
      obtain ⟨node, hat, l, hl, hd, ht, -⟩ := dummy_mem_offered_cons.1 h
      exact .dummy hat hl hd ht
    | final type =>
      obtain ⟨node, hat, htype⟩ := final_mem_offered.1 h
      exact .final hat htype

end Offered

end Parser

end StateDiagram
