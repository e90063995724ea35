import StateDiagram.Proofs.Parser.Completed

/-! What a move makes of a session, actions and values of the host included. A move leads to the
place that its choice says; only a value that is refused leaves the open phrase as it is. -/
namespace StateDiagram

open StateDiagram.Tree Arena

variable {σ : Type} {p : Parser σ}

/-- Complete: no phrase is open, and the only unit has a goal for its word. -/
def Place.isDone (goals : List String) (x : Place Form) : Bool :=
  match x.opened, x.ahead with
  | [], [u] => goals.contains u.word
  | _, _ => false

theorem Place.isDone_iff {goals : List String} {x : Place Form} :
    x.isDone goals = true ↔ x.opened = [] ∧ ∃ u, x.ahead = [u] ∧ u.word ∈ goals := by
  obtain ⟨os, us⟩ := x
  cases os with
  | cons o os => simp [isDone]
  | nil =>
    cases us with
    | nil => simp [isDone]
    | cons u us => cases us <;> simp [isDone]

/-- The value that a phrase gets without semantics when it ends at the node of the row `o`. -/
def Parser.plainValue (p : Parser σ) (o : List Form) : Option Value :=
  ((p.at? o).bind Node.value?).map .string

/-- How the open phrases change by a move, and what becomes of their marks. As long as states are
saved, phrases that are copied stand in fresh slots. -/
inductive Grown (p : Parser σ) (saved : List Post) (a : Arena) (st st' : State) (x x' : Place Tree) :
    Choice → Prop where
  | initial {u : Tree} {us : List Tree} {n : Nat} {node : Node} : x.ahead = u :: us →
    p.grammar.nodes[n]? = some node → x'.opened = [u.mark n] :: x.opened →
      st'.frames = ⟨st.beginning, st.features, st.unique⟩ :: st.frames →
        st'.unique = (!node.incoming && p.grammar.isUnique u.word) →
          Grown p saved a st st' x x' (.initial n)
  | nonDummy {u : Tree} {us o : List Tree} {os : List (List Tree)} {n : Nat} : x.ahead = u :: us →
    x.opened = o :: os → x'.opened = (u.mark n :: o) :: os → st'.frames = st.frames →
      st'.unique = (st.unique && p.grammar.isUnique u.word) →
        Grown p saved a st st' x x' (.nonDummy n)
  | dummy {n : Nat} : saved = [] ∨ (∀ t ∈ x'.opened.flatten, a.size ≤ t.slot) →
    Grown p saved a st st' x x' (.dummy n)
  | final {o : List Tree} {os : List (List Tree)} {fr : Frame} {fs : List Frame} {type : String} :
    x.opened = o :: os → st.frames = fr :: fs → st'.frames = fs →
      st'.unique = (fr.unique && st.unique) →
        x'.opened = os ∨ (∀ t ∈ x'.opened.flatten, a.size ≤ t.slot) →
          x'.ahead.head?.bind matched = none → Grown p saved a st st' x x' (.final type)

/-- What has grown depends on the frames and the mark of the state that a move leaves. -/
theorem Grown.restate {saved : List Post} {a : Arena} {st st' st₁ : State} {x x' : Place Tree}
    {c : Choice} (h : Grown p saved a st st' x x' c) (hframes : st₁.frames = st'.frames)
    (hunique : st₁.unique = st'.unique) : Grown p saved a st st₁ x x' c := by
  cases h with
  | initial hahead hnode hopened hfr hun =>
    exact .initial hahead hnode hopened (hframes.trans hfr) (hunique.trans hun)
  | nonDummy hahead hx hopened hfr hun =>
    exact .nonDummy hahead hx hopened (hframes.trans hfr) (hunique.trans hun)
  | dummy hfresh => exact .dummy hfresh
  | final hx hfr hfr' hun hopened hmatched =>
    exact .final hx hfr (hframes.trans hfr') (hunique.trans hun) hopened hmatched

/-- What a move makes of a session. The value counts for moves that complete a phrase. -/
structure Made (p : Parser σ) (c : Choice) (v : Option Value) (signal : Signal) (s s' : Session σ)
    (x x' : Place Tree) (saved saved' : List Post) : Prop where
  moved : Moved p s s' x x' saved saved'
  view : x'.view = x.view.after p.config.dummyWord v c
  grown : Grown p saved s.arena s.state s'.state x x' c
  lastMove : s'.state.lastMove = s.state.lastMove
  entered : (∀ type, c ≠ .final type) → s'.state.choices = none
  completed : (∃ type, c = .final type) → signal = .succeed ∧ s'.state.choices =
    if x'.view.isDone s.goals then none else some (p.offered s.goals .none x'.view)
  plain : p.semantics = none → signal = .succeed ∧
    ∀ o os, x.view.opened = o :: os → (∃ type, c = .final type) → v = p.plainValue o

/-- A value is refused: of the session only the features and the host's state change. -/
structure Refused (p : Parser σ) (c : Choice) (signal : Signal) (s s' : Session σ)
    (x : Place Tree) (saved : List Post) : Prop where
  semantics : p.semantics ≠ none
  signal : signal ≠ .succeed
  final : ∃ type, c = .final type
  same : ∃ features host, s' = Parser.setFeatures features host s
  stands : Stands p s' x saved

namespace Stands

variable {s s' : Session σ} {x x' : Place Tree} {saved saved' : List Post}

theorem at_node (h : Stands p s x saved) (hg : p.grammar.Sound) :
    ∀ o ∈ x.view.opened, ∃ node, p.at? o = some node := by
  intro o ho
  obtain ⟨ws, hrow⟩ := h.proper.opened o ho
  exact hrow.at_node hg

theorem choices_eq (h : Stands p s x saved) (hg : p.grammar.Sound) (dummies : Dummies) :
    p.choices s dummies = .ok (p.offered s.goals dummies x.view) :=
  Parser.choices_eq h.lays (h.at_node hg) dummies

theorem isDone_eq (h : Stands p s x saved) : s.isDone = x.view.isDone s.goals := by
  have hopened := h.lays.opened_eq_nil
  cases ho : x.opened with
  | cons o os =>
    have hcur : s.state.current ≠ s.state.head := fun heq => by
      have hnil := hopened.2 heq
      simp [ho] at hnil
    simp [Session.isDone, hcur, Place.isDone, Place.view, ho]
  | nil =>
    have hcur : s.state.current = s.state.head := hopened.1 ho
    have hspans := h.lays.spans
    obtain ⟨u, -, hu, -, -, hahead⟩ := hspans.cons_inv
    have hspine : x.spine = [] := by simp [Place.spine, ho]
    simp only [slot_header] at hu
    simp only [hspine, List.nil_append] at hahead
    have htop : s.top? = u.next := by simp [Session.top?, hu]
    cases hx : x.ahead with
    | nil =>
      rw [hx] at hahead
      have hnone : u.next = none := hahead.start
      simp [Session.isDone, Session.topUnit?, htop, hnone, Place.isDone, Place.view, ho, hx]
    | cons t ts =>
      rw [hx] at hahead
      obtain ⟨v, hnext, hv, ht, -, hts⟩ := hahead.cons_inv
      have hword : v.word = t.word := by
        rw [ht, word_node]
      have hend : v.next.isNone = ts.isEmpty := by
        rw [hts.start]
        cases ts <;> rfl
      have hunit : s.topUnit? = some v := by simp [Session.topUnit?, htop, hnext, hv]
      cases ts <;>
        simp [Session.isDone, hunit, hcur, hend, hword, Place.isDone, Place.view, ho, hx]

/-- The host's answers change the features and the host's state, and nothing else. -/
theorem setFeatures (h : Stands p s x saved) (features : Features) (host : σ) :
    Stands p (Parser.setFeatures features host s) x saved where
  standing := h.standing.restate { s.state with features } rfl rfl rfl rfl id h.standing.choices
  stack := h.stack

end Stands

namespace Moved

variable {s s' : Session σ} {x x' : Place Tree} {saved saved' : List Post}

theorem setFeatures (h : Moved p s s' x x' saved saved') (features : Features) (host : σ) :
    Moved p s (Parser.setFeatures features host s') x x' saved saved' where
  stands := h.stands.setFeatures features host
  carried := h.carried
  goals := h.goals
  steps := h.steps
  path := h.path

/-- The move was made from a session with other features. -/
theorem of_setFeatures {features : Features} {host : σ}
    (h : Moved p (Parser.setFeatures features host s) s' x x' saved saved') :
    Moved p s s' x x' saved saved' where
  stands := h.stands
  carried := by
    refine h.carried.imp fun f g hc => ?_
    refine ⟨hc.state, hc.opened, ?_, hc.awaited, hc.below, hc.heldSame, hc.innerSame, hc.aheadSame,
      hc.lays, hc.proper, hc.waiting⟩
    cases hc.ahead with
    | same hahead hsub => exact .same hahead hsub
    | collapsed hsave hunique hopened hfirst hmem hx hf hg hnext hlater =>
      exact .collapsed hsave hunique hopened hfirst hmem hx hf hg hnext hlater
  goals := h.goals
  steps := h.steps
  path := h.path

end Moved

namespace Stands

variable {s s' : Session σ} {x x' : Place Tree} {saved saved' : List Post}

/-- A move that enters a node: the action of the node changes nothing that a move is about. -/
theorem runAction {c : Choice} {n : Nat} {move : Except Fault (Session σ)} (hmove : move = .ok s')
    (hmoved : Moved p s s' x x' saved saved')
    (hview : x'.view = x.view.after p.config.dummyWord none c)
    (hgrown : Grown p saved s.arena s.state s'.state x x' c)
    (hlast : s'.state.lastMove = s.state.lastMove) (hchoices : s'.state.choices = none)
    (hc : ∀ type, c ≠ .final type) (hnode : ∃ node, p.grammar.nodes[n]? = some node) :
    ∃ signal s'', (move >>= p.runAction n) = .ok (signal, s'') ∧
      Made p c none signal s s'' x x' saved saved' := by
  obtain ⟨node, hnode⟩ := hnode
  have hfinal : ¬∃ type, c = .final type := fun ⟨type, h⟩ => hc type h
  have hkept : Made p c none .succeed s s' x x' saved saved' :=
    ⟨hmoved, hview, hgrown, hlast, fun _ => hchoices, fun h => absurd h hfinal,
      fun _ => ⟨rfl, fun _ _ _ h => absurd h hfinal⟩⟩
  simp only [hmove, Parser.runAction, Parser.nodeOf, hnode, bind, Except.bind, pure, Except.pure]
  cases haction : node.action with
  | none => exact ⟨_, _, rfl, hkept⟩
  | some action =>
    cases hsem : p.semantics with
    | none => exact ⟨_, _, rfl, hkept⟩
    | some sem =>
      by_cases hempty : action.isEmpty = true
      · exact ⟨_, _, by simp [hempty], hkept⟩
      · refine ⟨(sem.action action (p.context s') s'.host).1, Parser.setFeatures
          (sem.action action (p.context s') s'.host).2.1
          (sem.action action (p.context s') s'.host).2.2 s', by simp [hempty], ?_⟩
        exact ⟨hmoved.setFeatures _ _, hview, hgrown.restate rfl rfl, hlast, fun _ => hchoices,
          fun h => absurd h hfinal, fun hnone => by simp [hsem] at hnone⟩

/-- The units of the open phrase go below a single one, in place or on a copy. -/
theorem reduce {o : List Tree} {os : List (List Tree)} (h : Stands p s x saved)
    (hopened : x.opened = o :: os) (type : String) (value : Option Value)
    (hproper : p.Proper (x.view.after p.config.dummyWord value (.final type))) :
    ∃ s' x' saved' fr fs, s.state.frames = fr :: fs ∧
      (p.reduce type value s >>= Parser.closeFrame) =
        .ok { s' with state := { s'.state with choices := s.state.choices } } ∧
      Moved p s s' x x' saved saved' ∧
      x'.view = x.view.after p.config.dummyWord value (.final type) ∧
      (x'.opened = os ∨ ∀ t ∈ x'.opened.flatten, s.arena.size ≤ t.slot) ∧
      x'.ahead.head?.bind matched = none ∧
      (∃ head current, s'.state = { s.state.closed head current fr fs with choices := none }) ∧
      s'.host = s.host := by
  cases hplace : p.collapses s with
  | true =>
    obtain ⟨s', T, fr, fs, hframes, hrun, hmoved, hview, hmatched, hstate, hhost⟩ :=
      h.reduceInPlace hopened type value hplace hproper
    exact ⟨s', _, _, fr, fs, hframes, hrun, hmoved, hview, .inl rfl, hmatched, hstate, hhost⟩
  | false =>
    obtain ⟨s', x', fr, fs, hframes, hrun, hmoved, hview, hfresh, hmatched, hstate, hhost⟩ :=
      h.reduceOnCopy hopened type value hplace hproper
    exact ⟨s', x', saved, fr, fs, hframes, hrun, hmoved, hview, .inr hfresh, hmatched, hstate,
      hhost⟩

/-- The open phrase is completed with a value. -/
theorem complete {o : List Tree} {os : List (List Tree)} (h : Stands p s x saved)
    (hg : p.grammar.Sound) (hopened : x.opened = o :: os) (type : String) (value : Option Value)
    (hproper : p.Proper (x.view.after p.config.dummyWord value (.final type))) :
    ∃ s' x' saved', (do
        let s ← Parser.closeFrame (← p.reduce type value s)
        let choices ← if s.isDone then pure none else (p.choices s .none).map some
        return (Signal.succeed, { s with state := { s.state with choices } })) =
          Except.ok (Signal.succeed, s') ∧
      Moved p s s' x x' saved saved' ∧
      x'.view = x.view.after p.config.dummyWord value (.final type) ∧
      Grown p saved s.arena s.state s'.state x x' (.final type) ∧
      s'.state.lastMove = s.state.lastMove ∧ s'.state.choices =
        (if x'.view.isDone s.goals then none else some (p.offered s.goals .none x'.view)) ∧
      s'.host = s.host := by
  obtain ⟨s₁, x', saved', fr, fs, hframes, hrun, hmoved, hview, hfresh, hmatched,
    ⟨head, current, hstate⟩, hhost⟩ := h.reduce hopened type value hproper
  let next := if x'.view.isDone s.goals then none else some (p.offered s.goals .none x'.view)
  let s₂ : Session σ := { s₁ with state := { s₁.state with choices := s.state.choices } }
  have hdone : s₂.isDone = x'.view.isDone s.goals := by
    rw [← hmoved.goals]
    exact hmoved.stands.isDone_eq
  have hoffered : p.choices s₂ .none = .ok (p.offered s.goals .none x'.view) := by
    rw [← hmoved.goals]
    exact Parser.choices_eq (s := s₂) ⟨hmoved.stands.lays.spans, hmoved.stands.lays.current,
      hmoved.stands.lays.nested⟩ (hmoved.stands.at_node hg) .none
  have hlegal : ∀ cs, next = some cs → ∀ c ∈ cs, Parser.Legal p x'.view c := by
    intro cs hcs c hc
    simp only [next] at hcs
    split at hcs
    · cases hcs
    · obtain rfl := Option.some.inj hcs
      exact Parser.legal_of_mem_offered hc
  refine ⟨{ s₁ with state := { s₁.state with choices := next } }, x', saved', ?_,
    hmoved.restate { s₁.state with choices := next } s₁.host rfl rfl rfl rfl rfl rfl hlegal, hview,
    ?_, ?_, rfl, hhost⟩
  · have hassoc : ∀ {β : Type} (k : Session σ → Except Fault β),
        (p.reduce type value s >>= fun s => Parser.closeFrame s >>= k) = k s₂ := by
      intro β k
      rw [← bind_assoc, hrun]
      rfl
    rw [hassoc, hdone, hoffered]
    cases hd : x'.view.isDone s.goals <;> simp [next, hd, s₂, bind, Except.bind, pure, Except.pure,
      Except.map]
  · exact .final hopened hframes (by simp [hstate, State.closed]) (by simp [hstate, State.closed])
      hfresh hmatched
  · simp [hstate, State.closed]

/-- The value of a phrase, or the host's refusal of it. -/
theorem runValue_cases {o : List Form} {node : Node} (hat : p.at? o = some node) :
    ∃ features host,
      (∃ v, p.runValue node s = (.ok v, Parser.setFeatures features host s) ∧
        (p.semantics = none → v = p.plainValue o)) ∨
      (p.semantics ≠ none ∧ ∃ signal, signal ≠ .succeed ∧
        p.runValue node s = (.error signal, Parser.setFeatures features host s)) := by
  have hplain : p.plainValue o = node.value?.map .string := by
    simp [Parser.plainValue, hat]
  unfold Parser.runValue
  cases hv : node.value? with
  | none =>
    have hnone : p.plainValue o = none := by rw [hplain, hv]; rfl
    refine ⟨s.state.features, s.host, .inl ⟨none, ?_, fun _ => hnone.symm⟩⟩
    cases p.semantics <;> rfl
  | some e =>
    have hsome : p.plainValue o = some (.string e) := by rw [hplain, hv]; rfl
    cases hsem : p.semantics with
    | none => exact ⟨s.state.features, s.host, .inl ⟨_, rfl, fun _ => hsome.symm⟩⟩
    | some sem =>
      by_cases hempty : e.isEmpty = true
      · refine ⟨s.state.features, s.host, .inl ⟨some (.string e), ?_, by simp⟩⟩
        simp only [hempty, if_true]
        rfl
      · refine ⟨(sem.value e (p.context s) s.host).2.1,
          (sem.value e (p.context s) s.host).2.2, ?_⟩
        simp only [hempty, Bool.false_eq_true, if_false]
        cases hout : (sem.value e (p.context s) s.host).1 with
        | value v => exact .inl ⟨some v, rfl, by simp⟩
        | noAdvance => exact .inr ⟨by simp, .noAdvance, by simp, rfl⟩
        | quit => exact .inr ⟨by simp, .quit, by simp, rfl⟩

theorem performInitial {n : Nat} (h : Stands p s x saved)
    (hc : Parser.Legal p x.view (.initial n)) :
    ∃ signal s' v x' saved', p.perform (.initial n) s = .ok (signal, s') ∧
      Made p (.initial n) v signal s s' x x' saved saved' := by
  have hproper := h.proper.after (v := none) hc fun _ _ _ _ _ _ _ => trivial
  obtain ⟨w, ws, hview, hn⟩ := hc.initial_inv
  obtain ⟨u, us, hahead, -, -⟩ := Place.ahead_of_view hview
  obtain ⟨node, hnode, -⟩ := Parser.node_of_mem_openings hn
  obtain ⟨s₁, hrun, hmoved, hview, hstate, -⟩ := h.initial hahead hnode hproper
  obtain ⟨signal, s₂, haction, hmade⟩ := runAction hrun hmoved hview
    (.initial hahead hnode rfl (by rw [hstate]) (by rw [hstate])) (by rw [hstate])
    (by rw [hstate]) (by simp) ⟨node, hnode⟩
  exact ⟨signal, s₂, _, _, _, haction, hmade⟩

theorem performNonDummy {n : Nat} (h : Stands p s x saved) (hg : p.grammar.Sound)
    (hc : Parser.Legal p x.view (.nonDummy n)) :
    ∃ signal s' v x' saved', p.perform (.nonDummy n) s = .ok (signal, s') ∧
      Made p (.nonDummy n) v signal s s' x x' saved saved' := by
  have hproper := h.proper.after (v := none) hc fun _ _ _ _ _ _ _ => trivial
  obtain ⟨r, rs, w, ws, at', l, hview, hview', hat, hl, -, -, ht⟩ := hc.nonDummy_inv
  obtain ⟨o, os, hopened, -, -⟩ := Place.opened_of_view hview
  obtain ⟨u, us, hahead, -, -⟩ := Place.ahead_of_view hview'
  obtain ⟨i, hi⟩ := Parser.node_of_at? hat
  obtain ⟨node, hnode, -⟩ := hg.node_of_target hi hl ht
  obtain ⟨s₁, hrun, hmoved, hview, hstate, -⟩ := h.nonDummy hopened hahead hproper
  obtain ⟨signal, s₂, haction, hmade⟩ := runAction hrun hmoved hview
    (.nonDummy hahead hopened rfl (by rw [hstate]) (by rw [hstate])) (by rw [hstate])
    (by rw [hstate]) (by simp) ⟨node, hnode⟩
  exact ⟨signal, s₂, _, _, _, haction, hmade⟩

theorem performDummy {n : Nat} (h : Stands p s x saved) (hg : p.grammar.Sound)
    (hc : Parser.Legal p x.view (.dummy n)) :
    ∃ signal s' v x' saved', p.perform (.dummy n) s = .ok (signal, s') ∧
      Made p (.dummy n) v signal s s' x x' saved saved' := by
  have hproper := h.proper.after (v := none) hc fun _ _ _ _ _ _ _ => trivial
  obtain ⟨r, rs, at', l, hview, hat, hl, -, ht⟩ := hc.dummy_inv
  obtain ⟨o, os, hopened, -, -⟩ := Place.opened_of_view hview
  obtain ⟨i, hi⟩ := Parser.node_of_at? hat
  obtain ⟨node, hnode, -⟩ := hg.node_of_target hi hl ht
  cases saved with
  | nil =>
    obtain ⟨s₁, x', hrun, hmoved, hview, hstate, -⟩ := h.skip hopened hproper
    obtain ⟨signal, s₂, haction, hmade⟩ := runAction hrun hmoved hview (.dummy (.inl rfl))
      (by rw [hstate]) (by rw [hstate]) (by simp) ⟨node, hnode⟩
    exact ⟨signal, s₂, _, _, _, haction, hmade⟩
  | cons f fs =>
    obtain ⟨s₁, x', hrun, hmoved, hview, hfresh, hstate, -⟩ :=
      h.skipOnCopy (List.cons_ne_nil f fs) hopened hproper
    obtain ⟨signal, s₂, haction, hmade⟩ := runAction hrun hmoved hview (.dummy (.inr hfresh))
      (by rw [hstate]) (by rw [hstate]) (by simp) ⟨node, hnode⟩
    exact ⟨signal, s₂, _, _, _, haction, hmade⟩

/-- A phrase is completed, or the host refuses its value. -/
theorem performFinal {type : String} (h : Stands p s x saved) (hg : p.grammar.Sound)
    (hc : Parser.Legal p x.view (.final type)) :
    ∃ signal s', p.perform (.final type) s = .ok (signal, s') ∧
      ((∃ v x' saved', Made p (.final type) v signal s s' x x' saved saved') ∨
        Refused p (.final type) signal s s' x saved) := by
  obtain ⟨r, rs, node, hrview, hat, htype⟩ := hc.final_inv
  obtain ⟨o, os, hopened, rfl, -⟩ := Place.opened_of_view hrview
  obtain ⟨u, hu, -, hunode⟩ := h.lays.unit
  have hrow := hat
  rw [Parser.at?_view] at hrow
  obtain ⟨n, hmatched, hnode⟩ := Option.bind_eq_some_iff.1 hrow
  have hun : u.node = some n := by
    rw [hunode, Post.here?, hopened]
    exact hmatched
  simp only [Parser.perform, Parser.moveFinal, fetch_of_get? hu, hun, Parser.nodeOf, hnode, bind,
    Except.bind]
  obtain ⟨features, host, ⟨v, hrun, hplain⟩ | ⟨hsem, signal, hsignal, hrun⟩⟩ :=
    runValue_cases (s := s) hat
  · have hproper : p.Proper (x.view.after p.config.dummyWord v (.final type)) :=
      h.proper.after hc fun _ _ _ _ _ _ _ => trivial
    obtain ⟨s₁, x', saved', hcomplete, hmoved, hview, hgrown, hlast, hchoices, -⟩ :=
      (h.setFeatures features host).complete hg hopened type v hproper
    have hgrown' : Grown p saved s.arena s.state s₁.state x x' (.final type) := by
      cases hgrown with
      | final h₁ h₂ h₃ h₄ h₅ h₆ => exact .final h₁ h₂ h₃ h₄ h₅ h₆
    rw [hrun]
    refine ⟨.succeed, s₁, hcomplete, .inl ⟨v, x', saved', hmoved.of_setFeatures, hview, hgrown',
      hlast, fun hne => absurd rfl (hne type), fun _ => ⟨rfl, hchoices⟩, fun hsem =>
      ⟨rfl, fun o' os' hopened' _ => ?_⟩⟩⟩
    rw [hrview] at hopened'
    obtain ⟨rfl, -⟩ := List.cons.inj hopened'
    exact hplain hsem
  · rw [hrun]
    exact ⟨signal, _, rfl, .inr ⟨hsem, hsignal, ⟨type, rfl⟩, ⟨features, host, rfl⟩,
      h.setFeatures features host⟩⟩

/-- A move by a legal choice never fails: it leads where the choice says, or the host refuses the
value of the phrase. -/
theorem perform {c : Choice} (h : Stands p s x saved) (hg : p.grammar.Sound)
    (hc : Parser.Legal p x.view c) :
    ∃ signal s', p.perform c s = .ok (signal, s') ∧
      ((∃ v x' saved', Made p c v signal s s' x x' saved saved') ∨
        Refused p c signal s s' x saved) := by
  cases c with
  | initial n =>
    obtain ⟨signal, s', v, x', saved', hrun, hmade⟩ := h.performInitial hc
    exact ⟨signal, s', hrun, .inl ⟨v, x', saved', hmade⟩⟩
  | nonDummy n =>
    obtain ⟨signal, s', v, x', saved', hrun, hmade⟩ := h.performNonDummy hg hc
    exact ⟨signal, s', hrun, .inl ⟨v, x', saved', hmade⟩⟩
  | dummy n =>
    obtain ⟨signal, s', v, x', saved', hrun, hmade⟩ := h.performDummy hg hc
    exact ⟨signal, s', hrun, .inl ⟨v, x', saved', hmade⟩⟩
  | final type => exact h.performFinal hg hc

end Stands

end StateDiagram
