import StateDiagram.Proofs.Parser.Rounds

/-! Features belong to the open phrase. The moves that led to a session are kept with the features
that were current just before each of them, and so is what was current when a state was saved. The
frames of a session then hold the features from before the moves that have begun the open phrases,
whatever actions, values and the host do to the features of the innermost one. -/
namespace StateDiagram

variable {σ : Type} {p : Parser σ}

/-- The features of the phrases around the open one, the innermost first. -/
def State.around (st : State) : List Features :=
  st.frames.map Frame.features

/-- A move that has been made, with the features that were current just before it. It stands unless
the action of the node that it enters has refused it. -/
structure Past where
  choice : Choice
  features : Features
  stands : Bool

/-- What was current when a state was saved: the moves that had led there, the latest first, the
features, and those of the phrases around. -/
structure Memo where
  past : List Past
  features : Features
  around : List Features

/-- The moves that have begun the phrases that are open, the innermost first. -/
def openers : List Past → List Past
  | [] => []
  | e :: past =>
    match e.choice with
    | .initial _ => e :: openers past
    | .final _ => (openers past).tail
    | _ => openers past

/-- The moves after one more choice has been taken. A phrase whose value is refused stays open. -/
def made (c : Choice) (signal : Signal) (features : Features) (past : List Past) : List Past :=
  if c.node?.isSome ∨ signal = .succeed then ⟨c, features, signal = .succeed⟩ :: past else past

namespace Parser

/-- An advance takes the choice `c` while `others` remain. -/
inductive Tries (p : Parser σ) (s : Session σ) :
    Choice → List Choice → Signal → Session σ → Prop where
  | advance {c : Choice} {others : List Choice} {signal : Signal} {s' : Session σ} :
    p.pending s = .ok (c :: others) → p.advance s = .ok (signal, s') → Tries p s c others signal s'
  | advanceWith {c : Choice} {cs : List Choice} {signal : Signal} {s' : Session σ} :
    p.pending s = .ok cs → c ∈ cs → p.advanceWith c s = .ok (signal, s') →
      Tries p s c (cs.erase c) signal s'

/-- A step that takes no choice and takes up no saved state. -/
inductive Idles (p : Parser σ) (s : Session σ) : Session σ → Prop where
  | blocked {signal : Signal} {s' : Session σ} : p.pending s = .ok [] →
    p.advance s = .ok (signal, s') → Idles p s s'
  | absent {c : Choice} {cs : List Choice} {signal : Signal} {s' : Session σ} :
    p.pending s = .ok cs → c ∉ cs → p.advanceWith c s = .ok (signal, s') → Idles p s s'
  | exhausted {s' : Session σ} : p.backup s = .ok (false, s') → Idles p s s'
  | set (name : String) (value : Value) : Idles p s (s.setFeature name value)

/-- Steps have led to the session by the moves `past`, the latest first. For each of its saved
states there is what was current when the state was saved. -/
inductive History (p : Parser σ) : Session σ → List Past → List Memo → Prop where
  | start (tokens goals : List String) (host : σ) : History p (.start tokens goals host) [] []
  | tried {s s' : Session σ} {past : List Past} {memos : List Memo} {c : Choice}
    {others : List Choice} {signal : Signal} : History p s past memos →
      p.Tries s c others signal s' → History p s' (made c signal s.state.features past)
        (if others.isEmpty then memos
          else ⟨past, s.state.features, s.state.around⟩ :: memos)
  | idled {s s' : Session σ} {past : List Past} {memos : List Memo} : History p s past memos →
    p.Idles s s' → History p s' past memos
  | resumed {s s' : Session σ} {past : List Past} {memos : List Memo} {m : Memo} :
    History p s past (m :: memos) → p.backup s = .ok (true, s') → History p s' m.past memos

variable {s s' : Session σ} {c : Choice} {others : List Choice} {signal : Signal} {n : Nat}

/-- The features at the beginning of a phrase: none, or what the action of its first node makes of
none. -/
def BeginsEmpty (p : Parser σ) (n : Nat) (s : Session σ) (signal : Signal) (s' : Session σ) :
    Prop :=
  s'.state.features = [] ∨ ∃ node action sem, p.grammar.nodes[n]? = some node ∧
    node.action = some action ∧ p.semantics = some sem ∧
      sem.action action ⟨p.grammar, s'.arena, s'.state.current, []⟩ s.host =
        (signal, s'.state.features, s'.host)

/-- The session stays within the open phrase: the path, the features around this phrase and the
saved states are as they were. -/
structure StaysWithin (s s' : Session σ) : Prop where
  path : s'.state.path = s.state.path
  around : s'.state.around = s.state.around
  saved : s'.saved = s.saved

/-- What the move of a choice does to the features. -/
inductive Scopes (p : Parser σ) (s : Session σ) : Choice → Signal → Session σ → Prop where
  | begun {n : Nat} {signal : Signal} {s' : Session σ} : s'.state.path = s.state.path →
    s'.saved = s.saved → s'.state.around = s.state.features :: s.state.around →
      p.BeginsEmpty n s signal s' → Scopes p s (.initial n) signal s'
  | nonDummy {n : Nat} {signal : Signal} {s' : Session σ} : StaysWithin s s' →
    Scopes p s (.nonDummy n) signal s'
  | dummy {n : Nat} {signal : Signal} {s' : Session σ} : StaysWithin s s' →
    Scopes p s (.dummy n) signal s'
  | refused {type : String} {signal : Signal} {s' : Session σ} : signal ≠ .succeed →
    StaysWithin s s' → Scopes p s (.final type) signal s'
  | completed {type : String} {s' : Session σ} : s'.state.path = s.state.path →
    s'.saved = s.saved → s.state.around = s'.state.features :: s'.state.around →
      Scopes p s (.final type) .succeed s'

theorem StaysWithin.trans {s₁ : Session σ} (h : StaysWithin s s₁) (h' : StaysWithin s₁ s') :
    StaysWithin s s' :=
  ⟨h'.path.trans h.path, h'.around.trans h.around, h'.saved.trans h.saved⟩

theorem Scopes.frame (h : p.Scopes s c signal s') :
    s'.state.path = s.state.path ∧ s'.saved = s.saved := by
  cases h with
  | begun hpath hsaved _ _ => exact ⟨hpath, hsaved⟩
  | nonDummy h => exact ⟨h.path, h.saved⟩
  | dummy h => exact ⟨h.path, h.saved⟩
  | refused _ h => exact ⟨h.path, h.saved⟩
  | completed hpath hsaved _ => exact ⟨hpath, hsaved⟩

theorem moveInitial_frame (h : p.moveInitial n s = .ok s') :
    s'.state.around = s.state.features :: s.state.around ∧ s'.state.features = [] ∧
      s'.state.path = s.state.path ∧ s'.saved = s.saved ∧ s'.host = s.host := by
  obtain ⟨i, -, h⟩ := bind_eq_ok h
  obtain ⟨u, -, h⟩ := bind_eq_ok h
  obtain ⟨node, -, h⟩ := bind_eq_ok h
  cases h
  exact ⟨rfl, rfl, rfl, rfl, rfl⟩

theorem moveNonDummy_within (h : p.moveNonDummy n s = .ok s') : StaysWithin s s' := by
  obtain ⟨i, -, h⟩ := bind_eq_ok h
  obtain ⟨u, -, h⟩ := bind_eq_ok h
  cases h
  exact ⟨rfl, rfl, rfl⟩

theorem moveDummy_within (h : p.moveDummy n s = .ok s') : StaysWithin s s' := by
  obtain ⟨u, -, h⟩ := bind_eq_ok h
  by_cases hsaved : s.saved.isEmpty = true
  · rw [if_pos hsaved] at h
    cases h
    exact ⟨rfl, rfl, rfl⟩
  · rw [if_neg hsaved] at h
    obtain ⟨r, -, h⟩ := bind_eq_ok h
    cases h
    exact ⟨rfl, rfl, rfl⟩

/-- An action is handed the features and gives back others. -/
theorem runAction_cases (h : p.runAction n s = .ok (signal, s')) :
    s' = s ∨ ∃ node action sem features host, p.grammar.nodes[n]? = some node ∧
      node.action = some action ∧ p.semantics = some sem ∧
      sem.action action (p.context s) s.host = (signal, features, host) ∧
      s' = setFeatures features host s := by
  obtain ⟨node, hnode, h⟩ := bind_eq_ok h
  cases haction : node.action with
  | none =>
    simp only [haction] at h
    cases h
    exact .inl rfl
  | some action =>
    cases hsem : p.semantics with
    | none =>
      simp only [haction, hsem] at h
      cases h
      exact .inl rfl
    | some sem =>
      simp only [haction, hsem] at h
      by_cases hempty : action.isEmpty = true
      · rw [if_pos hempty] at h
        cases h
        exact .inl rfl
      · rw [if_neg hempty] at h
        cases h
        exact .inr ⟨node, action, sem, _, _, nodeOf_eq hnode, haction, rfl, rfl, rfl⟩

theorem runAction_within (h : p.runAction n s = .ok (signal, s')) : StaysWithin s s' := by
  obtain rfl | ⟨-, -, -, features, host, -, -, -, -, rfl⟩ := runAction_cases h
  · exact ⟨rfl, rfl, rfl⟩
  · exact ⟨rfl, rfl, rfl⟩

/-- To put the units of a phrase below a single one leaves all features alone. -/
theorem reduce_within {type : String} {value : Option Value} (h : p.reduce type value s = .ok s') :
    StaysWithin s s' := by
  obtain ⟨prev, -, h⟩ := bind_eq_ok h
  obtain ⟨first, -, h⟩ := bind_eq_ok h
  by_cases hcollapses : p.collapses s = true
  · rw [if_pos hcollapses] at h
    obtain ⟨arena, -, h⟩ := bind_eq_ok h
    cases h
    exact ⟨rfl, rfl, rfl⟩
  · rw [if_neg hcollapses] at h
    obtain ⟨r, -, h⟩ := bind_eq_ok h
    cases h
    exact ⟨rfl, rfl, rfl⟩

theorem closeFrame_frame (h : closeFrame s = .ok s') :
    s.state.around = s'.state.features :: s'.state.around ∧ s'.state.path = s.state.path ∧
      s'.saved = s.saved := by
  unfold closeFrame at h
  cases hframes : s.state.frames with
  | nil => simp [hframes] at h
  | cons f frames =>
    simp only [hframes] at h
    cases h
    exact ⟨by rw [State.around, hframes]; rfl, rfl, rfl⟩

theorem moveInitial_scopes {s₁ : Session σ} (hmove : p.moveInitial n s = .ok s₁)
    (h : p.runAction n s₁ = .ok (signal, s')) : p.Scopes s (.initial n) signal s' := by
  obtain ⟨haround, hempty, hpath, hsaved, hhost⟩ := moveInitial_frame hmove
  have hkept := runAction_within h
  refine .begun (hkept.path.trans hpath) (hkept.saved.trans hsaved) (hkept.around.trans haround) ?_
  obtain rfl | ⟨node, action, sem, features, host, hnode, haction, hsem, hcall, rfl⟩ :=
    runAction_cases h
  · exact .inl hempty
  · rw [hhost, context, hempty] at hcall
    exact .inr ⟨node, action, sem, hnode, haction, hsem, hcall⟩

theorem moveFinal_scopes {type : String} (h : p.moveFinal type s = .ok (signal, s')) :
    p.Scopes s (.final type) signal s' := by
  obtain ⟨u, -, h⟩ := bind_eq_ok h
  cases hnode : u.node with
  | none => simp [hnode] at h
  | some n =>
    simp only [hnode] at h
    obtain ⟨node, hget, h⟩ := bind_eq_ok h
    have hat : p.at? [.unit u.word (some n) none []] = some node := by
      rw [at?_cons_unit, nodeOf_eq hget]
    obtain ⟨features, host, ⟨v, hrun, -⟩ | ⟨-, signal', hsignal, hrun⟩⟩ :=
      Stands.runValue_cases (s := s) hat
    · rw [hrun] at h
      obtain ⟨s₁, hreduce, h⟩ := bind_eq_ok h
      obtain ⟨s₂, hclose, h⟩ := bind_eq_ok h
      obtain ⟨choices, heq⟩ : ∃ choices, (Signal.succeed, { s₂ with
          state := { s₂.state with choices } }) = (signal, s') := by
        by_cases hdone : s₂.isDone = true
        · rw [if_pos hdone] at h
          exact ⟨_, Except.ok.inj h⟩
        · rw [if_neg hdone] at h
          obtain ⟨choices, -, h⟩ := bind_eq_ok h
          exact ⟨choices, Except.ok.inj h⟩
      cases heq
      have hreduced := reduce_within hreduce
      obtain ⟨haround, hpath, hsaved⟩ := closeFrame_frame hclose
      exact .completed (hpath.trans hreduced.path) (hsaved.trans hreduced.saved)
        (hreduced.around.symm.trans haround)
    · rw [hrun] at h
      cases h
      exact .refused hsignal ⟨rfl, rfl, rfl⟩

theorem perform_scopes (h : p.perform c s = .ok (signal, s')) : p.Scopes s c signal s' := by
  cases c with
  | initial n =>
    obtain ⟨s₁, hmove, h⟩ := bind_eq_ok h
    exact moveInitial_scopes hmove h
  | nonDummy n =>
    obtain ⟨s₁, hmove, h⟩ := bind_eq_ok h
    exact .nonDummy ((moveNonDummy_within hmove).trans (runAction_within h))
  | dummy n =>
    obtain ⟨s₁, hmove, h⟩ := bind_eq_ok h
    exact .dummy ((moveDummy_within hmove).trans (runAction_within h))
  | final type => exact moveFinal_scopes h

theorem commit_frame (h : commit c others s = .ok s') :
    s'.state.path = s.state.path ∧ s'.state.around = s.state.around ∧
      s'.state.features = s.state.features ∧ s'.host = s.host ∧
      s'.saved = if others.isEmpty then s.saved else s'.state :: s.saved := by
  unfold commit at h
  by_cases hempty : others.isEmpty = true
  · simp only [hempty, if_true] at h
    cases h
    exact ⟨rfl, rfl, rfl, rfl, (if_pos hempty).symm⟩
  · simp only [hempty, Bool.false_eq_true, if_false] at h
    obtain ⟨nextSub, -, h⟩ := bind_eq_ok h
    cases h
    exact ⟨rfl, rfl, rfl, rfl, (if_neg hempty).symm⟩

/-- To take a choice is to set out on it and to make its move, which is put on the path if it
stands. -/
theorem take_inv (h : p.take (c :: others) s = .ok (signal, s')) :
    ∃ s₁ s₂, commit c others s = .ok s₁ ∧ p.perform c s₁ = .ok (signal, s₂) ∧
      s' = if signal = .succeed then record c s₂ else s₂ := by
  obtain ⟨s₁, hcommit, h⟩ := bind_eq_ok h
  obtain ⟨⟨signal', s₂⟩, hperform, h⟩ := bind_eq_ok h
  cases signal' <;> cases h <;> exact ⟨s₁, _, hcommit, hperform, rfl⟩

theorem Tries.take (h : p.Tries s c others signal s') :
    p.take (c :: others) s = .ok (signal, s') := by
  cases h with
  | advance hpending hrun =>
    rw [Parser.advance, hpending] at hrun
    exact hrun
  | advanceWith hpending hmem hrun =>
    rw [Parser.advanceWith, hpending] at hrun
    simp only [bind, Except.bind, List.contains_iff_mem, if_pos hmem] at hrun
    exact hrun

end Parser

/-- The moves that have led to a state: those that stand are on its path, and those that have begun
the open phrases were made with the features that its frames hold. -/
structure Agrees (past : List Past) (st : State) : Prop where
  path : (past.filter Past.stands).map Past.choice = st.path
  around : (openers past).map Past.features = st.around

/-- What was current when the state was saved, and is kept in it. -/
structure Memo.Of (m : Memo) (st : State) : Prop where
  agrees : Agrees m.past st
  features : m.features = st.features
  around : m.around = st.around

theorem initial_of_mem_openers {past : List Past} {e : Past} (h : e ∈ openers past) :
    ∃ n, e.choice = .initial n := by
  induction past with
  | nil => cases h
  | cons f past ih =>
    unfold openers at h
    split at h
    · rename_i n hn
      obtain rfl | h := List.mem_cons.1 h
      · exact ⟨n, hn⟩
      · exact ih h
    · exact ih (List.mem_of_mem_tail h)
    · exact ih h

namespace Parser

variable {s s' : Session σ} {c : Choice} {others : List Choice} {signal : Signal}
  {past : List Past} {memos : List Memo}

/-- What a move does to the frames, it does to the moves that have begun the open phrases. -/
theorem Scopes.agrees (h : p.Scopes s c signal s') (hs : Agrees past s.state) :
    (openers (made c signal s.state.features past)).map Past.features = s'.state.around := by
  cases h with
  | begun _ _ haround _ =>
    rw [haround, ← hs.around]
    rfl
  | nonDummy h =>
    rw [h.around, ← hs.around]
    rfl
  | dummy h =>
    rw [h.around, ← hs.around]
    rfl
  | @refused type _ _ hsignal h =>
    have hsame : made (.final type) signal s.state.features past = past := by
      simp [made, Choice.node?, hsignal]
    rw [hsame, hs.around, h.around]
  | completed _ _ haround =>
    -- the move that has begun the phrase is dropped together with its frame
    rw [← hs.around] at haround
    rw [made, if_pos (.inr rfl), openers, List.map_tail, haround, List.tail_cons]

theorem stands_made (c : Choice) (signal : Signal) (features : Features) (past : List Past) :
    ((made c signal features past).filter Past.stands).map Past.choice =
      if signal = .succeed then c :: (past.filter Past.stands).map Past.choice
      else (past.filter Past.stands).map Past.choice := by
  unfold made
  by_cases hsignal : signal = .succeed
  · simp [hsignal]
  · by_cases hnode : c.node?.isSome = true <;> simp [hsignal, hnode]

/-- What a choice comes to that is taken: the state is saved first if others remain. -/
theorem Tries.agrees {memos : List Memo} (h : p.Tries s c others signal s')
    (hs : Agrees past s.state) (hmemos : List.Forall₂ Memo.Of memos s.saved) :
    Agrees (made c signal s.state.features past) s'.state ∧
      List.Forall₂ Memo.Of (if others.isEmpty then memos
        else ⟨past, s.state.features, s.state.around⟩ :: memos) s'.saved := by
  obtain ⟨s₁, s₂, hcommit, hperform, rfl⟩ := take_inv h.take
  obtain ⟨hpath, haround, hfeatures, -, hsaved⟩ := commit_frame hcommit
  have hscopes := perform_scopes hperform
  have hs₁ : Agrees past s₁.state := ⟨hs.path.trans hpath.symm, hs.around.trans haround.symm⟩
  have hframes := hscopes.agrees hs₁
  rw [hfeatures] at hframes
  refine ⟨⟨?_, ?_⟩, ?_⟩
  · rw [stands_made, hs₁.path, ← hscopes.frame.1]
    split <;> rfl
  · rw [hframes]
    split <;> rfl
  · have hstack : (if signal = .succeed then record c s₂ else s₂).saved = s₁.saved := by
      rw [← hscopes.frame.2]
      split <;> rfl
    rw [hstack, hsaved]
    split
    · exact hmemos
    · exact .cons ⟨hs₁, hfeatures.symm, haround.symm⟩ hmemos

theorem Tries.initial {n : Nat} (h : p.Tries s (.initial n) others signal s') :
    p.BeginsEmpty n s signal s' ∧ s'.state.around = s.state.features :: s.state.around := by
  obtain ⟨s₁, s₂, hcommit, hperform, rfl⟩ := take_inv h.take
  obtain ⟨-, haround, hfeatures, hhost, -⟩ := commit_frame hcommit
  cases perform_scopes hperform with
  | begun _ _ hpushed hbegins =>
    rw [BeginsEmpty, hhost] at hbegins
    rw [hfeatures, haround] at hpushed
    by_cases hsignal : signal = .succeed
    · rw [if_pos hsignal]
      exact ⟨hbegins, hpushed⟩
    · rw [if_neg hsignal]
      exact ⟨hbegins, hpushed⟩

theorem Tries.final {type : String} (h : p.Tries s (.final type) others .succeed s') :
    s.state.around = s'.state.features :: s'.state.around := by
  obtain ⟨s₁, s₂, hcommit, hperform, rfl⟩ := take_inv h.take
  obtain ⟨-, haround, -⟩ := commit_frame hcommit
  rw [← haround]
  cases perform_scopes hperform with
  | refused hsignal _ => exact absurd rfl hsignal
  | completed _ _ hpopped => exact hpopped

theorem Idles.within (h : p.Idles s s') : StaysWithin s s' := by
  cases h with
  | blocked hpending hrun =>
    rw [advance, hpending] at hrun
    cases hrun
    exact ⟨rfl, rfl, rfl⟩
  | absent hpending habsent hrun =>
    rw [advanceWith, hpending] at hrun
    simp only [bind, Except.bind, List.contains_iff_mem, if_neg habsent] at hrun
    cases hrun
    exact ⟨rfl, rfl, rfl⟩
  | exhausted hrun =>
    obtain ⟨-, rfl⟩ := backup_false hrun
    exact ⟨rfl, rfl, rfl⟩
  | set name value => exact ⟨rfl, rfl, rfl⟩

/-- The moves and the notes of a history agree with the states of the session. -/
theorem History.agrees (h : p.History s past memos) :
    Agrees past s.state ∧ List.Forall₂ Memo.Of memos s.saved := by
  induction h with
  | start => exact ⟨⟨rfl, rfl⟩, .nil⟩
  | tried _ htries ih => exact htries.agrees ih.1 ih.2
  | idled _ hidles ih =>
    have hkept := hidles.within
    rw [hkept.saved]
    exact ⟨⟨ih.1.path.trans hkept.path.symm, ih.1.around.trans hkept.around.symm⟩, ih.2⟩
  | resumed _ hback ih =>
    obtain ⟨st, saved, choices, hsaved, hstate, rfl⟩ := backup_true hback
    have hmemos := ih.2
    rw [hsaved] at hmemos
    cases hmemos with
    | cons hm hmemos =>
      rw [hstate]
      exact ⟨⟨hm.agrees.path, hm.agrees.around⟩, hmemos⟩

/-- Each step goes on with a history. -/
theorem History.step (h : p.History s past memos) (hstep : p.Step s s') :
    ∃ past' memos', p.History s' past' memos' := by
  cases hstep with
  | advance hrun =>
    obtain ⟨cs, hpending, -⟩ := bind_eq_ok hrun
    cases cs with
    | nil => exact ⟨_, _, h.idled (.blocked hpending hrun)⟩
    | cons c others => exact ⟨_, _, h.tried (.advance hpending hrun)⟩
  | advanceWith c hrun =>
    obtain ⟨cs, hpending, -⟩ := bind_eq_ok hrun
    by_cases hc : c ∈ cs
    · exact ⟨_, _, h.tried (.advanceWith hpending hc hrun)⟩
    · exact ⟨_, _, h.idled (.absent hpending hc hrun)⟩
  | @backup _ found hrun =>
    cases found with
    | false => exact ⟨_, _, h.idled (.exhausted hrun)⟩
    | true =>
      obtain ⟨st, saved, choices, hsaved, -, -⟩ := backup_true hrun
      obtain ⟨-, hmemos⟩ := h.agrees
      rw [hsaved] at hmemos
      cases hmemos with
      | cons _ _ => exact ⟨_, _, h.resumed hrun⟩
  | set name value => exact ⟨_, _, h.idled (.set name value)⟩

/-- Whatever calls a host makes, and whatever its actions and values do, features are scoped to the
phrases. A move that begins a phrase begins it with no features, and puts the features that were
current on top of those of the phrases around. A move that completes a phrase leaves the features
that were current just before the move that has begun it. And when a saved state is taken up, the
features and those of all phrases around are what they were when it was saved. -/
theorem features_scoped {g : Grammar} (hg : g.Built) (hm : g.marked = true) (config : Config)
    (semantics : Option (Semantics σ)) (host : σ) :
    ∃ p, make g config semantics = .ok p ∧
      (∀ cs, ∃ s past memos, p.calls cs (.empty host) = .ok s ∧ p.History s past memos) ∧
      ∀ s past memos, p.History s past memos →
        (past.filter Past.stands).map Past.choice = s.state.path ∧
        (openers past).map Past.features = s.state.around ∧
        (∀ n others signal s', p.Tries s (.initial n) others signal s' →
          p.BeginsEmpty n s signal s' ∧ s'.state.around = s.state.features :: s.state.around) ∧
        (∀ type others s', p.Tries s (.final type) others .succeed s' → ∃ e rest n,
          openers past = e :: rest ∧ e.choice = .initial n ∧ s'.state.features = e.features ∧
          s'.state.around = rest.map Past.features) ∧
        ∀ s', p.backup s = .ok (true, s') → ∃ m rest, memos = m :: rest ∧
          s'.state.features = m.features ∧ s'.state.around = m.around := by
  let p : Parser σ := ⟨g, config, semantics⟩
  have hsound : p.grammar.Sound := hg.sound
  refine ⟨p, if_pos hm, fun cs => ?_, fun s past memos h => ?_⟩
  · obtain ⟨s, hrun, -, past, memos, h⟩ := calls_keep
      (P := fun s => s.Placed p ∧ ∃ past memos, p.History s past memos) hsound (fun _ h => h.1)
      (fun tokens goals host => ⟨.start p tokens goals host, _, _, .start tokens goals host⟩)
      (fun s s' h hstep => by
        obtain ⟨hplaced, past, memos, h⟩ := h
        exact ⟨hplaced.step hsound hstep, h.step hstep⟩) cs
      ⟨.start p [] [] host, _, _, .start [] [] host⟩
    exact ⟨s, past, memos, hrun, h⟩
  · obtain ⟨hs, hmemos⟩ := h.agrees
    refine ⟨hs.path, hs.around, fun n others signal s' htries => htries.initial,
      fun type others s' htries => ?_, fun s' hback => ?_⟩
    · have haround := hs.around
      rw [htries.final] at haround
      obtain ⟨e, rest, hopeners, hfeatures, hrest⟩ := List.map_eq_cons_iff.1 haround
      obtain ⟨n, hn⟩ := initial_of_mem_openers (hopeners ▸ List.mem_cons_self ..)
      exact ⟨e, rest, n, hopeners, hn, hfeatures.symm, hrest.symm⟩
    · obtain ⟨st, saved, choices, hsaved, hstate, -⟩ := backup_true hback
      rw [hsaved] at hmemos
      cases hmemos with
      | cons hm _ =>
        refine ⟨_, _, rfl, ?_, ?_⟩
        · rw [hstate, hm.features]
        · rw [hm.around, hstate]
          rfl

/-- The host sets a feature before the phrase and another one inside of it. Both the move that
completes the phrase and the return to the saved state leave the first one only. -/
theorem features_scoped_set :
    let g := ((Grammar.addNode { word := "a", id := "1", kind := .ends "T" none, initial := true }
      {}).addNode { word := "a", id := "2", kind := .ends "U" none, initial := true }).mark
    let names : Features → List String := List.map Prod.fst
    g.marked = true ∧ ∃ p s s' s'', make g {} (none : Option (Semantics Unit)) = .ok p ∧
      p.calls [.startTokens ["a"] ["T"], .set "outer" .nil, .advance, .set "inner" .nil]
        (.empty ()) = .ok s ∧
      names s.state.features = ["inner"] ∧ s.state.around.map names = [["outer"]] ∧
      p.advance s = .ok (.succeed, s') ∧ names s'.state.features = ["outer"] ∧
      s'.state.around = [] ∧ p.backup s = .ok (true, s'') ∧
      names s''.state.features = ["outer"] := by
  intro g names
  have hg : g.Built := .mark (.addNode (.addNode .new (by simp [Node.Fresh, Node.links]))
    (by simp [Node.Fresh, Node.links]))
  obtain ⟨p, hmake, hcalls, hscoped⟩ :=
    features_scoped hg rfl {} (none : Option (Semantics Unit)) ()
  obtain rfl : ⟨g, {}, none⟩ = p := Except.ok.inj hmake
  let p : Parser Unit := ⟨g, {}, none⟩
  let cs : List Call := [.startTokens ["a"] ["T"], .set "outer" .nil, .advance, .set "inner" .nil]
  obtain ⟨s, past, memos, hrun, hhistory⟩ := hcalls cs
  have hmaps : (p.calls cs (.empty ())).map
      (fun s => (names s.state.features, s.state.around.map names)) =
      .ok (["inner"], [["outer"]]) := by decide +kernel
  have hsteps : (p.calls cs (.empty ())).map
      (fun s => (p.pending s, (p.advance s).map Prod.fst,
        (p.backup s).map fun r => (r.1, names r.2.state.features))) =
      .ok (.ok [.final "T"], .ok .succeed, .ok (true, ["outer"])) := by decide +kernel
  rw [show p.calls cs _ = _ from hrun] at hmaps hsteps
  obtain ⟨hinner, houter⟩ := Prod.mk.inj (Except.ok.inj hmaps)
  obtain ⟨hpending, hrest⟩ := Prod.mk.inj (Except.ok.inj hsteps)
  obtain ⟨hadvance, hbackup⟩ := Prod.mk.inj hrest
  obtain ⟨⟨-, s'⟩, hadvance, rfl⟩ := map_eq_ok hadvance
  obtain ⟨⟨found, s''⟩, hback, hresumed⟩ := map_eq_ok hbackup
  obtain ⟨rfl, hagain⟩ := Prod.mk.inj hresumed
  obtain ⟨-, haround, -, hfinal, -⟩ := hscoped s past memos hhistory
  obtain ⟨e, rest, n, hopeners, -, hfeatures, hafter⟩ :=
    hfinal "T" [] s' (.advance hpending hadvance)
  have hkept : names e.features :: rest.map (names ∘ Past.features) = [["outer"]] := by
    rw [← houter, ← haround, hopeners]
    simp
  obtain ⟨hname, hrest⟩ := List.cons.inj hkept
  obtain rfl := List.map_eq_nil_iff.1 hrest
  exact ⟨rfl, p, s, s', s'', rfl, hrun, hinner, houter, hadvance, by rw [hfeatures, hname], hafter,
    hback, hagain⟩

end Parser

end StateDiagram
