import StateDiagram.Proofs.Parser.Performed

/-! Steps of a parse from where a session stands: to take the first of some legal choices, and to
take up the latest of the saved states. No step fails. -/
namespace StateDiagram

open StateDiagram.Tree Arena

variable {σ : Type} {p : Parser σ}

/-- The state that sets out on `c` while `others` remain. -/
def Post.setOut (c : Choice) (others : List Choice) (e : Post) : State :=
  if others.isEmpty then { e.state with lastMove := some c.move, choices := some others }
  else { e.state with
    lastMove := some c.move, choices := some others, unique := false, nextSub := e.subAhead }

/-- The saved states once `e` has set out on `c`. -/
def pushed (c : Choice) (others : List Choice) (e : Post) (saved : List Post) : List Post :=
  if others.isEmpty then saved else ⟨e.setOut c others, e.place⟩ :: saved

/-- The session whose active state stands at `x` and has set out on `c`. -/
def Session.setOut (c : Choice) (others : List Choice) (x : Place Tree) (s : Session σ) :
    Session σ :=
  { s with
    state := Post.setOut c others ⟨s.state, x⟩
    saved := if others.isEmpty then s.saved else Post.setOut c others ⟨s.state, x⟩ :: s.saved }

theorem Post.setOut_frame (c : Choice) (others : List Choice) (e : Post) :
    (e.setOut c others).head = e.state.head ∧ (e.setOut c others).current = e.state.current ∧
      (e.setOut c others).beginning = e.state.beginning ∧
      (e.setOut c others).frames = e.state.frames ∧ (e.setOut c others).path = e.state.path ∧
      (e.setOut c others).features = e.state.features ∧
      (e.setOut c others).choices = some others ∧
      (e.setOut c others).lastMove = some c.move := by
  unfold setOut
  split <;> exact ⟨rfl, rfl, rfl, rfl, rfl, rfl, rfl, rfl⟩

theorem Post.Lays.setOut {a : Arena} {e : Post} (h : e.Lays a) (c : Choice)
    (others : List Choice) : Post.Lays a ⟨e.setOut c others, e.place⟩ := by
  obtain ⟨hhead, hcurrent, hbeginning, hframes, -⟩ := Post.setOut_frame c others e
  exact h.restate hhead hcurrent hbeginning hframes

theorem Post.unique_setOut (c : Choice) (others : List Choice) (e : Post) :
    (e.setOut c others).unique = (others.isEmpty && e.state.unique) := by
  unfold setOut
  cases others <;> simp

/-- The choices at a state that have not been tried. -/
def Session.untried (p : Parser σ) (s : Session σ) (x : Place Tree) : List Choice :=
  s.state.choices.getD (p.offered s.goals .all x.view)

/-- What it makes of a session to take the first of the choices `cs`. -/
inductive Took (p : Parser σ) (cs : List Choice) (s : Session σ) (x : Place Tree)
    (saved : List Post) : Signal → Session σ → Place Tree → List Post → Prop where
  | blocked : cs = [] →
    Took p cs s x saved .noAdvance { s with state := { s.state with choices := some [] } } x saved
  | refused {c : Choice} {others : List Choice} {signal : Signal} {s' : Session σ} :
    cs = c :: others → Refused p c signal (s.setOut c others x) s' x
      (pushed c others ⟨s.state, x⟩ saved) →
        Took p cs s x saved signal s' x (pushed c others ⟨s.state, x⟩ saved)
  | vetoed {c : Choice} {others : List Choice} {v : Option Value} {signal : Signal}
    {s' : Session σ} {x' : Place Tree} {saved' : List Post} : cs = c :: others →
      signal ≠ .succeed → Made p c v signal (s.setOut c others x) s' x x'
        (pushed c others ⟨s.state, x⟩ saved) saved' → Took p cs s x saved signal s' x' saved'
  | made {c : Choice} {others : List Choice} {v : Option Value} {s' : Session σ}
    {x' : Place Tree} {saved' : List Post} : cs = c :: others →
      Made p c v .succeed (s.setOut c others x) s' x x' (pushed c others ⟨s.state, x⟩ saved) saved' →
        Took p cs s x saved .succeed (Parser.record c s') x' saved'

/-- What it makes of a session to take up the saved state `e`. -/
structure Resumed (p : Parser σ) (s s' : Session σ) (e : Post) : Prop where
  state : s'.state = { e.state with choices := s'.state.choices }
  arena : s'.arena = s.arena
  goals : s'.goals = s.goals
  host : s'.host = s.host
  steps : s'.steps = s.steps + 1
  settled : e.Settled → s'.state.choices = e.state.choices
  unsettled : ¬e.Settled → s'.state.choices = some (
    if e.state.lastMove = some .dummy then
      p.offered s.goals (.only (((e.state.choices.getD []).filter Choice.isDummy).filterMap
        Choice.node?)) e.place.view
    else (e.state.choices.getD []).filter Choice.isDummy)

namespace Stands

variable {s : Session σ} {x : Place Tree} {saved : List Post}

theorem subAhead_eq (h : Stands p s x saved) :
    Parser.subAhead s = .ok (Post.subAhead ⟨s.state, x⟩) := by
  obtain ⟨u, hu, hnext, -⟩ := h.lays.unit
  obtain ⟨-, hahead⟩ := h.lays.split
  simp only [Parser.subAhead, fetch_of_get? hu, bind, Except.bind, pure, Except.pure]
  cases hx : x.ahead with
  | nil =>
    have hnone : u.next = none := by simpa [hx, start] using hnext
    simp [hnone, Post.subAhead, hx]
  | cons t ts =>
    simp only [hx] at hnext hahead
    obtain ⟨v, -, hv, -, hsub, -⟩ := hahead.cons_inv
    have hsome : u.next = some t.slot := hnext
    have hstart : v.sub = t.parts.head?.map slot := by
      rw [hsub.start]
      cases t.parts <;> rfl
    simp [hsome, fetch_of_get? hv, hstart, Post.subAhead, hx]

theorem commit_eq (h : Stands p s x saved) (c : Choice) (others : List Choice) :
    Parser.commit c others s = .ok (s.setOut c others x) := by
  simp only [Parser.commit, h.subAhead_eq, bind, Except.bind, pure, Except.pure]
  cases others <;> simp [Session.setOut, Post.setOut]

/-- The subphrase of the next unit is old. -/
theorem subAhead_lt (h : Stands p s x saved) {j : Nat}
    (hj : Post.subAhead ⟨s.state, x⟩ = some j) : j < s.arena.size := by
  simp only [Post.subAhead, Option.bind_eq_some_iff, Option.map_eq_some_iff] at hj
  obtain ⟨t, ht, u, hu, rfl⟩ := hj
  refine h.lays.inner_lt ?_
  rw [Post.inner_units]
  refine List.mem_append_right _ (mem_inner_of_mem (List.mem_of_mem_head? ht) ?_)
  exact mem_slotsOf.2 (.inl (List.mem_map_of_mem (List.mem_of_mem_head? hu)))

/-- A session that has set out stands where it stood; it holds on to its chain if it is saved. -/
theorem setOut (h : Stands p s x saved) (c : Choice) {others : List Choice}
    (hothers : ∀ c ∈ others, Parser.Legal p x.view c) :
    Stands p (s.setOut c others x) x (pushed c others ⟨s.state, x⟩ saved) := by
  let e : Post := ⟨Post.setOut c others ⟨s.state, x⟩, x⟩
  obtain ⟨hhead, hcurrent, hbeginning, hframes, -, -, hchoices, -⟩ :=
    Post.setOut_frame c others ⟨s.state, x⟩
  have hunique : e.state.unique = true → s.state.unique = true := fun hu =>
    (Bool.and_eq_true_iff.1 (Post.unique_setOut c others ⟨s.state, x⟩ ▸ hu)).2
  have hlegal : ∀ cs, e.state.choices = some cs → ∀ c ∈ cs, Parser.Legal p x.view c := by
    intro cs hcs
    obtain rfl := Option.some.inj (hchoices.symm.trans hcs)
    exact hothers
  have hstanding : Standing p s.arena e saved :=
    h.standing.restate _ hhead hcurrent hbeginning hframes hunique hlegal
  cases others with
  | nil => exact ⟨hstanding, h.stack⟩
  | cons d ds =>
    have hwaiting : Waiting p s.arena e :=
      ⟨rfl, ⟨d :: ds, rfl, fun c hc _ => hothers c hc⟩, fun _ hj => h.subAhead_lt hj⟩
    refine ⟨hstanding.save hwaiting, ?_⟩
    change Post.setOut c (d :: ds) ⟨s.state, x⟩ :: s.saved = _
    rw [h.stack]
    rfl

/-- The move stands: it is counted and put on the path. -/
theorem record (h : Stands p s x saved) (c : Choice) : Stands p (Parser.record c s) x saved :=
  ⟨h.standing.restate _ rfl rfl rfl rfl id h.standing.choices, h.stack⟩

/-- To take a choice is to set out on it and to make its move, which is recorded if it stands. -/
theorem take_cons {c : Choice} {others : List Choice} {signal : Signal} {s' : Session σ}
    (h : Stands p s x saved) (hrun : p.perform c (s.setOut c others x) = .ok (signal, s')) :
    p.take (c :: others) s = .ok (signal,
      if signal = .succeed then Parser.record c s' else s') := by
  simp only [Parser.take, h.commit_eq, hrun, bind, Except.bind]
  cases signal <;> rfl

theorem take {cs : List Choice} (h : Stands p s x saved) (hg : p.grammar.Sound)
    (hcs : ∀ c ∈ cs, Parser.Legal p x.view c) :
    ∃ signal s' x' saved', p.take cs s = .ok (signal, s') ∧
      Took p cs s x saved signal s' x' saved' := by
  cases cs with
  | nil => exact ⟨_, _, x, saved, rfl, .blocked rfl⟩
  | cons c others =>
    have hout := h.setOut c fun c' hc' => hcs c' (List.mem_cons_of_mem c hc')
    obtain ⟨signal, s', hrun, hmade⟩ := hout.perform hg (hcs c (List.mem_cons_self ..))
    rw [h.take_cons hrun]
    obtain ⟨v, x', saved', hmade⟩ | hrefused := hmade
    · by_cases hs : signal = .succeed
      · subst hs
        exact ⟨_, _, x', saved', rfl, .made rfl hmade⟩
      · rw [if_neg hs]
        exact ⟨signal, s', x', saved', rfl, .vetoed rfl hs hmade⟩
    · rw [if_neg hrefused.signal]
      exact ⟨signal, s', x, _, rfl, .refused rfl hrefused⟩

theorem pending_eq (h : Stands p s x saved) (hg : p.grammar.Sound) :
    p.pending s = .ok (s.untried p x) := by
  unfold Parser.pending Session.untried
  cases s.state.choices with
  | none => exact h.choices_eq hg .all
  | some cs => rfl

theorem legal_untried (h : Stands p s x saved) :
    ∀ c ∈ s.untried p x, Parser.Legal p x.view c := by
  intro c hc
  unfold Session.untried at hc
  cases hcs : s.state.choices with
  | none =>
    rw [hcs] at hc
    exact Parser.legal_of_mem_offered hc
  | some cs =>
    rw [hcs] at hc
    exact h.standing.choices cs hcs c hc

theorem advance (h : Stands p s x saved) (hg : p.grammar.Sound) :
    ∃ signal s' x' saved', p.advance s = .ok (signal, s') ∧
      Took p (s.untried p x) s x saved signal s' x' saved' := by
  obtain ⟨signal, s', x', saved', hrun, htook⟩ := h.take hg h.legal_untried
  refine ⟨signal, s', x', saved', ?_, htook⟩
  simp only [Parser.advance, h.pending_eq hg, bind, Except.bind, hrun]

theorem advanceWith (h : Stands p s x saved) (hg : p.grammar.Sound) (c : Choice) :
    (c ∉ s.untried p x ∧ p.advanceWith c s = .ok (.noAdvance,
        { s with state := { s.state with choices := some (s.untried p x) } }) ∧
      Stands p { s with state := { s.state with choices := some (s.untried p x) } } x saved) ∨
    (c ∈ s.untried p x ∧ ∃ signal s' x' saved', p.advanceWith c s = .ok (signal, s') ∧
      Took p (c :: (s.untried p x).erase c) s x saved signal s' x' saved') := by
  simp only [Parser.advanceWith, h.pending_eq hg, bind, Except.bind, pure, Except.pure,
    List.contains_iff_mem]
  by_cases hc : c ∈ s.untried p x
  · have hlegal : ∀ c' ∈ c :: (s.untried p x).erase c, Parser.Legal p x.view c' :=
      List.forall_mem_cons.2 ⟨h.legal_untried c hc, fun c' hc' =>
        h.legal_untried c' (List.mem_of_mem_erase hc')⟩
    obtain ⟨signal, s', x', saved', hrun, htook⟩ := h.take hg hlegal
    exact .inr ⟨hc, signal, s', x', saved', by rw [if_pos hc, hrun], htook⟩
  · refine .inl ⟨hc, by rw [if_neg hc], h.standing.restate _ rfl rfl rfl rfl id ?_, h.stack⟩
    intro cs hcs
    obtain rfl := Option.some.inj hcs
    exact h.legal_untried

/-- The choices of a saved state are kept if its next unit is as it was, and made anew otherwise. -/
theorem revised_eq {e : Post} (hlays : e.Lays s.arena) (hstate : s.state = e.state)
    (hat : ∀ o ∈ e.place.view.opened, ∃ node, p.at? o = some node) :
    (e.Settled → p.revised s = .ok e.state.choices) ∧
      (¬e.Settled → p.revised s = .ok (some (
        if e.state.lastMove = some .dummy then
          p.offered s.goals (.only (((e.state.choices.getD []).filter Choice.isDummy).filterMap
            Choice.node?)) e.place.view
        else (e.state.choices.getD []).filter Choice.isDummy))) := by
  obtain ⟨u, hu, hnext, -⟩ := hlays.unit
  obtain ⟨-, hahead⟩ := hlays.split
  have hchoices : ∀ dummies, p.choices s dummies = .ok (p.offered s.goals dummies e.place.view) :=
    fun dummies => Parser.choices_eq (by rwa [hstate]) hat dummies
  have hfetch : s.arena.fetch s.state.current = .ok u := by
    rw [hstate]
    exact fetch_of_get? hu
  simp only [Parser.revised, hfetch, bind, Except.bind, pure, Except.pure]
  cases hx : e.place.ahead with
  | nil =>
    have hnone : u.next = none := by simpa [hx, start] using hnext
    simp only [hnone]
    exact ⟨fun _ => by rw [hstate], fun hn => absurd (.inl hx) hn⟩
  | cons t ts =>
    rw [hx] at hnext hahead
    obtain ⟨v, -, hv, -, hsub, -⟩ := hahead.cons_inv
    have hsome : u.next = some t.slot := hnext
    have hstart : v.sub = e.subAhead := by
      rw [hsub.start]
      cases hp : t.parts <;> simp [Post.subAhead, hx, hp, start]
    have hset : e.Settled ↔ v.sub = s.state.nextSub := by
      rw [Post.Settled, hstart, hx, hstate]
      simp [eq_comm]
    simp only [hsome, fetch_of_get? hv, hset]
    refine ⟨fun heq => by rw [if_pos heq, hstate], fun hne => ?_⟩
    rw [if_neg hne]
    simp only [hchoices, hstate]
    split <;> simp_all

/-- The latest saved state is taken up with the choices that it has left. -/
theorem backup {e : Post} (h : Stands p s x (e :: saved)) (hg : p.grammar.Sound) :
    ∃ s', p.backup s = .ok (true, s') ∧ Stands p s' e.place saved ∧ Resumed p s s' e := by
  have he : e ∈ (⟨s.state, x⟩ : Post) :: e :: saved := by simp
  obtain ⟨-, ⟨cs, hcs, hlegal⟩, -⟩ := h.standing.waiting e (List.mem_cons_self ..)
  have hstack : s.saved = e.state :: saved.map Post.state := h.stack
  let s₁ : Session σ := { s with state := e.state, saved := saved.map Post.state }
  have hat : ∀ o ∈ e.place.view.opened, ∃ node, p.at? o = some node := by
    intro o ho
    obtain ⟨ws, hrow⟩ := (h.standing.proper e he).opened o ho
    exact hrow.at_node hg
  obtain ⟨hsettled, hunsettled⟩ := revised_eq (s := s₁) (h.standing.lays e he) rfl hat
  obtain ⟨choices, hrun⟩ : ∃ choices, p.revised s₁ = .ok choices := by
    by_cases hset : e.Settled
    · exact ⟨_, hsettled hset⟩
    · exact ⟨_, hunsettled hset⟩
  have hlegal' : ∀ cs', choices = some cs' → ∀ c ∈ cs', Parser.Legal p e.place.view c := by
    intro cs' hcs' c hc
    by_cases hset : e.Settled
    · have heq := Except.ok.inj ((hsettled hset).symm.trans hrun)
      obtain rfl : cs = cs' := Option.some.inj (hcs.symm.trans (heq.trans hcs'))
      exact hlegal c hc (.inr hset)
    · have heq := Option.some.inj ((Except.ok.inj ((hunsettled hset).symm.trans hrun)).trans hcs')
      subst heq
      split at hc
      · exact Parser.legal_of_mem_offered hc
      · simp only [hcs, Option.getD_some, List.mem_filter] at hc
        exact hlegal c hc.1 (.inl hc.2)
  refine ⟨{ s₁ with state := { e.state with choices }, steps := s.steps + 1 }, ?_,
    ⟨h.standing.resume hlegal', rfl⟩, ⟨rfl, rfl, rfl, rfl, rfl, fun hset => ?_, fun hset => ?_⟩⟩
  · simp only [Parser.backup, hstack, bind, Except.bind, pure, Except.pure]
    rw [show p.revised { s with state := e.state, saved := saved.map Post.state } = .ok choices
      from hrun]
  · exact (Except.ok.inj ((hsettled hset).symm.trans hrun)).symm
  · exact (Except.ok.inj ((hunsettled hset).symm.trans hrun)).symm

theorem backup_nil (h : Stands p s x []) : p.backup s = .ok (false, s) := by
  have hstack : s.saved = [] := h.stack
  simp only [Parser.backup, hstack, pure, Except.pure]

end Stands

end StateDiagram
