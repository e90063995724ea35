import StateDiagram.Proofs.Parser.Leaves

/-! No stale choice survives a collapse. The choices of a state are computed once and tried one
after the other, and the next unit may have been collapsed in place in the meantime. What is left
to try is still among the choices that would be computed now. -/
namespace StateDiagram

open StateDiagram.Tree Arena

variable {σ : Type} {p : Parser σ}

namespace Parser

variable {goals : List String} {x y : Place Form} {c : Choice}

/-- What is offered depends on the open phrases and on the word of the next unit. -/
theorem offered_congr {d : Dummies} (ho : x.opened = y.opened)
    (hw : x.ahead.head?.map Form.word = y.ahead.head?.map Form.word) :
    p.offered goals d x = p.offered goals d y := by
  obtain ⟨os, us⟩ := x
  obtain ⟨os', us'⟩ := y
  obtain rfl : os = os' := ho
  cases os with
  | nil =>
    cases us <;> cases us' <;> simp at hw
    · rfl
    · simp [offered, hw]
  | cons o os => simp only [offered, hw]

theorem dummyChoice_sublist (d : Dummies) (l : Link) :
    (p.dummyChoice d l).Sublist (p.dummyChoice .all l) := by
  unfold dummyChoice
  cases p.grammar.target? l with
  | none => exact .refl _
  | some n => cases d.admits n <;> simp [Dummies.admits]

theorem linkChoices_sublist (d : Dummies) (types : Option (List String)) (next : Option String)
    (opened : Bool) (ls : List Link) : (p.linkChoices types next d opened ls).Sublist
      (p.linkChoices types next .all opened ls) := by
  induction ls generalizing opened with
  | nil => exact .refl _
  | cons l ls ih =>
    unfold linkChoices
    split
    · exact (dummyChoice_sublist d l).append (ih opened)
    · cases next with
      | none => exact ih opened
      | some word =>
        simp only
        split
        · exact (List.Sublist.refl _).append (ih true)
        · exact (List.Sublist.refl _).append (ih opened)

/-- Whatever dummy moves are left out, the other choices are those that are always offered. -/
theorem offered_sublist (goals : List String) (d : Dummies) (x : Place Form) :
    (p.offered goals d x).Sublist (p.offered goals .all x) := by
  unfold offered
  split
  · exact .refl _
  · split
    · split
      · exact .refl _
      · exact linkChoices_sublist ..
    · exact .refl _

theorem openings_not_dummy {word : String} {expected : Option (List String)} :
    (p.openings word expected).filter Choice.isDummy = [] := by
  refine List.filter_eq_nil_iff.2 fun c hc => ?_
  obtain ⟨n, rfl⟩ := mem_openings hc
  simp [Choice.isDummy]

/-- The dummy moves that links offer. -/
theorem filter_linkChoices (d : Dummies) (types : Option (List String)) (next : Option String)
    (opened : Bool) (ls : List Link) :
    (p.linkChoices types next d opened ls).filter Choice.isDummy =
      (ls.filter fun l => l.word = p.config.dummyWord).flatMap (p.dummyChoice d) := by
  have hdummy : ∀ l, (p.dummyChoice d l).filter Choice.isDummy = p.dummyChoice d l := fun l => by
    refine List.filter_eq_self.2 fun c hc => ?_
    obtain ⟨n, -, -, rfl⟩ := mem_dummyChoice.1 hc
    rfl
  have hstep : ∀ word l, (p.stepChoice word l).filter Choice.isDummy = [] := fun word l => by
    refine List.filter_eq_nil_iff.2 fun c hc => ?_
    obtain ⟨-, n, -, rfl⟩ := mem_stepChoice.1 hc
    simp [Choice.isDummy]
  induction ls generalizing opened with
  | nil => rfl
  | cons l ls ih =>
    unfold linkChoices
    by_cases hl : l.word = p.config.dummyWord
    · simp [hl, ih, hdummy]
    · rw [if_neg hl]
      cases next with
      | none => simp [hl, ih]
      | some word =>
        simp only
        split <;> simp [hl, ih, hstep, openings_not_dummy]

/-- Dummy moves do not depend on what comes next. -/
theorem filter_offered (d : Dummies) (ho : x.opened = y.opened) :
    (p.offered goals d x).filter Choice.isDummy = (p.offered goals d y).filter Choice.isDummy := by
  obtain ⟨os, us⟩ := x
  obtain ⟨os', us'⟩ := y
  obtain rfl : os = os' := ho
  cases os with
  | nil => cases us <;> cases us' <;> simp [offered, openings_not_dummy]
  | cons o os =>
    simp only [offered]
    split
    · split
      · rfl
      · rw [filter_linkChoices, filter_linkChoices]
    · rfl

/-- A move to the next unit asks for the word that this unit has: a phrase begins at a node of that
word or of the word that stands for anything, and a phrase goes on along a link for one of them. -/
def Suits (p : Parser σ) (s : Session σ) : Choice → Prop
  | .initial n => ∃ u word, s.arena.fetch s.state.current = .ok u ∧
      nextWord s u = .ok (some word) ∧ (n ∈ p.entry word ∨ n ∈ p.entry p.config.anythingWord)
  | .nonDummy n => ∃ u word m node l, s.arena.fetch s.state.current = .ok u ∧
      nextWord s u = .ok (some word) ∧ u.node = some m ∧ p.grammar.nodes[m]? = some node ∧
        l ∈ node.links ∧ (word = l.word ∨ l.word = p.config.anythingWord) ∧
          p.grammar.target? l = some n
  | _ => True

theorem suits_of_mem_openings {s : Session σ} {u : Phrase} {word : String}
    {expected : Option (List String)} (hu : s.arena.fetch s.state.current = .ok u)
    (hword : nextWord s u = .ok (some word)) (hc : c ∈ p.openings word expected) :
    p.Suits s c := by
  rw [openings, List.mem_append, mem_initials, mem_initials] at hc
  obtain ⟨n, hn, -, -, -, rfl⟩ | ⟨n, hn, -, -, -, rfl⟩ := hc
  · exact ⟨u, word, hu, hword, .inl hn⟩
  · exact ⟨u, word, hu, hword, .inr hn⟩

/-- The choices of a state suit it. -/
theorem suits_of_mem_choices {s : Session σ} {d : Dummies} {cs : List Choice}
    (h : p.choices s d = .ok cs) (hc : c ∈ cs) : p.Suits s c := by
  obtain ⟨u, hu, h⟩ := bind_eq_ok h
  obtain ⟨next, hnext, h⟩ := bind_eq_ok h
  split at h
  · obtain rfl := Except.ok.inj h
    cases next with
    | none => cases hc
    | some word => exact suits_of_mem_openings hu hnext hc
  · cases hm : u.node with
    | none => simp [hm] at h
    | some m =>
      rw [hm] at h
      obtain ⟨node, hnode, h⟩ := bind_eq_ok h
      obtain rfl := Except.ok.inj h
      cases hk : node.kind with
      | ends type value =>
        rw [hk] at hc
        obtain rfl := List.mem_singleton.1 hc
        trivial
      | continues links types =>
        rw [hk] at hc
        obtain ⟨l, -, -, hdummy⟩ | ⟨word, rfl, ⟨l, hl, -, hstep⟩ | ⟨-, -, hopening⟩⟩ :=
          mem_linkChoices.1 hc
        · obtain ⟨n, -, -, rfl⟩ := mem_dummyChoice.1 hdummy
          trivial
        · obtain ⟨hmatch, n, ht, rfl⟩ := mem_stepChoice.1 hstep
          have hlinks : node.links = links := by rw [Node.links, hk]
          exact ⟨u, word, m, node, l, hu, hnext, hm, nodeOf_eq hnode, hlinks ▸ hl, hmatch, ht⟩
        · exact suits_of_mem_openings hu hnext hopening

end Parser

/-- What a saved state has left to try is offered there, as often as it is left: all of it if the
next unit has not been collapsed, the dummy moves in any case. -/
structure Post.UpToDate (p : Parser σ) (goals : List String) (e : Post) : Prop where
  settled : e.Settled →
    (e.state.choices.getD []).Subperm (p.offered goals .all e.place.view)
  dummies : ((e.state.choices.getD []).filter Choice.isDummy).Subperm
    (p.offered goals .all e.place.view)

/-- All that is left to try at a session or a saved state is offered there. -/
structure UpToDate (p : Parser σ) (s : Session σ) (x : Place Tree) (saved : List Post) : Prop where
  active : (s.untried p x).Subperm (p.offered s.goals .all x.view)
  saved : ∀ e ∈ saved, e.UpToDate p s.goals

/-- A saved state whose next unit is as it was when the state was saved has kept that unit. -/
theorem Carried.settled {e f g : Post} {a b : Arena} {x : Place Tree} (h : Carried p e a b x f g)
    (hg : g.Settled) :
    f.Settled ∧ g.place.view.ahead.head? = f.place.view.ahead.head? := by
  cases h.ahead with
  | same hahead hsub => exact ⟨hg.congr h.state.symm hahead.symm hsub.symm, by rw [hahead]⟩
  | @collapsed o pre os i type v _ _ _ _ _ hx hfa hga hnil hcons =>
    cases pre with
    | nil => exact absurd hg (hnil rfl)
    | cons u pre =>
      have hne : g.place.ahead ≠ [] := fun hnone => by simp [Place.view, hnone] at hga
      refine ⟨.inr ?_, by rw [hfa, hga]; rfl⟩
      rw [← h.state, ← hcons (List.cons_ne_nil u pre), hg.resolve_left hne]

/-- A saved state stays up to date when the active one moves on. -/
theorem Carried.upToDate {e f g : Post} {a b : Arena} {x : Place Tree} {goals : List String}
    (h : Carried p e a b x f g) (hf : f.UpToDate p goals) : g.UpToDate p goals := by
  have hopened : f.place.view.opened = g.place.view.opened := by
    rw [Place.view, Place.view, h.opened]
  refine ⟨fun hset => ?_, ?_⟩
  · obtain ⟨hset', hhead⟩ := h.settled hset
    rw [h.state, ← Parser.offered_congr hopened (by rw [hhead])]
    exact hf.settled hset'
  · have hdummies := hf.dummies.filter Choice.isDummy
    simp only [Parser.filter_offered .all hopened, List.filter_filter, Bool.and_self] at hdummies
    rw [h.state]
    exact hdummies.trans List.filter_sublist.subperm

variable {s s' : Session σ} {x x' : Place Tree} {saved saved' : List Post}

namespace UpToDate

theorem start (p : Parser σ) (tokens goals : List String) (host : σ) :
    UpToDate p (.start tokens goals host) ⟨[], tokenUnits 1 tokens⟩ [] :=
  ⟨.refl _, by simp⟩

/-- The states that are saved when the active one sets out on a choice. -/
theorem pushed (h : UpToDate p s x saved) {c : Choice} {others : List Choice}
    (hcs : (c :: others).Subperm (s.untried p x)) :
    ∀ e ∈ pushed c others ⟨s.state, x⟩ saved, e.UpToDate p s.goals := by
  have hothers : others.Subperm (p.offered s.goals .all x.view) :=
    ((List.sublist_cons_self c others).subperm.trans hcs).trans h.active
  unfold StateDiagram.pushed
  cases others with
  | nil => exact h.saved
  | cons d ds =>
    exact List.forall_mem_cons.2
      ⟨⟨fun _ => hothers, List.filter_sublist.subperm.trans hothers⟩, h.saved⟩

/-- A move leads to a place whose choices are yet to be computed, or are computed at once. -/
theorem made {c : Choice} {others : List Choice} {v : Option Value} {signal : Signal}
    (h : UpToDate p s x saved) (hcs : (c :: others).Subperm (s.untried p x))
    (hm : Made p c v signal (s.setOut c others x) s' x x'
      (StateDiagram.pushed c others ⟨s.state, x⟩ saved) saved') : UpToDate p s' x' saved' := by
  have hgoals : s'.goals = s.goals := hm.moved.goals
  refine ⟨?_, fun g hg => ?_⟩
  · by_cases hc : ∃ type, c = .final type
    · rw [Session.untried, (hm.completed hc).2]
      split
      · exact .refl _
      · rw [hgoals]
        exact (Parser.offered_sublist s.goals .none x'.view).subperm
    · rw [Session.untried, hm.entered fun type heq => hc ⟨type, heq⟩]
      exact .refl _
  · obtain ⟨f, hf, hcarried⟩ := exists_mem_of_forall₂ hm.moved.carried hg
    rw [hgoals]
    exact hcarried.upToDate (h.pushed hcs f hf)

theorem took {cs : List Choice} {signal : Signal} (h : UpToDate p s x saved)
    (hcs : cs.Subperm (s.untried p x)) (ht : Took p cs s x saved signal s' x' saved') :
    UpToDate p s' x' saved' := by
  cases ht with
  | blocked _ => exact ⟨List.nil_subperm, h.saved⟩
  | @refused c others _ _ heq hr =>
    subst heq
    obtain ⟨features, host, rfl⟩ := hr.same
    have hleft : (s.setOut c others x).state.choices = some others :=
      (Post.setOut_frame c others ⟨s.state, x⟩).2.2.2.2.2.2.1
    refine ⟨?_, h.pushed hcs⟩
    simp only [Session.untried, Parser.setFeatures, hleft, Option.getD_some]
    exact ((List.sublist_cons_self c others).subperm.trans hcs).trans h.active
  | vetoed heq _ hm =>
    subst heq
    exact h.made hcs hm
  | made heq hm =>
    subst heq
    have hmade := h.made hcs hm
    exact ⟨hmade.active, hmade.saved⟩

/-- A state that is taken up gives up the choices that a collapse has spoilt, or computes what is
offered anew. -/
theorem resumed {e : Post} (h : UpToDate p s x (e :: saved)) (hr : Resumed p s s' e) :
    UpToDate p s' e.place saved := by
  have he := h.saved e (List.mem_cons_self ..)
  refine ⟨?_, fun f hf => ?_⟩
  · rw [hr.goals]
    by_cases hset : e.Settled
    · rw [Session.untried, hr.settled hset, hr.goals]
      have hleft := he.settled hset
      cases hcs : e.state.choices with
      | none => exact .refl _
      | some cs =>
        rw [hcs] at hleft
        exact hleft
    · rw [Session.untried, hr.unsettled hset, Option.getD_some]
      split
      · exact (Parser.offered_sublist ..).subperm
      · exact he.dummies
  · rw [hr.goals]
    exact h.saved f (List.mem_cons_of_mem e hf)

theorem stepped (h : UpToDate p s x saved) (hstep : Stepped p s x saved s' x' saved') :
    UpToDate p s' x' saved' := by
  cases hstep with
  | took hcs ht => exact h.took hcs ht
  | kept _ _ hgoals _ huntried => exact ⟨by rw [huntried, hgoals]; exact h.active, hgoals ▸ h.saved⟩
  | resumed heq _ hr =>
    subst heq
    exact h.resumed hr

end UpToDate

/-- The session stands somewhere, and its choices are up to date. -/
def Session.UpToDate (p : Parser σ) (s : Session σ) : Prop :=
  ∃ x saved, Stands p s x saved ∧ StateDiagram.UpToDate p s x saved

namespace Session.UpToDate

theorem placed (h : s.UpToDate p) : s.Placed p := by
  obtain ⟨x, saved, hs, -⟩ := h
  exact ⟨x, saved, hs⟩

theorem start (p : Parser σ) (tokens goals : List String) (host : σ) :
    (Session.start tokens goals host).UpToDate p :=
  ⟨_, _, stands_start p tokens goals host, .start p tokens goals host⟩

theorem step (h : s.UpToDate p) (hg : p.grammar.Sound) (hstep : p.Step s s') : s'.UpToDate p := by
  obtain ⟨x, saved, hs, h⟩ := h
  obtain ⟨x', saved', hstepped⟩ := hs.step hg hstep
  exact ⟨x', saved', hstepped.stands hs, h.stepped hstepped⟩

/-- What is left to try is among what would be computed now. -/
theorem fresh (h : s.UpToDate p) (hg : p.grammar.Sound) {left : List Choice}
    (hleft : s.state.choices = some left) :
    ∃ fresh, p.choices s .all = .ok fresh ∧ ∀ c ∈ left, c ∈ fresh := by
  obtain ⟨x, saved, hs, h⟩ := h
  refine ⟨_, hs.choices_eq hg .all, fun c hc => h.active.subset ?_⟩
  rw [Session.untried, hleft]
  exact hc

end Session.UpToDate

namespace Parser

/-- Wherever the calls of a host have led, the choices that are left to try are among those that
would be computed afresh. And if the latest saved state is taken up, each of its moves to the next
unit suits the word that this unit has by then. -/
theorem choices_upToDate {g : Grammar} (hg : g.Built) (hm : g.marked = true) (config : Config)
    (semantics : Option (Semantics σ)) (host : σ) (cs : List Call) :
    ∃ p s, make g config semantics = .ok p ∧ p.calls cs (.empty host) = .ok s ∧
      (∀ left, s.state.choices = some left →
        ∃ fresh, p.choices s .all = .ok fresh ∧ ∀ c ∈ left, c ∈ fresh) ∧
      ∃ found s', p.backup s = .ok (found, s') ∧
        ∀ left, s'.state.choices = some left → ∀ c ∈ left, p.Suits s' c := by
  let p : Parser σ := ⟨g, config, semantics⟩
  have hsound : p.grammar.Sound := hg.sound
  obtain ⟨s, hrun, hs⟩ := calls_keep (P := Session.UpToDate p) hsound (fun _ h => h.placed)
    (.start p) (fun _ _ h hstep => h.step hsound hstep) cs (.start p [] [] host)
  obtain ⟨found, s', hback, -⟩ := hs.placed.backup hsound
  refine ⟨p, s, if_pos hm, hrun, fun left hleft => hs.fresh hsound hleft, found, s', hback,
    fun left hleft c hc => ?_⟩
  obtain ⟨fresh, hfresh, hmem⟩ := (hs.step hsound (.backup hback)).fresh hsound hleft
  exact suits_of_mem_choices hfresh (hmem c hc)

/-- A noun phrase that is collapsed after the search has set out on it: behind it one choice is left
to try, and the choice to take its first unit for anything is gone. -/
theorem choices_upToDate_collapsed :
    let g := (Grammar.ofNodes [
      { word := "x", id := "1", initial := true,
        kind := .continues [{ word := "NP", id := "1" }, { word := "ANYTHING", id := "1" }] none },
      { word := "the", id := "1", initial := true,
        kind := .continues [{ word := "dog", id := "1" }] none },
      { word := "dog", id := "1", kind := .ends "NP" none },
      { word := "NP", id := "1", kind := .ends "S" none },
      { word := "ANYTHING", id := "1", kind := .ends "S" none }] []).mark
    g.marked = true ∧ ∃ p s, make g {} (none : Option (Semantics Unit)) = .ok p ∧
      p.calls [.startTokens ["x", "the", "dog"] ["S"], .parse 9, .backup] (.empty ()) = .ok s ∧
      s.saved.map State.choices = [some [.nonDummy 4]] ∧ s.state.choices = some [.nonDummy 4] ∧
      (∃ fresh, p.choices s .all = .ok fresh ∧ .nonDummy 4 ∈ fresh) ∧
      ∃ found s', p.backup s = .ok (found, s') ∧ s'.state.choices = some [] := by
  intro g
  have hg : g.Built := .mark (Grammar.built_ofNodes (by simp [Node.Fresh, Node.links]) _)
  obtain ⟨p, s, hmake, hrun, hfresh, found, s', hback, -⟩ := choices_upToDate hg rfl {}
    (none : Option (Semantics Unit)) () [.startTokens ["x", "the", "dog"] ["S"], .parse 9, .backup]
  obtain rfl : ⟨g, {}, none⟩ = p := Except.ok.inj hmake
  let p : Parser Unit := ⟨g, {}, none⟩
  have hcomputed : (p.calls [.startTokens ["x", "the", "dog"] ["S"], .parse 9, .backup]
      (.empty ())).map (fun s => (s.saved.map State.choices, s.state.choices,
        (p.backup s).map fun r => r.2.state.choices)) =
      .ok ([some [.nonDummy 4]], some [.nonDummy 4], .ok (some [])) := by decide +kernel
  rw [hrun] at hcomputed
  obtain ⟨hsaved, hrest⟩ := Prod.mk.inj (Except.ok.inj hcomputed)
  obtain ⟨hleft, hbacked⟩ := Prod.mk.inj hrest
  obtain ⟨fresh, hchoices, hmem⟩ := hfresh _ hleft
  obtain ⟨⟨found', s''⟩, hback', hgone⟩ := map_eq_ok hbacked
  obtain ⟨rfl, rfl⟩ := Prod.mk.inj (Except.ok.inj (hback.symm.trans hback'))
  exact ⟨rfl, p, s, rfl, hrun, hsaved, hleft, ⟨fresh, hchoices, hmem _ (List.mem_singleton.2 rfl)⟩,
    found, s', hback, hgone⟩

end Parser

end StateDiagram
