import StateDiagram.Proofs.Parser.Certain

/-! What saved states have left to try when phrases that they have to come are collapsed in place.
If the phrase comes next, other choices are left than before, but they lead to the same complete
parses, except for those that the active state goes on to. -/
namespace StateDiagram

open StateDiagram.Tree Arena

variable {σ : Type} {p : Parser σ}

theorem Choice.stays_of_isDummy {c : Choice} (h : c.isDummy = true) : c.stays = true := by
  cases c <;> first | rfl | cases h

namespace Post

/-- The dummy moves that are left. -/
def skips (e : Post) : List Choice :=
  (e.state.choices.getD []).filter Choice.isDummy

/-- The choices that a saved state will have when it is taken up. -/
def Left (p : Parser σ) (goals : List String) (e : Post) (c : Choice) : Prop :=
  e.Settled ∧ c ∈ e.state.choices.getD [] ∨
    ¬e.Settled ∧ c ∈ if e.state.lastMove = some .dummy then
      p.offered goals (.only (e.skips.filterMap Choice.node?)) e.place.view else e.skips

/-- The choices that a saved state may have when it is taken up: inside a phrase it can get any that
is not a dummy move. -/
def MayTry (p : Parser σ) (goals : List String) (e : Post) (c : Choice) : Prop :=
  e.Left p goals c ∨ e.place.view.opened ≠ [] ∧ c ∈ p.offered goals .none e.place.view

/-- Whatever a saved state may try leads to one of the parses `T`. It has begun a phrase already
where its next unit can do nothing else, unless it has made a dummy move last, inside of a phrase. -/
structure Faithful (p : Parser σ) (goals : List String) (T : Place Form → Prop) (e : Post) :
    Prop where
  sound : ∀ c y, e.MayTry p goals c → p.Lands goals e.place.view c y → T y
  begun : e.Settled → e.state.lastMove ≠ some .dummy → ∀ u n, e.place.view.ahead.head? = some u →
    p.Only u.word n → ∀ c ∈ e.state.choices.getD [], c.isDummy = true
  inside : e.state.lastMove = some .dummy → e.place.view.opened ≠ []

variable {goals : List String} {T : Place Form → Prop} {e f g : Post} {c : Choice} {y : Place Form}

theorem settled_iff : e.Settled ↔
    e.place.view.ahead.head? = none ∨ e.state.nextSub = e.subAhead := by
  simp [Settled, Place.view]

theorem UpToDate.of_left (h : e.UpToDate p goals) (hl : e.Left p goals c) :
    c ∈ p.offered goals .all e.place.view := by
  obtain ⟨hset, hc⟩ | ⟨-, hc⟩ := hl
  · exact (h.settled hset).subset hc
  · split at hc
    · exact (Parser.offered_sublist ..).subset hc
    · exact h.dummies.subset hc

theorem UpToDate.legal (h : e.UpToDate p goals) (hc : e.MayTry p goals c) :
    p.Legal e.place.view c := by
  obtain hc | ⟨-, hc⟩ := hc
  · exact Parser.legal_of_mem_offered (h.of_left hc)
  · exact Parser.legal_of_mem_offered hc

theorem mem_skips_iff {n : Nat} : n ∈ e.skips.filterMap Choice.node? ↔
    .dummy n ∈ e.state.choices.getD [] := by
  simp only [skips, List.mem_filterMap, List.mem_filter]
  constructor
  · rintro ⟨c, ⟨hc, hdummy⟩, hn⟩
    cases c with
    | dummy m =>
      obtain rfl := Option.some.inj hn
      exact hc
    | initial m => cases hdummy
    | nonDummy m => cases hdummy
    | final type => cases hdummy
  · exact fun h => ⟨_, ⟨h, rfl⟩, rfl⟩

/-- What is left depends on the open phrases and on the next unit. -/
theorem left_congr (hstate : g.state = f.state)
    (hopened : g.place.view.opened = f.place.view.opened)
    (hhead : g.place.view.ahead.head? = f.place.view.ahead.head?)
    (hsub : g.subAhead = f.subAhead) : g.Left p goals c ↔ f.Left p goals c := by
  have hoffered : ∀ d, p.offered goals d g.place.view = p.offered goals d f.place.view := fun d =>
    Parser.offered_congr hopened (by rw [hhead])
  rw [Left, Left, settled_iff, settled_iff, hstate, hhead, hsub, skips, skips, hstate, hoffered]

end Post

/-- The saved state `f` has become `g`: the units that it has to come are as they were, or one of
them has been folded. -/
inductive Folded (p : Parser σ) (goals : List String) (f g : Post) : Prop where
  | same : g.place.view.ahead = f.place.view.ahead → g.subAhead = f.subAhead → Folded p goals f g
  | folded {pre us ts : List Form} : p.Folds goals us ts → f.place.view.ahead = pre ++ us →
    g.place.view.ahead = pre ++ ts → (pre = [] → ¬g.Settled) →
      (pre ≠ [] → g.subAhead = f.subAhead) → Folded p goals f g

namespace Certain

variable {s s' : Session σ} {x x' : Place Tree} {saved saved' : List Post} {c : Choice}
  {others : List Choice} {f g : Post}

/-- Only certain phrases are collapsed in place. -/
theorem folded (h : Certain p s x saved) (hs : Stands p s x saved)
    (heq : s.untried p x = c :: others) (ha : Advanced p c others s x saved s' x' saved')
    (hf : f ∈ pushed c others ⟨s.state, x⟩ saved)
    (hc : Carried p ⟨Post.setOut c others ⟨s.state, x⟩, x⟩ s.arena s'.arena x' f g) :
    Folded p s.goals f g := by
  have hlegal : p.Legal x.view c := hs.legal_untried c (by simp [heq])
  cases hc.ahead with
  | same hahead hsub => exact .same hahead hsub
  | @collapsed o pre os i type v _ hunique hopen hfirst hmem hnew hfa hga hnil hcons =>
    have hall := Post.unique_setOut c others ⟨s.state, x⟩
    rw [hunique, eq_comm, Bool.and_eq_true, List.isEmpty_iff] at hall
    obtain ⟨rfl, hu⟩ := hall
    obtain ⟨o, os, hopened, rfl, rfl⟩ := Place.opened_of_view hopen
    have hopened' : x.opened = o :: os := hopened
    obtain ⟨t, ht, rfl⟩ : ∃ t, o.getLast? = some t ∧ t.slot = i := by
      simpa [Post.first?, hopened'] using hfirst
    have hahead := hnew
    rw [ha.view] at hahead
    obtain ⟨type', rfl⟩ := hlegal.final_of_cons hahead
    have hfolds := h.folds heq hopened' hu ht ⟨f, hf, hmem⟩
    have hsince : x.since [o] = (o.map form).reverse.map Form.clear ++ x.view.ahead := by
      simp [Place.since, bare, Function.comp_def]
    have hunit : x'.view.ahead = .unit type' none (p.plainValue (o.map form))
        (o.map form).reverse :: x.view.ahead := by
      rw [ha.view]
      simp [Place.view, hopened']
    rw [hsince, ← hunit] at hfolds
    exact .folded hfolds hfa hga hnil hcons

end Certain

namespace Folded

variable {goals : List String} {T : Place Form → Prop} {f g : Post} {c : Choice} {y : Place Form}

/-- The phrase that has been folded comes next, or the saved state cannot tell. -/
theorem next_or (h : Folded p goals f g) (hunlimited : p.Unlimited)
    (hopened : g.place.view.opened = f.place.view.opened) :
    (∃ us ts, p.Folds goals us ts ∧ f.place.view = ⟨f.place.view.opened, us⟩ ∧
      g.place.view = ⟨f.place.view.opened, ts⟩ ∧ ¬g.Settled) ∨
    g.place.view.ahead.head? = f.place.view.ahead.head? ∧ g.subAhead = f.subAhead ∧
      ∀ c y, p.Legal f.place.view c →
        (p.Lands goals g.place.view c y ↔ p.Lands goals f.place.view c y) := by
  have hview : ∀ {us : List Form}, g.place.view.ahead = us →
      g.place.view = ⟨f.place.view.opened, us⟩ := fun h => congrArg₂ Place.mk hopened h
  cases h with
  | same hahead hsub =>
    rw [hview hahead]
    exact .inr ⟨rfl, hsub, fun c y _ => Iff.rfl⟩
  | @folded pre us ts hfolds hf hg hnil hcons =>
    have hf' : f.place.view = ⟨f.place.view.opened, pre ++ us⟩ := congrArg (Place.mk _) hf
    cases pre with
    | nil => exact .inl ⟨us, ts, hfolds, hf', hview hg, hnil rfl⟩
    | cons u pre =>
      have hne : u :: pre ≠ [] := List.cons_ne_nil u pre
      refine .inr ⟨by rw [hf, hg]; rfl, hcons hne, fun c y hc => ?_⟩
      rw [hview hg, hf']
      rw [hf'] at hc
      exact ⟨fun hl => hfolds.lands_back hunlimited hl (.inr hne) (hc.congr rfl (.inr rfl)),
        fun hl => hfolds.lands hunlimited hl (.inr hne) hc⟩

/-- What a saved state may try once its next unit has been folded, it could try before, if it takes
no unit. -/
theorem mayTry_back (hstate : g.state = f.state)
    (hopened : g.place.view.opened = f.place.view.opened) (hunsettled : ¬g.Settled)
    (hf : f.Faithful p goals T) (hc : c.stays = true) (hmay : g.MayTry p goals c) :
    f.MayTry p goals c := by
  have hoffered : ∀ {d}, c ∈ p.offered goals d g.place.view → c ∈ p.offered goals d f.place.view :=
    Parser.stays_mem_offered hc hopened
  obtain (⟨hset, -⟩ | ⟨-, hleft⟩) | ⟨hne, hnone⟩ := hmay
  · exact absurd hset hunsettled
  · rw [hstate, Post.skips, hstate, ← Post.skips] at hleft
    by_cases hlast : f.state.lastMove = some .dummy
    · rw [if_pos hlast] at hleft
      cases hdummy : c.isDummy with
      | false => exact .inr ⟨hf.inside hlast, hoffered
          (Parser.mem_offered_of_not_dummy hdummy hleft .none)⟩
      | true =>
        by_cases hset : f.Settled
        · refine .inl (.inl ⟨hset, ?_⟩)
          cases c with
          | dummy n =>
            exact Post.mem_skips_iff.1
              (List.contains_iff_mem.1 (Parser.dummy_mem_offered.1 hleft).1)
          | _ => cases hdummy
        · exact .inl (.inr ⟨hset, by rw [if_pos hlast]; exact hoffered hleft⟩)
    · rw [if_neg hlast] at hleft
      by_cases hset : f.Settled
      · exact .inl (.inl ⟨hset, (List.mem_filter.1 hleft).1⟩)
      · exact .inl (.inr ⟨hset, by rwa [if_neg hlast]⟩)
  · exact .inr ⟨hopened ▸ hne, hoffered hnone⟩

/-- What is left to a saved state once its next unit has been folded. -/
theorem left_of_unsettled (hstate : g.state = f.state) (hunsettled : ¬g.Settled)
    (hc : c ∈ if f.state.lastMove = some .dummy then
      p.offered goals (.only (f.skips.filterMap Choice.node?)) g.place.view else f.skips) :
    g.Left p goals c := by
  refine .inr ⟨hunsettled, ?_⟩
  rwa [hstate, Post.skips, hstate, ← Post.skips]

/-- A saved state that can only begin a phrase at its next unit, and has begun it, has nothing but
dummy moves left. -/
theorem mem_skips_of_left {us ts : List Form} (hfolds : p.Folds goals us ts)
    (hfa : f.place.view = ⟨f.place.view.opened, us⟩) (hf : f.Faithful p goals T)
    (hleft : f.Left p goals c) (hlast : f.state.lastMove ≠ some .dummy) : c ∈ f.skips := by
  obtain ⟨hset, hc⟩ | ⟨-, hc⟩ := hleft
  · obtain ⟨u, us', n, type, rfl, honly, -⟩ := hfolds.begins
    exact List.mem_filter.2 ⟨hc, hf.begun hset hlast u n (by rw [hfa]; rfl) honly c hc⟩
  · rwa [if_neg hlast] at hc

/-- A move that takes no unit and is left to a saved state is left to it when its next unit has been
folded. -/
theorem left_on_stays {us ts : List Form} (hfolds : p.Folds goals us ts)
    (hfa : f.place.view = ⟨f.place.view.opened, us⟩)
    (hga : g.place.view = ⟨f.place.view.opened, ts⟩) (hstate : g.state = f.state)
    (hunsettled : ¬g.Settled) (hup : f.UpToDate p goals) (hf : f.Faithful p goals T)
    (hleft : f.Left p goals c) (hstays : c.stays = true) : g.Left p goals c := by
  refine left_of_unsettled hstate hunsettled ?_
  by_cases hlast : f.state.lastMove = some .dummy
  · have hall : c ∈ p.offered goals .all g.place.view :=
      Parser.stays_mem_offered hstays (by rw [hga]) (hup.of_left hleft)
    rw [if_pos hlast]
    cases c with
    | dummy n =>
      refine Parser.dummy_mem_offered.2 ⟨List.contains_iff_mem.2 ?_, hall⟩
      obtain ⟨-, hc⟩ | ⟨-, hc⟩ := hleft
      · exact Post.mem_skips_iff.2 hc
      · rw [if_pos hlast] at hc
        exact List.contains_iff_mem.1 (Parser.dummy_mem_offered.1 hc).1
    | final type => exact Parser.mem_offered_of_not_dummy rfl hall _
    | initial n => cases hstays
    | nonDummy n => cases hstays
  · rw [if_neg hlast]
    exact mem_skips_of_left hfolds hfa hf hleft hlast

/-- A move that takes up the first unit of a phrase has one in its place when the phrase has been
folded: it takes up the phrase. -/
theorem left_on_takes (hunlimited : p.Unlimited) {us ts : List Form} (hfolds : p.Folds goals us ts)
    (hfa : f.place.view = ⟨f.place.view.opened, us⟩)
    (hga : g.place.view = ⟨f.place.view.opened, ts⟩) (hstate : g.state = f.state)
    (hunsettled : ¬g.Settled) (hup : f.UpToDate p goals) (hf : f.Faithful p goals T)
    (hleft : f.Left p goals c) (hstays : c.stays = false)
    (hl : p.Lands goals f.place.view c y) :
    ∃ d, g.Left p goals d ∧ p.Lands goals g.place.view d y := by
  have hlast : f.state.lastMove = some .dummy := by
    by_contra hlast
    have hdummy := Choice.stays_of_isDummy
      (List.mem_filter.1 (mem_skips_of_left hfolds hfa hf hleft hlast)).2
    rw [hstays] at hdummy
    cases hdummy
  have hall := hup.of_left hleft
  rw [hfa] at hl hall
  obtain ⟨d, hd, hld⟩ := hfolds.of_first hunlimited (hf.inside hlast) hall hstays hl
  have hdummy : d.isDummy = false := by
    cases d with
    | dummy n => cases (Parser.dummy_mem_offered.1 hd).1
    | _ => rfl
  refine ⟨d, left_of_unsettled hstate hunsettled ?_, by rwa [hga]⟩
  rw [if_pos hlast, hga]
  exact Parser.mem_offered_of_not_dummy hdummy hd _

/-- What is left to a saved state whose next unit gets folded leads to the same parses as what is
left to it then. -/
theorem left_on (hunlimited : p.Unlimited) {us ts : List Form} (hfolds : p.Folds goals us ts)
    (hfa : f.place.view = ⟨f.place.view.opened, us⟩)
    (hga : g.place.view = ⟨f.place.view.opened, ts⟩) (hstate : g.state = f.state)
    (hunsettled : ¬g.Settled) (hup : f.UpToDate p goals) (hf : f.Faithful p goals T)
    (hleft : f.Left p goals c) (hl : p.Lands goals f.place.view c y) :
    ∃ d, g.Left p goals d ∧ p.Lands goals g.place.view d y := by
  cases hstays : c.stays with
  | true =>
    refine ⟨c, left_on_stays hfolds hfa hga hstate hunsettled hup hf hleft hstays, ?_⟩
    have hlegal := Parser.legal_of_mem_offered (hup.of_left hleft)
    rw [hfa] at hl hlegal
    rw [hga]
    exact @Parser.Folds.lands _ _ _ _ _ _ [] _ _ hfolds hunlimited hl (.inl hstays) hlegal
  | false =>
    exact left_on_takes hunlimited hfolds hfa hga hstate hunsettled hup hf hleft hstays hl

/-- A saved state takes a unit that has been folded inside of a phrase only. -/
theorem mayTry_takes (hstate : g.state = f.state)
    (hopened : g.place.view.opened = f.place.view.opened) (hunsettled : ¬g.Settled)
    (hf : f.Faithful p goals T) (hc : c.stays = false) (hmay : g.MayTry p goals c) :
    f.place.view.opened ≠ [] ∧ ∃ d, c ∈ p.offered goals d g.place.view := by
  obtain (⟨hset, -⟩ | ⟨-, hleft⟩) | ⟨hne, hnone⟩ := hmay
  · exact absurd hset hunsettled
  · rw [hstate] at hleft
    by_cases hlast : f.state.lastMove = some .dummy
    · rw [if_pos hlast] at hleft
      exact ⟨hf.inside hlast, _, hleft⟩
    · rw [if_neg hlast] at hleft
      have hdummy := Choice.stays_of_isDummy (List.mem_filter.1 hleft).2
      rw [hc] at hdummy
      cases hdummy
  · exact ⟨hopened ▸ hne, _, hnone⟩

/-- A saved state stays faithful. -/
theorem faithful (h : Folded p goals f g) (hunlimited : p.Unlimited) (hstate : g.state = f.state)
    (hopened : g.place.view.opened = f.place.view.opened) (hup : g.UpToDate p goals)
    (hf : f.Faithful p goals T) : g.Faithful p goals T := by
  obtain ⟨us, ts, hfolds, hfa, hga, hunsettled⟩ | ⟨hhead, hsub, hlands⟩ :=
    h.next_or hunlimited hopened
  · refine ⟨fun c y hmay hl => ?_, fun hset => absurd hset hunsettled, by
      rw [hstate, hopened]; exact hf.inside⟩
    have hlegal := hup.legal hmay
    cases hstays : c.stays with
    | true =>
      refine hf.sound c y (mayTry_back hstate hopened hunsettled hf hstays hmay) ?_
      rw [hga] at hl hlegal
      rw [hfa]
      exact @Parser.Folds.lands_back _ _ _ _ _ _ [] _ _ hfolds hunlimited hl (.inl hstays) hlegal
    | false =>
      obtain ⟨hne, d, hd⟩ := mayTry_takes hstate hopened hunsettled hf hstays hmay
      rw [hga] at hl hd
      obtain ⟨n, hn, hln⟩ := hfolds.lands_first hunlimited hne hd hstays hl
      rw [← hfa] at hn hln
      exact hf.sound _ y (.inr ⟨hne, hn [.final ""]⟩) hln
  · have hoffered : ∀ d, p.offered goals d g.place.view = p.offered goals d f.place.view := fun d =>
      Parser.offered_congr hopened (by rw [hhead])
    refine ⟨fun c y hmay hl => ?_, ?_, by rw [hstate, hopened]; exact hf.inside⟩
    · have hlegal : p.Legal f.place.view c := (hup.legal hmay).congr hopened (.inr (by rw [hhead]))
      rw [Post.MayTry, Post.left_congr hstate hopened hhead hsub, hoffered, hopened] at hmay
      exact hf.sound c y hmay ((hlands c y hlegal).1 hl)
    · rw [Post.settled_iff, hstate, hhead, hsub, ← Post.settled_iff]
      exact hf.begun

/-- What is left to a saved state leads to the same parses as what is left to it then. -/
theorem left (h : Folded p goals f g) (hunlimited : p.Unlimited) (hstate : g.state = f.state)
    (hopened : g.place.view.opened = f.place.view.opened) (hup : f.UpToDate p goals)
    (hf : f.Faithful p goals T) (hleft : f.Left p goals c) (hl : p.Lands goals f.place.view c y) :
    ∃ d, g.Left p goals d ∧ p.Lands goals g.place.view d y := by
  obtain ⟨us, ts, hfolds, hfa, hga, hunsettled⟩ | ⟨hhead, hsub, hlands⟩ :=
    h.next_or hunlimited hopened
  · exact left_on hunlimited hfolds hfa hga hstate hunsettled hup hf hleft hl
  · exact ⟨c, (Post.left_congr hstate hopened hhead hsub).2 hleft,
      (hlands c y (Parser.legal_of_mem_offered (hup.of_left hleft))).2 hl⟩

end Folded

end StateDiagram
