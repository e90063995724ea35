import StateDiagram.Proofs.Parser.Calls
import StateDiagram.Proofs.Parser.Folded

/-! Enumerations of parses: search, back up, search again, to the end. What such an enumeration
finds does not depend on whether phrases that were parsed in a single way are collapsed in place
or copied: it finds the complete parses to which the choices at the start lead. -/
namespace StateDiagram

open StateDiagram.Tree Arena

variable {σ : Type} {p : Parser σ}

/-- A choice that a saved state has left leads to the complete parse `y`. -/
def Due (p : Parser σ) (goals : List String) (saved : List Post) (y : Place Form) : Prop :=
  ∃ e ∈ saved, ∃ c, e.Left p goals c ∧ p.Lands goals e.place.view c y

/-- All parses `T` have been found already (`F`) or are left to saved states. -/
structure Backlog (p : Parser σ) (T F : Place Form → Prop) (s : Session σ) (x : Place Tree)
    (saved : List Post) : Prop where
  upToDate : UpToDate p s x saved
  faithful : ∀ e ∈ saved, e.Faithful p s.goals T
  complete : ∀ y, T y → F y ∨ Due p s.goals saved y

/-- All parses `T` have been found already (`F`), or the choices of the active state lead to them,
or they are left to saved states. No choice leads to any other complete parse. -/
structure Searching (p : Parser σ) (T F : Place Form → Prop) (s : Session σ) (x : Place Tree)
    (saved : List Post) : Prop where
  upToDate : UpToDate p s x saved
  certain : Certain p s x saved
  faithful : ∀ e ∈ saved, e.Faithful p s.goals T
  sound : ∀ c y, c ∈ s.untried p x ∨ x.view.opened ≠ [] ∧ c ∈ p.offered s.goals .none x.view →
    p.Lands s.goals x.view c y → T y
  complete : ∀ y, T y → F y ∨ (∃ c ∈ s.untried p x, p.Lands s.goals x.view c y) ∨
    Due p s.goals saved y

variable {T F : Place Form → Prop} {s s' : Session σ} {x x' : Place Tree} {saved saved' : List Post}
  {c : Choice} {others : List Choice}

/-- A state that is taken up has those choices that were left to it. -/
theorem Resumed.untried {e : Post} (h : Resumed p s s' e)
    (hchoices : ∃ cs, e.state.choices = some cs) :
    c ∈ s'.untried p e.place ↔ e.Left p s.goals c := by
  by_cases hset : e.Settled
  · obtain ⟨cs, hcs⟩ := hchoices
    simp [Session.untried, h.settled hset, hcs, Post.Left, hset]
  · simp only [Session.untried, h.unsettled hset, Option.getD_some, Post.Left, hset, false_and,
      not_false_eq_true, true_and, false_or]
    rfl

namespace Backlog

/-- A move leads to the same parses after it as before. -/
theorem carried {st : State} {a b : Arena} (h : Backlog p T F s x saved) (hunlimited : p.Unlimited)
    (hgoals : s'.goals = s.goals)
    (hactive : (s'.untried p x').Subperm (p.offered s'.goals .all x'.view))
    (hc : List.Forall₂ (Carried p ⟨st, x⟩ a b x') saved saved')
    (hfolded : ∀ f ∈ saved, ∀ g, Carried p ⟨st, x⟩ a b x' f g → Folded p s.goals f g) :
    Backlog p T F s' x' saved' := by
  have hopened : ∀ {f g : Post}, Carried p ⟨st, x⟩ a b x' f g →
      g.place.view.opened = f.place.view.opened := fun hfg => by
    rw [Place.view, Place.view, hfg.opened]
  have hup : ∀ g ∈ saved', g.UpToDate p s.goals := fun g hg => by
    obtain ⟨f, hf, hfg⟩ := exists_mem_of_forall₂ hc hg
    exact hfg.upToDate (h.upToDate.saved f hf)
  refine ⟨⟨hactive, hgoals ▸ hup⟩, fun g hg => ?_, fun y hy => ?_⟩
  · obtain ⟨f, hf, hfg⟩ := exists_mem_of_forall₂ hc hg
    rw [hgoals]
    exact (hfolded f hf g hfg).faithful hunlimited hfg.state (hopened hfg) (hup g hg)
      (h.faithful f hf)
  · refine (h.complete y hy).imp_right ?_
    rintro ⟨f, hf, c, hleft, hl⟩
    obtain ⟨g, hg, hfg⟩ := exists_mem_of_forall₂ hc.flip hf
    obtain ⟨d, hd, hld⟩ := (hfolded f hf g hfg).left hunlimited hfg.state (hopened hfg)
      (h.upToDate.saved f hf) (h.faithful f hf) hleft hl
    rw [hgoals]
    exact ⟨g, hg, d, hd, hld⟩

/-- The latest saved state is taken up. -/
theorem resumed {e : Post} (h : Backlog p T F s x (e :: saved)) (hwaiting : Waiting p s.arena e)
    (hr : Resumed p s s' e) : Searching p T F s' e.place saved := by
  obtain ⟨hunique, ⟨cs, hcs, -⟩, -⟩ := hwaiting
  have hmem : ∀ c, c ∈ s'.untried p e.place ↔ e.Left p s.goals c := fun c => hr.untried ⟨cs, hcs⟩
  have he := h.faithful e (List.mem_cons_self ..)
  refine ⟨h.upToDate.resumed hr, .of_unique (by rw [hr.state]; exact hunique) _ _, fun f hf => ?_,
    fun c y hc hl => ?_, fun y hy => ?_⟩
  · rw [hr.goals]
    exact h.faithful f (List.mem_cons_of_mem e hf)
  · rw [hr.goals] at hl hc
    exact he.sound c y (hc.imp_left (hmem c).1) hl
  · rw [hr.goals]
    refine (h.complete y hy).imp_right ?_
    rintro ⟨f, hf, c, hleft, hl⟩
    obtain rfl | hf := List.mem_cons.1 hf
    · exact .inl ⟨c, (hmem c).2 hleft, hl⟩
    · exact .inr ⟨f, hf, c, hleft, hl⟩

end Backlog

namespace Searching

theorem start (p : Parser σ) (tokens goals : List String) (host : σ) :
    Searching p (fun y => ∃ c ∈ p.offered goals .all (.ofTokens tokens),
      p.Lands goals (.ofTokens tokens) c y) (fun _ => False) (.start tokens goals host)
        ⟨[], tokenUnits 1 tokens⟩ [] := by
  have huntried : (Session.start tokens goals host).untried p ⟨[], tokenUnits 1 tokens⟩ =
      p.offered goals .all (.ofTokens tokens) := by
    rw [← Place.view_tokenUnits 1]
    rfl
  refine ⟨.start p tokens goals host, .start p tokens goals host _, by simp, fun c y hc hl => ?_,
    fun y hy => .inr (.inl ?_)⟩
  · rw [Place.view_tokenUnits, huntried] at hc
    rw [Place.view_tokenUnits] at hl
    exact ⟨c, hc.resolve_right fun hopened => hopened.1 rfl, hl⟩
  · rw [Place.view_tokenUnits, huntried]
    exact hy

theorem backlog (h : Searching p T F s x saved) (hnil : s.untried p x = []) :
    Backlog p T F s x saved := by
  refine ⟨h.upToDate, h.faithful, fun y hy => ?_⟩
  obtain hfound | ⟨c, hc, -⟩ | hdue := h.complete y hy
  · exact .inl hfound
  · rw [hnil] at hc
    cases hc
  · exact .inr hdue

/-- The state that is saved for the choices that remain. -/
theorem setOut (h : Searching p T F s x saved) (hreg : p.Regular)
    (heq : s.untried p x = c :: others) (hne : others ≠ []) :
    Post.Faithful p s.goals T ⟨Post.setOut c others ⟨s.state, x⟩, x⟩ ∧
      ∀ d, Post.Left p s.goals ⟨Post.setOut c others ⟨s.state, x⟩, x⟩ d ↔ d ∈ others := by
  let e : Post := ⟨Post.setOut c others ⟨s.state, x⟩, x⟩
  obtain ⟨-, -, -, -, -, -, hchoices, hlast⟩ := Post.setOut_frame c others ⟨s.state, x⟩
  have hsettled : e.Settled := by
    obtain ⟨d, ds, rfl⟩ := List.exists_cons_of_ne_nil hne
    exact .inr rfl
  have hleft : ∀ d, e.Left p s.goals d ↔ d ∈ others := fun d => by
    simp [Post.Left, hsettled, e, hchoices]
  have hsub : (c :: others).Subperm (p.offered s.goals .all x.view) := heq ▸ h.upToDate.active
  refine ⟨⟨fun d y hmay hl => ?_, fun _ hmove u n hu honly => ?_, fun hmove => ?_⟩, hleft⟩
  · refine h.sound d y (hmay.imp_left fun hd => ?_) hl
    rw [heq]
    exact List.mem_cons_of_mem c ((hleft d).1 hd)
  · obtain ⟨us, hus⟩ : ∃ us, x.view = ⟨x.view.opened, u :: us⟩ := by
      cases hahead : x.view.ahead with
      | nil => simp [hahead] at hu
      | cons v us =>
        obtain rfl : v = u := by simpa [hahead] using hu
        exact ⟨us, congrArg (Place.mk _) hahead⟩
    have hdummy : c.isDummy = false := by
      cases c <;> first | rfl | exact absurd hlast hmove
    rw [hus] at hsub
    rw [hchoices]
    exact honly.others hreg.unlimited hsub hdummy
  · obtain ⟨n, rfl⟩ : ∃ n, c = .dummy n := by
      rw [hlast] at hmove
      cases c <;> first | exact ⟨_, rfl⟩ | cases hmove
    obtain ⟨o, os, node, l, hopened, -⟩ :=
      (Parser.legal_of_mem_offered (hsub.subset (List.mem_cons_self ..))).dummy_inv
    rw [hopened]
    exact List.cons_ne_nil o os

/-- The choices that remain when a state sets out on the first of them are left to a saved state. -/
theorem pushed (h : Searching p T F s x saved) (hreg : p.Regular)
    (heq : s.untried p x = c :: others) :
    Backlog p T (fun y => F y ∨ p.Lands s.goals x.view c y) s x
      (pushed c others ⟨s.state, x⟩ saved) := by
  have hsub : (c :: others).Subperm (s.untried p x) := heq ▸ .refl _
  have hfirst : ∀ y, T y → (F y ∨ p.Lands s.goals x.view c y) ∨
      (∃ d ∈ others, p.Lands s.goals x.view d y) ∨ Due p s.goals saved y := fun y hy => by
    obtain hfound | ⟨d, hd, hl⟩ | hdue := h.complete y hy
    · exact .inl (.inl hfound)
    · rw [heq] at hd
      obtain rfl | hd := List.mem_cons.1 hd
      · exact .inl (.inr hl)
      · exact .inr (.inl ⟨d, hd, hl⟩)
    · exact .inr (.inr hdue)
  have hup : UpToDate p s x (StateDiagram.pushed c others ⟨s.state, x⟩ saved) :=
    ⟨h.upToDate.active, h.upToDate.pushed hsub⟩
  cases others with
  | nil => exact ⟨hup, h.faithful, fun y hy => (hfirst y hy).imp_right fun hleft =>
      hleft.resolve_left (by simp)⟩
  | cons d ds =>
    obtain ⟨hfaithful, hleft⟩ := h.setOut hreg heq (List.cons_ne_nil d ds)
    refine ⟨hup, List.forall_mem_cons.2 ⟨hfaithful, h.faithful⟩, fun y hy =>
      (hfirst y hy).imp_right ?_⟩
    rintro (⟨e, he, hl⟩ | ⟨e, he, hdue⟩)
    · exact ⟨_, List.mem_cons_self .., e, (hleft e).2 he, hl⟩
    · exact ⟨e, List.mem_cons_of_mem _ he, hdue⟩

/-- A choice is taken. If that completes a parse, the choice leads to this parse only; otherwise it
leads where the choices lead that are there next. -/
theorem advanced (h : Searching p T F s x saved) (hreg : p.Regular) (hs : Stands p s x saved)
    (heq : s.untried p x = c :: others) (ha : Advanced p c others s x saved s' x' saved') :
    (x'.view.isDone s.goals = true → T x'.view ∧
      Backlog p T (fun y => F y ∨ y = x'.view) s' x' saved') ∧
    (x'.view.isDone s.goals = false → Searching p T F s' x' saved') := by
  have hmem : c ∈ s.untried p x := by simp [heq]
  have hfresh : s'.untried p x' = p.fresh s.goals [c] x'.view := by
    rw [ha.untried, Parser.fresh_cons]
  have hactive : (s'.untried p x').Subperm (p.offered s'.goals .all x'.view) := by
    rw [hfresh, ha.goals]
    exact (Parser.fresh_sublist ..).subperm
  have hbacklog := (h.pushed hreg heq).carried hreg.unlimited ha.goals hactive ha.carried
    fun f hf g hfg => h.certain.folded hs heq ha hf hfg
  have hlands : ∀ y, p.Lands s.goals x.view c y ↔ p.Reaches s.goals c x'.view y := fun y => by
    rw [Parser.lands_iff, ha.view]
  refine ⟨fun hdone => ⟨?_, hbacklog.upToDate, hbacklog.faithful, fun y hy => ?_⟩, fun hnot =>
    ⟨hbacklog.upToDate, h.certain.advanced hreg hs heq ha, hbacklog.faithful, fun d y hd hl => ?_,
      fun y hy => ?_⟩⟩
  · exact h.sound c _ (.inl hmem) ((hlands _).2 (by rw [Parser.Reaches, if_pos hdone]))
  · refine (hbacklog.complete y hy).imp_left fun hfound => hfound.imp_right fun hl => ?_
    rwa [hlands, Parser.Reaches, if_pos hdone] at hl
  · rw [ha.goals] at hd hl
    refine h.sound c y (.inl hmem) ((hlands y).2 ?_)
    rw [Parser.Reaches, hnot, if_neg (by decide)]
    refine ⟨d, ?_, hl⟩
    obtain hd | ⟨-, hd⟩ := hd
    · rwa [hfresh] at hd
    · exact (Parser.sublist_fresh ..).subset hd
  · obtain (hfound | hl) | hdue := hbacklog.complete y hy
    · exact .inl hfound
    · rw [hlands, Parser.Reaches, hnot, if_neg (by decide), ← hfresh] at hl
      rw [ha.goals]
      exact .inr (.inl hl)
    · exact .inr (.inr hdue)

/-- A round of a search completes a parse, goes on with the search, or has found everything. -/
theorem turn {stage : Parser.Stage} (h : Searching p T F s x saved) (hreg : p.Regular)
    (hs : Stands p s x saved) : Turn p s x saved stage s' x' saved' →
      match stage with
      | .complete => T x'.view ∧ Backlog p T (fun y => F y ∨ y = x'.view) s' x' saved'
      | .failed => ∀ y, T y → F y
      | .searching => Searching p T F s' x' saved'
  | .advanced heq ha => by
    obtain ⟨hdone, hnot⟩ := h.advanced hreg hs heq ha
    cases hd : x'.view.isDone s.goals with
    | true => exact hdone hd
    | false => exact hnot hd
  | .resumed hnil heq _ hr => by
    subst heq
    exact (h.backlog hnil).resumed (hs.standing.waiting _ (List.mem_cons_self ..)) hr
  | .exhausted hnil heq _ => by
    subst heq
    exact fun y hy => ((h.backlog hnil).complete y hy).resolve_right (by simp [Due])

/-- A search finds a complete parse, or there is none that has not been found. -/
theorem search {b : Bool} (h : Searching p T F s x saved) (hreg : p.Regular)
    (hs : Stands p s x saved) (hsearch : Search p s x saved b s' x' saved') :
    if b then T x'.view ∧ Backlog p T (fun y => F y ∨ y = x'.view) s' x' saved'
    else ∀ y, T y → F y := by
  induction hsearch with
  | found hturn => exact h.turn hreg hs hturn
  | failed hturn => exact h.turn hreg hs hturn
  | on hturn _ ih => exact ih (h.turn hreg hs hturn) hturn.stands

/-- A search that succeeds ends with a parse that had been left to find. -/
theorem parse {fuel : Nat} (h : Searching p T F s x saved) (hreg : p.Regular)
    (hs : Stands p s x saved) (hparse : p.parse fuel s = .ok (some true, s')) :
    ∃ x' saved' u, Stands p s' x' saved' ∧ s'.Finished u ∧ T ⟨[], [u]⟩ ∧
      Backlog p T (fun y => F y ∨ y = ⟨[], [u]⟩) s' x' saved' := by
  obtain ⟨x', saved', hsearch⟩ := hs.search hreg.sound hreg.silent _ hparse
  obtain ⟨hfound, hbacklog⟩ : T x'.view ∧ Backlog p T (fun y => F y ∨ y = x'.view) s' x' saved' :=
    h.search hreg hs hsearch
  obtain ⟨u, hview, -, hfinished⟩ := hsearch.finished hs
  rw [hview] at hfound hbacklog
  exact ⟨x', saved', u, hsearch.stands, hfinished, hfound, hbacklog⟩

end Searching

namespace Parser

/-- Searches with a backup after each of them until one of them fails or no state is left: `found`
are the sessions that the others end with. -/
inductive Enumerates (p : Parser σ) : Session σ → List (Session σ) → Prop where
  | stop {fuel : Nat} {s s' : Session σ} : p.parse fuel s = .ok (some false, s') →
    Enumerates p s []
  | last {fuel : Nat} {s s' s'' : Session σ} : p.parse fuel s = .ok (some true, s') →
    p.backup s' = .ok (false, s'') → Enumerates p s [s']
  | more {fuel : Nat} {s s₁ s₂ : Session σ} {found : List (Session σ)} :
    p.parse fuel s = .ok (some true, s₁) → p.backup s₁ = .ok (true, s₂) →
      Enumerates p s₂ found → Enumerates p s (s₁ :: found)

/-- The type of a complete parse and its phrase structure in one line. -/
def outcome (p : Parser σ) (s : Session σ) : Option String × String :=
  (s.completedType?, p.bracket s)

/-- What an enumeration finds: just the complete parses to which the choices lead. -/
theorem Enumerates.finds {found : List (Session σ)} (h : p.Enumerates s found) (hreg : p.Regular)
    (hs : Stands p s x saved) (hsearching : Searching p T F s x saved) :
    (∀ s' ∈ found, ∃ u, T ⟨[], [u]⟩ ∧ s'.Finished u) ∧
      ∀ y, T y → F y ∨ ∃ s' ∈ found, ∃ u, y = ⟨[], [u]⟩ ∧ s'.Finished u := by
  induction h generalizing x saved F with
  | stop hparse =>
    obtain ⟨x', saved', hsearch⟩ := hs.search hreg.sound hreg.silent _ hparse
    have hall : ∀ y, T y → F y := hsearching.search hreg hs hsearch
    exact ⟨by simp, fun y hy => .inl (hall y hy)⟩
  | @last _ s s' s'' hparse hback =>
    obtain ⟨x', saved', u, hs', hfinished, hfound, hbacklog⟩ := hsearching.parse hreg hs hparse
    cases saved' with
    | nil =>
      refine ⟨fun r hr => ⟨u, hfound, List.mem_singleton.1 hr ▸ hfinished⟩, fun y hy => ?_⟩
      obtain (hold | rfl) | ⟨e, he, -⟩ := hbacklog.complete y hy
      · exact .inl hold
      · exact .inr ⟨s', List.mem_singleton.2 rfl, u, rfl, hfinished⟩
      · cases he
    | cons e saved' =>
      obtain ⟨s₂, hback', -⟩ := hs'.backup hreg.sound
      rw [hback] at hback'
      cases hback'
  | @more _ s s₁ s₂ found hparse hback _ ih =>
    obtain ⟨x', saved', u, hs₁, hfinished, hfound, hbacklog⟩ := hsearching.parse hreg hs hparse
    cases saved' with
    | nil =>
      rw [hs₁.backup_nil] at hback
      cases hback
    | cons e saved' =>
      obtain ⟨s₂', hback', hs₂, hr⟩ := hs₁.backup hreg.sound
      obtain ⟨-, rfl⟩ := Prod.mk.inj (Except.ok.inj (hback.symm.trans hback'))
      have hwaiting := hs₁.standing.waiting e (List.mem_cons_self ..)
      obtain ⟨hrest, hall⟩ := ih hs₂ (hbacklog.resumed hwaiting hr)
      refine ⟨List.forall_mem_cons.2 ⟨⟨u, hfound, hfinished⟩, hrest⟩, fun y hy => ?_⟩
      obtain (hold | rfl) | ⟨s', hs', hy'⟩ := hall y hy
      · exact .inl hold
      · exact .inr ⟨s₁, List.mem_cons_self .., u, rfl, hfinished⟩
      · exact .inr ⟨s', List.mem_cons_of_mem _ hs', hy'⟩

/-- Complete parses with the same phrase structure have the same type and the same line. -/
theorem outcome_eq {q : Parser σ} {u : Form} (hdummy : q.config.dummyWord = p.config.dummyWord)
    (h : s.Finished u) (h' : s'.Finished u) : p.outcome s = q.outcome s' := by
  have hbracket : ∀ (r : Parser σ) (s : Session σ), s.Shows u → ∃ t, t.form = u ∧
      r.bracket s = Bracket.text r.config.dummyWord [t] := by
    rintro r s ⟨top, t, hspans, hform, -⟩
    obtain ⟨v, htop, hv, -, -, hrest⟩ := hspans.cons_inv
    obtain ⟨w, hnext, -⟩ := hrest.cons_inv
    have htop' : s.top? = some t.slot := by
      rw [Session.top?, Option.some.inj htop, hv, Option.bind_some, hnext]
    rw [hnext] at hrest
    exact ⟨t, hform, by simp [bracket, htop', Arena.bracket, hrest.trees]⟩
  obtain ⟨t, ht, hline⟩ := hbracket p s h.shows
  obtain ⟨t', ht', hline'⟩ := hbracket q s' h'.shows
  have hitems : Bracket.items p.config.dummyWord [t] = Bracket.items p.config.dummyWord [t'] :=
    Bracket.items_congr _ (by simp [ht, ht'])
  rw [outcome, outcome, h.type, h'.type, hline, hline', hdummy, Bracket.text, Bracket.text, hitems]

/-- The same parser, collapsing phrases in place if `b` says so. -/
def saving (p : Parser σ) (b : Bool) : Parser σ :=
  { p with config := { p.config with saveUnique := b } }

theorem linkChoices_saving (b : Bool) (types : Option (List String)) (next : Option String)
    (d : Dummies) (opened : Bool) (ls : List Link) :
    (p.saving b).linkChoices types next d opened ls = p.linkChoices types next d opened ls := by
  induction ls generalizing opened with
  | nil => rfl
  | cons l ls ih =>
    simp only [linkChoices, ih]
    rfl

theorem fresh_saving (b : Bool) (goals : List String) (path : List Choice) (x : Place Form) :
    (p.saving b).fresh goals path x = p.fresh goals path x := by
  simp only [fresh, offered, linkChoices_saving]
  rfl

/-- Whether phrases are collapsed in place makes no difference for where choices land. -/
theorem lands_saving (b : Bool) {goals : List String} {x y : Place Form} :
    (p.saving b).Lands goals x c y ↔ p.Lands goals x c y := by
  have hforth : ∀ {q : Parser σ} {c : Choice} {x : Place Form} (b : Bool), q.Lands goals x c y →
      (q.saving b).Lands goals x c y := fun b h => by
    induction h with
    | found hdone => exact .found hdone
    | on hnot hd _ ih => exact .on hnot (by rw [fresh_saving]; exact hd) ih
  exact ⟨hforth p.config.saveUnique, hforth b⟩

theorem Regular.saving (h : p.Regular) (b : Bool) : (p.saving b).Regular :=
  ⟨h.sound, h.marked, ⟨h.strict.entry, h.strict.link⟩, h.unlimited, h.silent⟩

/-- An enumeration finds the complete parses to which the choices at its start lead, whether
phrases are collapsed in place or not. -/
theorem Enumerates.mem_outcomes {b : Bool} {found : List (Session σ)} {input : String}
    {goals : List String} {s₀ : Session σ}
    (h : (p.saving b).Enumerates (p.start input goals s₀) found) (hreg : p.Regular)
    (r : Option String × String) :
    r ∈ found.map p.outcome ↔ ∃ u s, s.Finished u ∧ p.outcome s = r ∧
      ∃ c ∈ p.fresh goals [] (.ofTokens (p.config.segmenter.segment input)),
        p.Lands goals (.ofTokens (p.config.segmenter.segment input)) c ⟨[], [u]⟩ := by
  obtain ⟨hsound, hcomplete⟩ := h.finds (hreg.saving b) (stands_start _ _ goals s₀.host)
    (.start _ _ goals s₀.host)
  have hled : ∀ u, (∃ c ∈ p.fresh goals [] (.ofTokens (p.config.segmenter.segment input)),
      p.Lands goals (.ofTokens (p.config.segmenter.segment input)) c ⟨[], [u]⟩) ↔
      ∃ c ∈ (p.saving b).offered goals .all (.ofTokens (p.config.segmenter.segment input)),
        (p.saving b).Lands goals (.ofTokens (p.config.segmenter.segment input)) c ⟨[], [u]⟩ :=
    fun u => exists_congr fun c => and_congr (by rw [← fresh_saving b]; rfl) (lands_saving b).symm
  simp only [hled]
  rw [List.mem_map]
  constructor
  · rintro ⟨s, hs, rfl⟩
    obtain ⟨u, hu, hfinished⟩ := hsound s hs
    exact ⟨u, s, hfinished, rfl, hu⟩
  · rintro ⟨u, s, hfinished, rfl, hu⟩
    obtain ⟨s', hs', v, hv, hfinished'⟩ := (hcomplete _ hu).resolve_left id
    obtain rfl : u = v := by simpa using hv
    exact ⟨s', hs', outcome_eq rfl hfinished' hfinished⟩

/-- If parses are enumerated until there is no other, collapsing in place gives the same types and
phrase structures as copying, whatever is ambiguous and in whatever order the choices are tried.
Nothing may be known of phrase types, and the word that stands for anything may not be used. -/
theorem enumerates_saving {g : Grammar} (hg : g.Built) (hm : g.marked = true) (config : Config)
    (hsets : ∀ n ∈ g.nodes.toList, n.begins = none ∧ n.types? = none)
    (hentry : g.lookup? config.anythingWord = none)
    (hlink : ∀ n ∈ g.nodes.toList, ∀ l ∈ n.links, l.word ≠ config.anythingWord)
    (input : String) (goals : List String) (s₀ : Session σ) :
    ∃ p q, make g { config with saveUnique := true } none = .ok p ∧
      make g { config with saveUnique := false } none = .ok q ∧ ∀ found found',
        p.Enumerates (p.start input goals s₀) found → q.Enumerates (q.start input goals s₀) found' →
          ∀ r, r ∈ found.map p.outcome ↔ r ∈ found'.map q.outcome := by
  let p : Parser σ := ⟨g, config, none⟩
  have hmem : ∀ {i : Nat} {n : Node}, p.grammar.nodes[i]? = some n → n ∈ g.nodes.toList :=
    fun hi => List.mem_of_getElem? (by simpa using hi)
  have hreg : p.Regular := ⟨hg.sound, hm, ⟨hentry, fun i n hi => hlink n (hmem hi)⟩,
    fun i n hi => hsets n (hmem hi), rfl⟩
  refine ⟨p.saving true, p.saving false, if_pos hm, if_pos hm, fun found found' h h' r => ?_⟩
  exact (Enumerates.mem_outcomes h hreg r).trans (Enumerates.mem_outcomes h' hreg r).symm

/-- Two phrases that begin with the same word and go on with the same noun phrase: when the second
is begun the noun phrase has been collapsed already, or it has to be parsed again. -/
theorem enumerates_saving_two :
    let g := (Grammar.ofNodes [
      { word := "x", id := "1", initial := true,
        kind := .continues [{ word := "NP", id := "1" }] none },
      { word := "x", id := "2", initial := true,
        kind := .continues [{ word := "NP", id := "2" }] none },
      { word := "the", id := "1", initial := true,
        kind := .continues [{ word := "dog", id := "1" }] none },
      { word := "dog", id := "1", kind := .ends "NP" none },
      { word := "NP", id := "1", kind := .ends "S" none },
      { word := "NP", id := "2", kind := .ends "Q" none }] []).mark
    let config : Config := {}
    g.marked = true ∧ (∀ n ∈ g.nodes.toList, n.begins = none ∧ n.types? = none) ∧
      g.lookup? config.anythingWord = none ∧
      (∀ n ∈ g.nodes.toList, ∀ l ∈ n.links, l.word ≠ config.anythingWord) ∧
      ∃ p q found found', make g { config with saveUnique := true } none = .ok p ∧
        make g { config with saveUnique := false } none = .ok q ∧
        p.Enumerates (p.start "x the dog" ["S", "Q"] (.empty ())) found ∧
        q.Enumerates (q.start "x the dog" ["S", "Q"] (.empty ())) found' ∧
        found.map p.outcome = [(some "S", "(x (the dog))"), (some "Q", "(x (the dog))")] ∧
        ∀ r, r ∈ found.map p.outcome ↔ r ∈ found'.map q.outcome := by
  intro g config
  have hg : g.Built := .mark (Grammar.built_ofNodes (by simp [Node.Fresh, Node.links]) _)
  have hsets : ∀ n ∈ g.nodes.toList, n.begins = none ∧ n.types? = none := by decide +kernel
  have hentry : g.lookup? config.anythingWord = none := by decide +kernel
  have hlink : ∀ n ∈ g.nodes.toList, ∀ l ∈ n.links, l.word ≠ config.anythingWord := by
    decide +kernel
  obtain ⟨p, q, hp, hq, hsame⟩ :=
    enumerates_saving hg rfl config hsets hentry hlink "x the dog" ["S", "Q"] (.empty ())
  obtain rfl : ⟨g, { config with saveUnique := true }, none⟩ = p := Except.ok.inj hp
  obtain rfl : ⟨g, { config with saveUnique := false }, none⟩ = q := Except.ok.inj hq
  let p (b : Bool) : Parser Unit := ⟨g, { config with saveUnique := b }, none⟩
  have hcomputed : ∀ b, (do
      let r ← (p b).parse 20 ((p b).start "x the dog" ["S", "Q"] (.empty ()))
      let back ← (p b).backup r.2
      let r' ← (p b).parse 20 back.2
      let back' ← (p b).backup r'.2
      return ([r.1, r'.1], [back.1, back'.1], [r.2, r'.2].map (p b).outcome)) =
      (.ok ([some true, some true], [true, false],
        [(some "S", "(x (the dog))"), (some "Q", "(x (the dog))")]) : Except Fault _) := by
    rintro (_ | _) <;> decide +kernel
  have hruns : ∀ b, ∃ found,
      (p b).Enumerates ((p b).start "x the dog" ["S", "Q"] (.empty ())) found ∧
      found.map (p b).outcome = [(some "S", "(x (the dog))"), (some "Q", "(x (the dog))")] := by
    intro b
    obtain ⟨⟨found₁, s₁⟩, hparse, h⟩ := bind_eq_ok (hcomputed b)
    obtain ⟨⟨found₂, s₂⟩, hback, h⟩ := bind_eq_ok h
    obtain ⟨⟨found₃, s₃⟩, hparse', h⟩ := bind_eq_ok h
    obtain ⟨⟨found₄, s₄⟩, hback', h⟩ := bind_eq_ok h
    simp only [pure, Except.pure, Except.ok.injEq, Prod.mk.injEq, List.cons.injEq, and_true] at h
    obtain ⟨⟨rfl, rfl⟩, ⟨rfl, rfl⟩, houtcomes⟩ := h
    exact ⟨[s₁, s₃], .more hparse hback (.last hparse' hback'), houtcomes⟩
  obtain ⟨found, hfound, houtcomes⟩ := hruns true
  obtain ⟨found', hfound', -⟩ := hruns false
  exact ⟨rfl, hsets, hentry, hlink, _, _, found, found', rfl, rfl, hfound, hfound', houtcomes,
    hsame found found' hfound hfound'⟩

end Parser

end StateDiagram
