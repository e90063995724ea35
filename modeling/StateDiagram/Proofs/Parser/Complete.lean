import StateDiagram.Proofs.Parser.Pruned

/-! A search that never collapses a phrase in place misses no parse. Every derivation of the
grammar is built along a way, and at any time each way that has not been taken yet goes on from
some choice that some state has left. -/
namespace StateDiagram

open StateDiagram.Tree Arena Form

variable {σ : Type} {p : Parser σ}

/-- Units for tokens. -/
def tokenForms (ws : List String) : List Form :=
  ws.map fun w => .unit w none none []

@[simp] theorem tokenForms_append (ws vs : List String) :
    tokenForms (ws ++ vs) = tokenForms ws ++ tokenForms vs :=
  List.map_append

namespace Parser

variable (p) in
/-- A phrase can be begun where the phrases `os` are open: a link of the innermost one's node asks
for another unit. -/
def Opens (os : List (List Form)) : Prop :=
  ∀ o os', os = o :: os' → ∃ node l, p.at? o = some node ∧ l ∈ node.links ∧
    l.word ≠ p.config.dummyWord

variable {goals : List String} {x₀ : Place Form} {path : List Choice}

theorem initial_mem_fresh (hunlimited : p.Unlimited) {os : List (List Form)} (hos : p.Opens os)
    {u : Form} {us : List Form} {n : Nat} (hn : Choice.initial n ∈ p.openings u.word none) :
    Choice.initial n ∈ p.fresh goals path ⟨os, u :: us⟩ := by
  have hopenings : ∀ expected, Choice.initial n ∈ p.openings u.word expected := by
    intro expected
    obtain ⟨hentry, node, hnode, hb⟩ := mem_openings_iff.1 hn
    exact mem_openings_iff.2 ⟨hentry, node, hnode, by
      rw [hunlimited.canBegin hnode, initial_of_canBegin hb]⟩
  refine mem_fresh_of_offered fun d => ?_
  cases os with
  | nil => exact hopenings _
  | cons o os =>
    obtain ⟨node, l, hat, hl, hd⟩ := hos o os rfl
    obtain ⟨i, hi⟩ := node_of_at? hat
    have htypes : node.types? = none := (hunlimited i node hi).2
    exact initial_mem_offered.2 ⟨node, hat, u, us, rfl, ⟨l, hl, hd, by rw [htypes]; rfl⟩,
      hopenings _⟩

theorem nonDummy_mem_fresh {o : List Form} {os : List (List Form)} {u : Form} {us : List Form}
    {node : Node} {l : Link} {n : Nat} (hat : p.at? o = some node) (hl : l ∈ node.links)
    (hd : l.word ≠ p.config.dummyWord) (hm : u.word = l.word ∨ l.word = p.config.anythingWord)
    (ht : p.grammar.target? l = some n) :
    Choice.nonDummy n ∈ p.fresh goals path ⟨o :: os, u :: us⟩ :=
  mem_fresh_of_offered fun _ =>
    nonDummy_mem_offered.2 ⟨node, hat, u, us, rfl, l, hl, hd, hm, ht⟩

theorem dummy_mem_fresh {o : List Form} {os : List (List Form)} {us : List Form} {node : Node}
    {l : Link} {n : Nat} (hat : p.at? o = some node) (hl : l ∈ node.links)
    (hd : l.word = p.config.dummyWord) (ht : p.grammar.target? l = some n)
    (hpath : ∀ type path', path ≠ .final type :: path') :
    Choice.dummy n ∈ p.fresh goals path ⟨o :: os, us⟩ := by
  unfold fresh
  split
  · exact absurd rfl (hpath _ _)
  · exact dummy_mem_offered_cons.2 ⟨node, hat, l, hl, hd, ht, rfl⟩

theorem final_mem_fresh {o : List Form} {os : List (List Form)} {us : List Form} {node : Node}
    {type : String} (hat : p.at? o = some node) (htype : node.type? = some type) :
    Choice.final type ∈ p.fresh goals path ⟨o :: os, us⟩ :=
  mem_fresh_of_offered fun _ => final_mem_offered.2 ⟨node, hat, htype⟩

mutual

/-- A row is built from the tokens that it stands for, wherever a phrase can be begun. -/
theorem Row.built (hunlimited : p.Unlimited) : ∀ {o : List Form} {ws : List String},
    p.Row Plain o ws → ∀ {os : List (List Form)} {us : List Form} {path : List Choice},
      p.Opens os → p.Way goals x₀ path ⟨os, tokenForms ws ++ us⟩ →
        ∃ path', p.Way goals x₀ path' ⟨o :: os, us⟩ ∧ ∀ type path'', path' ≠ .final type :: path''
  | _, _, .first hu hn, os, us, path, hos, hway => by
    obtain ⟨path', hway', -⟩ := hu.built hunlimited hos hway
    exact ⟨_, .step hway' (initial_mem_fresh hunlimited hos hn), by simp⟩
  | _, _, .next ho hu hat hl hd hm ht, os, us, path, hos, hway => by
    rw [tokenForms_append, List.append_assoc] at hway
    obtain ⟨path', hway', -⟩ := ho.built hunlimited hos hway
    have hopens : p.Opens (_ :: os) := fun r rs heq => by
      obtain ⟨rfl, rfl⟩ := List.cons.inj heq
      exact ⟨_, _, hat, hl, hd⟩
    obtain ⟨path'', hway'', -⟩ := hu.built hunlimited hopens hway'
    exact ⟨_, .step hway'' (nonDummy_mem_fresh hat hl hd hm ht), by simp⟩
  | _, _, .skip ho hat hl hd ht, os, us, path, hos, hway => by
    obtain ⟨path', hway', hpath⟩ := ho.built hunlimited hos hway
    exact ⟨_, .step hway' (dummy_mem_fresh hat hl hd ht hpath), by simp⟩

/-- A whole unit is built from the tokens that it stands for. -/
theorem Whole.built (hunlimited : p.Unlimited) : ∀ {u : Form} {ws : List String},
    p.Whole Plain u ws → ∀ {os : List (List Form)} {us : List Form} {path : List Choice},
      p.Opens os → p.Way goals x₀ path ⟨os, tokenForms ws ++ us⟩ →
        ∃ path', p.Way goals x₀ path' ⟨os, u :: us⟩ ∧ (u.parts ≠ [] → path' ≠ [])
  | _, _, .token w, os, us, path, _, hway => ⟨path, hway, fun hne => absurd rfl hne⟩
  | _, _, @Whole.phrase _ _ _ o _ n _ v ho hat htype hv, os, us, path, hos, hway => by
    obtain ⟨path', hway', -⟩ := ho.built hunlimited hos hway
    have hstep := Way.step hway' (final_mem_fresh hat htype)
    have hvalue : p.valueAt ⟨o :: os, us⟩ = v := by
      rw [show v = n.value?.map .string from hv]
      simp [valueAt, plainValue, hat]
    rw [moved, hvalue] at hstep
    exact ⟨_, hstep, by simp⟩

end

/-- What the choices `cs` leave to do of the way `P` where the moves `path` have been made: `P` is
one of the ways that go on from here by one of them. -/
def Leads (P path : List Choice) (cs : List Choice) : Prop :=
  ∃ suf, ∃ c ∈ cs, P = suf ++ c :: path

/-- Where a way to `P` has come, one of the choices there goes on to `P`. -/
theorem Way.leads {P : List Choice} {x y : Place Form} (h : p.Way goals x₀ path x)
    {suf : List Choice} (hP : p.Way goals x₀ P y) (heq : P = suf ++ path) (hne : P ≠ path) :
    Leads P path (p.fresh goals path x) := by
  obtain rfl | ⟨suf', c, rfl⟩ := List.eq_nil_or_concat' suf
  · exact absurd heq hne
  · have heq' : P = suf' ++ c :: path := by simp [heq]
    obtain ⟨z, hz⟩ := (heq' ▸ hP).before
    cases hz with
    | step hx hc =>
      rw [hx.unique h] at hc
      exact ⟨suf', c, hc, heq'⟩

end Parser

/-- The active state or one of the saved ones has a choice left that goes on to `P`. -/
def Pending (p : Parser σ) (P : List Choice) (s : Session σ) (x : Place Tree) (saved : List Post) :
    Prop :=
  Parser.Leads P s.state.path (s.untried p x) ∨
    ∃ e ∈ saved, ∃ cs, e.state.choices = some cs ∧ Parser.Leads P e.state.path cs

variable {s s' : Session σ} {x x' : Place Tree} {saved saved' : List Post} {x₀ y : Place Form}
  {P : List Choice} {goals : List String}

theorem Pending.start (tokens : List String) (host : σ)
    (hP : p.Way goals (.ofTokens tokens) P y) (hne : P ≠ []) :
    Pending p P (.start tokens goals host) ⟨[], tokenUnits 1 tokens⟩ [] := by
  have hstart : p.Way goals (.ofTokens tokens) [] (.ofTokens tokens) := .start
  have hleads := hstart.leads hP (P.append_nil).symm hne
  refine .inl ?_
  rw [← Place.view_tokenUnits 1] at hleads
  exact hleads

/-- An advance takes the first step of a way that is left to do, or leaves it to a saved state. -/
theorem Pending.advanced {c : Choice} {others : List Choice} (h : Pending p P s x saved)
    (hP : p.Way s.goals x₀ P y) (heq : s.untried p x = c :: others)
    (ha : Advanced p c others s x saved s' x' saved') (hs' : Charted p x₀ s' x' saved') :
    s'.state.path = P ∨ Pending p P s' x' saved' := by
  have hkept : ∀ e ∈ pushed c others ⟨s.state, x⟩ saved, ∀ cs, e.state.choices = some cs →
      Parser.Leads P e.state.path cs → Pending p P s' x' saved' := by
    intro e he cs hcs hleads
    obtain ⟨e', he', hcarried⟩ := exists_mem_of_forall₂ ha.carried.flip he
    refine .inr ⟨e', he', cs, ?_, ?_⟩
    · rw [hcarried.state, hcs]
    · rw [hcarried.state]
      exact hleads
  obtain ⟨suf, d, hd, hdeq⟩ | ⟨e, he, cs, hcs, hleads⟩ := h
  · rw [heq] at hd
    obtain rfl | hd := List.mem_cons.1 hd
    · by_cases hend : s'.state.path = P
      · exact .inl hend
      · refine .inr (.inl ?_)
        rw [ha.untried, ha.goals.symm, ← ha.path]
        exact hs'.way.leads (ha.goals ▸ hP) (by rw [ha.path]; exact hdeq) fun h => hend h.symm
    · unfold pushed at hkept
      cases others with
      | nil => cases hd
      | cons d' others =>
        have hpath : (Post.setOut c (d' :: others) ⟨s.state, x⟩).path = s.state.path :=
          (Post.setOut_frame c (d' :: others) ⟨s.state, x⟩).2.2.2.2.1
        refine .inr (hkept _ (List.mem_cons_self ..) (d' :: others) rfl ⟨suf, d, hd, ?_⟩)
        rw [hpath]
        exact hdeq
  · refine .inr (hkept e ?_ cs hcs hleads)
    unfold pushed
    cases others with
    | nil => exact he
    | cons d ds => exact List.mem_cons_of_mem _ he

/-- A way to a complete parse that is left to do stays so in every round of a search, unless the
round makes its last step and so completes the parse. -/
theorem Pending.turn {stage : Parser.Stage} (h : Pending p P s x saved)
    (hs : Charted p x₀ s x saved) (hcopy : p.config.saveUnique = false)
    (hP : p.Way s.goals x₀ P y) (hdone : y.isDone s.goals = true)
    (hturn : Turn p s x saved stage s' x' saved') :
    (stage = .complete ∧ s'.state.path = P) ∨ stage ≠ .failed ∧ Pending p P s' x' saved' := by
  have hs' := hs.turn hcopy hturn
  cases hturn with
  | advanced heq ha =>
    obtain hpath | hpending := h.advanced hP heq ha hs'
    · have hway : p.Way s.goals x₀ P x'.view := by
        rw [← hpath, ← ha.goals]
        exact hs'.way
      refine .inl ⟨?_, hpath⟩
      rw [hway.unique hP, hdone, if_pos rfl]
    · refine .inr ⟨?_, hpending⟩
      split <;> decide
  | @resumed e saved' _ hnil heq hstands hr =>
    subst heq
    refine .inr ⟨by decide, ?_⟩
    obtain ⟨suf, c, hc, -⟩ | ⟨f, hf, cs, hcs, hleads⟩ := h
    · rw [hnil] at hc
      cases hc
    · obtain rfl | hf := List.mem_cons.1 hf
      · refine .inl ?_
        have hchoices : s'.state.choices = some cs :=
          (hr.settled (hs.saved f (List.mem_cons_self ..)).settled).trans hcs
        rw [Session.untried, hchoices, hr.state]
        exact hleads
      · exact .inr ⟨f, hf, cs, hcs, hleads⟩
  | exhausted hnil heq _ =>
    subst heq
    obtain ⟨suf, c, hc, -⟩ | ⟨f, hf, -⟩ := h
    · rw [hnil] at hc
      cases hc
    · cases hf

/-- As long as a way to a complete parse is left to do, a search succeeds; it ends with this parse,
or leaves the way to do. -/
theorem Search.pending {b : Bool} (h : Search p s x saved b s' x' saved')
    (hpending : Pending p P s x saved) (hs : Charted p x₀ s x saved)
    (hcopy : p.config.saveUnique = false) (hP : p.Way s.goals x₀ P y)
    (hdone : y.isDone s.goals = true) :
    b = true ∧ (s'.state.path = P ∨ Pending p P s' x' saved') := by
  induction h with
  | found hturn =>
    obtain ⟨-, hpath⟩ | ⟨-, hpending'⟩ := hpending.turn hs hcopy hP hdone hturn
    · exact ⟨rfl, .inl hpath⟩
    · exact ⟨rfl, .inr hpending'⟩
  | failed hturn =>
    obtain ⟨hstage, -⟩ | ⟨hstage, -⟩ := hpending.turn hs hcopy hP hdone hturn
    · cases hstage
    · exact absurd rfl hstage
  | on hturn _ ih =>
    obtain ⟨hstage, -⟩ | ⟨-, hpending'⟩ := hpending.turn hs hcopy hP hdone hturn
    · cases hstage
    · exact ih hpending' (hs.turn hcopy hturn) (hturn.goals ▸ hP) (hturn.goals ▸ hdone)

namespace Parser

/-- Searches one after the other, without a backup in between, until one of them fails: `found` are
the sessions that the others end with. -/
inductive Repeats (p : Parser σ) : Session σ → List (Session σ) → Prop where
  | stop {fuel : Nat} {s s' : Session σ} : p.parse fuel s = .ok (some false, s') → Repeats p s []
  | again {fuel : Nat} {s s' : Session σ} {found : List (Session σ)} :
    p.parse fuel s = .ok (some true, s') → Repeats p s' found → Repeats p s (s' :: found)

theorem Repeats.visits {found : List (Session σ)} (h : p.Repeats s found)
    (hg : p.grammar.Sound) (hsem : p.semantics = none) (hcopy : p.config.saveUnique = false)
    (hs : Charted p x₀ s x saved) (hpending : Pending p P s x saved)
    (hP : p.Way s.goals x₀ P y) (hdone : y.isDone s.goals = true) :
    ∃ s' ∈ found, ∃ u, y = ⟨[], [u]⟩ ∧ s'.Finished u := by
  induction h generalizing x saved with
  | stop hparse =>
    obtain ⟨x', saved', hsearch⟩ := hs.stands.search hg hsem _ hparse
    cases (hsearch.pending hpending hs hcopy hP hdone).1
  | @again _ s s' found hparse _ ih =>
    obtain ⟨x', saved', hsearch⟩ := hs.stands.search hg hsem _ hparse
    have hs' := hsearch.induct (fun h hturn => h.turn hcopy hturn) hs
    obtain ⟨-, hpath | hpending'⟩ := hsearch.pending hpending hs hcopy hP hdone
    · obtain ⟨u, hview, -, hfinished⟩ := hsearch.finished hs.stands
      have hway : p.Way s.goals x₀ P x'.view := by
        rw [← hpath, ← hsearch.goals]
        exact hs'.way
      exact ⟨s', List.mem_cons_self .., u, by rw [← hview, hway.unique hP], hfinished⟩
    · obtain ⟨s', hs'', hfinished⟩ :=
        ih hs' hpending' (hsearch.goals ▸ hP) (hsearch.goals ▸ hdone)
      exact ⟨s', List.mem_cons_of_mem _ hs'', hfinished⟩

/-- The search is complete where nothing is known of phrase types and no phrase is collapsed in
place: when searches one after the other have come to an end, every phrase of a goal type that the
grammar derives from the tokens has been found by one of them. -/
theorem repeats_complete {g : Grammar} (hg : g.Built) (hm : g.marked = true) {config : Config}
    (hcopy : config.saveUnique = false)
    (hsets : ∀ n ∈ g.nodes.toList, n.begins = none ∧ n.types? = none) (tokens goals : List String)
    (s₀ : Session σ) :
    ∃ p, make g config none = .ok p ∧
      ∀ found, p.Repeats (startTokens tokens goals s₀) found →
        ∀ u, p.Whole Plain u tokens → u.parts ≠ [] → u.word ∈ goals →
          ∃ s ∈ found, s.Finished u := by
  let p : Parser σ := ⟨g, config, none⟩
  refine ⟨p, if_pos hm, fun found hfound u hu hparts hgoal => ?_⟩
  have hunlimited : p.Unlimited := fun i n hi =>
    hsets n (List.mem_of_getElem? (by simpa using hi))
  have hstart : p.Way goals (.ofTokens tokens) [] ⟨[], tokenForms tokens ++ []⟩ := by
    rw [List.append_nil]
    exact .start
  have hopens : p.Opens [] := by simp [Opens]
  obtain ⟨P, hway, hne⟩ := hu.built hunlimited hopens hstart
  have hpending : Pending p P (startTokens tokens goals s₀) ⟨[], tokenUnits 1 tokens⟩ [] :=
    .start tokens s₀.host hway (hne hparts)
  obtain ⟨s, hs, v, hv, hfinished⟩ := hfound.visits hg.sound rfl hcopy
    (Charted.start p tokens goals s₀.host) hpending hway
    (Place.isDone_iff.2 ⟨rfl, u, rfl, hgoal⟩)
  obtain rfl : u = v := by simpa using hv
  exact ⟨s, hs, hfinished⟩

theorem repeats_complete_one :
    let g := ((Grammar.addNode { word := "a", id := "1", kind := .ends "T" none, initial := true }
      {}).mark)
    let config : Config := { saveUnique := false }
    let u : Form := .unit "T" none none [.unit "a" (some 0) none []]
    g.marked = true ∧ config.saveUnique = false ∧
      (∀ n ∈ g.nodes.toList, n.begins = none ∧ n.types? = none) ∧
      ∃ p found, make g config (none : Option (Semantics Unit)) = .ok p ∧
        p.Repeats (startTokens ["a"] ["T"] (.empty ())) found ∧ p.Whole Plain u ["a"] ∧
        ∃ s ∈ found, s.Finished u := by
  intro g config u
  have hg : g.Built := .mark (.addNode .new (by simp [Node.Fresh, Node.links]))
  have hsets : ∀ n ∈ g.nodes.toList, n.begins = none ∧ n.types? = none := by decide +kernel
  obtain ⟨p, hp, hcomplete⟩ :=
    @repeats_complete _ g hg rfl config rfl hsets ["a"] ["T"] (.empty ())
  obtain rfl : ⟨g, config, none⟩ = p := Except.ok.inj hp
  let p : Parser Unit := ⟨g, config, none⟩
  have hrow : p.Row Plain [Form.mark 0 (.unit "a" none none [])] ["a"] :=
    .first (.token "a") (by decide +kernel)
  have hat : (p.at? [Form.mark 0 (.unit "a" none none [])]).any fun n =>
      n.type? = some "T" ∧ n.value? = none := by decide +kernel
  obtain ⟨n, hat, hn⟩ := (Option.any_eq_true _ _).1 hat
  obtain ⟨htype, hvalue⟩ := of_decide_eq_true hn
  have hu : p.Whole Plain u ["a"] := .phrase hrow hat htype (by simp [Plain, hvalue])
  have hruns : (do
      let r ← p.parse 9 (startTokens ["a"] ["T"] (.empty ()))
      let r' ← p.parse 9 r.2
      return [r.1, r'.1]) = (.ok [some true, some false] : Except Fault _) := by decide +kernel
  obtain ⟨r, hfirst, hruns⟩ := bind_eq_ok hruns
  obtain ⟨r', hsecond, hruns⟩ := bind_eq_ok hruns
  obtain ⟨h₁, h₂⟩ : r.1 = some true ∧ r'.1 = some false := by
    simpa [pure, Except.pure] using hruns
  have hfound : p.Repeats (startTokens ["a"] ["T"] (.empty ())) [r.2] :=
    .again (hfirst.trans (by rw [← h₁])) (.stop (hsecond.trans (by rw [← h₂])))
  exact ⟨rfl, rfl, hsets, _, [r.2], rfl, hfound, hu,
    hcomplete [r.2] hfound u hu (by decide) (by decide)⟩

end Parser

end StateDiagram
