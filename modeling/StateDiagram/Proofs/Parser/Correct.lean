import StateDiagram.Proofs.Parser.Walks
import Mathlib.Data.List.Chain

/-! Phrases that a parse recognizes are phrases of the grammar. Whatever a host does, every unit
with a subphrase, in the chain of any state and at any depth, is a path of the grammar that ends
its word; and a parse that is complete is such a phrase with a goal for its word. -/
namespace StateDiagram

open StateDiagram.Tree Arena

variable {σ : Type}

namespace Form

def parts : Form → List Form
  | unit _ _ _ ps => ps

@[simp] theorem parts_unit (w : String) (n : Option Nat) (v : Option Value) (ps : List Form) :
    (unit w n v ps).parts = ps := rfl

@[simp] theorem parts_mark (n : Nat) (u : Form) : (u.mark n).parts = u.parts := by
  cases u
  rfl

@[simp] theorem parts_clear (u : Form) : u.clear.parts = u.parts := by
  cases u
  rfl

/-- The unit is one of the units `us` or somewhere below one of them. -/
inductive Within (u : Form) : List Form → Prop where
  | among {us : List Form} : u ∈ us → Within u us
  | under {v : Form} {us : List Form} : v ∈ us → Within u v.parts → Within u us

theorem Within.exists {u : Form} {us : List Form} (h : Within u us) :
    ∃ v ∈ us, u = v ∨ Within u v.parts := by
  cases h with
  | among hu => exact ⟨u, hu, .inl rfl⟩
  | under hv h => exact ⟨_, hv, .inr h⟩

end Form

@[simp] theorem Tree.parts_form (t : Tree) : t.form.parts = t.parts.map form := by
  cases t
  simp

@[simp] theorem Tree.parts_bare (t : Tree) : t.bare.parts = t.parts.map form := by
  simp [bare]

namespace Parser

variable (p : Parser σ)

/-- The node that the unit is matched to can begin a phrase at the unit's word: it is an initial
node of that word, of the word that stands for anything, or, if the lexicon lacks the unit's word,
of the word that it falls back to. -/
def Begins (u : Form) : Prop :=
  ∃ n node, u.matched = some n ∧ p.grammar.nodes[n]? = some node ∧ node.initial = true ∧
    (node.word = u.word ∨ node.word = p.config.anythingWord ∨
      p.grammar.lookup? u.word = none ∧ node.word = p.fallback u.word)

/-- A link leads from the node of `u`, which ends no phrase, to the node of `v`, and `v` is an
empty unit if it is a link that consumes nothing, and a unit that the link asks for otherwise. -/
def Joins (u v : Form) : Prop :=
  ∃ m n node l, u.matched = some m ∧ v.matched = some n ∧ p.grammar.nodes[m]? = some node ∧
    node.isFinal = false ∧ l ∈ node.links ∧ p.grammar.target? l = some n ∧
    (l.word = p.config.dummyWord ∧ v.word = p.config.dummyWord ∧ v.parts = [] ∨
      l.word = v.word ∨ l.word = p.config.anythingWord)

/-- The node of the unit ends a phrase of this type. -/
def Ends (u : Form) (type : String) : Prop :=
  ∃ n node, u.matched = some n ∧ p.grammar.nodes[n]? = some node ∧ node.type? = some type

/-- The parts of the unit are a path of the grammar that ends the unit's word. -/
structure CorrectPhrase (u : Form) : Prop where
  begins : ∃ v, u.parts.head? = some v ∧ p.Begins v
  joined : u.parts.IsChain p.Joins
  ends : ∃ v, u.parts.getLast? = some v ∧ p.Ends v u.word

/-- Whatever is below the units, completed phrases are correct. -/
def CorrectBelow (us : List Form) : Prop :=
  ∀ u, u.Within us → u.parts ≠ [] → p.CorrectPhrase u

variable {p} {V : Node → Option Value → Prop}

theorem begins_of_mem_openings (hg : p.grammar.Sound) {u : Form} {n : Nat}
    (h : Choice.initial n ∈ p.openings u.word none) : p.Begins (u.mark n) := by
  obtain ⟨node, hnode, hinitial, hentry⟩ := node_of_mem_openings h
  refine ⟨n, node, by simp, hnode, hinitial, ?_⟩
  have hword : ∀ {w : String}, n ∈ p.entry w →
      node.word = w ∨ w ≠ p.config.anythingWord ∧ p.grammar.lookup? w = none ∧
        node.word = p.fallback w := by
    intro w hn
    obtain ⟨node', hnode', hword⟩ := word_of_mem_entry hg hn
    obtain rfl := Option.some.inj (hnode.symm.trans hnode')
    exact hword
  rw [Form.word_mark]
  cases hentry with
  | inl hn =>
    exact (hword hn).imp_right fun hf => .inr ⟨hf.2.1, hf.2.2⟩
  | inr hn =>
    exact .inr (.inl ((hword hn).resolve_right fun hf => hf.1 rfl))

theorem isFinal_of_mem_links {node : Node} {l : Link} (h : l ∈ node.links) :
    node.isFinal = false := by
  unfold Node.links at h
  unfold Node.isFinal
  cases hk : node.kind with
  | ends type value => simp [hk] at h
  | continues links types => rfl

/-- A row that is read from left to right begins and goes on as the grammar says. -/
theorem Row.path {o : List Form} {ws : List String} (h : p.Row V o ws) (hg : p.grammar.Sound) :
    (∃ v, o.getLast? = some v ∧ p.Begins v) ∧ o.IsChain fun v u => p.Joins u v := by
  have hat : ∀ {o : List Form} {node : Node}, p.at? o = some node →
      ∃ u m, o.head? = some u ∧ u.matched = some m ∧ p.grammar.nodes[m]? = some node := by
    intro o node hat
    simp only [at?, Option.bind_eq_some_iff] at hat
    obtain ⟨u, hu, m, hm, hnode⟩ := hat
    exact ⟨u, m, hu, hm, hnode⟩
  induction o generalizing ws with
  | nil => cases h
  | cons v o ih =>
    have hext : ∀ {ws : List String}, p.Row V o ws → (∀ u, o.head? = some u → p.Joins u v) →
        (∃ w, (v :: o).getLast? = some w ∧ p.Begins w) ∧
          (v :: o).IsChain fun v u => p.Joins u v := by
      intro ws ho hv
      obtain ⟨⟨w, hw, hbegins⟩, hchain⟩ := ih ho
      cases o with
      | nil => cases ho
      | cons u o =>
        rw [List.getLast?_cons_cons]
        exact ⟨⟨w, hw, hbegins⟩, .cons_cons (hv u rfl) hchain⟩
    cases h with
    | first hv hn => exact ⟨⟨_, rfl, begins_of_mem_openings hg hn⟩, .singleton _⟩
    | next ho hv hnode hl hd hm ht =>
      refine hext ho fun u hu => ?_
      obtain ⟨u', m, hu', hmatched, hget⟩ := hat hnode
      obtain rfl := Option.some.inj (hu.symm.trans hu')
      exact ⟨m, _, _, _, hmatched, Form.matched_mark _ _, hget, isFinal_of_mem_links hl, hl, ht,
        .inr (by simpa [eq_comm] using hm)⟩
    | skip ho hnode hl hd ht =>
      refine hext ho fun u hu => ?_
      obtain ⟨u', m, hu', hmatched, hget⟩ := hat hnode
      obtain rfl := Option.some.inj (hu.symm.trans hu')
      exact ⟨m, _, _, _, hmatched, rfl, hget, isFinal_of_mem_links hl, hl, ht, .inl ⟨hd, rfl, rfl⟩⟩

theorem Row.correct {o : List Form} {ws : List String} {node : Node} {type : String}
    {v : Option Value} (h : p.Row V o ws) (hg : p.grammar.Sound) (hat : p.at? o = some node)
    (htype : node.type? = some type) : p.CorrectPhrase (.unit type none v o.reverse) := by
  obtain ⟨⟨u, hu, hbegins⟩, hchain⟩ := h.path hg
  simp only [at?, Option.bind_eq_some_iff] at hat
  obtain ⟨w, hw, m, hm, hnode⟩ := hat
  exact ⟨⟨u, by simpa using hu, hbegins⟩, List.isChain_reverse.2 hchain,
    ⟨w, by simpa using hw, m, node, hm, hnode, htype⟩⟩

theorem correctBelow_iff {us : List Form} : p.CorrectBelow us ↔
    ∀ u ∈ us, (u.parts ≠ [] → p.CorrectPhrase u) ∧ p.CorrectBelow u.parts := by
  constructor
  · exact fun h u hu => ⟨h u (.among hu), fun v hv => h v (.under hu hv)⟩
  · intro h v hv hne
    obtain ⟨w, hw, heq | hbelow⟩ := hv.exists
    · exact heq ▸ (h w hw).1 (heq ▸ hne)
    · exact (h w hw).2 v hbelow hne

/-- Whether a phrase is correct does not depend on the node that it is matched to. -/
theorem CorrectPhrase.congr {u v : Form} (h : p.CorrectPhrase u) (hw : v.word = u.word)
    (hparts : v.parts = u.parts) : p.CorrectPhrase v := by
  obtain ⟨hbegins, hjoined, hends⟩ := h
  exact ⟨hparts ▸ hbegins, hparts ▸ hjoined, by rw [hparts, hw]; exact hends⟩

theorem correctBelow_mark {u : Form} (n : Nat)
    (h : (u.parts ≠ [] → p.CorrectPhrase u) ∧ p.CorrectBelow u.parts) :
    ((u.mark n).parts ≠ [] → p.CorrectPhrase (u.mark n)) ∧ p.CorrectBelow (u.mark n).parts := by
  rw [Form.parts_mark]
  exact ⟨fun hne => (h.1 hne).congr (Form.word_mark n u) (Form.parts_mark n u), h.2⟩

theorem correctBelow_nil : p.CorrectBelow [] :=
  correctBelow_iff.2 fun _ hu => nomatch hu

mutual

theorem Row.correctBelow (hg : p.grammar.Sound) : ∀ {o : List Form} {ws : List String},
    p.Row V o ws → p.CorrectBelow o
  | _, _, .first hu _ =>
    correctBelow_iff.2 (List.forall_mem_singleton.2 (correctBelow_mark _ (hu.correct hg)))
  | _, _, .next ho hu _ _ _ _ _ => correctBelow_iff.2 (List.forall_mem_cons.2
      ⟨correctBelow_mark _ (hu.correct hg), correctBelow_iff.1 (ho.correctBelow hg)⟩)
  | _, _, .skip ho _ _ _ _ => correctBelow_iff.2 (List.forall_mem_cons.2
      ⟨⟨fun hne => absurd rfl hne, correctBelow_nil⟩, correctBelow_iff.1 (ho.correctBelow hg)⟩)

theorem Whole.correct (hg : p.grammar.Sound) : ∀ {u : Form} {ws : List String}, p.Whole V u ws →
    (u.parts ≠ [] → p.CorrectPhrase u) ∧ p.CorrectBelow u.parts
  | _, _, .token _ => ⟨fun hne => absurd rfl hne, correctBelow_nil⟩
  | _, _, .phrase ho hat htype _ => ⟨fun _ => ho.correct hg hat htype, by
      rw [Form.parts_unit, correctBelow_iff]
      exact fun u hu => correctBelow_iff.1 (ho.correctBelow hg) u (List.mem_reverse.1 hu)⟩

end

end Parser

variable {p : Parser σ}

/-- The chain of a state whose open phrases are rows and whose other units are whole. -/
theorem Post.correctBelow {e : Post} (h : p.Proper e.place.view) (hg : p.grammar.Sound) :
    p.CorrectBelow (e.units.map form) := by
  refine Parser.correctBelow_iff.2 fun u hu => ?_
  obtain ⟨t, ht, rfl⟩ := List.mem_map.1 hu
  rw [units, List.mem_cons, List.mem_append] at ht
  rcases ht with rfl | ht | ht
  · simp only [form_header, Form.parts_unit]
    exact ⟨fun hne => absurd rfl hne, Parser.correctBelow_nil⟩
  · rw [Place.spine, List.mem_reverse, List.mem_flatten] at ht
    obtain ⟨o, ho, hto⟩ := ht
    obtain ⟨ws, hrow⟩ := h.opened (o.map form) (List.mem_map_of_mem ho)
    exact Parser.correctBelow_iff.1 (hrow.correctBelow hg) t.form (List.mem_map_of_mem hto)
  · obtain ⟨ws, hwhole⟩ := h.ahead t.bare (List.mem_map_of_mem ht)
    have hcorrect := hwhole.correct hg
    rw [parts_bare, ← parts_form] at hcorrect
    exact ⟨fun hne => (hcorrect.1 hne).congr (by simp) (by simp), hcorrect.2⟩

theorem Stands.correctBelow {s : Session σ} {x : Place Tree} {saved : List Post}
    (h : Stands p s x saved) (hg : p.grammar.Sound) : ∀ st ∈ s.state :: s.saved,
      ∃ ts, s.arena.Spans (some st.head) ts none ∧ p.CorrectBelow (ts.map form) := by
  intro st hst
  obtain ⟨e, he, rfl⟩ := h.post_of_mem hst
  exact ⟨e.units, (h.standing.lays e he).spans, Post.correctBelow (h.standing.proper e he) hg⟩

/-- A parse is complete when nothing but a phrase with a goal for its word is left. -/
def Session.Recognized (p : Parser σ) (s : Session σ) : Prop :=
  ∃ h t, s.arena.Spans (some s.state.head) [h, t] none ∧ t.word ∈ s.goals ∧ t.parts ≠ [] ∧
    p.CorrectPhrase t.form

/-- Where a phrase is completed by a legal move, it is the next unit of the place. -/
theorem Parser.Legal.completes {x y : Place Form} {c : Choice} {v : Option Value} {dummy : String}
    (hc : p.Legal x c) (hy : y = x.after dummy v c) (hopened : y.opened = []) :
    ∃ o us type, x.opened = [o] ∧ c = .final type ∧ x.ahead = us ∧
      y.ahead = .unit type none v o.reverse :: us := by
  subst hy
  cases hc with
  | initial hn => cases hopened
  | nonDummy hat hl hd hm ht => cases hopened
  | dummy hat hl hd ht => cases hopened
  | @final o os us node type hat htype =>
    obtain rfl : os = [] := hopened
    exact ⟨o, us, type, rfl, rfl, rfl, rfl⟩

/-- Only a move that completes a phrase leaves a parse complete. -/
theorem Took.recognized {cs : List Choice} {s s' : Session σ} {x x' : Place Tree}
    {saved saved' : List Post} (h : Took p cs s x saved .succeed s' x' saved')
    (hs : Stands p s x saved) (hcs : ∀ c ∈ cs, p.Legal x.view c) (hg : p.grammar.Sound)
    (hdone : s'.isDone = true) : s'.Recognized p := by
  have hs' := h.stands hs
  rw [hs'.isDone_eq, Place.isDone_iff] at hdone
  obtain ⟨hopened, u, hahead, hgoal⟩ := hdone
  have hparts : u.parts ≠ [] := by
    cases h with
    | refused _ h => exact absurd rfl h.signal
    | vetoed _ hsignal _ => exact absurd rfl hsignal
    | @made c others v s' _ _ heq h =>
      have hc : p.Legal x.view c := hcs c (by simp [heq])
      obtain ⟨o, us, type, ho, -, -, hahead'⟩ := hc.completes h.view hopened
      obtain ⟨ws, hrow⟩ := hs.proper.opened o (by simp [ho])
      rw [hahead] at hahead'
      obtain ⟨rfl, -⟩ := List.cons.inj hahead'
      rw [Form.parts_unit, ne_eq, List.reverse_eq_nil_iff]
      rintro rfl
      cases hrow
  obtain ⟨t, hx, rfl⟩ : ∃ t, x'.ahead = [t] ∧ t.bare = u := by
    obtain ⟨t, ts, hx, ht, hts⟩ := Place.ahead_of_view hahead
    obtain rfl := List.map_eq_nil_iff.1 hts
    exact ⟨t, hx, ht⟩
  have hunits : Post.units ⟨s'.state, x'⟩ = [header s'.state.head, t] := by
    have hnil : x'.opened = [] := List.map_eq_nil_iff.1 hopened
    simp [Post.units, Place.spine, hnil, hx]
  have hbelow := Post.correctBelow (e := ⟨s'.state, x'⟩) hs'.proper hg
  have hspans := hs'.lays.spans
  rw [hunits] at hbelow hspans
  rw [parts_bare, ← parts_form] at hparts
  refine ⟨_, t, hspans, by simpa using hgoal, by simpa using hparts, ?_⟩
  exact hbelow t.form (.among (by simp)) hparts

namespace Parser

theorem parse_recognized (hg : p.grammar.Sound) (fuel : Nat) : ∀ {s s' : Session σ}, s.Placed p →
    p.parse fuel s = .ok (some true, s') → s'.Recognized p := by
  induction fuel with
  | zero =>
    intro s s' _ hrun
    cases hrun
  | succ fuel ih =>
    intro s s' h hrun
    obtain ⟨stage, s₁, hstage, hsteps⟩ := stage_steps h hg
    simp only [parse, hstage, bind, Except.bind, pure, Except.pure] at hrun
    cases stage with
    | failed => cases hrun
    | searching => exact ih (h.steps hg hsteps) hrun
    | complete =>
      obtain rfl : s₁ = s' := by cases hrun; rfl
      obtain ⟨x, saved, hs⟩ := h
      obtain ⟨signal, s₂, x', saved', hadvance, htook⟩ := hs.advance hg
      simp only [Parser.stage, hadvance, bind, Except.bind, pure, Except.pure] at hstage
      cases signal with
      | quit => cases hstage
      | succeed =>
        cases hdone : s₂.isDone with
        | true =>
          obtain rfl : s₂ = s₁ := by
            rw [hdone] at hstage
            cases hstage
            rfl
          exact htook.recognized hs hs.legal_untried hg hdone
        | false =>
          rw [hdone] at hstage
          cases hstage
      | noAdvance =>
        obtain ⟨found, s₃, hback, -⟩ := Session.Placed.backup ⟨x', saved', htook.stands hs⟩ hg
        rw [hback] at hstage
        cases found <;> cases hstage

/-- After any calls of a host, all completed phrases in the chains of the active state and of the
saved states are correct, and if the search for the next parse succeeds, it has recognized a
correct phrase with a goal for its word. -/
theorem calls_correct {g : Grammar} (hg : g.Built) (hm : g.marked = true) (config : Config)
    (semantics : Option (Semantics σ)) (host : σ) (cs : List Call) :
    ∃ p s, make g config semantics = .ok p ∧ p.calls cs (.empty host) = .ok s ∧
      (∀ st ∈ s.state :: s.saved, ∃ ts, s.arena.Spans (some st.head) ts none ∧
        p.CorrectBelow (ts.map form)) ∧
      ∀ fuel s', p.parse fuel s = .ok (some true, s') →
        s'.goals = s.goals ∧ s'.Recognized p := by
  let p : Parser σ := ⟨g, config, semantics⟩
  have hsound : p.grammar.Sound := hg.sound
  obtain ⟨s, hrun, hplaced⟩ := calls_placed hsound cs (.start p [] [] host)
  refine ⟨p, s, if_pos hm, hrun, ?_, fun fuel s' hparse =>
    ⟨?_, parse_recognized hsound fuel hplaced hparse⟩⟩
  · obtain ⟨x, saved, hs⟩ := hplaced
    exact hs.correctBelow hsound
  · obtain ⟨found, s₁, hrun', hsteps⟩ := parse_steps hsound fuel hplaced
    obtain ⟨-, rfl⟩ : some true = found ∧ s' = s₁ := by
      rw [hparse] at hrun'
      cases hrun'
      exact ⟨rfl, rfl⟩
    exact hplaced.steps_goals hsound hsteps

/-- A word that is a phrase of two types. The first of them has been completed while the state
before it is saved, and the search goes on from there to a phrase that goes around it. -/
theorem calls_correct_one :
    let g := (Grammar.ofNodes [
      { word := "a", id := "1", initial := true, kind := .ends "T" none },
      { word := "a", id := "2", initial := true, kind := .ends "Q" none },
      { word := "T", id := "1", initial := true, kind := .ends "S" none }] []).mark
    g.marked = true ∧ ∃ p s s', make g {} (none : Option (Semantics Unit)) = .ok p ∧
      p.calls [.startTokens ["a"] ["S"], .advance, .advance] (.empty ()) = .ok s ∧
      s.saved.length = 1 ∧ s.topUnit?.map (fun u => (u.word, u.sub.isSome)) = some ("T", true) ∧
      (∀ st ∈ s.state :: s.saved, ∃ ts, s.arena.Spans (some st.head) ts none ∧
        p.CorrectBelow (ts.map form)) ∧
      p.parse 9 s = .ok (some true, s') ∧ s'.taken = [.initial 0, .final "T", .initial 2, .final "S"] ∧
      s'.goals = s.goals ∧ s'.Recognized p := by
  intro g
  have hg : g.Built := .mark (Grammar.built_ofNodes (by simp [Node.Fresh, Node.links]) _)
  obtain ⟨p, s, hp, hrun, hcorrect, hparsed⟩ := calls_correct hg rfl {}
    (none : Option (Semantics Unit)) () [.startTokens ["a"] ["S"], .advance, .advance]
  let q : Parser Unit := ⟨g, {}, none⟩
  obtain rfl : q = p := Except.ok.inj hp
  have hcomputed : (do
      let s ← q.calls [.startTokens ["a"] ["S"], .advance, .advance] (.empty ())
      let r ← q.parse 9 s
      return (s.saved.length, s.topUnit?.map fun u => (u.word, u.sub.isSome), r.1, r.2.taken)) =
        (.ok (1, some ("T", true), some true, [.initial 0, .final "T", .initial 2, .final "S"]) :
          Except Fault _) := by
    decide +kernel
  obtain ⟨s₁, hrun', h⟩ := bind_eq_ok hcomputed
  obtain rfl : s = s₁ := Except.ok.inj (hrun.symm.trans hrun')
  obtain ⟨⟨found, s'⟩, hparse, h⟩ := bind_eq_ok h
  simp only [pure, Except.pure, Except.ok.injEq, Prod.mk.injEq] at h
  obtain ⟨hsaved, htop, rfl, htaken⟩ := h
  obtain ⟨hgoals, hrecognized⟩ := hparsed 9 s' hparse
  exact ⟨rfl, q, s, s', rfl, hrun, hsaved, htop, hcorrect, hparse, htaken, hgoals, hrecognized⟩

end Parser

end StateDiagram
