import StateDiagram.Proofs.Parser.Complete
import StateDiagram.Proofs.Parser.Weight
import Mathlib.Logic.Hydra
import Mathlib.Tactic.Abel

/-! Searches come to an end if no word rises to itself and no node skips to itself. Each state has
a burden: the weight of its place, and the number of its choices. A round either replaces the
burden of the active state by smaller ones, or drops it and goes on with that of a saved state. -/
namespace StateDiagram

open Relation

variable {σ : Type} {p : Parser σ} {r : p.Ranking}

/-- The weight of a place with the number of choices there; the weight is compared first. -/
abbrev Burden : Type :=
  Parser.Weight ×ₗ ℕ

/-- A saved state has a burden of at most `w`. The choices of a state that is not settled are not
those that it will have, and so its place has to be lighter. -/
def Post.Bears (r : p.Ranking) (e : Post) (w : Burden) : Prop :=
  ∃ m, p.Weighs r e.place.view m ∧ (m < (ofLex w).1 ∨
    e.Settled ∧ toLex (m, (e.state.choices.getD []).length) ≤ w)

/-- The active state and the saved ones have burdens of at most `w` and `ws`. -/
structure Loaded (r : p.Ranking) (s : Session σ) (x : Place Tree) (saved : List Post) (w : Burden)
    (ws : List Burden) : Prop where
  active : ∃ m, p.Weighs r x.view m ∧ toLex (m, (s.untried p x).length) ≤ w
  saved : List.Forall₂ (Post.Bears r) saved ws

/-- If a move puts a unit before those to come, it completes a phrase at a node of its type. -/
theorem Parser.Legal.ended {x : Place Form} {c : Choice} {v w : Option Value} {o ps : List Form}
    {os : List (List Form)} {type : String} (hc : p.Legal x c) (hx : x.opened = o :: os)
    (hahead : (x.after p.config.dummyWord w c).ahead = .unit type none v ps :: x.ahead) :
    ∃ node, p.at? o = some node ∧ node.type? = some type := by
  obtain ⟨type', rfl⟩ := hc.final_of_cons hahead
  cases hc with
  | final hat htype =>
    obtain ⟨rfl, -⟩ := List.cons.inj hx
    simp only [Place.after, List.cons.injEq, Form.unit.injEq] at hahead
    exact ⟨_, hat, by rw [htype, hahead.1.1]⟩

/-- A saved state bears no more when the active state moves on. -/
theorem Carried.bears {x x' : Place Tree} {c : Choice} {f g : Post} {w : Burden} {a b : Arena}
    {st : State} (h : Carried p ⟨st, x⟩ a b x' f g) (hx : p.Proper x.view)
    (hc : p.Legal x.view c) (hview : x'.view = p.moved c x.view) (hf : f.Bears r w) :
    g.Bears r w := by
  obtain ⟨m, hm, hle⟩ := hf
  have hopened : g.place.view.opened = f.place.view.opened := by
    rw [Place.view, h.opened, Place.view]
  cases h.ahead with
  | same hahead hsub =>
    have hplace : g.place.view = f.place.view := congrArg₂ Place.mk hopened hahead
    refine ⟨m, hplace ▸ hm, hle.imp_right ?_⟩
    rintro ⟨hset, hle⟩
    rw [h.state]
    exact ⟨hset.congr h.state hahead hsub, hle⟩
  | @collapsed o pre os i type v hsave hunique hopen hfirst hmem hnew hf hg hnil hcons =>
    rw [hview] at hnew
    obtain ⟨node, hat, htype⟩ := hc.ended hopen hnew
    obtain ⟨ws, hrow⟩ := hx.opened o (by rw [hopen]; exact List.mem_cons_self ..)
    rw [← hview] at hnew
    have hf' : f.place.view = ⟨g.place.view.opened, pre ++ (o.reverse.map Form.clear ++
        x.view.ahead)⟩ := congrArg₂ Place.mk hopened.symm hf
    have hg' : g.place.view = ⟨g.place.view.opened, pre ++ .unit type none v o.reverse ::
        x.view.ahead⟩ := congrArg₂ Place.mk rfl (hg.trans (by rw [hnew]))
    rw [hf'] at hm
    obtain ⟨m', hlt, hm'⟩ := hm.collapse hrow hat htype
    rw [← hg'] at hm'
    have hle' : m ≤ (ofLex w).1 := by
      cases hle with
      | inl hlt => exact hlt.le
      | inr hle => exact Prod.Lex.monotone_fst _ _ hle.2
    exact ⟨m', hm', .inl (hlt.trans_le hle')⟩

theorem Loaded.of_stands {s : Session σ} {x : Place Tree} {saved : List Post}
    (h : Stands p s x saved) (r : p.Ranking) : ∃ w ws, Loaded r s x saved w ws := by
  have hall : ∀ es : List Post, (∀ e ∈ es, p.Proper e.place.view) →
      ∃ ws, List.Forall₂ (Post.Bears r) es ws := by
    intro es hes
    induction es with
    | nil => exact ⟨[], .nil⟩
    | cons e es ih =>
      obtain ⟨ws, hws⟩ := ih fun f hf => hes f (List.mem_cons_of_mem e hf)
      obtain ⟨m, hm⟩ := (hes e (List.mem_cons_self ..)).weighs r
      obtain ⟨m', hlt⟩ := exists_gt m
      exact ⟨toLex (m', 0) :: ws, .cons ⟨m, hm, .inl hlt⟩ hws⟩
  obtain ⟨ws, hws⟩ := hall saved fun e he => h.standing.proper e (List.mem_cons_of_mem _ he)
  obtain ⟨m, hm⟩ := h.proper.weighs r
  exact ⟨_, ws, ⟨m, hm, le_rfl⟩, hws⟩

variable {s s' : Session σ} {x x' : Place Tree} {saved saved' : List Post}

/-- A move replaces the burden of the active state by two smaller ones. -/
theorem Loaded.advanced {c : Choice} {others : List Choice} {w : Burden} {ws : List Burden}
    (h : Loaded r s x saved w ws) (hs : Stands p s x saved) (heq : s.untried p x = c :: others)
    (ha : Advanced p c others s x saved s' x' saved') : ∃ w' ws', Loaded r s' x' saved' w' ws' ∧
      CutExpand (· < ·) (w' ::ₘ (ws' : Multiset Burden)) (w ::ₘ ws) := by
  obtain ⟨m, hm, hle⟩ := h.active
  have hc : p.Legal x.view c := hs.legal_untried c (by rw [heq]; exact List.mem_cons_self ..)
  obtain ⟨m', hlt, hm'⟩ := hm.after hc (p.valueAt x.view)
  have hnew : toLex (m', (s'.untried p x').length) < w :=
    (Prod.Lex.toLex_lt_toLex.2 (.inl hlt)).trans_le hle
  have hrest : toLex (m, others.length) < w := by
    rw [heq] at hle
    have hlt : toLex (m, others.length) < toLex (m, (c :: others).length) :=
      Prod.Lex.toLex_lt_toLex.2 (.inr ⟨rfl, Nat.lt_succ_self _⟩)
    exact hlt.trans_le hle
  have hactive : ∃ n, p.Weighs r x'.view n ∧
      toLex (n, (s'.untried p x').length) ≤ toLex (m', (s'.untried p x').length) :=
    ⟨m', ha.view ▸ hm', le_rfl⟩
  have hcarried : ∀ vs, List.Forall₂ (Post.Bears r) (pushed c others ⟨s.state, x⟩ saved) vs →
      List.Forall₂ (Post.Bears r) saved' vs := fun vs hvs =>
    forall₂_comp (fun _ _ _ hg hf => hg.bears hs.proper hc ha.view hf) ha.carried.flip hvs
  cases others with
  | nil =>
    refine ⟨_, ws, ⟨hactive, hcarried ws h.saved⟩, {toLex (m', (s'.untried p x').length)}, w, ?_, ?_⟩
    · simpa using hnew
    · rw [← Multiset.singleton_add, ← Multiset.singleton_add]
      abel
  | cons d ds =>
    have hpushed : Post.Bears r ⟨Post.setOut c (d :: ds) ⟨s.state, x⟩, x⟩
        (toLex (m, (d :: ds).length)) := ⟨m, hm, .inr ⟨.inr rfl, le_rfl⟩⟩
    refine ⟨_, _, ⟨hactive, hcarried _ (.cons hpushed h.saved)⟩,
      {toLex (m', (s'.untried p x').length), toLex (m, (d :: ds).length)}, w, ?_, ?_⟩
    · simpa using ⟨hnew, hrest⟩
    · rw [← Multiset.cons_coe, ← Multiset.singleton_add, ← Multiset.singleton_add,
        ← Multiset.singleton_add, Multiset.insert_eq_cons, ← Multiset.singleton_add]
      abel

/-- To take up a saved state drops the burden of the active one. -/
theorem Loaded.resumed {e : Post} {w : Burden} {ws : List Burden}
    (h : Loaded r s x (e :: saved) w ws) (hr : Resumed p s s' e)
    (hchoices : ∃ cs, e.state.choices = some cs) :
    ∃ w' ws', Loaded r s' e.place saved w' ws' ∧
      CutExpand (· < ·) (w' ::ₘ (ws' : Multiset Burden)) (w ::ₘ ws) := by
  obtain ⟨cs, hcs⟩ := hchoices
  cases h.saved with
  | @cons _ w' _ ws' he hsaved =>
    obtain ⟨m, hm, hle⟩ := he
    refine ⟨w', ws', ⟨⟨m, hm, ?_⟩, hsaved⟩, 0, w, by simp, ?_⟩
    · cases hle with
      | inl hlt => exact (Prod.Lex.lt_iff.2 (.inl hlt)).le
      | inr hle =>
        obtain ⟨hset, hle⟩ := hle
        rw [Session.untried, hr.settled hset, hcs]
        rwa [hcs] at hle
    · rw [← Multiset.cons_coe, ← Multiset.singleton_add, ← Multiset.singleton_add]
      abel

theorem Loaded.turn {stage : Parser.Stage} {w : Burden} {ws : List Burden}
    (h : Loaded r s x saved w ws) (hs : Stands p s x saved)
    (hturn : Turn p s x saved stage s' x' saved') (hstage : stage ≠ .failed) :
    ∃ w' ws', Loaded r s' x' saved' w' ws' ∧
      CutExpand (· < ·) (w' ::ₘ (ws' : Multiset Burden)) (w ::ₘ ws) := by
  cases hturn with
  | advanced heq ha => exact h.advanced hs heq ha
  | @resumed e saved' s' _ heq _ hr =>
    subst heq
    obtain ⟨cs, hcs, -⟩ := (hs.standing.waiting e (List.mem_cons_self ..)).choices
    exact h.resumed hr ⟨cs, hcs⟩
  | exhausted _ _ _ => exact absurd rfl hstage

namespace Parser

/-- A round before the searches. -/
theorem Repeats.before {found : List (Session σ)} (h : p.Repeats s' found)
    (hstage : p.stage s = .ok (.searching, s')) : p.Repeats s found := by
  have hparse : ∀ fuel, p.parse (fuel + 1) s = p.parse fuel s' := fun fuel => by
    simp only [Parser.parse, hstage, bind, Except.bind]
  cases h with
  | @stop fuel _ s'' hrun => exact @Repeats.stop _ p (fuel + 1) _ _ ((hparse fuel).trans hrun)
  | @again fuel _ s'' found hrun h =>
    exact @Repeats.again _ p (fuel + 1) _ _ _ ((hparse fuel).trans hrun) h

/-- Searches one after the other come to an end, wherever the first of them starts. -/
theorem Acyclic.repeats (h : p.Acyclic) (hg : p.grammar.Sound) (hsem : p.semantics = none)
    (hs : Stands p s x saved) : ∃ found, p.Repeats s found := by
  obtain ⟨r⟩ := h.ranking hg
  obtain ⟨w, ws, hloaded⟩ := Loaded.of_stands hs r
  have hacc : Acc (CutExpand (· < ·)) (w ::ₘ (ws : Multiset Burden)) :=
    (wellFounded_lt.cutExpand).apply _
  generalize hburden : w ::ₘ (ws : Multiset Burden) = burden at hacc
  induction hacc generalizing s x saved w ws with
  | intro burden _ ih =>
    subst hburden
    obtain ⟨stage, s', x', saved', hstage, hturn⟩ := hs.turn hg hsem
    have hparse : p.parse 1 s = .ok (match stage with
        | .complete => (some true, s')
        | .failed => (some false, s')
        | .searching => (none, s')) := by
      simp only [Parser.parse, hstage, bind, Except.bind]
      cases stage <;> rfl
    have hnext : stage ≠ .failed → ∃ found, p.Repeats s' found := fun hne => by
      obtain ⟨w', ws', hloaded', hless⟩ := hloaded.turn hs hturn hne
      exact ih _ hless hturn.stands w' ws' hloaded' rfl
    cases stage with
    | failed => exact ⟨[], .stop hparse⟩
    | searching =>
      obtain ⟨found, hfound⟩ := hnext (by decide)
      exact ⟨found, hfound.before hstage⟩
    | complete =>
      obtain ⟨found, hfound⟩ := hnext (by decide)
      exact ⟨s' :: found, .again hparse hfound⟩

/-- If no word rises to itself and no node skips to itself, the search for the next parse comes to
an end, whatever the parser has been called to do before, and after finitely many parses there is
no other. -/
theorem repeats_end {g : Grammar} (hg : g.Built) (hm : g.marked = true) {config : Config}
    (h : Acyclic (⟨g, config, none⟩ : Parser σ)) (tokens goals : List String) (s₀ : Session σ)
    (cs : List Call) : ∃ p s, make g config none = .ok p ∧
      p.calls cs (startTokens tokens goals s₀) = .ok s ∧
      (∃ fuel found s', p.parse fuel s = .ok (some found, s')) ∧ ∃ found, p.Repeats s found := by
  let p : Parser σ := ⟨g, config, none⟩
  obtain ⟨s, hrun, x, saved, hs⟩ :=
    calls_placed hg.sound cs (.start p tokens goals s₀.host)
  obtain ⟨found, hfound⟩ := h.repeats hg.sound rfl hs
  refine ⟨p, s, if_pos hm, hrun, ?_, found, hfound⟩
  cases hfound with
  | stop hparse => exact ⟨_, _, _, hparse⟩
  | again hparse _ => exact ⟨_, _, _, hparse⟩

/-- A grammar of a word that skips to the end of a phrase. -/
def skipping : Grammar :=
  (Grammar.ofNodes [
    { word := "a", id := "1", initial := true,
      kind := .continues [{ word := "$$", id := "1" }] none },
    { word := "$$", id := "1", kind := .ends "T" none }] []).mark

theorem skipping_built : skipping.Built :=
  .mark (Grammar.built_ofNodes (by simp [Node.Fresh, Node.links]) _)

theorem skips_skipping : Skips (⟨skipping, {}, none⟩ : Parser Unit) 0 1 := by
  refine ⟨{ word := "a", id := "1", initial := true,
            kind := .continues [⟨"$$", "1", {}, some 1⟩] none }, ⟨"$$", "1", {}, some 1⟩, ?_,
    List.mem_singleton.2 rfl, rfl, rfl⟩
  decide +kernel

theorem rises_skipping : Rises (⟨skipping, {}, none⟩ : Parser Unit) "a" "T" := by
  refine ⟨0, 1, { word := "$$", id := "1", kind := .ends "T" none, incoming := true },
    by decide +kernel, .single skips_skipping, ?_, rfl⟩
  decide +kernel

/-- Neither relation goes on after its first step. -/
theorem acyclic_skipping : Acyclic (⟨skipping, {}, none⟩ : Parser Unit) := by
  have hacyclic : ∀ {α : Type} {R : α → α → Prop}, (∀ a b c, R a b → ¬R b c) →
      ∀ a, ¬TransGen R a a := fun hR a hcycle => by
    obtain ⟨c, hac, -⟩ := TransGen.head'_iff.1 hcycle
    obtain ⟨b, -, hba⟩ := TransGen.tail'_iff.1 hcycle
    exact hR b a c hba hac
  have hlinks : ∀ n ∈ skipping.nodes.toList, ∀ l ∈ n.links, skipping.target? l = some 1 := by
    decide +kernel
  have hlast : ∀ n, skipping.nodes[1]? = some n → n.links = [] := by decide +kernel
  have htypes : ∀ n ∈ skipping.nodes.toList, ∀ type, n.type? = some type → type = "T" := by
    decide +kernel
  have hnone : openings (⟨skipping, {}, none⟩ : Parser Unit) "T" none = [] := by decide +kernel
  have hmem : ∀ {i : Nat} {n : Node}, skipping.nodes[i]? = some n → n ∈ skipping.nodes.toList :=
    fun hn => List.mem_of_getElem? (by simpa using hn)
  refine ⟨hacyclic fun i j k hij hjk => ?_, hacyclic fun w type type' hw htype => ?_⟩
  · obtain ⟨n, l, hn, hl, -, ht⟩ := hij
    obtain ⟨m, k, hm, hk, -, -⟩ := hjk
    obtain rfl : 1 = j := Option.some.inj ((hlinks n (hmem hn) l hl).symm.trans ht)
    rw [hlast m hm] at hk
    cases hk
  · obtain ⟨-, j, n, -, -, hn, ht⟩ := hw
    obtain ⟨i, -, -, hi, -⟩ := htype
    rw [htypes n (hmem hn) type ht, hnone] at hi
    cases hi

/-- From within the phrase the search goes on over the empty unit to a parse. -/
theorem repeats_end_one :
    let p : Parser Unit := ⟨skipping, {}, none⟩
    skipping.marked = true ∧ p.Acyclic ∧ p.Skips 0 1 ∧ p.Rises "a" "T" ∧
      ∃ q s s', make skipping {} none = .ok q ∧
        q.calls [.parse 9, .startTokens ["a"] ["T"], .advance]
          (startTokens ["a"] ["T"] (.empty ())) = .ok s ∧
        q.parse 9 s = .ok (some true, s') ∧ s'.taken = [.initial 0, .dummy 1, .final "T"] ∧
        (∃ fuel found s', q.parse fuel s = .ok (some found, s')) ∧ ∃ found, q.Repeats s found := by
  intro p
  obtain ⟨q, s, hq, hrun, hends⟩ := repeats_end skipping_built rfl acyclic_skipping ["a"] ["T"]
    (.empty ()) [.parse 9, .startTokens ["a"] ["T"], .advance]
  obtain rfl : p = q := Except.ok.inj hq
  have hcomputed : (do
      let s ← p.calls [.parse 9, .startTokens ["a"] ["T"], .advance]
        (startTokens ["a"] ["T"] (.empty ()))
      let r ← p.parse 9 s
      return (r.1, r.2.taken)) =
        (.ok (some true, [.initial 0, .dummy 1, .final "T"]) : Except Fault _) := by
    decide +kernel
  obtain ⟨s₁, hrun', h⟩ := bind_eq_ok hcomputed
  obtain rfl : s = s₁ := Except.ok.inj (hrun.symm.trans hrun')
  obtain ⟨⟨found, s'⟩, hparse, h⟩ := bind_eq_ok h
  simp only [pure, Except.pure, Except.ok.injEq, Prod.mk.injEq] at h
  obtain ⟨rfl, htaken⟩ := h
  exact ⟨rfl, acyclic_skipping, skips_skipping, rises_skipping, p, s, s', rfl, hrun, hparse, htaken,
    hends⟩

end Parser

end StateDiagram
