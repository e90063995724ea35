import StateDiagram.Proofs.Grammar.Optimized
import StateDiagram.Proofs.Parser.UpToDate

/-! The entries that phrases begin at. The next unit may be a token or a phrase that is complete,
and the parser sees only its word. So what the lexicon lacks begins at the entry for numbers,
strings or unknown words, be it a token or the type of a phrase; a word that the lexicon has never
does. -/
namespace StateDiagram

open StateDiagram.Tree Arena

variable {σ : Type} {p : Parser σ}

/-- The unit after the current one. -/
def Session.Next (s : Session σ) (v : Phrase) : Prop :=
  ∃ u i, s.arena.fetch s.state.current = .ok u ∧ u.next = some i ∧ s.arena.fetch i = .ok v

/-- A phrase is begun at `node` when the next unit is `v`: at an entry for the word of this unit or
for anything, or at the entry that stands in for words that the lexicon lacks. -/
def Parser.BeginsAt (p : Parser σ) (v : Phrase) (node : Node) : Prop :=
  node.word = v.word ∨ node.word = p.config.anythingWord ∨
    p.grammar.lookup? v.word = none ∧ node.word = p.fallback v.word

namespace Parser

/-- A beginning that suits a session is one at the next unit. -/
theorem Suits.begins {s : Session σ} {n : Nat} (h : p.Suits s (.initial n))
    (hg : p.grammar.Sound) :
    ∃ v node, s.Next v ∧ p.grammar.nodes[n]? = some node ∧ p.BeginsAt v node := by
  obtain ⟨u, word, hu, hnext, hn⟩ := h
  obtain ⟨i, v, hi, hv, rfl⟩ : ∃ i v, u.next = some i ∧ s.arena.fetch i = .ok v ∧
      v.word = word := by
    unfold nextWord at hnext
    cases hi : u.next with
    | none => simp [hi] at hnext
    | some i =>
      rw [hi] at hnext
      obtain ⟨v, hv, hword⟩ := bind_eq_ok hnext
      exact ⟨i, v, rfl, hv, Option.some.inj (Except.ok.inj hword)⟩
  refine hn.elim (fun hn => ?_) fun hn => ?_
  · obtain ⟨node, hnode, hword | ⟨-, hnone, hword⟩⟩ := word_of_mem_entry hg hn
    · exact ⟨v, node, ⟨u, i, hu, hi, hv⟩, hnode, .inl hword⟩
    · exact ⟨v, node, ⟨u, i, hu, hi, hv⟩, hnode, .inr (.inr ⟨hnone, hword⟩)⟩
  · obtain ⟨node, hnode, hword | ⟨hany, -⟩⟩ := word_of_mem_entry hg hn
    · exact ⟨v, node, ⟨u, i, hu, hi, hv⟩, hnode, .inr (.inl hword)⟩
    · exact absurd rfl hany

/-- A phrase that is complete has a type that some node of the grammar ends. -/
theorem Whole.type_mem {V : Node → Option Value → Prop} {u : Form} {ws : List String}
    (h : p.Whole V u ws) (hparts : u.parts ≠ []) : u.word ∈ p.grammar.phraseTypes := by
  cases h with
  | token word => exact absurd rfl hparts
  | phrase _ hat htype _ =>
    obtain ⟨i, hi⟩ := node_of_at? hat
    exact Grammar.mem_phraseTypes.2 ⟨i, _, hi, htype⟩

end Parser

/-- If the next unit has a subphrase, its word is the type of a phrase. -/
theorem Stands.type_mem {s : Session σ} {x : Place Tree} {saved : List Post}
    (h : Stands p s x saved) {v : Phrase} (hv : s.Next v) (hsub : v.sub.isSome = true) :
    v.word ∈ p.grammar.phraseTypes := by
  obtain ⟨u, i, hu, hi, hv⟩ := hv
  obtain ⟨u', hu', hnext, -⟩ := h.lays.unit
  obtain ⟨-, hahead⟩ := h.lays.split
  obtain rfl := Except.ok.inj (hu.symm.trans (fetch_of_get? hu'))
  cases hx : x.ahead with
  | nil => simp [hx, Arena.start, hi] at hnext
  | cons t ts =>
    simp only [hx] at hnext hahead
    obtain ⟨w, -, hw, ht, hparts, -⟩ := hahead.cons_inv
    obtain rfl : i = t.slot := Option.some.inj (hi.symm.trans hnext)
    obtain rfl := Except.ok.inj (hv.symm.trans (fetch_of_get? hw))
    obtain ⟨ws, hwhole⟩ := h.proper.ahead t.bare (by simp [Place.view, hx])
    have hne : t.bare.parts ≠ [] := fun hnil => by
      rw [parts_bare, List.map_eq_nil_iff] at hnil
      rw [hnil] at hparts
      rw [hparts.start] at hsub
      cases hsub
    have hword : t.bare.word = v.word := by rw [word_bare, ht, word_node]
    exact hword ▸ hwhole.type_mem hne

/-- What is left to try suits the session. -/
theorem Session.UpToDate.suits {s : Session σ} {x : Place Tree} {saved : List Post} {c : Choice}
    (h : s.UpToDate p) (hg : p.grammar.Sound) (hs : Stands p s x saved)
    (hc : c ∈ s.untried p x) : p.Suits s c := by
  unfold Session.untried at hc
  cases hcs : s.state.choices with
  | none =>
    rw [hcs] at hc
    exact Parser.suits_of_mem_choices (hs.choices_eq hg .all) hc
  | some left =>
    rw [hcs] at hc
    obtain ⟨fresh, hfresh, hmem⟩ := h.fresh hg hcs
    exact Parser.suits_of_mem_choices hfresh (hmem c hc)

namespace Parser

/-- Whatever calls a host makes, a phrase that is offered to begin at a unit begins at an entry for
the word of this unit or for anything, or if the lexicon lacks the word, at the entry for numbers,
strings or unknown words. A unit that is a complete phrase has the type of a phrase for its word. So
if all types of phrases are in the lexicon, those entries serve for tokens only. -/
theorem offered_begins {g : Grammar} (hg : g.Built) (hm : g.marked = true) (config : Config)
    (semantics : Option (Semantics σ)) (host : σ) (cs : List Call) :
    ∃ p s left, make g config semantics = .ok p ∧ p.calls cs (.empty host) = .ok s ∧
      p.pending s = .ok left ∧ ∀ n, .initial n ∈ left → ∃ v node, s.Next v ∧
        g.nodes[n]? = some node ∧ p.BeginsAt v node ∧
        (v.sub.isSome = true → v.word ∈ g.phraseTypes ∧
          ((∀ type ∈ g.phraseTypes, (g.lookup? type).isSome = true) →
            node.word = v.word ∨ node.word = config.anythingWord)) := by
  let p : Parser σ := ⟨g, config, semantics⟩
  have hsound : p.grammar.Sound := hg.sound
  obtain ⟨s, hrun, hs⟩ := calls_keep (P := Session.UpToDate p) hsound (fun _ h => h.placed)
    (.start p) (fun _ _ h hstep => h.step hsound hstep) cs (.start p [] [] host)
  obtain ⟨x, saved, hstands⟩ := hs.placed
  refine ⟨p, s, _, if_pos hm, hrun, hstands.pending_eq hsound, fun n hn => ?_⟩
  obtain ⟨v, node, hnext, hnode, hbegins⟩ := (hs.suits hsound hstands hn).begins hsound
  refine ⟨v, node, hnext, hnode, hbegins, fun hsub => ?_⟩
  have htype : v.word ∈ g.phraseTypes := hstands.type_mem hnext hsub
  refine ⟨htype, fun hlisted => ?_⟩
  obtain hword | hword | ⟨hnone, -⟩ := hbegins
  · exact .inl hword
  · exact .inr hword
  · have hsome : (g.lookup? v.word).isSome = true := hlisted v.word htype
    rw [show g.lookup? v.word = none from hnone] at hsome
    cases hsome

/-- A name and a sentence that the lexicon has as words of their own: the entry for unknown words
begins the token, and the complete name begins a sentence at its own entry. -/
theorem offered_begins_listed :
    let g := (((Grammar.addNode
      { word := "UNKNOWN", id := "1", initial := true, kind := .ends "NAME" none } {}).addNode
      { word := "NAME", id := "1", initial := true, kind := .ends "S" none }).addNode
      { word := "S", id := "1", kind := .ends "S" none }).mark
    g.marked = true ∧ (∀ type ∈ g.phraseTypes, (g.lookup? type).isSome = true) ∧
      ∃ p s left, make g {} (none : Option (Semantics Unit)) = .ok p ∧
        p.calls [.startTokens ["zork"] ["S"], .advance, .advance] (.empty ()) = .ok s ∧
        p.pending s = .ok left ∧ left = [.initial 1] ∧ ∀ n, .initial n ∈ left → ∃ v node, s.Next v ∧
          g.nodes[n]? = some node ∧
          (v.sub.isSome = true → node.word = v.word ∨ node.word = "ANYTHING") := by
  intro g
  have hg : g.Built := .mark (.addNode (.addNode (.addNode .new
    (by simp [Node.Fresh, Node.links])) (by simp [Node.Fresh, Node.links]))
    (by simp [Node.Fresh, Node.links]))
  have hlisted : ∀ type ∈ g.phraseTypes, (g.lookup? type).isSome = true := by decide +kernel
  obtain ⟨p, s, left, hmake, hrun, hleft, hbegins⟩ := offered_begins hg rfl {}
    (none : Option (Semantics Unit)) () [.startTokens ["zork"] ["S"], .advance, .advance]
  obtain rfl : ⟨g, {}, none⟩ = p := Except.ok.inj hmake
  have hcomputed : (Parser.calls ⟨g, {}, (none : Option (Semantics Unit))⟩
      [.startTokens ["zork"] ["S"], .advance, .advance] (.empty ())).map
      (Parser.pending ⟨g, {}, (none : Option (Semantics Unit))⟩) = .ok (.ok [.initial 1]) := by
    decide +kernel
  rw [hrun] at hcomputed
  have hone : left = [.initial 1] :=
    Except.ok.inj (hleft.symm.trans (Except.ok.inj hcomputed))
  refine ⟨rfl, hlisted, _, s, left, rfl, hrun, hleft, hone, fun n hn => ?_⟩
  obtain ⟨v, node, hnext, hnode, -, hphrase⟩ := hbegins n hn
  exact ⟨v, node, hnext, hnode, fun hsub => (hphrase hsub).2 hlisted⟩

/-- A name that the lexicon lacks: when it is complete, the entry for unknown words begins it once
more. -/
theorem offered_begins_unlisted :
    let g := (Grammar.addNode
      { word := "UNKNOWN", id := "1", initial := true, kind := .ends "NAME" none } {}).mark
    g.marked = true ∧ ∃ p s v, make g {} (none : Option (Semantics Unit)) = .ok p ∧
      p.calls [.startTokens ["zork"] ["S"], .advance, .advance] (.empty ()) = .ok s ∧
      p.pending s = .ok [.initial 0] ∧ g.nodes[0]?.map Node.word = some "UNKNOWN" ∧
      s.Next v ∧ v.sub.isSome = true ∧ v.word = "NAME" ∧ g.lookup? "NAME" = none ∧
      "UNKNOWN" ≠ v.word ∧ "UNKNOWN" ≠ p.config.anythingWord := by
  intro g
  let p : Parser Unit := ⟨g, {}, none⟩
  have hcomputed : (p.calls [.startTokens ["zork"] ["S"], .advance, .advance] (.empty ())).map
      (fun s => (p.pending s, (s.arena.fetch s.state.current).map Phrase.next,
        (s.arena.fetch 1).map fun v => (v.word, v.sub.isSome))) =
      .ok (.ok [.initial 0], .ok (some 1), .ok ("NAME", true)) := by decide +kernel
  obtain ⟨s, hrun, hs⟩ := map_eq_ok hcomputed
  obtain ⟨hpending, hunits⟩ := Prod.mk.inj hs
  obtain ⟨hcurrent, hnext⟩ := Prod.mk.inj hunits
  obtain ⟨u, hu, hlink⟩ := map_eq_ok hcurrent
  obtain ⟨v, hv, hphrase⟩ := map_eq_ok hnext
  obtain ⟨hword, hsub⟩ := Prod.mk.inj hphrase
  exact ⟨rfl, p, s, v, rfl, hrun, hpending, by decide +kernel, ⟨u, 1, hu, hlink, hv⟩, hsub, hword,
    by decide +kernel, by rw [hword]; decide, by decide +kernel⟩

end Parser

end StateDiagram
