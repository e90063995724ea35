import StateDiagram.Proofs.Grammar.Stored
import StateDiagram.Proofs.Parser.Renumbered

/-! Parses with a grammar that has been stored and read back. The nodes come back under other
numbers, without flags and without what links remember, and from text an initial node that can
begin nothing comes back as one that is not initial. No parse can tell: marked again, the grammar
gives the same summary of every input. -/
namespace StateDiagram.Parser

variable {σ : Type}

/-- Whatever becomes of a run is the same with a grammar that has the same nodes, word by word. -/
theorem run_relisted {g h : Grammar} (hg : g.Built) (hh : h.Built) (hgm : g.marked = true)
    (hhm : h.marked = true) (r : Grammar.Relists g.Replaces g h) (config : Config) {fuel : Nat}
    {input : String} {goals : List String} {s₀ s : Session σ} {summary : Summary}
    (hrun : Parser.run ⟨g, config, none⟩ fuel input goals s₀ = .ok (some summary, s)) :
    ∃ s', Parser.run ⟨h, config, none⟩ fuel input goals s₀ = .ok (some summary, s') := by
  have hmirrors : Mirrors g.placeOf ⟨g, config, none⟩ (⟨h, config, none⟩ : Parser σ) :=
    ⟨r.renumbers hg hh hgm hhm, rfl, rfl, rfl⟩
  exact ⟨_, hmirrors.run fuel input goals s₀ _ hrun⟩

/-- A grammar that is stored as JSON, read back and marked gives the same summary of every input;
so does one that is written as text and read back, as compared with the grammar that its text was
taken from. -/
theorem run_reloaded {g : Grammar} (hg : g.Built) (hm : g.marked = true) (config : Config)
    (input : String) (goals : List String) (s₀ : Session σ) :
    (∃ h p q, Grammar.ofJsonText? g.toJsonText = some h ∧
      make g config (none : Option (Semantics σ)) = .ok p ∧ make h.mark config none = .ok q ∧
      ∀ fuel summary s, p.run fuel input goals s₀ = .ok (some summary, s) →
        ∃ s', q.run fuel input goals s₀ = .ok (some summary, s')) ∧
    (g.TextSafe → ∃ h p q, Grammar.parseText (g.toText true).1 = .ok h ∧
      make (g.toText true).2 config (none : Option (Semantics σ)) = .ok p ∧
      make h config none = .ok q ∧
      ∀ fuel summary s, p.run fuel input goals s₀ = .ok (some summary, s) →
        ∃ s', q.run fuel input goals s₀ = .ok (some summary, s')) := by
  constructor
  · let h : Grammar := .ofEntries (g.entries.map Grammar.Entry.stored)
    obtain ⟨hwords, hnodes⟩ := Grammar.mark_stored hg.listed
    have r : Grammar.Relists g.Replaces g h.mark :=
      ⟨hwords, hnodes.imp fun n m hnm => hnm.replaces g⟩
    refine ⟨h, ⟨g, config, none⟩, ⟨h.mark, config, none⟩, Grammar.ofJsonText?_eq g, by simp [make, hm],
      rfl, fun fuel summary s hrun => ?_⟩
    exact run_relisted hg (.mark (Grammar.built_stored g.entries)) hm rfl r config hrun
  · intro hsafe
    have hopt : g.optimize.Built := .computeTypes (.expandBegins hg)
    obtain ⟨h, hparse, hh, hhm, hwords, hnodes⟩ := Grammar.parseText_restored hg hsafe
    have r : Grammar.Relists g.optimize.Replaces g.optimize h :=
      ⟨hwords, hnodes.imp fun n m hnm => hnm.replaces g⟩
    refine ⟨h, ⟨g.optimize, config, none⟩, ⟨h, config, none⟩, hparse, ?_, by simp [make, hhm],
      fun fuel summary s hrun => ?_⟩
    · exact if_pos hm
    · exact run_relisted hopt hh hm hhm r config hrun

theorem run_reloaded_cat :
    let g := (Grammar.ofNodes [
      { word := "the", id := "1", initial := true,
        kind := .continues [{ word := "cat", id := "1" }] none },
      { word := "cat", id := "1", kind := .ends "NP" (some "cat") },
      { word := "dog", id := "1", initial := true, kind := .continues [] none }] []).mark
    let s₀ : Session Unit := .empty ()
    g.marked = true ∧ g.TextSafe ∧
      (∃ h p q, Grammar.ofJsonText? g.toJsonText = some h ∧ make g {} none = .ok p ∧
        make h.mark {} none = .ok q ∧ ∃ summary s s', summary.success = true ∧
          p.run 9 "the cat" ["NP"] s₀ = .ok (some summary, s) ∧
          q.run 9 "the cat" ["NP"] s₀ = .ok (some summary, s')) ∧
      ∃ h p q, Grammar.parseText (g.toText true).1 = .ok h ∧
        make (g.toText true).2 {} none = .ok p ∧ make h {} none = .ok q ∧
        ∀ fuel summary s, p.run fuel "the cat" ["NP"] s₀ = .ok (some summary, s) →
          ∃ s', q.run fuel "the cat" ["NP"] s₀ = .ok (some summary, s') := by
  intro g s₀
  have hg : g.Built := .mark (Grammar.built_ofNodes (by simp [Node.Fresh, Node.links]) _)
  have hsafe : g.TextSafe := by
    refine ⟨fun w hw => ?_, by decide +kernel, ?_, ?_, by decide +kernel⟩
    · have hkeys : ∀ v ∈ g.lexicon.map (·.1), Grammar.IsWord v := by decide +kernel
      exact hkeys w (Grammar.mem_words.1 hw)
    · simp [g, Grammar.ofNodes, Grammar.addNode, Grammar.mark, Grammar.settleAll, Grammar.mapNodes,
        Node.mapLinks, Node.type?, Grammar.IsListable, show Grammar.IsWord "NP" by decide,
        show Grammar.startsWithDigit "NP" = false by decide]
    · simp [g, Grammar.ofNodes, Grammar.addNode, Grammar.mark, Grammar.settleAll, Grammar.mapNodes,
        Node.mapLinks, Node.value?, Grammar.IsQuotable, Grammar.quotable]
  obtain ⟨⟨h, p, q, hread, hp, hq, hruns⟩, htext⟩ :=
    run_reloaded hg rfl {} "the cat" ["NP"] s₀
  refine ⟨rfl, hsafe, ⟨h, p, q, hread, hp, hq, ?_⟩, htext hsafe⟩
  obtain rfl : ⟨g, {}, none⟩ = p := Except.ok.inj hp
  have hhalts : (Parser.run ⟨g, {}, none⟩ 9 "the cat" ["NP"] s₀).toOption.bind (fun r =>
      r.1.map Summary.success) = some true := by decide +kernel
  cases hrun : Parser.run ⟨g, {}, none⟩ 9 "the cat" ["NP"] s₀ with
  | error e => simp [hrun, Except.toOption] at hhalts
  | ok r =>
    obtain ⟨found, s⟩ := r
    simp only [hrun, Except.toOption, Option.bind_some, Option.map_eq_some_iff] at hhalts
    obtain ⟨summary, rfl, hsuccess⟩ := hhalts
    obtain ⟨s', hrun'⟩ := hruns 9 summary s hrun
    exact ⟨summary, s, s', hsuccess, rfl, hrun'⟩

end StateDiagram.Parser
