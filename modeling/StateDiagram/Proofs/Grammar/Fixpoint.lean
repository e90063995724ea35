import StateDiagram.Proofs.Grammar.Relisted

/-! Full texts that are read back and written again. An initial node that can begin nothing comes
back as one that is not initial, so the edges of completed phrases that led to it are missing then.
But nothing was reached over them: every other node comes back with what it can begin, the second
text differs from the first in those nodes alone, and all later texts are the second one. -/
namespace StateDiagram

open Relation

/-- An initial node that is known to begin nothing. -/
def Node.idle (n : Node) : Bool :=
  n.initial && n.begins == some []

namespace Digraph

variable {g h : Grammar}

theorem ends_optimize {i : Nat} {type : String} : Ends g.optimize i type ↔ Ends g i type := by
  simp only [Ends, Grammar.optimize_nodes]
  cases g.nodes[i]? with
  | none => simp
  | some n => simp [(Grammar.optimizedNode_frame g i n).2.2.2.1]

theorem phraseTargets_optimize (g : Grammar) (i : Nat) (n : Node) :
    phraseTargets g.optimize (g.optimizedNode i n) = phraseTargets g n := by
  have hinitial : ∀ t : Nat,
      g.optimize.nodes[t]?.any (·.initial) = g.nodes[t]?.any (·.initial) := by
    intro t
    rw [Grammar.optimize_nodes]
    cases g.nodes[t]? with
    | none => rfl
    | some m => exact (Grammar.optimizedNode_frame g t m).2.2.1
  simp only [phraseTargets, (Grammar.optimizedNode_frame g i n).2.2.2.1, hinitial,
    Grammar.instances_optimize]

/-- Optimization changes no edge. -/
theorem edge_optimize {u v : Nat} :
    (ofGrammar g.optimize).Edge u v ↔ (ofGrammar g).Edge u v := by
  rw [edge_ofGrammar, edge_ofGrammar, Grammar.optimize_nodes]
  cases g.nodes[u]? with
  | none => simp
  | some n =>
    simp [(Grammar.optimizedNode_frame g u n).2.2.2.2.2, Grammar.target_settle,
      phraseTargets_optimize]

theorem leadsTo_optimize {i : Nat} {type : String} :
    LeadsTo g.optimize i type ↔ LeadsTo g i type := by
  have hedge : (ofGrammar g.optimize).Edge = (ofGrammar g).Edge :=
    funext₂ fun u v => propext edge_optimize
  simp only [leadsTo_def, hedge, ends_optimize]

end Digraph

namespace Grammar

variable {g h : Grammar}

/-- What an initial node of an optimized grammar begins is its closure. -/
theorem begins_optimize {i : Nat} {n : Node} (hn : g.optimize.nodes[i]? = some n)
    (hinitial : n.initial = true) : n.begins = some (Text.sortedSet
      (Digraph.typesOf g (i :: (Digraph.ofGrammar g).descendants i))) := by
  rw [optimize_nodes, Option.map_eq_some_iff] at hn
  obtain ⟨n₀, -, rfl⟩ := hn
  rw [(optimizedNode_frame g i n₀).2.2.1] at hinitial
  exact begins_optimizedNode g i hinitial

/-- What a node of an optimized grammar goes on with are the phrase types among the words of its
links. -/
theorem types_optimize {i : Nat} {n : Node} {links : List Link} {types : Option (List String)}
    (hn : g.optimize.nodes[i]? = some n) (hk : n.kind = .continues links types) :
    types = some (Text.sortedSet ((links.map Link.word).filter g.phraseTypes.contains)) := by
  rw [optimize_nodes, Option.map_eq_some_iff] at hn
  obtain ⟨n₀, -, rfl⟩ := hn
  cases hk₀ : n₀.kind with
  | ends type value => simp [(kind_optimizedNode g i).1 type value hk₀] at hk
  | continues links₀ types₀ =>
    rw [(kind_optimizedNode g i).2 links₀ types₀ hk₀] at hk
    obtain ⟨rfl, rfl⟩ := Node.Kind.continues.inj hk
    refine congrArg some (Text.sortedSet_congr fun type => ?_)
    simp only [List.mem_filter, List.contains_iff_mem, mem_expandBegins_types]

theorem TextSafe.optimize (hg : g.TextSafe) : g.optimize.TextSafe := by
  refine ⟨hg.words, fun n' hn' => ?_, fun n' hn' type h => ?_, fun n' hn' => ?_,
    fun n' hn' h => ?_⟩ <;> obtain ⟨i, n, -, hn, rfl⟩ := mem_optimize hn'
  all_goals
    obtain ⟨-, hid, hinitial, htype, hvalue, hlinks⟩ := optimizedNode_frame g i n
    obtain ⟨haction, -, hbegins⟩ := optimizedNode_texts g i n
  · refine ⟨hid ▸ (hg.ids n hn).1, fun l' hl' => ?_⟩
    rw [hlinks] at hl'
    obtain ⟨l, hl, rfl⟩ := List.mem_map.1 hl'
    exact (hg.ids n hn).2 l hl
  · exact hg.types n hn type (htype ▸ h)
  · rw [hvalue, haction]
    exact hg.texts n hn
  · rw [hinitial] at h
    rw [hbegins h, hg.begins n hn h]

/-- The grammar `h` is what the full text of `g` reads as. -/
structure Reloads (g h : Grammar) : Prop where
  source : g.Built
  target : h.Built
  relists : Relists Restored g.optimize h

namespace Reloads

open StateDiagram.Digraph

variable (r : Reloads g h)
include r

theorem optimized : g.optimize.Built :=
  .computeTypes (.expandBegins r.source)

/-- Every edge of what was read is one of the grammar. -/
theorem edge_back {i v : Nat} (hv : (ofGrammar h).Edge (g.optimize.placeOf i) v) :
    ∃ j, v = g.optimize.placeOf j ∧ (ofGrammar g.optimize).Edge i j := by
  refine r.relists.edge_back (fun _ _ hnm => hnm.replaces g) r.optimized r.target
    (fun n m hnm hm => ?_) hv
  rw [hnm.initial, Bool.and_eq_true] at hm
  exact hm.1

/-- An edge that leads to some phrase type is kept. -/
theorem edge_kept {i j : Nat} {type : String} (hedge : (ofGrammar g.optimize).Edge i j)
    (hleads : LeadsTo g.optimize j type) :
    (ofGrammar h).Edge (g.optimize.placeOf i) (g.optimize.placeOf j) := by
  refine r.relists.edge_kept (fun _ _ hnm => hnm.replaces g) r.optimized r.target
    (fun n m hn hnm hinitial => ?_) hedge
  -- The node is still initial, since it begins the type that it leads to.
  have hbegins : n.begins ≠ some [] := by
    rw [begins_optimize hn hinitial, Ne, Option.some.injEq, Text.sortedSet_eq_nil]
    exact List.ne_nil_of_mem ((Digraph.leadsTo_iff r.source.sound).1 (leadsTo_optimize.1 hleads))
  rw [hnm.initial, hinitial, Bool.true_and, bne_iff_ne]
  exact hbegins

/-- Each node leads to the same phrase types as before. -/
theorem leadsTo {i : Nat} {type : String} :
    LeadsTo h (g.optimize.placeOf i) type ↔ LeadsTo g i type :=
  (r.relists.leadsTo (fun _ _ hnm => hnm.replaces g) r.optimized.listed (fun _ _ => r.edge_back)
    fun _ _ => r.edge_kept).trans leadsTo_optimize

theorem phraseTypes (type : String) : type ∈ h.phraseTypes ↔ type ∈ g.phraseTypes := by
  rw [r.relists.mem_phraseTypes_iff (fun _ _ hnm => hnm.replaces g) r.optimized.listed,
    mem_phraseTypes, mem_phraseTypes]
  exact exists_congr fun i => ends_optimize

/-- What was read knows its begin sets already: they are of the types that each node leads to. -/
theorem begins_eq {k : Nat} {m : Node} (hm : h.nodes[k]? = some m) :
    (optimizedNode h k m).begins = m.begins := by
  obtain ⟨i, -, rfl, -⟩ := r.relists.node_back r.optimized.listed hm
  obtain ⟨n, hn, hnm⟩ := r.relists.node_at r.optimized.listed hm
  cases hinitial : m.initial with
  | false => exact (optimizedNode_texts h _ m).2.2 hinitial
  | true =>
    obtain ⟨hi, hne⟩ : n.initial = true ∧ n.begins ≠ some [] := by
      simpa [hinitial] using hnm.initial.symm
    rw [begins_optimizedNode h _ hinitial, hnm.begins, if_neg hne, begins_optimize hn hi]
    refine congrArg some (Text.sortedSet_congr fun type => ?_)
    rw [← leadsTo_iff r.target.sound, ← leadsTo_iff r.source.sound, r.leadsTo]

/-- What was read knows its successor types already. -/
theorem types_eq {k : Nat} {m : Node} (hm : h.nodes[k]? = some m) {links : List Link}
    {types : Option (List String)} (hk : m.kind = .continues links types) :
    (optimizedNode h k m).kind = .continues (links.map h.settle) types := by
  have hoptimized : h.optimize.nodes[k]? = some (optimizedNode h k m) := by
    rw [optimize_nodes, hm]
    rfl
  have hkind := (kind_optimizedNode h k).2 links types hk
  obtain ⟨i, -, rfl, -⟩ := r.relists.node_back r.optimized.listed hm
  obtain ⟨n, hn, hnm⟩ := r.relists.node_at r.optimized.listed hm
  obtain ⟨links₀, hk₀, hlinks⟩ := (kind_of_forget hnm.kind.symm).2 links types hk
  have hwords : links₀.map Link.word = links.map Link.word := by
    rw [← List.forall₂_eq_eq_eq, List.forall₂_map_left_iff, List.forall₂_map_right_iff]
    exact hlinks.flip.imp fun _ _ hl => hl.1
  have htypes : types = some (Text.sortedSet (((links.map h.settle).map Link.word).filter
      h.phraseTypes.contains)) := by
    rw [types_optimize hn hk₀, hwords, List.map_map]
    refine congrArg some (Text.sortedSet_congr fun type => ?_)
    simp only [List.mem_filter, List.contains_iff_mem, r.phraseTypes]
    rfl
  rw [types_optimize hoptimized hkind, ← htypes] at hkind
  exact hkind

theorem alike {k : Nat} {m : Node} (hm : h.nodes[k]? = some m) : Alike m (optimizedNode h k m) := by
  obtain ⟨hword, hid, hinitial, -⟩ := optimizedNode_frame h k m
  obtain ⟨haction, hcoords, -⟩ := optimizedNode_texts h k m
  refine ⟨hword, hid, hinitial, r.begins_eq hm, ?_, haction, hcoords⟩
  cases hk : m.kind with
  | ends type value =>
    simp [Node.forget, Node.mapLinks, hk, (kind_optimizedNode h _).1 type value hk]
  | continues links types =>
    simp [Node.forget, Node.mapLinks, hk, r.types_eq hm hk, settle, Function.comp_def]

/-- The full text changes the flags of what was read and what links remember, but nothing else. -/
theorem relists_optimize : Relists Restored g.optimize h.optimize where
  words := r.relists.words
  nodes := by
    have halike : List.Forall₂ Alike h.nodes.toList h.optimize.nodes.toList := by
      have hsize : h.optimize.nodes.size = h.nodes.size := by
        simp [optimize, computeTypes, expandBegins, mapNodes, settleAll]
      refine List.forall₂_iff_get.2 ⟨hsize.symm, fun k hk hk' => ?_⟩
      have hopt := optimize_nodes h k
      rw [Array.getElem?_eq_getElem hk', Array.getElem?_eq_getElem hk] at hopt
      simpa using Option.some.inj hopt ▸ r.alike (Array.getElem?_eq_getElem hk)
    refine forall₂_comp (fun n m m' hnm hmm' => ?_) r.relists.nodes halike
    exact ⟨hmm'.word.trans hnm.word, hmm'.id.trans hnm.id, hmm'.initial.trans hnm.initial,
      hmm'.begins.trans hnm.begins, hmm'.kind.trans hnm.kind, hmm'.action.trans hnm.action,
      hmm'.coords.trans hnm.coords⟩

theorem textSafe (hsafe : g.TextSafe) : h.TextSafe := by
  have hG := hsafe.optimize
  have hnode : ∀ m ∈ h.nodes.toList, ∃ n ∈ g.optimize.nodes.toList, Restored n m := by
    intro m hm
    obtain ⟨n, hn, hnm⟩ := exists_mem_of_forall₂ r.relists.nodes hm
    obtain ⟨w, -, hw⟩ := List.mem_flatMap.1 hn
    exact ⟨n, List.mem_of_mem_filter hw, hnm⟩
  refine ⟨fun w hw => hG.words w (r.relists.words ▸ hw), fun m hm => ?_, fun m hm type h => ?_,
    fun m hm => ?_, fun m hm h => ?_⟩ <;> obtain ⟨n, hn, hnm⟩ := hnode m hm
  · refine ⟨hnm.id ▸ (hG.ids n hn).1, fun l' hl' => ?_⟩
    obtain ⟨l, hl, hword, hid⟩ := exists_mem_of_forall₂ (links_of_forget hnm.kind) hl'
    rw [hword, hid]
    exact (hG.ids n hn).2 l hl
  · exact hG.types n hn type ((ends_of_forget hnm.kind).1 ▸ h)
  · rw [(ends_of_forget hnm.kind).2, hnm.action]
    exact hG.texts n hn
  · rw [hnm.initial, Bool.and_eq_false_iff, bne_eq_false_iff_eq] at h
    rw [hnm.begins]
    split
    · rfl
    · exact hG.begins n hn (h.resolve_right ‹_›)

end Reloads

/-! ### Texts -/

theorem kindText_forget (full : Bool) (n : Node) :
    kindText full n.forget.kind = kindText full n.kind := by
  obtain ⟨word, id, kind⟩ := n
  cases kind with
  | ends type value => rfl
  | continues links types =>
    simp only [Node.forget, Node.mapLinks, kindText, List.map_map]
    rfl

theorem beginsText_restored {n m : Node} (h : Restored n m) :
    beginsText true m = if n.idle then "nil" else beginsText true n := by
  rw [beginsText, beginsText, h.initial, h.begins, Node.idle]
  cases n.initial with
  | false => rfl
  | true =>
    cases n.begins with
    | none => rfl
    | some types => cases types <;> rfl

theorem nodeText_restored {n m : Node} (h : Restored n m) :
    nodeText true m = "  (" ++ n.id ++ " " ++ (if n.idle then "nil" else beginsText true n) ++ " " ++
      kindText true n.kind ++ " '" ++ n.action.getD "" ++ "' " ++ coordsText n.coords ++ ")\n" := by
  rw [nodeText, beginsText_restored h, h.id, h.action, h.coords, ← kindText_forget, h.kind,
    kindText_forget]

/-- An idle node had empty parentheses. -/
theorem length_nodeText_restored {n m : Node} (h : Restored n m) :
    (nodeText true m).length = (nodeText true n).length + n.idle.toNat := by
  have hbegins : (if n.idle then "nil" else beginsText true n).length =
      (beginsText true n).length + n.idle.toNat := by
    cases hidle : n.idle with
    | false => rfl
    | true =>
      obtain ⟨hinitial, hbegins⟩ : n.initial = true ∧ n.begins = some [] := by
        simpa [Node.idle] using hidle
      rw [beginsText, if_pos hinitial, hbegins]
      rfl
  rw [nodeText_restored h, nodeText]
  simp only [String.length_append, hbegins]
  omega

theorem length_nodeTexts {ns ms : List Node} (h : List.Forall₂ Restored ns ms) :
    (String.join (ms.map (nodeText true))).length =
      (String.join (ns.map (nodeText true))).length + ns.countP Node.idle := by
  induction h with
  | nil => rfl
  | @cons n m ns ms hnm _ ih =>
    simp only [List.map_cons, String.join_cons, String.length_append, ih, List.countP_cons,
      length_nodeText_restored hnm]
    cases n.idle <;> simp <;> omega

/-- The second text is longer by one letter for each idle node. -/
theorem length_render_restored {g h : Grammar} (hg : g.Listed) (hh : h.Listed)
    (r : Relists Restored g h) :
    (h.render true).length = (g.render true).length + g.nodes.toList.countP Node.idle := by
  have hentry : ∀ w, (entryText true ⟨w, h.ofWord w⟩).length =
      (entryText true ⟨w, g.ofWord w⟩).length + (g.ofWord w).countP Node.idle := fun w => by
    have hnodes := length_nodeTexts (forall₂_ofWord hg (fun n m hnm => hnm.word) r.nodes w)
    simp only [entryText, String.length_append, hnodes]
    omega
  have hwords : ∀ ws : List String,
      (String.join (ws.map fun w => entryText true ⟨w, h.ofWord w⟩)).length =
        (String.join (ws.map fun w => entryText true ⟨w, g.ofWord w⟩)).length +
          (ws.flatMap g.ofWord).countP Node.idle := fun ws => by
    induction ws with
    | nil => rfl
    | cons w ws ih =>
      simp only [List.map_cons, String.join_cons, String.length_append, hentry, ih,
        List.flatMap_cons, List.countP_append]
      omega
  rw [render, render, hg.entries_eq, hh.entries_eq, r.words, List.map_map, List.map_map,
    ← hg.perm.countP_eq]
  exact hwords g.words

/-- The second text is the first one if and only if no node is idle. -/
theorem render_restored {g h : Grammar} (hg : g.Listed) (hh : h.Listed)
    (r : Relists Restored g h) :
    h.render true = g.render true ↔ ∀ n ∈ g.nodes.toList, n.idle = false := by
  constructor
  · intro hsame n hn
    have hlength := length_render_restored hg hh r
    rw [hsame, left_eq_add, List.countP_eq_zero] at hlength
    simpa using hlength n hn
  · intro hidle
    have htexts : ∀ w, (g.ofWord w).map (nodeText true) = (h.ofWord w).map (nodeText true) := by
      intro w
      rw [← List.forall₂_eq_eq_eq, List.forall₂_map_left_iff, List.forall₂_map_right_iff]
      refine forall₂_imp (forall₂_ofWord hg (fun n m hnm => hnm.word) r.nodes w)
        fun n hn m _ hnm => ?_
      rw [nodeText_restored hnm, hidle n (List.mem_of_mem_filter hn)]
      rfl
    rw [render, render, hg.entries_eq, hh.entries_eq, r.words, List.map_map, List.map_map]
    simp only [Function.comp_def, entryText, htexts]

theorem Restored.not_idle {n m : Node} (h : Restored n m) : m.idle = false := by
  rw [Node.idle, h.initial, h.begins]
  split
  · simp
  · rename_i hne
    simp [hne]

/-- Idle nodes are those with an empty closure. -/
theorem closure_eq_nil {g : Grammar} {i : Nat} : (Digraph.ofGrammar g).closure? g i = some [] ↔
    ∃ n, g.optimize.nodes[i]? = some n ∧ n.idle = true := by
  rw [optimize_nodes]
  cases hi : g.nodes[i]? with
  | none => simp [Digraph.closure?, hi]
  | some n =>
    have hinitial := (optimizedNode_frame g i n).2.2.1
    rw [Digraph.closure_eq _ hi]
    cases hn : n.initial with
    | false => simp [Node.idle, hinitial, hn]
    | true => simp [Node.idle, hinitial, hn, begins_optimizedNode g i hn]

theorem Reloads.text_iff {g h : Grammar} (r : Reloads g h) :
    (h.toText true).1 = (g.toText true).1 ↔ ∀ i, (Digraph.ofGrammar g).closure? g i ≠ some [] := by
  have hh : h.optimize.Built := .computeTypes (.expandBegins r.target)
  refine (render_restored r.optimized.listed hh.listed r.relists_optimize).trans ?_
  simp only [Ne, closure_eq_nil, not_exists, not_and, Bool.not_eq_true]
  constructor
  · intro hidle i n hn
    exact hidle n (List.mem_of_getElem? (by simpa using hn))
  · intro hidle n hn
    obtain ⟨i, hi⟩ := List.mem_iff_getElem?.1 hn
    exact hidle i n (by simpa using hi)

/-- What was read has no idle nodes. -/
theorem Reloads.closure_ne_nil {g h : Grammar} (r : Reloads g h) (i : Nat) :
    (Digraph.ofGrammar h).closure? h i ≠ some [] := by
  rw [Ne, closure_eq_nil]
  rintro ⟨m, hm, hidle⟩
  obtain ⟨n, -, hnm⟩ := exists_mem_of_forall₂ r.relists_optimize.nodes
    (List.mem_of_getElem? (by simpa using hm))
  rw [hnm.not_idle] at hidle
  cases hidle

theorem reloads_parseText {g : Grammar} (hg : g.Built) (hsafe : g.TextSafe) :
    ∃ h, parseText (g.toText true).1 = .ok h ∧ Reloads g h := by
  obtain ⟨h, hparse, hh, -, hwords, hnodes⟩ := parseText_restored hg hsafe
  exact ⟨h, hparse, hg, hh, hwords, hnodes⟩

/-- The full text of a text-safe grammar reads as a grammar whose own full text reads as a grammar
with that same text. It is the first text already if and only if no initial node has an empty
closure. -/
theorem toText_fixpoint {g : Grammar} (hg : g.Built) (hsafe : g.TextSafe) :
    ∃ h h', parseText (g.toText true).1 = .ok h ∧ parseText (h.toText true).1 = .ok h' ∧
      (h'.toText true).1 = (h.toText true).1 ∧
      ((h.toText true).1 = (g.toText true).1 ↔
        ∀ i, (Digraph.ofGrammar g).closure? g i ≠ some []) := by
  obtain ⟨h, hparse, r⟩ := reloads_parseText hg hsafe
  obtain ⟨h', hparse', r'⟩ := reloads_parseText r.target (r.textSafe hsafe)
  exact ⟨h, h', hparse, hparse', r'.text_iff.2 r.closure_ne_nil, r.text_iff⟩

/-- A completed phrase of type `x` could go on at the node of that word, which goes nowhere. -/
theorem toText_fixpoint_idle :
    let g := Grammar.ofNodes [
      { word := "a", id := "1", initial := true, kind := .ends "x" none },
      { word := "x", id := "1", initial := true, kind := .continues [] none }] []
    g.TextSafe ∧ 1 ∈ (Digraph.ofGrammar g).edgesFrom 0 ∧
      (Digraph.ofGrammar g).closure? g 1 = some [] ∧
      ∃ h h', parseText (g.toText true).1 = .ok h ∧ parseText (h.toText true).1 = .ok h' ∧
        (h'.toText true).1 = (h.toText true).1 ∧ (h.toText true).1 ≠ (g.toText true).1 := by
  intro g
  have hg : g.Built := built_ofNodes (by simp [Node.Fresh, Node.links]) _
  have hsafe : g.TextSafe := by
    refine ⟨fun w hw => ?_, by decide +kernel, ?_, ?_, by decide +kernel⟩
    · have hkeys : ∀ v ∈ g.lexicon.map (·.1), IsWord v := by decide +kernel
      exact hkeys w (mem_words.1 hw)
    · simp [g, ofNodes, addNode, Node.type?, IsListable, show IsWord "x" by decide,
        show startsWithDigit "x" = false by decide]
    · simp [g, ofNodes, addNode, Node.value?, IsQuotable]
  obtain ⟨n, hn, hinitial, htype⟩ : ∃ n, g.nodes[1]? = some n ∧ n.initial = true ∧ n.type? = none :=
    ⟨_, rfl, rfl, rfl⟩
  have hclosure : (Digraph.ofGrammar g).closure? g 1 = some [] := by
    rw [Digraph.closure_eq _ hn, if_pos hinitial, Option.some.injEq, Text.sortedSet_eq_nil,
      List.eq_nil_iff_forall_not_mem]
    intro type hmem
    obtain ⟨v, hpath, m, hm, hends⟩ := Digraph.leadsTo_def.1 ((Digraph.leadsTo_iff hg.sound).2 hmem)
    have hedges : ∀ u, u ∉ (Digraph.ofGrammar g).edgesFrom 1 := by
      rw [show (Digraph.ofGrammar g).edgesFrom 1 = [] by decide +kernel]
      simp
    obtain rfl | ⟨u, hedge, -⟩ := ReflTransGen.cases_head hpath
    · obtain rfl := Option.some.inj (hn.symm.trans hm)
      rw [htype] at hends
      cases hends
    · exact hedges u hedge
  obtain ⟨h, h', hparse, hparse', hsame, hfirst⟩ := toText_fixpoint hg hsafe
  exact ⟨hsafe, by decide +kernel, hclosure, h, h', hparse, hparse', hsame,
    fun heq => hfirst.1 heq 1 hclosure⟩

end Grammar

end StateDiagram
