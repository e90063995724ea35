import StateDiagram.Proofs.Grammar.Checked
import StateDiagram.Proofs.Grammar.Fixpoint

/-! Grammars whose nodes were added in different orders. As long as each word has the same nodes in
the same order, neither the numbers of the nodes nor the order of the lexicon nor what links
remember shows in what is written of a grammar or in what it is warned of. For all of this is the
same for a grammar and for the one that its stored entries make up. -/
namespace StateDiagram.Grammar

open Json

variable {g h : Grammar}

/-- The same words, and for each word the same nodes in the same order, but for their flags and for
what their links remember. -/
structure Interleaved (g h : Grammar) : Prop where
  words : ∀ w, w ∈ g.words ↔ w ∈ h.words
  nodes : ∀ w, List.Forall₂ Alike (g.ofWord w) (h.ofWord w)

/-- What a warning says, whatever number its node has. -/
def Warning.saying (w : Warning) : Warning.Kind × String × String :=
  (w.kind, w.word, w.message)

/-! ### The order of the words -/

theorem wordLe_antisymm {v w : String} (hvw : wordLe v w = true) (hwv : wordLe w v = true) :
    v = w := by
  unfold wordLe at hvw hwv
  by_cases hv : v = dummyWord
  · by_cases hw : w = dummyWord
    · rw [hv, hw]
    · simp [hv, hw] at hwv
  · by_cases hw : w = dummyWord
    · simp [hv, hw] at hvw
    · simp only [hv, hw, if_false, Bool.or_eq_true, decide_eq_true_eq, Bool.and_eq_true,
        beq_iff_eq] at hvw hwv
      obtain hlt | ⟨heq, hle⟩ := hvw
      · obtain hgt | ⟨heq, -⟩ := hwv
        · exact absurd hgt (lt_asymm hlt)
        · exact absurd (heq ▸ hlt) (lt_irrefl _)
      · obtain hgt | ⟨-, hge⟩ := hwv
        · exact absurd (heq ▸ hgt) (lt_irrefl _)
        · exact le_antisymm hle hge

/-- The members of a lexicon determine in which order its words come. -/
theorem Listed.words_eq (hg : g.Listed) (hh : h.Listed) (hwords : ∀ w, w ∈ g.words ↔ w ∈ h.words) :
    g.words = h.words :=
  ((List.perm_ext_iff_of_nodup hg.nodup_words hh.nodup_words).2 hwords).eq_of_pairwise
    (fun _ _ _ _ => wordLe_antisymm) (List.pairwise_mergeSort wordLe_trans wordLe_total _)
    (List.pairwise_mergeSort wordLe_trans wordLe_total _)

/-! ### Relisted grammars -/

/-- A grammar relists another one if each node has become another one at its place. -/
theorem relists_of_place {R : Node → Node → Prop} (hg : g.Listed) (hwords : h.words = g.words)
    (hsize : h.nodes.size = g.nodes.size) (hnode : ∀ (i : Nat) (n : Node), g.nodes[i]? = some n →
      ∃ m, h.nodes[g.placeOf i]? = some m ∧ R n m) : Relists R g h := by
  refine ⟨hwords, List.forall₂_iff_get.2 ⟨?_, fun k hk hk' => ?_⟩⟩
  · rw [hg.perm.length_eq, Array.length_toList, Array.length_toList, hsize]
  · have hlt : k < g.order.length := by
      rw [hg.length_order, ← Array.length_toList, ← hg.perm.length_eq]
      exact hk
    have hn : g.nodes[g.order[k]]? = some ((g.words.flatMap g.ofWord)[k]) := by
      have hmap := congrArg (·[k]?) hg.map_order
      rw [List.getElem?_map, List.getElem?_map, List.getElem?_eq_getElem hlt,
        List.getElem?_eq_getElem hk] at hmap
      exact Option.some.inj hmap
    have hplace : g.placeOf g.order[k] = k := by
      rw [placeOf, if_pos (hg.mem_order.1 (List.getElem_mem hlt)),
        hg.nodup_order.idxOf_getElem k hlt]
    obtain ⟨m, hm, hR⟩ := hnode _ _ hn
    rw [hplace] at hm
    have hm' : h.nodes.toList[k] = m := by simpa using (Array.getElem?_eq_some_iff.1 hm).2
    simpa [hm'] using hR

/-- Nodes are alike if the same is stored of them. -/
theorem alike_iff {n m : Node} : Alike n m ↔ m.stored = n.stored := by
  constructor
  · rintro ⟨hword, hid, hinitial, hbegins, hkind, haction, hcoords⟩
    simp only [Node.stored, hword, hid, hinitial, hbegins, hkind, haction, hcoords]
  · intro h
    have hkind := (congrArg (fun n => n.forget.kind) h)
    rw [Node.forget_stored, Node.forget_stored] at hkind
    exact ⟨(congrArg Node.word h :), (congrArg Node.id h :), (congrArg Node.initial h :),
      (congrArg Node.begins h :), hkind, (congrArg Node.action h :), (congrArg Node.coords h :)⟩

theorem forall₂_alike_iff {ns ms : List Node} :
    List.Forall₂ Alike ns ms ↔ ns.map Node.stored = ms.map Node.stored := by
  rw [← List.forall₂_eq_eq_eq, List.forall₂_map_left_iff, List.forall₂_map_right_iff]
  exact ⟨.imp fun _ _ h => (alike_iff.1 h).symm, .imp fun _ _ h => alike_iff.2 h.symm⟩

theorem stored_settle (g : Grammar) (n : Node) : (n.mapLinks g.settle).stored = n.stored := by
  have hforget := congrArg Node.kind (forget_mapLinks (f := g.settle) (fun _ => rfl) n)
  obtain ⟨word, id, kind⟩ := n
  cases kind with
  | ends type value => rfl
  | continues links types => simpa [Node.stored, Node.mapLinks] using hforget

theorem Alike.settle {n m : Node} (hnm : Alike n m) (g h : Grammar) :
    Alike (n.mapLinks g.settle) (m.mapLinks h.settle) := by
  rw [alike_iff, stored_settle, stored_settle, alike_iff.1 hnm]

theorem Alike.setBegins {n m : Node} (hnm : Alike n m) (begins : Option (List String)) :
    Alike (n.setBegins begins) (m.setBegins begins) := by
  have hstored : ∀ n : Node, (n.setBegins begins).stored = n.stored.setBegins begins := fun n => by
    obtain ⟨word, id, kind⟩ := n
    cases kind <;> rfl
  rw [alike_iff, hstored, hstored, alike_iff.1 hnm]

theorem Alike.setTypes {n m : Node} (hnm : Alike n m) (types : Option (List String)) :
    Alike (n.setTypes types) (m.setTypes types) := by
  have hstored : ∀ n : Node, (n.setTypes types).stored = n.stored.setTypes types := fun n => by
    obtain ⟨word, id, kind⟩ := n
    cases kind <;> rfl
  rw [alike_iff, hstored, hstored, alike_iff.1 hnm]

theorem Alike.words_eq {n m : Node} (hnm : Alike n m) :
    m.links.map Link.word = n.links.map Link.word := by
  rw [← List.forall₂_eq_eq_eq, List.forall₂_map_left_iff, List.forall₂_map_right_iff]
  exact (links_of_forget hnm.kind).flip.imp fun _ _ hl => hl.1

theorem isFinal_of_forget {n m : Node} (h : m.forget.kind = n.forget.kind) :
    m.isFinal = n.isFinal := by
  have hsome : ∀ n : Node, n.isFinal = n.type?.isSome := fun n => by
    obtain ⟨word, id, kind⟩ := n
    cases kind <;> rfl
  rw [hsome, hsome, (ends_of_forget h).1]

theorem getElem?_expandBegins (g : Grammar) (i : Nat) : g.expandBegins.nodes[i]? =
    (g.nodes[i]?).map fun n => ((Digraph.ofGrammar g).closure? g i).elim (n.mapLinks g.settle)
      fun types => (n.mapLinks g.settle).setBegins (some types) := by
  simp only [expandBegins, settleAll, mapNodes, Array.getElem?_mapIdx, Array.getElem?_map]
  cases g.nodes[i]? with
  | none => rfl
  | some n => cases (Digraph.ofGrammar g).closure? g i <;> rfl

theorem Reworks.words {k : Grammar} (r : Reworks g k) : k.words = g.words := by
  rw [Grammar.words, Grammar.words, r.lexicon]

theorem Reworks.placeOf {k : Grammar} (r : Reworks g k) : k.placeOf = g.placeOf := by
  funext i
  have horder : k.order = g.order := by
    rw [order, order, r.words]
    exact List.flatMap_congr fun w _ => r.instances w
  rw [Grammar.placeOf, Grammar.placeOf, horder, r.size]

/-- Two grammars that are reworked in the same way relist each other as before. -/
theorem Relists.reworked {g' h' : Grammar} (r : Relists Alike g h) (hg : g.Built)
    (rg : Reworks g g') (rh : Reworks h h')
    (hnode : ∀ (i : Nat) (n m n' m' : Node), g.nodes[i]? = some n →
      h.nodes[g.placeOf i]? = some m → Alike n m → g'.nodes[i]? = some n' →
      h'.nodes[g.placeOf i]? = some m' → Alike n' m') : Relists Alike g' h' := by
  refine relists_of_place (rg.listed hg.listed) (by rw [rg.words, rh.words, r.words])
    (by rw [rg.size, rh.size, r.size hg.listed]) fun i n' hn' => ?_
  obtain ⟨n, hn, -⟩ := rg.node i n' hn'
  obtain ⟨m, hm, hnm⟩ := r.node hg.listed hn
  obtain ⟨m', hm', -⟩ := rh.node_back hm
  rw [rg.placeOf]
  exact ⟨m', hm', hnode i n m n' m' hn hm hnm hn' hm'⟩

namespace Relists

section

variable (r : Relists Alike g h) (hg : g.Built) (hh : h.Built)
include r hg hh

/-- Every node begins the same phrase types as before. -/
theorem closure_eq (i : Nat) : (Digraph.ofGrammar h).closure? h (g.placeOf i) =
    (Digraph.ofGrammar g).closure? g i := by
  cases hi : g.nodes[i]? with
  | none => simp [Digraph.closure?, hi, r.missing hg.listed hi]
  | some n =>
    obtain ⟨m, hm, hnm⟩ := r.node hg.listed hi
    have hR : ∀ n m, Alike n m → g.Replaces n m := fun _ _ hnm => hnm.replaces g
    have hleads : ∀ type, Digraph.LeadsTo h (g.placeOf i) type ↔ Digraph.LeadsTo g i type :=
      fun type => r.leadsTo hR hg.listed
        (fun _ _ => r.edge_back hR hg hh fun n m hnm hm => hnm.initial ▸ hm)
        fun _ _ hedge _ => r.edge_kept hR hg hh (fun n m _ hnm hn => hnm.initial.trans hn) hedge
    rw [Digraph.closure_eq _ hi, Digraph.closure_eq _ hm, hnm.initial]
    congr 2
    refine Text.sortedSet_congr fun type => ?_
    rw [← Digraph.leadsTo_iff hh.sound, ← Digraph.leadsTo_iff hg.sound, hleads]

theorem expandBegins : Relists Alike g.expandBegins h.expandBegins := by
  refine r.reworked hg (expandBegins_reworks g) (expandBegins_reworks h)
    fun i n m n' m' hn hm hnm hn' hm' => ?_
  rw [getElem?_expandBegins, hn, Option.map_some, Option.some.injEq] at hn'
  rw [getElem?_expandBegins, hm, Option.map_some, Option.some.injEq, r.closure_eq hg hh] at hm'
  subst hn' hm'
  cases (Digraph.ofGrammar g).closure? g i with
  | none => exact hnm.settle g h
  | some types => exact (hnm.settle g h).setBegins (some types)

end

theorem computeTypes (r : Relists Alike g h) (hg : g.Built) :
    Relists Alike g.computeTypes h.computeTypes := by
  refine r.reworked hg (computeTypes_reworks g) (computeTypes_reworks h)
    fun i n m n' m' hn hm hnm hn' hm' => ?_
  have htypes : Text.sortedSet ((m.links.map Link.word).filter h.phraseTypes.contains) =
      Text.sortedSet ((n.links.map Link.word).filter g.phraseTypes.contains) := by
    rw [hnm.words_eq]
    refine Text.sortedSet_congr fun type => ?_
    simp only [List.mem_filter, List.contains_iff_mem,
      r.mem_phraseTypes_iff (fun _ _ hnm => hnm.replaces g) hg.listed]
  simp only [Grammar.computeTypes, mapNodes, Array.getElem?_map, hn, hm, Option.map_some,
    Option.some.injEq] at hn' hm'
  subst hn' hm'
  rw [htypes]
  exact hnm.setTypes _

theorem render (r : Relists Alike g h) (hg : g.Listed) (hh : h.Listed) (full : Bool) :
    h.render full = g.render full := by
  have htext : ∀ n m, Alike n m → nodeText full m = nodeText full n := fun n m hnm => by
    rw [nodeText, nodeText, beginsText, beginsText, ← kindText_forget full n, ← hnm.kind,
      kindText_forget, hnm.id, hnm.initial, hnm.begins, hnm.action, hnm.coords]
  have hnodes : ∀ w, (h.ofWord w).map (nodeText full) = (g.ofWord w).map (nodeText full) := by
    intro w
    rw [← List.forall₂_eq_eq_eq, List.forall₂_map_left_iff, List.forall₂_map_right_iff]
    exact (forall₂_ofWord hg (fun _ _ hnm => hnm.word) r.nodes w).flip.imp
      fun m n hnm => htext n m hnm
  rw [Grammar.render, Grammar.render, hg.entries_eq, hh.entries_eq, r.words, List.map_map,
    List.map_map]
  simp only [Function.comp_def, entryText, hnodes]

theorem toText (r : Relists Alike g h) (hg : g.Built) (hh : h.Built) (full : Bool) :
    (h.toText full).1 = (g.toText full).1 := by
  cases full with
  | false => exact (r.computeTypes hg).render hg.computeTypes.listed hh.computeTypes.listed false
  | true =>
    exact ((r.expandBegins hg hh).computeTypes hg.expandBegins).render
      hg.expandBegins.computeTypes.listed hh.expandBegins.computeTypes.listed true

/-- The same links of a node lead nowhere as before. -/
theorem saying_dangling (r : Relists Alike g h) (hg : g.Built) (hh : h.Built) {i : Nat} {n m : Node}
    (hn : g.nodes[i]? = some n) (hm : h.nodes[g.placeOf i]? = some m) (hnm : Alike n m) :
    ((m.links.filter fun l => (h.target? l).isNone).map (warnDangling (g.placeOf i) m)).map
        Warning.saying =
      ((n.links.filter fun l => (g.target? l).isNone).map (warnDangling i n)).map
        Warning.saying := by
  have rr := r.replaces fun _ _ hnm => hnm.replaces g
  have hlinks : List.Forall₂ (fun l l' => (l'.word = l.word ∧ l'.id = l.id) ∧
      h.target? l' = (g.target? l).map g.placeOf) n.links m.links :=
    forall₂_imp (links_of_forget hnm.kind) fun l hl l' hl' hll' =>
      ⟨hll', rr.target hg hh hn hm hl hl' hll'.1 hll'.2⟩
  have hfiltered := forall₂_filter (p := fun l => (g.target? l).isNone)
    (q := fun l => (h.target? l).isNone) (fun l l' hll' => by simp [hll'.2]) hlinks
  rw [List.map_map, List.map_map, ← List.forall₂_eq_eq_eq, List.forall₂_map_left_iff,
    List.forall₂_map_right_iff]
  refine hfiltered.flip.imp fun l' l hll' => ?_
  simp only [Function.comp_apply, Warning.saying, warnDangling, danglingText, hnm.word, hnm.id,
    hll'.1.1, hll'.1.2]

/-- The same is said of a node as before. -/
theorem saying_nodeWarnings (r : Relists Alike g h) (hg : g.Built) (hh : h.Built) {i : Nat}
    {n m : Node} (hn : g.nodes[i]? = some n) (hm : h.nodes[g.placeOf i]? = some m)
    (hnm : Alike n m) : (h.nodeWarnings h.targets (g.placeOf i) m).map Warning.saying =
      (g.nodeWarnings g.targets i n).map Warning.saying := by
  have htargets : h.targets.contains (g.placeOf i) = g.targets.contains i := by
    rw [Bool.eq_iff_iff]
    simpa using (r.replaces fun _ _ hnm => hnm.replaces g).targets hg hh i
  have hempty : m.links.isEmpty = n.links.isEmpty := by
    rw [Bool.eq_iff_iff, List.isEmpty_iff_length_eq_zero, List.isEmpty_iff_length_eq_zero,
      (links_of_forget hnm.kind).length_eq]
  have hincoming : (warnNoIncoming (g.placeOf i) m).saying = (warnNoIncoming i n).saying := by
    simp only [Warning.saying, warnNoIncoming, nodeName, hnm.word, hnm.id]
  have houtgoing : (warnNoOutgoing (g.placeOf i) m).saying = (warnNoOutgoing i n).saying := by
    simp only [Warning.saying, warnNoOutgoing, nodeName, hnm.word, hnm.id]
  simp only [Grammar.nodeWarnings, List.map_append, r.saying_dangling hg hh hn hm hnm, hnm.initial,
    htargets, isFinal_of_forget hnm.kind, hempty, apply_ite (List.map Warning.saying),
    List.map_cons, hincoming, houtgoing, List.map_nil]

theorem saying_warnings (r : Relists Alike g h) (hg : g.Built) (hh : h.Built) :
    h.warnings.map Warning.saying = g.warnings.map Warning.saying := by
  rw [Grammar.warnings, Grammar.warnings, r.words, List.map_flatMap, List.map_flatMap]
  refine List.flatMap_congr fun w _ => ?_
  have hnodes : ∀ i ∈ g.instances w,
      ((h.nodes[g.placeOf i]?.map (h.nodeWarnings h.targets (g.placeOf i))).getD []).map
        Warning.saying =
      ((g.nodes[i]?.map (g.nodeWarnings g.targets i)).getD []).map Warning.saying := by
    intro i hi
    obtain ⟨n, hn, -⟩ := hg.sound.listed w i hi
    obtain ⟨m, hm, hnm⟩ := r.node hg.listed hn
    rw [hn, hm]
    exact r.saying_nodeWarnings hg hh hn hm hnm
  rw [wordWarnings_eq, wordWarnings_eq, r.instances hg.listed hh.listed (fun _ _ hnm => hnm.word) w,
    List.isEmpty_map, List.flatMap_map, List.map_append, List.map_append, List.map_flatMap,
    List.map_flatMap, List.flatMap_congr hnodes]

end Relists

/-! ### Stored entries -/

/-- A grammar is relisted by the one that its stored entries make up. -/
theorem relists_stored (hg : g.Listed) :
    Relists Alike g (ofEntries (g.entries.map Entry.stored)) where
  words := words_ofEntries hg (by simp [hg.entries_eq, Entry.stored, Function.comp_def])
  nodes := by
    rw [nodes_stored hg]
    refine forall₂_map_of_forall fun n _ => alike_iff.2 ?_
    obtain ⟨word, id, kind⟩ := n
    cases kind with
    | ends type value => rfl
    | continues links types => simp [Node.stored, Node.forget, Node.mapLinks]

theorem toJsonText_stored (g : Grammar) :
    g.toJsonText = (ofList Entry.toJson (g.entries.map Entry.stored)).pretty := by
  have hentry : ∀ e : Entry, e.stored.toJson = e.toJson := fun e => by
    have hnodes : ofList Node.toJson (e.nodes.map Node.stored) = ofList Node.toJson e.nodes := by
      simp [ofList, Function.comp_def, toJson_stored]
    rw [Entry.stored, Entry.toJson, Entry.toJson, hnodes]
  simp only [toJsonText, ofList, List.map_map, Function.comp_def, hentry]

/-- The same is stored of both grammars. -/
theorem Interleaved.stored_eq (hgh : g.Interleaved h) (hg : g.Listed) (hh : h.Listed) :
    g.entries.map Entry.stored = h.entries.map Entry.stored := by
  have hnodes : ∀ w, (g.ofWord w).map Node.stored = (h.ofWord w).map Node.stored := fun w =>
    forall₂_alike_iff.1 (hgh.nodes w)
  rw [hg.entries_eq, hh.entries_eq, hg.words_eq hh hgh.words, List.map_map, List.map_map]
  simp only [Function.comp_def, Entry.stored, hnodes]

/-- Two grammars with the same words, each of which has the same nodes in the same order, are
written as the same JSON and as the same texts, and they are warned of in the same words. -/
theorem outputs_interleaved (hg : g.Reached) (hh : h.Reached) (hgh : g.Interleaved h) :
    g.toJsonText = h.toJsonText ∧ (∀ full, (g.toText full).1 = (h.toText full).1) ∧
      g.warnings.map Warning.saying = h.warnings.map Warning.saying := by
  have hstored := hgh.stored_eq hg.built.listed hh.built.listed
  have rg := relists_stored hg.built.listed
  have rh := relists_stored hh.built.listed
  have hbuilt := built_stored g.entries
  rw [← hstored] at rh
  refine ⟨by rw [toJsonText_stored, hstored, ← toJsonText_stored], fun full => ?_, ?_⟩
  · rw [← rg.toText hg.built hbuilt, rh.toText hh.built hbuilt]
  · rw [← rg.saying_warnings hg.built hbuilt, rh.saying_warnings hh.built hbuilt]

/-- The one node of `b` is added last and is not looked up, or it is added between the nodes of `a`
and is what their links remember. -/
theorem outputs_interleaved_swapped :
    let a₁ : Node :=
      { word := "a", id := "1", initial := true, kind :=
          .continues [{ word := "b", id := "1" }, { word := "c", id := "1" }] none }
    let a₂ : Node :=
      { word := "a", id := "2", kind := .continues [{ word := "b", id := "1" }] none }
    let b : Node := { word := "b", id := "1", kind := .ends "a" none }
    let g := ofNodes [a₁, a₂, b] ["ghost"]
    let h := ((((({} : Grammar).addWord "ghost").addNode a₁).addNode b).addNode a₂).mark
    g.Reached ∧ h.Reached ∧ g.Interleaved h ∧ g.find? "b" "1" = some 2 ∧ h.find? "b" "1" = some 1 ∧
      g.toJsonText = h.toJsonText ∧ (∀ full, (g.toText full).1 = (h.toText full).1) ∧
      g.warnings.map Warning.saying = h.warnings.map Warning.saying := by
  intro a₁ a₂ b g h
  have ha₁ : a₁.Fresh := by simp [a₁, Node.Fresh, Node.links]
  have ha₂ : a₂.Fresh := by simp [a₂, Node.Fresh, Node.links]
  have hb : b.Fresh := by simp [b, Node.Fresh, Node.links]
  have hg : g.Reached := .addWord _ (.addNode (.addNode (.addNode .new ha₁) ha₂) hb)
  have hh : h.Reached := .mark (.addNode (.addNode (.addNode (.addWord _ .new) ha₁) hb) ha₂)
  have hwords : ∀ w, w ∈ g.words ↔ w ∈ h.words := fun w => by
    rw [mem_words, mem_words, show g.lexicon.map (·.1) = ["a", "b", "ghost"] by decide +kernel,
      show h.lexicon.map (·.1) = ["ghost", "a", "b"] by decide +kernel]
    simp only [List.mem_cons, List.not_mem_nil, or_false]
    tauto
  have hnodes : ∀ w, List.Forall₂ Alike (g.ofWord w) (h.ofWord w) := fun w => by
    rw [forall₂_alike_iff]
    by_cases ha : w = "a"
    · subst ha
      decide +kernel
    · by_cases hb : w = "b"
      · subst hb
        decide +kernel
      · have hother : ∀ k : Grammar, (∀ n ∈ k.nodes.toList, n.word = "a" ∨ n.word = "b") →
            k.ofWord w = [] := fun k hk => by
          refine List.filter_eq_nil_iff.2 fun n hn => ?_
          obtain hn | hn := hk n hn <;> simp [hn, Ne.symm ha, Ne.symm hb]
        rw [hother g (by decide +kernel), hother h (by decide +kernel)]
  have hgh : g.Interleaved h := ⟨hwords, hnodes⟩
  exact ⟨hg, hh, hgh, by decide +kernel, by decide +kernel, outputs_interleaved hg hh hgh⟩

end StateDiagram.Grammar
