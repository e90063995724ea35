import StateDiagram.Grammar.Check
import StateDiagram.Proofs.Grammar.Reached
import Mathlib.Algebra.GroupWithZero.Nat
import Mathlib.Data.List.Perm.Basic

/-! The warnings of a grammar. They are found word by word, while the sweep that sets the flags goes
through the nodes in the order of their creation. Since the lexicon lists every node once, both find
the same defects: the links that lead nowhere, and the nodes that no link leads to. -/
namespace StateDiagram.Grammar

variable {g : Grammar}

/-- The nodes with their numbers. -/
def numbered (g : Grammar) : List (Node × Nat) :=
  g.nodes.toList.zipIdx

/-- The warnings of one kind. -/
def warningsOf (g : Grammar) (kind : Warning.Kind) : List Warning :=
  g.warnings.filter fun w => w.kind = kind

theorem flatMap_if {α β : Type} (p : α → Bool) (f : α → β) (xs : List α) :
    (xs.flatMap fun x => if p x then [f x] else []) = (xs.filter p).map f := by
  induction xs with
  | nil => rfl
  | cons x xs ih => cases h : p x <;> simp [h, ih]

theorem getElem?_numbered (i : Nat) : g.numbered[i]? = g.nodes[i]?.map fun n => (n, i) := by
  simp [numbered, List.getElem?_zipIdx]

/-- To go through the numbers of the nodes is to go through the numbered nodes. -/
theorem flatMap_range {β : Type} (f : Nat → Node → List β) :
    ((List.range g.nodes.size).flatMap fun i => (g.nodes[i]?.map (f i)).getD []) =
      g.numbered.flatMap fun e => f e.2 e.1 := by
  have hnumbered : (List.range g.nodes.size).map (fun i => g.nodes[i]?.map fun n => (n, i)) =
      g.numbered.map some := by
    have hlength : g.numbered.length = g.nodes.size := by simp [numbered]
    rw [← map_getElem?_range, hlength]
    exact List.map_congr_left fun i _ => (getElem?_numbered i).symm
  calc
    ((List.range g.nodes.size).flatMap fun i => (g.nodes[i]?.map (f i)).getD []) =
        ((List.range g.nodes.size).map fun i => g.nodes[i]?.map fun n => (n, i)).flatMap
          fun o => (o.map fun e => f e.2 e.1).getD [] := by
      rw [List.flatMap_map]
      exact List.flatMap_congr fun i _ => by cases g.nodes[i]? <;> rfl
    _ = g.numbered.flatMap fun e => f e.2 e.1 := by
      rw [hnumbered, List.flatMap_map]
      rfl

theorem lookupIn_of_mem {es : List (String × List Nat)} (h : (es.map (·.1)).Nodup)
    {e : String × List Nat} (he : e ∈ es) : lookupIn e.1 es = some e.2 := by
  induction es with
  | nil => cases he
  | cons d es ih =>
    obtain ⟨hd, hes⟩ := List.nodup_cons.1 h
    obtain rfl | he := List.mem_cons.1 he
    · simp [lookupIn]
    · have hne : d.1 ≠ e.1 := fun heq => hd (List.mem_map.2 ⟨e, he, heq.symm⟩)
      rw [lookupIn, if_neg hne, ih hes he]

/-- The words without nodes are those with an empty entry. -/
theorem Listed.perm_empty (hg : g.Listed) :
    (g.words.filter fun w => (g.instances w).isEmpty).Perm
      ((g.lexicon.filter (·.2.isEmpty)).map (·.1)) := by
  have hentries : g.lexicon.filter (fun e => (g.instances e.1).isEmpty) =
      g.lexicon.filter (·.2.isEmpty) := by
    refine List.filter_congr fun e he => ?_
    have hlookup : g.lookup? e.1 = some e.2 := lookupIn_of_mem hg.keys he
    rw [Grammar.instances, hlookup, Option.getD_some]
  refine ((List.mergeSort_perm _ _).filter _).trans (.of_eq ?_)
  rw [List.filter_map, ← hentries]
  rfl

/-- The warnings about a word without nodes, or about its nodes. -/
theorem wordWarnings_eq (g : Grammar) (ts : List Nat) (w : String) : g.wordWarnings ts w =
    (if (g.instances w).isEmpty then [warnEmpty w] else []) ++
      (g.instances w).flatMap fun i => (g.nodes[i]?.map (g.nodeWarnings ts i)).getD [] := by
  unfold wordWarnings
  cases g.instances w <;> rfl

/-- All warnings: about words without nodes, and about each node. -/
theorem warnings_perm (hg : g.Listed) : g.warnings.Perm
    ((g.lexicon.filter (·.2.isEmpty)).map (fun e => warnEmpty e.1) ++
      g.numbered.flatMap fun e => g.nodeWarnings g.targets e.2 e.1) := by
  have hempty : (g.words.flatMap fun w =>
      if (g.instances w).isEmpty then [warnEmpty w] else []).Perm
      ((g.lexicon.filter (·.2.isEmpty)).map fun e => warnEmpty e.1) := by
    rw [flatMap_if]
    exact (hg.perm_empty.map warnEmpty).trans (.of_eq (List.map_map ..))
  have hnodes : (g.words.flatMap fun w => (g.instances w).flatMap fun i =>
      (g.nodes[i]?.map (g.nodeWarnings g.targets i)).getD []).Perm
      (g.numbered.flatMap fun e => g.nodeWarnings g.targets e.2 e.1) := by
    rw [← flatMap_range, ← List.flatMap_assoc]
    exact hg.order_perm.flatMap_right _
  rw [warnings, List.flatMap_congr fun w _ => wordWarnings_eq g g.targets w]
  exact (List.flatMap_append_perm ..).symm.trans (hempty.append hnodes)

/-- Which warnings of a kind there are about a node. -/
theorem filter_nodeWarnings (kind : Warning.Kind) (ts : List Nat) (i : Nat) (n : Node) :
    (g.nodeWarnings ts i n).filter (fun w => w.kind = kind) = match kind with
      | .emptyWord => []
      | .noIncoming => if !n.initial && !ts.contains i then [warnNoIncoming i n] else []
      | .noOutgoing => if !n.isFinal && n.links.isEmpty then [warnNoOutgoing i n] else []
      | .dangling => (n.links.filter fun l => (g.target? l).isNone).map (warnDangling i n) := by
  have hincoming : (warnNoIncoming i n).kind = .noIncoming := rfl
  have houtgoing : (warnNoOutgoing i n).kind = .noOutgoing := rfl
  have hdangling : (fun w : Warning => decide (w.kind = kind)) ∘ warnDangling i n =
      fun _ => decide (Warning.Kind.dangling = kind) := rfl
  rw [nodeWarnings, List.filter_append, List.filter_append, List.filter_map, hdangling]
  cases kind <;> split <;> split <;> simp [hincoming, houtgoing]

theorem kind_of_warnEmpty {es : List (String × List Nat)} :
    ∀ w ∈ es.map (fun e => warnEmpty e.1), w.kind = .emptyWord := by
  intro w hw
  obtain ⟨e, -, rfl⟩ := List.mem_map.1 hw
  rfl

theorem warningsOf_emptyWord (hg : g.Listed) : (g.warningsOf .emptyWord).Perm
    ((g.lexicon.filter (·.2.isEmpty)).map fun e => warnEmpty e.1) := by
  refine ((warnings_perm hg).filter _).trans (.of_eq ?_)
  have hnone : (g.numbered.flatMap fun e => (g.nodeWarnings g.targets e.2 e.1).filter fun w =>
      w.kind = .emptyWord) = [] := by
    simp [filter_nodeWarnings]
  rw [List.filter_append, List.filter_flatMap, hnone, List.append_nil]
  exact List.filter_eq_self.2 fun w hw => decide_eq_true (kind_of_warnEmpty w hw)

/-- All warnings but those about empty words are about nodes. -/
theorem warningsOf_node (hg : g.Listed) (kind : Warning.Kind) (hkind : .emptyWord ≠ kind) :
    (g.warningsOf kind).Perm (g.numbered.flatMap fun e =>
      (g.nodeWarnings g.targets e.2 e.1).filter fun w => w.kind = kind) := by
  refine ((warnings_perm hg).filter _).trans (.of_eq ?_)
  have hnone : ((g.lexicon.filter (·.2.isEmpty)).map fun e => warnEmpty e.1).filter
      (fun w => w.kind = kind) = [] :=
    List.filter_eq_nil_iff.2 fun w hw => by simpa [kind_of_warnEmpty w hw] using hkind
  rw [List.filter_append, List.filter_flatMap, hnone, List.nil_append]

/-- What the sweep reports are the links that lead nowhere, node by node. -/
theorem dangling_eq (g : Grammar) : g.dangling = (g.numbered.flatMap fun e =>
    (e.1.links.filter fun l => (g.target? l).isNone).map (warnDangling e.2 e.1)).map
      Warning.message := by
  have hnodes : g.nodes.toList = g.numbered.map (·.1) := by simp [numbered]
  rw [dangling, allLinks, List.filterMap_flatMap, hnodes, List.flatMap_map, List.map_flatMap]
  refine List.flatMap_congr fun e _ => ?_
  induction e.1.links with
  | nil => rfl
  | cons l ls ih => cases h : g.target? l <;> simpa [h, warnDangling] using ih

/-- A link leads somewhere or nowhere. -/
theorem length_targets (g : Grammar) : g.targets.length + g.dangling.length =
    (g.nodes.toList.map fun n => n.links.length).sum := by
  have hlinks : g.allLinks.length = (g.nodes.toList.map fun n => n.links.length).sum := by
    simp [allLinks, List.length_flatMap]
  rw [← hlinks, targets, dangling]
  induction g.allLinks with
  | nil => rfl
  | cons e es ih => cases h : g.target? e.2 <;> simp [h] <;> omega

/-- What the sweep makes of the nodes. -/
theorem numbered_mark (g : Grammar) : g.mark.numbered = g.numbered.map fun e =>
    ({ e.1.mapLinks g.settle with incoming := g.targets.contains e.2 }, e.2) := by
  refine List.ext_getElem? fun i => ?_
  rw [List.getElem?_map, getElem?_numbered, getElem?_numbered]
  simp only [mark, settleAll, mapNodes, Array.getElem?_mapIdx, Array.getElem?_map]
  cases g.nodes[i]? <;> rfl

/-- The nodes without the flag after the sweep are those that no link leads to. -/
theorem warnNoIncoming_mark (g : Grammar) :
    ((g.mark.numbered.filter fun e => !e.1.initial && !e.1.incoming).map fun e =>
      warnNoIncoming e.2 e.1) =
    (g.numbered.filter fun e => !e.1.initial && !g.targets.contains e.2).map fun e =>
      warnNoIncoming e.2 e.1 := by
  rw [numbered_mark, List.filter_map, List.map_map]
  have hinitial : ∀ n : Node, (n.mapLinks g.settle).initial = n.initial := fun n => by
    obtain ⟨word, id, kind⟩ := n
    cases kind <;> rfl
  simp [Function.comp_def, hinitial, warnNoIncoming, nodeName]

/-- The warnings of dangling links are what the sweep reports, and all other links are counted as
valid. A warning of no incoming edges is given once for each node that is not initial and has no
flag after the sweep, one of no outgoing edges once for each node that is not final and has no
links, and one of an empty word once for each word of the lexicon without nodes. -/
theorem warnings_exact (hg : g.Reached) :
    ((g.warningsOf .dangling).map Warning.message).Perm g.dangling ∧
    (g.warningsOf .dangling).length = g.dangling.length ∧
    g.stats.validEdges + g.dangling.length = (g.nodes.toList.map fun n => n.links.length).sum ∧
    (g.warningsOf .noIncoming).Perm ((g.mark.numbered.filter fun e =>
      !e.1.initial && !e.1.incoming).map fun e => warnNoIncoming e.2 e.1) ∧
    (g.warningsOf .noOutgoing).Perm ((g.numbered.filter fun e =>
      !e.1.isFinal && e.1.links.isEmpty).map fun e => warnNoOutgoing e.2 e.1) ∧
    (g.warningsOf .emptyWord).Perm
      ((g.lexicon.filter (·.2.isEmpty)).map fun e => warnEmpty e.1) := by
  have hlisted := hg.built.listed
  have hdangling : ((g.warningsOf .dangling).map Warning.message).Perm g.dangling := by
    have h := (warningsOf_node hlisted .dangling (by decide)).map Warning.message
    simp only [filter_nodeWarnings] at h
    rwa [dangling_eq]
  refine ⟨hdangling, by simpa using hdangling.length_eq, length_targets g, ?_, ?_,
    warningsOf_emptyWord hlisted⟩
  · have h := warningsOf_node hlisted .noIncoming (by decide)
    simp only [filter_nodeWarnings] at h
    rwa [flatMap_if, ← warnNoIncoming_mark] at h
  · have h := warningsOf_node hlisted .noOutgoing (by decide)
    simp only [filter_nodeWarnings] at h
    rwa [flatMap_if] at h

/-- Two nodes have one name, so that nothing leads to the second one; two links lead to the first,
one of which remembers it. -/
theorem warnings_exact_defects :
    let a : Node :=
      { word := "a", id := "1", kind := .continues
          [{ word := "b", id := "1" }, { word := "c", id := "1" }, { word := "b", id := "1" }] none }
    let b : Node := { word := "b", id := "1", kind := .ends "T" none }
    let d : Node := { word := "d", id := "1", initial := true, kind := .continues [] none }
    let g := (ofNodes [b, a, b, d] ["ghost"]).settleLink 1 0
    g.Reached ∧
      ((g.warningsOf .dangling).map Warning.message).Perm
        ["(a 1) has edge to non-existent node (c 1)."] ∧
      (g.warningsOf .dangling).length = 1 ∧ g.stats.validEdges + 1 = 3 ∧
      (g.warningsOf .noIncoming).Perm [warnNoIncoming 1 a, warnNoIncoming 2 b] ∧
      (g.warningsOf .noOutgoing).Perm [warnNoOutgoing 3 d] ∧
      (g.warningsOf .emptyWord).Perm [warnEmpty "ghost"] := by
  intro a b d g
  have hg : g.Reached := .lookUp 1 0 (.addWord _ (.addNode (.addNode (.addNode (.addNode .new
    (by simp [b, Node.Fresh, Node.links])) (by simp [a, Node.Fresh, Node.links]))
    (by simp [b, Node.Fresh, Node.links])) (by simp [d, Node.Fresh, Node.links])))
  obtain ⟨hdangling, hlength, hedges, hincoming, houtgoing, hempty⟩ := warnings_exact hg
  have hreported : g.dangling = ["(a 1) has edge to non-existent node (c 1)."] := by decide +kernel
  rw [hreported] at hdangling hlength hedges
  exact ⟨hg, hdangling, hlength, hedges.trans (by decide +kernel),
    hincoming.trans (.of_eq (by decide +kernel)), houtgoing.trans (.of_eq (by decide +kernel)),
    hempty.trans (.of_eq (by decide +kernel))⟩

end StateDiagram.Grammar
