import StateDiagram.Proofs.Grammar.Built
import StateDiagram.Proofs.Graph.Reach
import StateDiagram.Proofs.Text.Sorted

/-! What initial nodes can begin. Whatever edges are added to the digraph of a grammar, the
descendants of a node are all that is reached from it by one or more edges, and its closure has the
types that the node and its descendants end. More edges never take a type away, and the edges of
completed phrases add nothing where they are there already. -/
namespace StateDiagram.Digraph

open Relation

variable {g : Grammar} {d e : Digraph}

/-- There is an edge from `u` to `v`. -/
def Edge (d : Digraph) (u v : Nat) : Prop :=
  v ∈ d.edgesFrom u

/-- The digraph has an entry for each node of the grammar, and its edges lead to such nodes. -/
structure Over (g : Grammar) (d : Digraph) : Prop where
  size : d.edges.size = g.nodes.size
  within : ∀ u v, d.Edge u v → v < g.nodes.size

/-- The digraph `e` comes of `d` when edges between nodes of the grammar and edges of completed
phrases are added in any order. -/
inductive Grown (g : Grammar) (d : Digraph) : Digraph → Prop where
  | start : Grown g d d
  | addEdge {e : Digraph} {s t : Nat} : Grown g d e → s < g.nodes.size → t < g.nodes.size →
    Grown g d (e.addEdge s t)
  | addPhraseEdges {e : Digraph} : Grown g d e → Grown g d (e.addPhraseEdges g)

/-! ### Edges -/

theorem edge_ofLinks {u v : Nat} : (ofLinks g).Edge u v ↔
    ∃ n, g.nodes[u]? = some n ∧ ∃ l ∈ n.links, g.target? l = some v := by
  simp only [Edge, edgesFrom, ofLinks, Array.getElem?_map]
  cases g.nodes[u]? with
  | none => simp
  | some n => simp

theorem mem_phraseTargets {n : Node} {t : Nat} : t ∈ phraseTargets g n ↔
    ∃ type, n.type? = some type ∧ t ∈ g.instances type ∧
      ∃ m, g.nodes[t]? = some m ∧ m.initial = true := by
  unfold phraseTargets
  cases n.type? with
  | none => simp
  | some type => simp [Option.any_eq_true]

theorem edge_addEdge (s t : Nat) {u v : Nat} (hs : s < d.edges.size) :
    (d.addEdge s t).Edge u v ↔ d.Edge u v ∨ u = s ∧ v = t := by
  simp only [Edge, edgesFrom, addEdge, Array.getElem?_modify]
  by_cases hu : s = u
  · subst hu
    simp [hs]
  · simp [hu, Ne.symm hu]

theorem edge_addPhraseEdges (hd : d.edges.size = g.nodes.size) {u v : Nat} :
    (d.addPhraseEdges g).Edge u v ↔
      d.Edge u v ∨ ∃ n, g.nodes[u]? = some n ∧ v ∈ phraseTargets g n := by
  simp only [Edge, edgesFrom, addPhraseEdges, Array.getElem?_mapIdx]
  cases hu : d.edges[u]? with
  | none =>
    have hnone : g.nodes[u]? = none := by
      rwa [Array.getElem?_eq_none_iff, ← hd, ← Array.getElem?_eq_none_iff]
    simp [hnone]
  | some vs =>
    cases g.nodes[u]? with
    | none => simp
    | some n => simp

/-- An edge of a grammar is that of a link or that of a completed phrase. -/
theorem edge_ofGrammar {u v : Nat} : (ofGrammar g).Edge u v ↔ ∃ n, g.nodes[u]? = some n ∧
    ((∃ l ∈ n.links, g.target? l = some v) ∨ v ∈ phraseTargets g n) := by
  have hsize : (ofLinks g).edges.size = g.nodes.size := by simp [ofLinks]
  rw [ofGrammar, edge_addPhraseEdges hsize, edge_ofLinks, ← exists_or]
  simp only [← and_or_left]

theorem over_ofLinks (hg : g.Sound) : Over g (ofLinks g) where
  size := by simp [ofLinks]
  within u v h := by
    obtain ⟨n, hn, l, hl, ht⟩ := edge_ofLinks.1 h
    obtain ⟨m, hm, -⟩ := hg.node_of_target hn hl ht
    exact (Array.getElem?_eq_some_iff.1 hm).1

theorem Over.addEdge (hd : Over g d) {s t : Nat} (hs : s < g.nodes.size) (ht : t < g.nodes.size) :
    Over g (d.addEdge s t) where
  size := by simpa [Digraph.addEdge] using hd.size
  within u v h := by
    obtain h | ⟨-, rfl⟩ := (edge_addEdge s t (hd.size ▸ hs)).1 h
    · exact hd.within u v h
    · exact ht

theorem Over.addPhraseEdges (hd : Over g d) : Over g (d.addPhraseEdges g) where
  size := by simpa [Digraph.addPhraseEdges] using hd.size
  within u v h := by
    obtain h | ⟨n, -, h⟩ := (edge_addPhraseEdges hd.size).1 h
    · exact hd.within u v h
    · obtain ⟨-, -, -, m, hm, -⟩ := mem_phraseTargets.1 h
      exact (Array.getElem?_eq_some_iff.1 hm).1

theorem over_ofGrammar (hg : g.Sound) : Over g (ofGrammar g) :=
  (over_ofLinks hg).addPhraseEdges

theorem Grown.over (h : Grown g d e) (hd : Over g d) : Over g e := by
  induction h with
  | start => exact hd
  | addEdge _ hs ht ih => exact ih.addEdge hs ht
  | addPhraseEdges _ ih => exact ih.addPhraseEdges

theorem Grown.edge (h : Grown g d e) (hd : Over g d) {u v : Nat} (huv : d.Edge u v) :
    e.Edge u v := by
  induction h with
  | start => exact huv
  | addEdge h hs _ ih => exact (edge_addEdge _ _ ((h.over hd).size ▸ hs)).2 (.inl ih)
  | addPhraseEdges h ih => exact (edge_addPhraseEdges (h.over hd).size).2 (.inl ih)

/-! ### Descendants and closures -/

/-- The descendants of a node are what is reached from it by one or more edges. -/
theorem Over.mem_descendants (hd : Over g d) {u v : Nat} :
    v ∈ d.descendants u ↔ TransGen d.Edge u v := by
  have hbound : ∀ w, ∀ v ∈ d.edgesFrom w, v < d.edges.size := fun w v h => hd.size ▸ hd.within w v h
  rw [descendants, Graph.mem_reach_iff hbound (hbound u), TransGen.head'_iff]
  rfl

theorem nodup_descendants (d : Digraph) (u : Nat) : (d.descendants u).Nodup :=
  Graph.nodup_search List.nodup_nil

theorem closure_eq (d : Digraph) {v : Nat} {n : Node} (hv : g.nodes[v]? = some n) :
    d.closure? g v = if n.initial then some (Text.sortedSet (typesOf g (v :: d.descendants v)))
      else none := by
  simp [closure?, hv]

theorem closure_eq_none {v : Nat} {n : Node} (hv : g.nodes[v]? = some n) :
    d.closure? g v = none ↔ n.initial = false := by
  simp [closure_eq d hv]

/-- Node `v` ends a phrase of this type. -/
def Ends (g : Grammar) (v : Nat) (type : String) : Prop :=
  ∃ n, g.nodes[v]? = some n ∧ n.type? = some type

theorem mem_types_iff {ns : List Nat} {type : String} :
    type ∈ typesOf g ns ↔ ∃ v ∈ ns, Ends g v type := by
  simp only [typesOf, List.mem_filterMap, Option.bind_eq_some_iff, Ends]

/-- The closure of a node has the types that are ended by itself and by its descendants. -/
theorem Over.mem_closure (hd : Over g d) {v : Nat} {types : List String}
    (h : d.closure? g v = some types) (type : String) :
    type ∈ types ↔ Ends g v type ∨ ∃ u, TransGen d.Edge v u ∧ Ends g u type := by
  cases hv : g.nodes[v]? with
  | none => simp [closure?, hv] at h
  | some n =>
    rw [closure_eq d hv] at h
    split at h
    · obtain rfl := Option.some.inj h
      simp only [Text.mem_sortedSet, mem_types_iff, List.mem_cons, exists_eq_or_imp,
        hd.mem_descendants]
    · cases h

/-- With more edges a closure has no less types. -/
theorem Over.closure_mono (hd : Over g d) (he : Over g e) (hedge : ∀ u v, d.Edge u v → e.Edge u v)
    {v : Nat} {types : List String} (h : d.closure? g v = some types) :
    ∃ types', e.closure? g v = some types' ∧ types ⊆ types' := by
  cases h' : e.closure? g v with
  | none =>
    cases hv : g.nodes[v]? with
    | none => simp [closure?, hv] at h
    | some n =>
      rw [(closure_eq_none hv).2 ((closure_eq_none hv).1 h')] at h
      cases h
  | some types' =>
    refine ⟨types', rfl, fun type htype => (he.mem_closure h' type).2 ?_⟩
    obtain hown | ⟨u, hpath, hu⟩ := (hd.mem_closure h type).1 htype
    · exact .inl hown
    · exact .inr ⟨u, TransGen.mono hedge v u hpath, hu⟩

/-- Where there are the same edges there are the same closures. -/
theorem Over.closure_congr (hd : Over g d) (he : Over g e)
    (hedge : ∀ u v, d.Edge u v ↔ e.Edge u v) (v : Nat) : d.closure? g v = e.closure? g v := by
  have hsame : d.Edge = e.Edge := funext₂ fun u v => propext (hedge u v)
  cases hv : g.nodes[v]? with
  | none => simp [closure?, hv]
  | some n =>
    rw [closure_eq d hv, closure_eq e hv]
    congr 2
    refine Text.sortedSet_congr fun type => ?_
    simp only [mem_types_iff, List.mem_cons, hd.mem_descendants, he.mem_descendants, hsame]

/-- To add the edges of completed phrases once more changes no closure. -/
theorem Grown.closure_addPhraseEdges (hd : Over g d) (h : Grown g (d.addPhraseEdges g) e)
    (v : Nat) :
    (e.addPhraseEdges g).closure? g v = e.closure? g v := by
  have he : Over g e := h.over hd.addPhraseEdges
  refine he.addPhraseEdges.closure_congr he (fun u v => ?_) v
  rw [edge_addPhraseEdges he.size, or_iff_left_iff_imp]
  exact fun hphrase => h.edge hd.addPhraseEdges ((edge_addPhraseEdges hd.size).2 (.inr hphrase))

/-- Let a digraph start with the edges of the links of a grammar, or with those of completed phrases
as well, and let more edges be added to it. Then the descendants of a node, each listed once, are
what is reached from it by one or more edges. A node has a closure if and only if it is initial; the
closure has the types that are ended by the node and by its descendants, an additional edge takes
none of them away, and once there are edges of completed phrases, adding them again changes
nothing. -/
theorem closure_exact (hg : g.Built) (hd : Grown g (ofLinks g) d ∨ Grown g (ofGrammar g) d)
    {v : Nat} {n : Node} (hv : g.nodes[v]? = some n) :
    ((d.descendants v).Nodup ∧ ∀ u, u ∈ d.descendants v ↔ TransGen d.Edge v u) ∧
    (d.closure? g v = none ↔ n.initial = false) ∧
    (∀ types, d.closure? g v = some types → ∀ type, type ∈ types ↔
      n.type? = some type ∨ ∃ u, TransGen d.Edge v u ∧ Ends g u type) ∧
    (∀ s t, s < g.nodes.size → t < g.nodes.size → ∀ types, d.closure? g v = some types →
      ∃ types', (d.addEdge s t).closure? g v = some types' ∧ types ⊆ types') ∧
    ∀ e, Grown g (d.addPhraseEdges g) e → (e.addPhraseEdges g).closure? g v = e.closure? g v := by
  have hover : Over g d := hd.elim (fun h => h.over (over_ofLinks hg.sound))
    fun h => h.over (over_ofGrammar hg.sound)
  have hown : ∀ type, Ends g v type ↔ n.type? = some type := fun type => by simp [Ends, hv]
  refine ⟨⟨nodup_descendants d v, fun u => hover.mem_descendants⟩, closure_eq_none hv,
    fun types h type => ?_, fun s t hs ht types h => ?_, fun e he => he.closure_addPhraseEdges hover v⟩
  · rw [hover.mem_closure h type, hown]
  · have hgrown : Grown g d (d.addEdge s t) := .addEdge .start hs ht
    exact hover.closure_mono (hover.addEdge hs ht) (fun u v => hgrown.edge hover) h

/-- Nodes 0 and 1 lead to each other, so each of them is its own descendant, and with an edge to
node 2 they lead to what that node ends. -/
theorem closure_exact_cycle :
    let g := (Grammar.ofNodes [
      { word := "x", id := "1", initial := true,
        kind := .continues [{ word := "x", id := "2" }] none },
      { word := "x", id := "2",
        kind := .continues [{ word := "x", id := "1" }, { word := "z", id := "1" }] none },
      { word := "y", id := "1", initial := true, kind := .ends "X" none }] [])
    let d := (ofGrammar g).addEdge 1 2
    g.Built ∧ 0 ∈ (ofGrammar g).descendants 0 ∧ (ofGrammar g).closure? g 1 = none ∧
      (∃ types, d.closure? g 0 = some types ∧ "X" ∈ types) ∧
      ((d.addEdge 2 1).addPhraseEdges g).closure? g 0 = (d.addEdge 2 1).closure? g 0 := by
  intro g d
  have hg : g.Built := Grammar.built_ofNodes (by simp [Node.Fresh, Node.links]) _
  have h₀ : g.nodes[0]? = some g.nodes[0] := rfl
  have h₁ : g.nodes[1]? = some g.nodes[1] := rfl
  have hd : Grown g (ofGrammar g) d := .addEdge .start (by decide) (by decide)
  obtain ⟨⟨-, hdescendants⟩, -⟩ := closure_exact hg (.inr .start) h₀
  obtain ⟨-, hnone, -⟩ := closure_exact hg (.inr .start) h₁
  obtain ⟨-, hsome, hmem, -⟩ := closure_exact hg (.inr hd) h₀
  obtain ⟨-, -, -, -, hagain⟩ := closure_exact hg (.inl .start) h₀
  have hedges : 1 ∈ (ofGrammar g).edgesFrom 0 ∧ 0 ∈ (ofGrammar g).edgesFrom 1 ∧
      1 ∈ d.edgesFrom 0 ∧ 2 ∈ d.edgesFrom 1 := by decide +kernel
  obtain ⟨h01, h10, h01', h12⟩ := hedges
  refine ⟨hg, (hdescendants 0).2 (.tail (.single h01) h10), hnone.2 rfl, ?_,
    hagain _ (.addEdge (.addEdge .start (by decide) (by decide)) (by decide) (by decide))⟩
  cases htypes : d.closure? g 0 with
  | none => exact absurd (hsome.1 htypes) (by decide)
  | some types =>
    exact ⟨types, rfl, (hmem types htypes "X").2
      (.inr ⟨2, .tail (.single h01') h12, g.nodes[2], rfl, rfl⟩)⟩

end StateDiagram.Digraph
