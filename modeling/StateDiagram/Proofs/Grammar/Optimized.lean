import StateDiagram.Proofs.Grammar.Closure

/-! Optimized grammars. Nothing changes but what the nodes know of phrase types: an initial node
begins every type that some node ends to which it leads, by links or by completed phrases. -/
namespace StateDiagram

open Relation

namespace Digraph

variable {g : Grammar}

/-- The edge of a link. -/
theorem mem_edges_of_link {i t : Nat} {n : Node} {l : Link} (hi : g.nodes[i]? = some n)
    (hl : l ∈ n.links) (ht : g.target? l = some t) : t ∈ (ofGrammar g).edgesFrom i :=
  edge_ofGrammar.2 ⟨n, hi, .inl ⟨l, hl, ht⟩⟩

/-- The edge of a completed phrase. -/
theorem mem_edges_of_phrase {i t : Nat} {n m : Node} {type : String} (hi : g.nodes[i]? = some n)
    (htype : n.type? = some type) (ht : t ∈ g.instances type) (hm : g.nodes[t]? = some m)
    (hinitial : m.initial = true) : t ∈ (ofGrammar g).edgesFrom i :=
  edge_ofGrammar.2 ⟨n, hi, .inr (mem_phraseTargets.2 ⟨type, htype, ht, m, hm, hinitial⟩)⟩

/-- Node `i` leads to a node that ends a phrase of this type. -/
def LeadsTo (g : Grammar) (i : Nat) (type : String) : Prop :=
  ∃ j m, ReflTransGen (fun u v => v ∈ (ofGrammar g).edgesFrom u) i j ∧ g.nodes[j]? = some m ∧
    m.type? = some type

theorem leadsTo_def {i : Nat} {type : String} :
    LeadsTo g i type ↔ ∃ j, ReflTransGen (ofGrammar g).Edge i j ∧ Ends g j type := by
  simp only [LeadsTo, Ends, exists_and_left]
  rfl

theorem LeadsTo.of_edge {i j : Nat} {type : String} (h : LeadsTo g j type)
    (hedge : j ∈ (ofGrammar g).edgesFrom i) : LeadsTo g i type := by
  obtain ⟨k, m, hpath, hm, htype⟩ := h
  exact ⟨k, m, .head hedge hpath, hm, htype⟩

/-- The types that are found for a node are those that it leads to. -/
theorem leadsTo_iff (hg : g.Sound) {i : Nat} {type : String} :
    LeadsTo g i type ↔ type ∈ typesOf g (i :: (ofGrammar g).descendants i) := by
  have hpath : ∀ j, ReflTransGen (ofGrammar g).Edge i j ↔
      j ∈ i :: (ofGrammar g).descendants i := fun j => by
    rw [List.mem_cons, (over_ofGrammar hg).mem_descendants, reflTransGen_iff_eq_or_transGen]
  simp only [leadsTo_def, mem_types_iff, hpath]

end Digraph

namespace Grammar

variable {g : Grammar}

theorem mem_phraseTypes {type : String} :
    type ∈ g.phraseTypes ↔ ∃ (i : Nat) (n : Node), g.nodes[i]? = some n ∧ n.type? = some type := by
  simp only [phraseTypes, Text.mem_sortedSet, List.mem_filterMap]
  constructor
  · rintro ⟨n, hn, htype⟩
    obtain ⟨i, hi⟩ := List.mem_iff_getElem?.1 hn
    exact ⟨i, n, by simpa using hi, htype⟩
  · rintro ⟨i, n, hi, htype⟩
    exact ⟨n, List.mem_of_getElem? (by simpa using hi), htype⟩

/-- What optimization makes of node number `i`. -/
def optimizedNode (g : Grammar) (i : Nat) (n : Node) : Node :=
  let m := n.mapLinks g.settle
  let m := if n.initial then
      m.setBegins (some (Text.sortedSet
        (Digraph.typesOf g (i :: (Digraph.ofGrammar g).descendants i))))
    else m
  m.setTypes (some (Text.sortedSet ((m.links.map Link.word).filter
    g.expandBegins.phraseTypes.contains)))

theorem optimize_nodes (g : Grammar) (i : Nat) :
    g.optimize.nodes[i]? = (g.nodes[i]?).map (optimizedNode g i) := by
  simp only [optimize, computeTypes, mapNodes, expandBegins, settleAll, Array.getElem?_map,
    Array.getElem?_mapIdx, Option.map_map]
  cases hi : g.nodes[i]? with
  | none => rfl
  | some n =>
    simp only [Option.map_some, Function.comp_apply, optimizedNode, Digraph.closure?, hi,
      Option.some.injEq]
    cases n.initial <;> rfl

@[simp] theorem lexicon_optimize (g : Grammar) : g.optimize.lexicon = g.lexicon := rfl

@[simp] theorem marked_optimize (g : Grammar) : g.optimize.marked = g.marked := rfl

theorem instances_optimize (g : Grammar) (w : String) : g.optimize.instances w = g.instances w :=
  rfl

theorem optimizedNode_frame (g : Grammar) (i : Nat) (n : Node) :
    (optimizedNode g i n).word = n.word ∧ (optimizedNode g i n).id = n.id ∧
      (optimizedNode g i n).initial = n.initial ∧ (optimizedNode g i n).type? = n.type? ∧
      (optimizedNode g i n).value? = n.value? ∧
      (optimizedNode g i n).links = n.links.map g.settle := by
  obtain ⟨word, id, kind, initial⟩ := n
  cases kind <;> cases initial <;> exact ⟨rfl, rfl, rfl, rfl, rfl, rfl⟩

theorem begins_optimizedNode (g : Grammar) (i : Nat) {n : Node} (h : n.initial = true) :
    (optimizedNode g i n).begins = some (Text.sortedSet
      (Digraph.typesOf g (i :: (Digraph.ofGrammar g).descendants i))) := by
  obtain ⟨word, id, kind, initial⟩ := n
  obtain rfl : initial = true := h
  cases kind <;> rfl

theorem kind_optimizedNode (g : Grammar) (i : Nat) {n : Node} :
    (∀ type value, n.kind = .ends type value → (optimizedNode g i n).kind = .ends type value) ∧
      ∀ links types, n.kind = .continues links types → (optimizedNode g i n).kind =
        .continues (links.map g.settle) (some (Text.sortedSet
          (((links.map g.settle).map Link.word).filter g.expandBegins.phraseTypes.contains))) := by
  obtain ⟨word, id, kind, initial⟩ := n
  constructor
  · rintro type value rfl
    cases initial <;> rfl
  · rintro links types rfl
    cases initial <;> rfl

theorem type_expandBegins (i : Nat) :
    (g.expandBegins.nodes[i]?).bind Node.type? = (g.nodes[i]?).bind Node.type? := by
  simp only [expandBegins, settleAll, mapNodes, Array.getElem?_mapIdx, Array.getElem?_map]
  cases g.nodes[i]? with
  | none => rfl
  | some n =>
    have hmap : (n.mapLinks g.settle).type? = n.type? := by
      obtain ⟨word, id, kind⟩ := n
      cases kind <;> rfl
    simp only [Option.map_some, Option.bind_some]
    split <;> exact hmap

theorem mem_expandBegins_types {type : String} :
    type ∈ g.expandBegins.phraseTypes ↔ type ∈ g.phraseTypes := by
  have hbind : ∀ (h : Grammar), type ∈ h.phraseTypes ↔
      ∃ i : Nat, (h.nodes[i]?).bind Node.type? = some type := by
    intro h
    simp only [mem_phraseTypes, Option.bind_eq_some_iff]
  rw [hbind, hbind]
  simp only [type_expandBegins]

/-- A node with links goes on with the phrase types among their words. -/
theorem types_of_links (g : Grammar) (i : Nat) {n : Node} {l : Link} (hl : l ∈ n.links) :
    ∃ types, (optimizedNode g i n).types? = some types ∧
      (l.word ∈ g.phraseTypes → l.word ∈ types) := by
  cases hk : n.kind with
  | ends type value => simp [Node.links, hk] at hl
  | continues links types =>
    have hlinks : l ∈ links := by simpa [Node.links, hk] using hl
    refine ⟨_, by rw [Node.types?, (kind_optimizedNode g i).2 links types hk], fun hword => ?_⟩
    rw [Text.mem_sortedSet, List.mem_filter, List.contains_iff_mem]
    refine ⟨?_, mem_expandBegins_types.2 hword⟩
    exact List.mem_map.2 ⟨g.settle l, List.mem_map_of_mem hlinks, rfl⟩

theorem find_optimize (g : Grammar) (w id : String) : g.optimize.find? w id = g.find? w id := by
  have hid : g.optimize.hasId id = g.hasId id := by
    funext i
    simp only [hasId, optimize_nodes]
    cases g.nodes[i]? with
    | none => rfl
    | some n => simp [(optimizedNode_frame g i n).2.1]
  rw [find?, find?, hid, instances_optimize]

/-- Settled links lead where they led before. -/
theorem target_settle (g : Grammar) (l : Link) : g.optimize.target? (g.settle l) = g.target? l := by
  unfold settle
  cases ht : g.target? l with
  | some t => simp [target?]
  | none =>
    simp only [target?, find_optimize]
    cases hl : l.target with
    | some t => simp [target?, hl] at ht
    | none => simpa [target?, hl] using ht

end Grammar

end StateDiagram
