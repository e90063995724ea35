import StateDiagram.Grammar.Begins
import StateDiagram.Grammar.Merge
import StateDiagram.Proofs.Related
import Mathlib.Data.List.Find

/-! Grammars that are put together by the operations of a store, and what holds of all of them:
the lexicon lists nodes under their own word, a link remembers no other target than the one that
is found for it, and in a marked grammar those nodes have the flag that some link leads to. -/
namespace StateDiagram

/-- No link of the node remembers a target, as in a node that is drafted or read. -/
def Node.Fresh (n : Node) : Prop :=
  ∀ l ∈ n.links, l.target = none

@[simp] theorem Node.links_mapLinks (f : Link → Link) (n : Node) :
    (n.mapLinks f).links = n.links.map f := by
  obtain ⟨word, id, kind⟩ := n
  cases kind <;> rfl

@[simp] theorem Node.word_mapLinks (f : Link → Link) (n : Node) :
    (n.mapLinks f).word = n.word := by
  unfold Node.mapLinks
  split <;> rfl

@[simp] theorem Node.id_mapLinks (f : Link → Link) (n : Node) : (n.mapLinks f).id = n.id := by
  unfold Node.mapLinks
  split <;> rfl

@[simp] theorem Node.incoming_mapLinks (f : Link → Link) (n : Node) :
    (n.mapLinks f).incoming = n.incoming := by
  unfold Node.mapLinks
  split <;> rfl

namespace Grammar

/-- A grammar that is put together by the operations of a store. The nodes that are added have
links that have not been looked up anywhere else. -/
inductive Built : Grammar → Prop where
  | new : Built {}
  | addWord {g : Grammar} (word : String) : Built g → Built (g.addWord word)
  | addNode {g : Grammar} {n : Node} : Built g → n.Fresh → Built (g.addNode n)
  | merge {g other h : Grammar} : Built g → Built other → g.merge other = .ok h → Built h
  | mark {g : Grammar} : Built g → Built g.mark
  | settleLink {g : Grammar} (n l : Nat) : Built g → Built (g.settleLink n l)
  | settleAll {g : Grammar} : Built g → Built g.settleAll
  | expandBegins {g : Grammar} : Built g → Built g.expandBegins
  | computeTypes {g : Grammar} : Built g → Built g.computeTypes

/-- What holds of every grammar that is built by the operations of a store. -/
structure Sound (g : Grammar) : Prop where
  listed : ∀ w, ∀ n ∈ g.instances w, ∃ node, g.nodes[n]? = some node ∧ node.word = w
  remembered : ∀ (i : Nat) (node : Node), g.nodes[i]? = some node → ∀ l ∈ node.links, ∀ t,
    l.target = some t → g.find? l.word l.id = some t
  flagged : g.marked = true → ∀ (i : Nat) (node : Node), g.nodes[i]? = some node →
    (node.incoming = true ↔ i ∈ g.targets)

theorem mem_targets {g : Grammar} {t : Nat} :
    t ∈ g.targets ↔ ∃ (i : Nat) (node : Node), g.nodes[i]? = some node ∧
      ∃ l ∈ node.links, g.target? l = some t := by
  simp only [targets, allLinks, List.mem_filterMap, List.mem_flatMap, List.mem_map]
  constructor
  · rintro ⟨_, ⟨node, hnode, l, hl, rfl⟩, ht⟩
    obtain ⟨i, hi⟩ := List.mem_iff_getElem?.1 hnode
    exact ⟨i, node, by simpa using hi, l, hl, ht⟩
  · rintro ⟨i, node, hi, l, hl, ht⟩
    exact ⟨(node, l), ⟨node, List.mem_iff_getElem?.2 ⟨i, by simpa using hi⟩, l, hl, rfl⟩, ht⟩

theorem Sound.target_eq_find {g : Grammar} (hg : g.Sound) {i : Nat} {node : Node}
    (hi : g.nodes[i]? = some node) {l : Link} (hl : l ∈ node.links) :
    g.target? l = g.find? l.word l.id := by
  unfold target?
  cases ht : l.target with
  | none => rfl
  | some t => exact (hg.remembered i node hi l hl t ht).symm

theorem mem_instances_of_find {g : Grammar} {w id : String} {t : Nat}
    (h : g.find? w id = some t) : t ∈ g.instances w :=
  List.mem_of_find?_eq_some h

/-- A link leads to a node of its own word. -/
theorem Sound.node_of_target {g : Grammar} (hg : g.Sound) {i : Nat} {node : Node}
    (hi : g.nodes[i]? = some node) {l : Link} (hl : l ∈ node.links) {t : Nat}
    (ht : g.target? l = some t) : ∃ n, g.nodes[t]? = some n ∧ n.word = l.word := by
  rw [hg.target_eq_find hi hl] at ht
  exact hg.listed l.word t (mem_instances_of_find ht)

/-- Operations that leave the lexicon as it is and change of the nodes neither the words nor the
ids, nor those of their links. -/
structure Reworks (g h : Grammar) : Prop where
  lexicon : h.lexicon = g.lexicon
  size : h.nodes.size = g.nodes.size
  node : ∀ (i : Nat) (n' : Node), h.nodes[i]? = some n' → ∃ n, g.nodes[i]? = some n ∧ n'.word = n.word ∧
    n'.id = n.id ∧ List.Forall₂ (fun l l' => l'.word = l.word ∧ l'.id = l.id ∧
      (l'.target = l.target ∨ l'.target = g.target? l)) n.links n'.links

theorem Reworks.instances {g h : Grammar} (r : Reworks g h) (w : String) :
    h.instances w = g.instances w := by
  rw [Grammar.instances, Grammar.instances, lookup?, lookup?, r.lexicon]

theorem Reworks.node_back {g h : Grammar} (r : Reworks g h) {i : Nat} {n : Node}
    (hi : g.nodes[i]? = some n) :
    ∃ n', h.nodes[i]? = some n' ∧ n'.word = n.word ∧ n'.id = n.id := by
  have hlt : i < h.nodes.size := by
    rw [r.size]
    exact (Array.getElem?_eq_some_iff.1 hi).1
  obtain ⟨n₀, h₀, hw, hid, -⟩ := r.node i _ (Array.getElem?_eq_getElem hlt)
  obtain rfl : n₀ = n := Option.some.inj (h₀.symm.trans hi)
  exact ⟨_, Array.getElem?_eq_getElem hlt, hw, hid⟩

theorem Reworks.find {g h : Grammar} (r : Reworks g h) (w id : String) :
    h.find? w id = g.find? w id := by
  rw [find?, find?, r.instances]
  congr 1
  funext n
  unfold hasId
  cases hn : g.nodes[n]? with
  | some node =>
    obtain ⟨n', hn', -, hid⟩ := r.node_back hn
    simp [hn', hid]
  | none =>
    have : h.nodes[n]? = none := by
      rw [Array.getElem?_eq_none_iff] at hn ⊢
      rwa [r.size]
    simp [this]

theorem Reworks.remembered {g h : Grammar} (r : Reworks g h) (hg : g.Sound) (i : Nat) (n' : Node)
    (hi : h.nodes[i]? = some n') (l' : Link) (hl' : l' ∈ n'.links) (t : Nat)
    (ht : l'.target = some t) : h.find? l'.word l'.id = some t := by
  obtain ⟨n, hn, -, -, hlinks⟩ := r.node i n' hi
  obtain ⟨l, hl, hw, hid, hkept | hfound⟩ := exists_mem_of_forall₂ hlinks hl'
  · rw [r.find, hw, hid]
    exact hg.remembered i n hn l hl t (hkept ▸ ht)
  · rw [r.find, hw, hid, ← hg.target_eq_find hn hl, ← hfound, ht]

theorem Reworks.targets {g h : Grammar} (r : Reworks g h) (hg : g.Sound) {t : Nat} :
    t ∈ h.targets ↔ t ∈ g.targets := by
  have htarget : ∀ (i : Nat) (n n' : Node) (l l' : Link), g.nodes[i]? = some n → l ∈ n.links →
      h.nodes[i]? = some n' → l' ∈ n'.links → l'.word = l.word → l'.id = l.id →
        h.target? l' = g.target? l := by
    intro i n n' l l' hn hl hn' hl' hw hid
    rw [hg.target_eq_find hn hl, ← hw, ← hid, ← r.find, target?]
    cases hm : l'.target with
    | none => rfl
    | some s => exact (r.remembered hg i n' hn' l' hl' s hm).symm
  rw [mem_targets, mem_targets]
  constructor
  · rintro ⟨i, n', hi, l', hl', ht⟩
    obtain ⟨n, hn, -, -, hlinks⟩ := r.node i n' hi
    obtain ⟨l, hl, hw, hid, -⟩ := exists_mem_of_forall₂ hlinks hl'
    exact ⟨i, n, hn, l, hl, htarget i n n' l l' hn hl hi hl' hw hid ▸ ht⟩
  · rintro ⟨i, n, hi, l, hl, ht⟩
    obtain ⟨n', hn', -⟩ := r.node_back hi
    obtain ⟨n₀, hn₀, -, -, hlinks⟩ := r.node i n' hn'
    obtain rfl : n₀ = n := Option.some.inj (hn₀.symm.trans hi)
    obtain ⟨l', hl', hw, hid, -⟩ := exists_mem_of_forall₂ hlinks.flip hl
    exact ⟨i, n', hn', l', hl', (htarget i n₀ n' l l' hi hl hn' hl' hw hid).trans ht⟩

theorem Reworks.sound {g h : Grammar} (r : Reworks g h) (hg : g.Sound)
    (hf : h.marked = true → ∀ (i : Nat) (n' : Node), h.nodes[i]? = some n' →
      (n'.incoming = true ↔ i ∈ g.targets)) : h.Sound where
  listed w n hn := by
    rw [r.instances] at hn
    obtain ⟨node, hnode, hw⟩ := hg.listed w n hn
    obtain ⟨n', hn', hw', -⟩ := r.node_back hnode
    exact ⟨n', hn', hw'.trans hw⟩
  remembered := r.remembered hg
  flagged hm i n' hi := (hf hm i n' hi).trans (r.targets hg).symm

/-- A grammar that is reworked with its flags as they were. -/
theorem Reworks.sound_of_flags {g h : Grammar} (r : Reworks g h) (hg : g.Sound)
    (hm : h.marked = g.marked)
    (hf : ∀ (i : Nat) (n n' : Node), g.nodes[i]? = some n → h.nodes[i]? = some n' →
      n'.incoming = n.incoming) : h.Sound := by
  refine r.sound hg fun hmark i n' hi => ?_
  obtain ⟨n, hn, -⟩ := r.node i n' hi
  rw [hf i n n' hn hi]
  exact hg.flagged (hm ▸ hmark) i n hn

theorem settleAll_reworks (g : Grammar) : Reworks g g.settleAll where
  lexicon := rfl
  size := by simp [settleAll, mapNodes]
  node i n' hi := by
    simp only [settleAll, mapNodes, Array.getElem?_map, Option.map_eq_some_iff] at hi
    obtain ⟨n, hn, rfl⟩ := hi
    refine ⟨n, hn, by simp, by simp, ?_⟩
    rw [Node.links_mapLinks]
    exact forall₂_map_of_forall fun l _ => ⟨rfl, rfl, .inr rfl⟩

/-- A pass over the nodes of a reworked grammar that touches neither names nor links. -/
theorem Reworks.mapIdx {g h : Grammar} (r : Reworks g h) (f : Nat → Node → Node)
    (hf : ∀ i n, (f i n).word = n.word ∧ (f i n).id = n.id ∧ (f i n).links = n.links)
    (marked : Bool) : Reworks g { h with nodes := h.nodes.mapIdx f, marked } where
  lexicon := r.lexicon
  size := by simpa using r.size
  node i n' hi := by
    simp only [Array.getElem?_mapIdx, Option.map_eq_some_iff] at hi
    obtain ⟨m, hm, rfl⟩ := hi
    obtain ⟨n, hn, hw, hid, hlinks⟩ := r.node i m hm
    obtain ⟨fw, fid, flinks⟩ := hf i m
    exact ⟨n, hn, fw.trans hw, fid.trans hid, by rwa [flinks]⟩

theorem Sound.settleAll {g : Grammar} (hg : g.Sound) : g.settleAll.Sound := by
  refine (settleAll_reworks g).sound_of_flags hg rfl fun i n n' hn hn' => ?_
  simp only [Grammar.settleAll, mapNodes, Array.getElem?_map, hn, Option.map_some,
    Option.some.injEq] at hn'
  rw [← hn', Node.incoming_mapLinks]

theorem mark_reworks (g : Grammar) : Reworks g g.mark :=
  (settleAll_reworks g).mapIdx (fun i n => { n with incoming := g.targets.contains i })
    (fun _ _ => ⟨rfl, rfl, rfl⟩) true

theorem Sound.mark {g : Grammar} (hg : g.Sound) : g.mark.Sound := by
  refine (mark_reworks g).sound hg fun _ i n' hi => ?_
  simp only [Grammar.mark, Array.getElem?_mapIdx, Option.map_eq_some_iff] at hi
  obtain ⟨n, -, rfl⟩ := hi
  simp

theorem expandBegins_reworks (g : Grammar) : Reworks g g.expandBegins := by
  refine (settleAll_reworks g).mapIdx _ (fun i n => ?_) g.marked
  split <;> exact ⟨rfl, rfl, rfl⟩

theorem Sound.expandBegins {g : Grammar} (hg : g.Sound) : g.expandBegins.Sound := by
  refine (expandBegins_reworks g).sound_of_flags hg rfl fun i n n' hn hn' => ?_
  simp only [Grammar.expandBegins, Grammar.settleAll, mapNodes, Array.getElem?_mapIdx,
    Array.getElem?_map, hn, Option.map_some, Option.some.injEq] at hn'
  rw [← hn', ← Node.incoming_mapLinks g.settle n]
  split <;> rfl

theorem setTypes_keeps (types : Option (List String)) (n : Node) :
    (n.setTypes types).word = n.word ∧ (n.setTypes types).id = n.id ∧
      (n.setTypes types).links = n.links ∧ (n.setTypes types).incoming = n.incoming := by
  obtain ⟨word, id, kind⟩ := n
  cases kind <;> exact ⟨rfl, rfl, rfl, rfl⟩

theorem computeTypes_reworks (g : Grammar) : Reworks g g.computeTypes where
  lexicon := rfl
  size := by simp [Grammar.computeTypes, mapNodes]
  node i n' hi := by
    simp only [Grammar.computeTypes, mapNodes, Array.getElem?_map, Option.map_eq_some_iff] at hi
    obtain ⟨n, hn, rfl⟩ := hi
    obtain ⟨hw, hid, hlinks, -⟩ := setTypes_keeps _ n
    refine ⟨n, hn, hw, hid, ?_⟩
    rw [hlinks]
    exact List.forall₂_same.2 fun l _ => ⟨rfl, rfl, .inl rfl⟩

theorem Sound.computeTypes {g : Grammar} (hg : g.Sound) : g.computeTypes.Sound := by
  refine (computeTypes_reworks g).sound_of_flags hg rfl fun i n n' hn hn' => ?_
  simp only [Grammar.computeTypes, mapNodes, Array.getElem?_map, hn, Option.map_some,
    Option.some.injEq] at hn'
  rw [← hn']
  exact (setTypes_keeps _ n).2.2.2

/-- The only change is to the links of one node. -/
theorem settleLink_node {g : Grammar} {n l i : Nat} {m' : Node}
    (h : (g.settleLink n l).nodes[i]? = some m') : ∃ m, g.nodes[i]? = some m ∧
      (m' = m ∨ ∃ links types, m.kind = .continues links types ∧
        m' = { m with kind := .continues (links.modify l g.settle) types }) := by
  unfold settleLink at h
  split at h
  · rename_i node hnode
    split at h
    · rename_i links types hkind
      by_cases hin : n = i
      · subst hin
        have hlt := (Array.getElem?_eq_some_iff.1 hnode).1
        have hm : m' = { node with kind := .continues (links.modify l g.settle) types } := by
          simpa [hlt] using h.symm
        exact ⟨node, hnode, .inr ⟨links, types, hkind, hm⟩⟩
      · exact ⟨m', by simpa [hin] using h, .inl rfl⟩
    · exact ⟨m', h, .inl rfl⟩
  · exact ⟨m', h, .inl rfl⟩

theorem settleLink_frame (g : Grammar) (n l : Nat) : (g.settleLink n l).lexicon = g.lexicon ∧
    (g.settleLink n l).nodes.size = g.nodes.size ∧ (g.settleLink n l).marked = g.marked := by
  unfold settleLink
  split
  · split <;> simp
  · simp

theorem settleLink_reworks (g : Grammar) (n l : Nat) : Reworks g (g.settleLink n l) where
  lexicon := (settleLink_frame g n l).1
  size := (settleLink_frame g n l).2.1
  node i m' hm' := by
    obtain ⟨m, hm, rfl | ⟨links, types, hkind, rfl⟩⟩ := settleLink_node hm'
    · exact ⟨m', hm, rfl, rfl, List.forall₂_same.2 fun k _ => ⟨rfl, rfl, .inl rfl⟩⟩
    · refine ⟨m, hm, rfl, rfl, ?_⟩
      have hlinks : m.links = links := by simp [Node.links, hkind]
      rw [hlinks]
      refine List.forall₂_iff_get.2 ⟨by simp [Node.links], fun j hj hj' => ?_⟩
      simp only [Node.links, List.get_eq_getElem, List.getElem_modify]
      split
      · exact ⟨rfl, rfl, .inr rfl⟩
      · exact ⟨rfl, rfl, .inl rfl⟩

theorem Sound.settleLink {g : Grammar} (hg : g.Sound) (n l : Nat) : (g.settleLink n l).Sound := by
  refine (settleLink_reworks g n l).sound_of_flags hg (settleLink_frame g n l).2.2
    fun i m m' hm hm' => ?_
  obtain ⟨m₀, hm₀, h⟩ := settleLink_node hm'
  obtain rfl := Option.some.inj (hm₀.symm.trans hm)
  obtain rfl | ⟨links, types, -, rfl⟩ := h <;> rfl

theorem lookupIn_addEntry (w v : String) (ids : List Nat) (es : List (String × List Nat)) :
    (lookupIn w (addEntry v ids es)).getD [] =
      (lookupIn w es).getD [] ++ if v = w then ids else [] := by
  induction es with
  | nil => by_cases h : v = w <;> simp [addEntry, lookupIn, h]
  | cons e es ih =>
    obtain ⟨u, old⟩ := e
    by_cases huv : u = v
    · subst huv
      by_cases huw : u = w <;> simp [addEntry, lookupIn, huw]
    · by_cases huw : u = w
      · subst huw
        simp [addEntry, lookupIn, huv, Ne.symm huv]
      · simpa [addEntry, lookupIn, huv, huw] using ih

theorem instances_addWord (g : Grammar) (v w : String) :
    (g.addWord v).instances w = g.instances w := by
  have h := lookupIn_addEntry w v [] g.lexicon
  simpa [instances, lookup?, addWord] using h

theorem instances_addNode (g : Grammar) (n : Node) (w : String) :
    (g.addNode n).instances w = g.instances w ++ if n.word = w then [g.nodes.size] else [] :=
  lookupIn_addEntry w n.word [g.nodes.size] g.lexicon

theorem Sound.addWord {g : Grammar} (hg : g.Sound) (v : String) : (g.addWord v).Sound := by
  have hfind : ∀ w id, (g.addWord v).find? w id = g.find? w id := by
    intro w id
    rw [find?, find?, instances_addWord]
    rfl
  refine ⟨fun w n hn => ?_, fun i node hi l hl t ht => ?_, fun hm i node hi => ?_⟩
  · rw [instances_addWord] at hn
    exact hg.listed w n hn
  · rw [hfind]
    exact hg.remembered i node hi l hl t ht
  · have htarget : (g.addWord v).target? = g.target? := by
      funext l
      rw [target?, target?, hfind]
    rw [hg.flagged hm i node hi, mem_targets, mem_targets, htarget]
    rfl

theorem find_addNode {g : Grammar} (hg : g.Sound) (n : Node) {w id : String} {t : Nat}
    (h : g.find? w id = some t) : (g.addNode n).find? w id = some t := by
  have hsame : (g.instances w).find? ((g.addNode n).hasId id) = some t := by
    rw [← h, find?]
    refine List.find?_congr fun m hm => ?_
    obtain ⟨node, hnode, -⟩ := hg.listed w m hm
    have hne : m ≠ g.nodes.size := by
      have := (Array.getElem?_eq_some_iff.1 hnode).1
      omega
    simp [hasId, Grammar.addNode, Array.getElem?_push, hne]
  rw [find?, instances_addNode, List.find?_append, hsame]
  rfl

theorem Sound.addNode {g : Grammar} (hg : g.Sound) {n : Node} (hn : n.Fresh) :
    (g.addNode n).Sound := by
  refine ⟨fun w m hm => ?_, fun i node hi l hl t ht => ?_, fun hm => nomatch hm⟩
  · rw [instances_addNode, List.mem_append] at hm
    obtain hold | hnew := hm
    · obtain ⟨node, hnode, hw⟩ := hg.listed w m hold
      have hne : m ≠ g.nodes.size := by
        have := (Array.getElem?_eq_some_iff.1 hnode).1
        omega
      exact ⟨node, by simpa [Grammar.addNode, Array.getElem?_push, hne] using hnode, hw⟩
    · by_cases hw : n.word = w
      · obtain rfl : m = g.nodes.size := by simpa [hw] using hnew
        exact ⟨n, by simp [Grammar.addNode], hw⟩
      · simp [hw] at hnew
  · rw [Grammar.addNode, Array.getElem?_push] at hi
    split at hi
    · obtain rfl := Option.some.inj hi
      rw [hn l hl] at ht
      simp at ht
    · exact find_addNode hg n (hg.remembered i node hi l hl t ht)

theorem mem_of_mapM_eq_ok {ε α β : Type} {f : α → Except ε β} {xs : List α} {ys : List β}
    (h : xs.mapM f = .ok ys) : ∀ y ∈ ys, ∃ x ∈ xs, f x = .ok y :=
  fun _ hy => exists_mem_of_forall₂ (forall₂_of_mapM_eq_ok h) hy

theorem shiftLink_fresh {g : Grammar} {l l' : Link} (h : g.shiftLink l = .ok l') :
    l'.target = none := by
  obtain ⟨id, -, h⟩ := bind_eq_ok h
  obtain rfl := Except.ok.inj h
  rfl

/-- A node that comes from another grammar forgets its targets. -/
theorem shiftNode_fresh {g : Grammar} {n n' : Node} (h : g.shiftNode n = .ok n') : n'.Fresh := by
  obtain ⟨id, -, h⟩ := bind_eq_ok h
  cases hk : n.kind with
  | ends type value =>
    rw [hk] at h
    obtain rfl := Except.ok.inj h
    intro l hl
    simp [Node.links] at hl
  | continues links types =>
    rw [hk] at h
    obtain ⟨links', hls, h⟩ := bind_eq_ok h
    obtain rfl := Except.ok.inj h
    intro l hl
    obtain ⟨l₀, -, hl₀⟩ := mem_of_mapM_eq_ok hls l hl
    exact shiftLink_fresh hl₀

theorem Sound.addWords {g : Grammar} (hg : g.Sound) (es : List (String × List Nat)) :
    (es.foldl (fun g e => g.addWord e.1) g).Sound :=
  List.foldlRecOn es _ hg fun _ hg e _ => hg.addWord e.1

theorem Sound.addNodes {g : Grammar} (hg : g.Sound) {ns : List Node} (hns : ∀ n ∈ ns, n.Fresh) :
    (ns.foldl (fun g n => g.addNode n) g).Sound :=
  List.foldlRecOn ns _ hg fun _ hg n hn => hg.addNode (hns n hn)

/-- What a merge adds are the words of the newcomer and then its nodes, which are shifted before. -/
theorem merge_eq_ok {g other h : Grammar} (hm : g.merge other = .ok h) :
    ∃ ns, other.nodes.toList.mapM g.shiftNode = .ok ns ∧
      h = { ns.foldl (fun g n => g.addNode n)
        (other.lexicon.foldl (fun g e => g.addWord e.1) g) with marked := false } := by
  obtain ⟨ns, hns, h⟩ := bind_eq_ok hm
  exact ⟨ns, hns, (Except.ok.inj h).symm⟩

theorem Sound.merge {g other h : Grammar} (hg : g.Sound) (hm : g.merge other = .ok h) :
    h.Sound := by
  obtain ⟨ns, hns, rfl⟩ := merge_eq_ok hm
  have hs := (hg.addWords other.lexicon).addNodes fun n hn =>
    have ⟨_, _, hn₀⟩ := mem_of_mapM_eq_ok hns n hn
    shiftNode_fresh hn₀
  exact ⟨hs.listed, hs.remembered, fun hmark => nomatch hmark⟩

theorem Built.sound {g : Grammar} (hg : Built g) : g.Sound := by
  induction hg with
  | new =>
    refine ⟨fun w n hn => ?_, fun i n hn => ?_, fun hm => ?_⟩
    · simp [instances, lookup?, lookupIn] at hn
    · simp at hn
    · simp at hm
  | addWord word _ ih => exact ih.addWord word
  | addNode _ hn ih => exact ih.addNode hn
  | merge _ _ hm ih _ => exact ih.merge hm
  | mark _ ih => exact ih.mark
  | settleLink n l _ ih => exact ih.settleLink n l
  | settleAll _ ih => exact ih.settleAll
  | expandBegins _ ih => exact ih.expandBegins
  | computeTypes _ ih => exact ih.computeTypes

/-- Grammars that are read from entries are built from words and nodes. -/
theorem built_ofEntries {es : List Entry} (h : ∀ e ∈ es, ∀ n ∈ e.nodes, n.Fresh) :
    Built (ofEntries es) := by
  refine List.foldlRecOn es _ .new fun g hg e he => ?_
  exact List.foldlRecOn e.nodes _ (hg.addWord e.word) fun _ hg n hn => hg.addNode (h e he n hn)

theorem built_ofNodes {ns : List Node} (hns : ∀ n ∈ ns, n.Fresh) (words : List String) :
    Built (ofNodes ns words) := by
  have hnodes : Built (ns.foldl (fun g n => g.addNode n) {}) :=
    List.foldlRecOn ns _ .new fun _ hg n hn => hg.addNode (hns n hn)
  exact List.foldlRecOn words _ hnodes fun _ hg w _ => hg.addWord w

end Grammar

end StateDiagram
