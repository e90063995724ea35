import StateDiagram.Proofs.Grammar.Listed
import StateDiagram.Proofs.Text.Numeral

/-! Merging of grammars whose ids are numerals. If the nodes of each word are numbered from 1 on,
the numbers of a newcomer are shifted past all of them. So each link leads to the node that it led
to in its own grammar. -/
namespace StateDiagram

/-- The numeral `id` of `word`, shifted past the nodes that this word has. -/
def Grammar.shifted (g : Grammar) (word id : String) : String :=
  toString (Text.ofDigits id.toList + (g.ofWord word).length)

/-- The link with its id shifted, and without what it remembers. -/
def Link.shifted (g : Grammar) (l : Link) : Link :=
  { l with id := g.shifted l.word l.id, target := none }

/-- The node with its id and those of its links shifted, and without what it remembers. -/
def Node.shifted (g : Grammar) (n : Node) : Node :=
  { n.mapLinks (Link.shifted g) with id := g.shifted n.word n.id, incoming := false }

namespace Grammar

variable {g other h : Grammar}

/-- The ids of the nodes of each word are the numerals from 1 on, in any order. -/
def Numbered (g : Grammar) : Prop :=
  ∀ w, ((g.ofWord w).map Node.id).Perm
    ((List.range (g.ofWord w).length).map fun i => toString (i + 1))

/-- The numeral of a positive number which does not get too big when it is shifted past the nodes
that `word` has. -/
def Shiftable (g : Grammar) (word id : String) : Prop :=
  ∃ k : Nat, 0 < k ∧ id = toString k ∧
    (g.ofWord word ≠ [] → k + (g.ofWord word).length ≤ 9223372036854775807)

/-- All ids of the nodes and of their links can be shifted. -/
def ShiftsAll (g : Grammar) (n : Node) : Prop :=
  g.Shiftable n.word n.id ∧ ∀ l ∈ n.links, g.Shiftable l.word l.id

theorem shifted_toString (g : Grammar) (word : String) (k : Nat) :
    g.shifted word (toString k) = toString (k + (g.ofWord word).length) := by
  rw [shifted, Text.ofDigits_toString]

theorem Listed.length_instances (hg : g.Listed) (w : String) :
    (g.instances w).length = (g.ofWord w).length := by
  simpa using congrArg List.length (hg.map_instances w)

theorem Shiftable.shiftId_eq {word id : String} (h : g.Shiftable word id) (hg : g.Listed) :
    shiftId word id (g.instances word).length = .ok (g.shifted word id) := by
  obtain ⟨k, -, rfl, hbig⟩ := h
  rw [hg.length_instances, shifted_toString, shiftId]
  by_cases hnone : (g.ofWord word).length = 0
  · rw [if_pos hnone, hnone, Nat.add_zero]
  have hle := hbig fun hnil => hnone (by rw [hnil]; rfl)
  have hvalue : (Int64.ofInt k).toInt = k := Int64.toInt_ofInt_of_le (by omega) (by omega)
  rw [if_neg hnone, Text.readInt64?_trim (by omega)]
  simp only [hvalue, ← Int.natCast_add]
  rfl

theorem Shiftable.shiftLink_eq {l : Link} (h : g.Shiftable l.word l.id) (hg : g.Listed) :
    g.shiftLink l = .ok (l.shifted g) := by
  rw [shiftLink, h.shiftId_eq hg]
  rfl

theorem mapM_eq_ok {ε α β : Type} {f : α → Except ε β} {φ : α → β} {xs : List α}
    (h : ∀ x ∈ xs, f x = .ok (φ x)) : xs.mapM f = .ok (xs.map φ) := by
  induction xs with
  | nil => rfl
  | cons x xs ih =>
    rw [List.mapM_cons, h x (List.mem_cons_self ..), ih fun y hy => h y (List.mem_cons_of_mem x hy)]
    rfl

theorem ShiftsAll.shiftNode_eq {n : Node} (h : g.ShiftsAll n) (hg : g.Listed) :
    g.shiftNode n = .ok (n.shifted g) := by
  obtain ⟨hid, hlinks⟩ := h
  obtain ⟨word, id, kind⟩ := n
  rw [shiftNode, hid.shiftId_eq hg]
  cases kind with
  | ends type value => rfl
  | continues links types =>
    have hmap : links.mapM g.shiftLink = .ok (links.map (Link.shifted g)) :=
      mapM_eq_ok fun l hl => (hlinks l hl).shiftLink_eq hg
    simp only [bind, Except.bind, hmap]
    rfl

theorem nodes_addWords (g : Grammar) (es : List (String × List Nat)) :
    (es.foldl (fun g e => g.addWord e.1) g).nodes = g.nodes :=
  List.foldlRecOn (motive := fun h : Grammar => h.nodes = g.nodes) es _ rfl fun _ h _ _ => h

theorem nodes_addNodes (g : Grammar) (ns : List Node) :
    (ns.foldl (fun g n => g.addNode n) g).nodes.toList = g.nodes.toList ++ ns := by
  induction ns generalizing g with
  | nil => simp
  | cons n ns ih =>
    rw [List.foldl_cons, ih]
    simp [addNode]

/-- A merged grammar has the nodes of both, those of the newcomer being shifted. -/
theorem merge_nodes (hg : g.Listed) (hids : ∀ n ∈ other.nodes.toList, g.ShiftsAll n) :
    ∃ h, g.merge other = .ok h ∧
      h.nodes.toList = g.nodes.toList ++ other.nodes.toList.map (Node.shifted g) := by
  have hmap : other.nodes.toList.mapM g.shiftNode = .ok (other.nodes.toList.map (Node.shifted g)) :=
    mapM_eq_ok fun n hn => (hids n hn).shiftNode_eq hg
  refine ⟨_, by rw [merge, hmap]; rfl, ?_⟩
  rw [nodes_addNodes, nodes_addWords]

theorem find?_range_any {α : Type} (p : α → Bool) (xs : List α) :
    (List.range xs.length).find? (fun i => xs[i]?.any p) = xs.findIdx? p := by
  have hat : ∀ i (hi : i < xs.length), xs[i]?.any p = p xs[i] := fun i hi => by
    rw [List.getElem?_eq_getElem hi, Option.any_some]
  refine Option.ext fun i => ?_
  rw [List.find?_range_eq_some, List.findIdx?_eq_some_iff_getElem, List.mem_range]
  constructor
  · rintro ⟨hi, hlt, hbefore⟩
    refine ⟨hlt, hat i hlt ▸ hi, fun j hj => ?_⟩
    have hnot := hbefore j hj
    rw [hat j (hj.trans hlt)] at hnot
    simpa using hnot
  · rintro ⟨hlt, hi, hbefore⟩
    refine ⟨(hat i hlt).trans hi, hlt, fun j hj => ?_⟩
    rw [hat j (hj.trans hlt)]
    simpa using hbefore j hj

/-- To find a node is to find the first one with that word and that id. -/
theorem Listed.find_eq (hg : g.Listed) (w id : String) :
    g.find? w id = g.nodes.toList.findIdx? fun n => n.word = w ∧ n.id = id := by
  rw [← find?_range_any, find?, hg.instances, List.find?_filter, Array.length_toList]
  congr 1
  funext i
  rw [Array.getElem?_toList]
  cases hi : g.nodes[i]? <;> simp [hasId, hi]

/-- No id of a word in a grammar that is numbered is a numeral that is shifted past its nodes. -/
theorem Numbered.ne_shifted (hg : g.Numbered) {n : Node} (hn : n ∈ g.nodes.toList) {id : String}
    (h : g.Shiftable n.word id) : n.id ≠ g.shifted n.word id := by
  obtain ⟨k, hk, rfl, -⟩ := h
  have hmem : n ∈ g.ofWord n.word := List.mem_filter.2 ⟨hn, decide_eq_true rfl⟩
  obtain ⟨i, hi, hid⟩ := List.mem_map.1 ((hg n.word).mem_iff.1 (List.mem_map_of_mem hmem))
  have hlt : i < (g.ofWord n.word).length := List.mem_range.1 hi
  -- the numerals of the nodes end where those that are shifted begin
  rw [shifted_toString, ← hid]
  intro heq
  have hnat : i + 1 = k + (g.ofWord n.word).length := Text.toString_inj.1 heq
  omega

/-- Shifting keeps different ids of a word apart. -/
theorem shifted_inj {word id id' : String} (h : g.Shiftable word id) (h' : g.Shiftable word id') :
    g.shifted word id = g.shifted word id' ↔ id = id' := by
  obtain ⟨k, -, rfl, -⟩ := h
  obtain ⟨k', -, rfl, -⟩ := h'
  rw [shifted_toString, shifted_toString]
  constructor
  · intro heq
    have hnat : k + (g.ofWord word).length = k' + (g.ofWord word).length := Text.toString_inj.1 heq
    rw [Nat.add_right_cancel hnat]
  · intro heq
    rw [Text.toString_inj.1 heq]

/-- What was found among the nodes of the grammar is found there still. -/
theorem find_of_append (hg : g.Listed) (hh : h.Listed) {ns : List Node}
    (hnodes : h.nodes.toList = g.nodes.toList ++ ns) {w id : String} {t : Nat}
    (ht : g.find? w id = some t) : h.find? w id = some t := by
  rw [hg.find_eq] at ht
  rw [hh.find_eq, hnodes, List.findIdx?_append, ht]
  rfl

theorem findIdx?_congr {α : Type} {p q : α → Bool} {xs : List α} (h : ∀ x ∈ xs, p x = q x) :
    xs.findIdx? p = xs.findIdx? q := by
  induction xs with
  | nil => rfl
  | cons x xs ih =>
    rw [List.findIdx?_cons, List.findIdx?_cons, h x (List.mem_cons_self ..),
      ih fun y hy => h y (List.mem_cons_of_mem x hy)]

/-- A shifted id leads to the newcomer's node that it led to before. -/
theorem find_shifted (hg : g.Numbered) (ho : other.Listed) (hh : h.Listed)
    (hids : ∀ n ∈ other.nodes.toList, g.ShiftsAll n)
    (hnodes : h.nodes.toList = g.nodes.toList ++ other.nodes.toList.map (Node.shifted g))
    {w id : String} (hid : g.Shiftable w id) :
    h.find? w (g.shifted w id) = (other.find? w id).map (g.nodes.size + ·) := by
  have hold : g.nodes.toList.findIdx? (fun n => n.word = w ∧ n.id = g.shifted w id) = none := by
    rw [List.findIdx?_eq_none_iff]
    intro n hn
    rw [decide_eq_false_iff_not]
    rintro ⟨rfl, heq⟩
    exact hg.ne_shifted hn hid heq
  have hnew : (other.nodes.toList.map (Node.shifted g)).findIdx?
      (fun n => n.word = w ∧ n.id = g.shifted w id) = other.find? w id := by
    rw [ho.find_eq, List.findIdx?_map]
    refine findIdx?_congr fun n hn => ?_
    have hword : (n.shifted g).word = n.word := Node.word_mapLinks ..
    have hshift : (n.shifted g).id = g.shifted n.word n.id := rfl
    simp only [Function.comp_apply, hword, hshift, decide_eq_decide]
    refine and_congr_right fun heq => ?_
    subst heq
    exact shifted_inj (hids n hn).1 hid
  rw [hh.find_eq, hnodes, List.findIdx?_append, hold, hnew, Option.none_or]
  simp only [Array.length_toList, Nat.add_comm]

/-- Let the nodes of each word of a grammar be numbered from 1 on, and let the ids in a newcomer be
numerals. Then the newcomer can be merged: its nodes follow those of the grammar, shifted past them,
each link of the grammar leads where it led, and each link of the newcomer leads to its own node. -/
theorem merge_links (hg : g.Built) (ho : other.Built) (hnumbered : g.Numbered)
    (hids : ∀ n ∈ other.nodes.toList, g.ShiftsAll n) :
    ∃ h, g.merge other = .ok h ∧
      h.nodes.toList = g.nodes.toList ++ other.nodes.toList.map (Node.shifted g) ∧
      (∀ n ∈ g.nodes.toList, ∀ l ∈ n.links, ∀ t, g.target? l = some t → h.target? l = some t) ∧
      ∀ n ∈ other.nodes.toList, ∀ l ∈ n.links,
        h.target? (l.shifted g) = (other.target? l).map (g.nodes.size + ·) := by
  obtain ⟨h, hmerge, hnodes⟩ := merge_nodes hg.listed hids
  have hh : h.Built := hg.merge ho hmerge
  refine ⟨h, hmerge, hnodes, fun n hn l hl t ht => ?_, fun n hn l hl => ?_⟩
  · unfold target? at ht ⊢
    cases hm : l.target with
    | some m => rwa [hm] at ht
    | none =>
      rw [hm] at ht
      exact find_of_append hg.listed hh.listed hnodes ht
  · obtain ⟨i, hi⟩ := List.mem_iff_getElem?.1 hn
    rw [ho.sound.target_eq_find (by simpa using hi) hl]
    exact find_shifted hnumbered ho.listed hh.listed hids hnodes ((hids n hn).2 l hl)

/-- A forward link, a link to the node itself, one to a word that only the newcomer has and one that
leads nowhere are all shifted past what the grammar has of their words. -/
theorem merge_links_shared :
    let g := (Grammar.addNode
      { word := "a", id := "2", kind := .continues [{ word := "a", id := "1" }] none } {}).addNode
      { word := "a", id := "1", kind := .ends "T" none }
    let links : List Link := [{ word := "a", id := "4" }, { word := "a", id := "1" },
      { word := "b", id := "1" }, { word := "a", id := "2" }]
    let other := ((Grammar.addNode { word := "a", id := "1", kind := .continues links none }
      {}).addNode { word := "a", id := "4", kind := .ends "T" none }).addNode
      { word := "b", id := "1", kind := .ends "T" none }
    g.Numbered ∧ (∀ n ∈ other.nodes.toList, g.ShiftsAll n) ∧ ∃ h, g.merge other = .ok h ∧
      h.nodes.toList.map Node.id = ["2", "1", "3", "6", "1"] ∧
      h.target? { word := "a", id := "1" } = some 1 ∧
      (links.map (Link.shifted g)).map Link.id = ["6", "3", "1", "4"] ∧
      (links.map (Link.shifted g)).map h.target? = [some 3, some 2, some 4, none] := by
  intro g links other
  have hnumbered : g.Numbered := fun w => by
    by_cases hw : w = "a"
    · subst hw
      exact List.Perm.swap "1" "2" []
    · have hnone : g.ofWord w = [] := by simp [ofWord, g, addNode, Ne.symm hw]
      rw [hnone]
      exact List.Perm.nil
  have hshift : ∀ w, ∀ k : Nat, 0 < k → k < 5 → g.Shiftable w (toString k) :=
    fun w k hpos hlt => ⟨k, hpos, rfl, fun _ => by
      have hle : (g.ofWord w).length ≤ g.nodes.toList.length := List.length_filter_le ..
      have hsize : g.nodes.toList.length = 2 := rfl
      omega⟩
  have hlinks : ∀ l ∈ links, g.Shiftable l.word l.id := by
    simp only [links, List.forall_mem_cons]
    exact ⟨hshift "a" 4 (by decide) (by decide), hshift "a" 1 (by decide) (by decide),
      hshift "b" 1 (by decide) (by decide), hshift "a" 2 (by decide) (by decide), by simp⟩
  have hids : ∀ n ∈ other.nodes.toList, g.ShiftsAll n := by
    simp only [other, addNode, Array.toList_push, List.forall_mem_append]
    refine ⟨⟨⟨by simp, ?_⟩, ?_⟩, ?_⟩
    all_goals rw [List.forall_mem_singleton]
    · exact ⟨hshift "a" 1 (by decide) (by decide), hlinks⟩
    · exact ⟨hshift "a" 4 (by decide) (by decide), by simp [Node.links]⟩
    · exact ⟨hshift "b" 1 (by decide) (by decide), by simp [Node.links]⟩
  have hg : g.Built := .addNode (.addNode .new (by simp [Node.Fresh, Node.links]))
    (by simp [Node.Fresh, Node.links])
  have ho : other.Built := .addNode (.addNode (.addNode .new
    (by simp [Node.Fresh, Node.links, links])) (by simp [Node.Fresh, Node.links]))
    (by simp [Node.Fresh, Node.links])
  obtain ⟨h, hmerge, hnodes, hold, hnew⟩ := merge_links hg ho hnumbered hids
  have htargets : (links.map (Link.shifted g)).map h.target? =
      links.map fun l => (other.target? l).map (g.nodes.size + ·) := by
    rw [List.map_map]
    exact List.map_congr_left fun l hl => hnew _ (List.mem_cons_self ..) l hl
  refine ⟨hnumbered, hids, h, hmerge, ?_, ?_, by decide +kernel, ?_⟩
  · rw [hnodes]
    decide +kernel
  · exact hold _ (List.mem_cons_self ..) _ (List.mem_singleton_self _) 1 rfl
  · rw [htargets]
    decide +kernel

end Grammar

end StateDiagram
