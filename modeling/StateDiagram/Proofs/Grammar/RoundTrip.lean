import StateDiagram.Proofs.Grammar.Listed
import StateDiagram.Proofs.Grammar.Optimized
import StateDiagram.Proofs.Grammar.Reread
import StateDiagram.Proofs.Related

/-! Grammars that are written as text and read back. The full text keeps all of a grammar but for
initial nodes that can begin nothing, whose empty list reads as that of a node that is not
initial. -/
namespace StateDiagram.Grammar

/-- The node `m` is the node `n` but for its flag and for what its links remember. -/
structure Alike (n m : Node) : Prop where
  word : m.word = n.word
  id : m.id = n.id
  initial : m.initial = n.initial
  begins : m.begins = n.begins
  kind : m.forget.kind = n.forget.kind
  action : m.action = n.action
  coords : m.coords = n.coords

theorem forget_mapLinks {f : Link → Link} (hf : ∀ l, { f l with target := none } =
    { l with target := none }) (n : Node) : (n.mapLinks f).forget = n.forget := by
  obtain ⟨word, id, kind⟩ := n
  cases kind with
  | ends type value => rfl
  | continues links types => simp [Node.forget, Node.mapLinks, Function.comp_def, hf]

theorem mark_alike (g : Grammar) : List.Forall₂ Alike g.nodes.toList g.mark.nodes.toList := by
  have hnodes : g.mark.nodes.toList = g.nodes.toList.mapIdx fun i n =>
      { n.mapLinks g.settle with incoming := g.targets.contains i } := by
    refine List.ext_getElem? fun i => ?_
    rw [Array.getElem?_toList, List.getElem?_mapIdx, Array.getElem?_toList, mark, settleAll,
      mapNodes, Array.getElem?_mapIdx, Array.getElem?_map]
    cases g.nodes[i]? <;> rfl
  rw [hnodes]
  refine forall₂_mapIdx fun i n _ => ?_
  have hforget := congrArg Node.kind (forget_mapLinks (f := g.settle) (fun l => rfl) n)
  obtain ⟨word, id, kind⟩ := n
  cases kind <;> exact ⟨rfl, rfl, rfl, rfl, hforget, rfl, rfl⟩

/-- A marked grammar that is put together from the entries of another one has the same words, and
word by word the nodes that those of the other grammar have become. -/
theorem mark_ofEntries {g : Grammar} (hg : g.Listed) (φ : String → Node → Node) :
    (ofEntries (g.entries.map fun e => ⟨e.word, e.nodes.map (φ e.word)⟩)).mark.words = g.words ∧
      List.Forall₂ (fun n m => Alike { φ n.word n with word := n.word } m)
        (g.words.flatMap g.ofWord)
        (ofEntries (g.entries.map fun e => ⟨e.word, e.nodes.map (φ e.word)⟩)).mark.nodes.toList := by
  let es : List Entry := g.entries.map fun e => ⟨e.word, e.nodes.map (φ e.word)⟩
  have hwords : es.map Entry.word = g.words := by
    simp [es, hg.entries_eq, Function.comp_def]
  have hlist' : (ofEntries es).nodes.toList = (g.words.flatMap g.ofWord).map fun n =>
      { φ n.word n with word := n.word } := by
    rw [nodes_ofEntries, List.map_flatMap]
    simp only [es, hg.entries_eq, List.flatMap_map]
    refine List.flatMap_congr fun w _ => ?_
    rw [Entry.named, List.map_map]
    refine List.map_congr_left fun n hn => ?_
    have hw : n.word = w := of_decide_eq_true (List.mem_filter.1 hn).2
    simp [hw]
  have hmark := mark_alike (ofEntries es)
  rw [hlist', List.forall₂_map_left_iff] at hmark
  exact ⟨words_ofEntries hg hwords, hmark⟩

/-- Nodes that are related word by word are so within each word. -/
theorem forall₂_ofWord {R : Node → Node → Prop} {g h : Grammar} (hg : g.Listed)
    (hword : ∀ n m, R n m → m.word = n.word)
    (hnodes : List.Forall₂ R (g.words.flatMap g.ofWord) h.nodes.toList) (w : String) :
    List.Forall₂ R (g.ofWord w) (h.ofWord w) := by
  have hfilter := forall₂_filter (p := fun n => n.word = w) (q := fun m => m.word = w)
    (fun n m hnm => by rw [hword n m hnm]) hnodes
  rw [show (g.words.flatMap g.ofWord).filter (fun n => n.word = w) = _ from
    filter_flatMap_filter Node.word g.nodes.toList hg.nodup_words w] at hfilter
  split at hfilter
  · exact hfilter
  · rename_i hw
    have hnil : g.ofWord w = [] := List.filter_eq_nil_iff.2 fun n hn hword =>
      hw (of_decide_eq_true hword ▸ hg.word_mem hn)
    rw [hnil]
    exact hfilter

theorem fresh_rereadNode (full : Bool) (w : String) (n : Node) : (rereadNode full w n).Fresh := by
  obtain ⟨word, id, kind⟩ := n
  cases kind with
  | ends type value => exact fun l hl => nomatch hl
  | continues links types =>
    intro l hl
    obtain ⟨l₀, -, rfl⟩ := List.mem_map.1 hl
    rfl

/-- The text of a grammar reads as a grammar with the same words, whose nodes are those of the
grammar, word by word and for each word in the order of their creation. -/
theorem parseText_render {full : Bool} {g : Grammar} (hg : g.Listed)
    (hwords : ∀ w ∈ g.words, IsName w) (hnodes : ∀ n ∈ g.nodes.toList, Writable full n) :
    ∃ h, parseText (g.render full) = .ok h ∧ h.Built ∧ h.marked = true ∧ h.words = g.words ∧
      List.Forall₂ (fun n m => Alike (rereadNode full n.word n) m) (g.words.flatMap g.ofWord)
        h.nodes.toList ∧
      ∀ w, List.Forall₂ (fun n m => Alike (rereadNode full n.word n) m) (g.ofWord w)
        (h.ofWord w) := by
  have hentries : ∀ e ∈ g.entries, IsName e.word ∧ ∀ n ∈ e.nodes, Writable full n := by
    rw [hg.entries_eq]
    intro e he
    obtain ⟨w, hw, rfl⟩ := List.mem_map.1 he
    exact ⟨hwords w hw, fun n hn => hnodes n (List.mem_of_mem_filter hn)⟩
  have hread := read_render hentries
  obtain ⟨hsame, hall⟩ := mark_ofEntries hg (rereadNode full)
  have hbuilt : Built (ofEntries (g.entries.map (rereadEntry full))) := by
    refine built_ofEntries fun e he n hn => ?_
    obtain ⟨e₀, -, rfl⟩ := List.mem_map.1 he
    obtain ⟨n₀, -, rfl⟩ := List.mem_map.1 hn
    exact fresh_rereadNode full e₀.word n₀
  exact ⟨(ofEntries (g.entries.map (rereadEntry full))).mark, by rw [parseText, hread]; rfl,
    .mark hbuilt, rfl, hsame, hall, forall₂_ofWord hg (fun n m hnm => hnm.word) hall⟩

/-- A grammar that can be written in full. Whatever types its nodes begin or go on with will be
computed from those that its nodes end. -/
structure TextSafe (g : Grammar) : Prop where
  words : ∀ w ∈ g.words, IsWord w
  ids : ∀ n ∈ g.nodes.toList, IsWord n.id ∧ ∀ l ∈ n.links, IsWord l.word ∧ IsWord l.id
  types : ∀ n ∈ g.nodes.toList, ∀ type, n.type? = some type → IsListable type
  texts : ∀ n ∈ g.nodes.toList, IsQuotable n.value? ∧ IsQuotable n.action
  begins : ∀ n ∈ g.nodes.toList, n.initial = false → n.begins = none

theorem optimizedNode_texts (g : Grammar) (i : Nat) (n : Node) :
    (optimizedNode g i n).action = n.action ∧ (optimizedNode g i n).coords = n.coords ∧
      (n.initial = false → (optimizedNode g i n).begins = n.begins) := by
  obtain ⟨word, id, kind, initial⟩ := n
  cases kind <;> cases initial <;> exact ⟨rfl, rfl, by simp [optimizedNode, Node.mapLinks,
    Node.setBegins, Node.setTypes]⟩

theorem mem_optimize {g : Grammar} {n' : Node} (h : n' ∈ g.optimize.nodes.toList) :
    ∃ i n, g.nodes[i]? = some n ∧ n ∈ g.nodes.toList ∧ n' = optimizedNode g i n := by
  obtain ⟨i, hi⟩ := List.mem_iff_getElem?.1 h
  rw [Array.getElem?_toList, optimize_nodes, Option.map_eq_some_iff] at hi
  obtain ⟨n, hn, rfl⟩ := hi
  exact ⟨i, n, hn, List.mem_of_getElem? (by simpa using hn), rfl⟩

/-- Optimization finds no phrase type that no node ends. -/
theorem types_optimizedNode {g : Grammar} (i : Nat) (n : Node) :
    (n.initial = true → ∀ types, (optimizedNode g i n).begins = some types →
      ∀ type ∈ types, type ∈ g.phraseTypes) ∧
    ∀ types, (optimizedNode g i n).types? = some types → ∀ type ∈ types, type ∈ g.phraseTypes := by
  constructor
  · intro hinitial types htypes type hmem
    rw [begins_optimizedNode g i hinitial, Option.some.injEq] at htypes
    rw [← htypes, Text.mem_sortedSet, Digraph.typesOf, List.mem_filterMap] at hmem
    obtain ⟨j, -, hj⟩ := hmem
    obtain ⟨m, hm, htype⟩ := Option.bind_eq_some_iff.1 hj
    exact mem_phraseTypes.2 ⟨j, m, hm, htype⟩
  · intro types htypes type hmem
    cases hk : n.kind with
    | ends t v =>
      rw [Node.types?, (kind_optimizedNode g i).1 t v hk] at htypes
      cases htypes
    | continues links ts =>
      rw [Node.types?, (kind_optimizedNode g i).2 links ts hk, Option.some.injEq] at htypes
      rw [← htypes, Text.mem_sortedSet, List.mem_filter, List.contains_iff_mem] at hmem
      exact mem_expandBegins_types.1 hmem.2

theorem TextSafe.listable {g : Grammar} (hg : g.TextSafe) {type : String}
    (h : type ∈ g.phraseTypes) : IsListable type := by
  obtain ⟨i, n, hi, htype⟩ := mem_phraseTypes.1 h
  exact hg.types n (List.mem_of_getElem? (by simpa using hi)) type htype

theorem TextSafe.writable {g : Grammar} (hg : g.TextSafe) :
    ∀ n ∈ g.optimize.nodes.toList, Writable true n := by
  intro n' hn'
  obtain ⟨i, n, hi, hn, rfl⟩ := mem_optimize hn'
  obtain ⟨-, hid, hinitial, htype, hvalue, hlinks⟩ := optimizedNode_frame g i n
  obtain ⟨haction, -, hbegins⟩ := optimizedNode_texts g i n
  obtain ⟨hbeginsTypes, htypes⟩ := types_optimizedNode (g := g) i n
  refine ⟨hid ▸ (hg.ids n hn).1, fun type h => .inl (hg.types n hn type (htype ▸ h)).1,
    hvalue ▸ (hg.texts n hn).1, fun l' hl' => ?_, haction ▸ (hg.texts n hn).2,
    fun _ types h type hmem => ?_, fun _ types h type hmem => hg.listable (htypes types h type hmem)⟩
  · rw [hlinks] at hl'
    obtain ⟨l, hl, rfl⟩ := List.mem_map.1 hl'
    exact (hg.ids n hn).2 l hl
  · cases hi' : n.initial with
    | true => exact hg.listable (hbeginsTypes hi' types h type hmem)
    | false =>
      rw [hbegins hi', hg.begins n hn hi'] at h
      cases h

/-- What becomes of a node of a text-safe grammar: an initial node that can begin nothing becomes
a node that is not initial; otherwise nothing is lost but flags and what links remember. -/
structure Restored (n m : Node) : Prop where
  word : m.word = n.word
  id : m.id = n.id
  initial : m.initial = (n.initial && n.begins != some [])
  begins : m.begins = if n.begins = some [] then none else n.begins
  kind : m.forget.kind = n.forget.kind
  action : m.action = n.action
  coords : m.coords = n.coords

theorem restored {n m : Node} (h : Alike (rereadNode true n.word n) m)
    (hbegins : n.initial = false → n.begins = none)
    (htypes : ∀ links types, n.kind = .continues links types → ∃ ts, types = some ts) :
    Restored n m := by
  obtain ⟨word, id, kind, initial, begins, action, coords, incoming⟩ := n
  obtain ⟨hword, hid, hinitial, hbegins', hkind, haction, hcoords⟩ := h
  have hkind' : (rereadNode true word ⟨word, id, kind, initial, begins, action, coords,
      incoming⟩).forget.kind = (Node.forget ⟨word, id, kind, initial, begins, action, coords,
      incoming⟩).kind := by
    cases kind with
    | ends type value => rfl
    | continues links types =>
      obtain ⟨ts, rfl⟩ := htypes links types rfl
      simp [rereadNode, rereadKind, rereadTypes, Node.forget, Node.mapLinks, Node.setInitial,
        rereadLink, Function.comp_def]
  refine ⟨hword, hid, hinitial.trans ?_, hbegins'.trans ?_, hkind.trans hkind', haction, hcoords⟩
  · cases initial <;> cases begins with
    | none => simp [rereadNode, Node.setInitial, rereadBegins]
    | some types => cases types <;> simp [rereadNode, Node.setInitial, rereadBegins]
  · cases initial with
    | false =>
      obtain rfl : begins = none := hbegins rfl
      rfl
    | true =>
      cases begins with
      | none => rfl
      | some types => cases types <;> rfl

/-- The full text of a text-safe grammar reads as a marked grammar with the same words and, word by
word, with what becomes of its nodes. -/
theorem parseText_restored {g : Grammar} (hg : g.Built) (hsafe : g.TextSafe) :
    ∃ h, parseText (g.toText true).1 = .ok h ∧ h.Built ∧ h.marked = true ∧ h.words = g.words ∧
      List.Forall₂ Restored (g.words.flatMap (g.toText true).2.ofWord) h.nodes.toList := by
  have hlisted : g.optimize.Listed := (Built.computeTypes (.expandBegins hg)).listed
  obtain ⟨h, hparse, hbuilt, hmarked, hwords, hnodes, -⟩ := @parseText_render true _ hlisted
    (fun w hw => .inl (hsafe.words w hw)) hsafe.writable
  refine ⟨h, hparse, hbuilt, hmarked, hwords, ?_⟩
  refine forall₂_imp hnodes fun n hn m _ hm => ?_
  obtain ⟨w, -, hw⟩ := List.mem_flatMap.1 hn
  obtain ⟨i, n₀, -, hn₀, rfl⟩ := mem_optimize (List.mem_of_mem_filter hw)
  obtain ⟨-, -, hinitial, -⟩ := optimizedNode_frame g i n₀
  refine restored hm (fun h => ?_) fun links types hk => ?_
  · rw [hinitial] at h
    rw [(optimizedNode_texts g i n₀).2.2 h, hsafe.begins n₀ hn₀ h]
  · cases hk₀ : n₀.kind with
    | ends type value => simp [(kind_optimizedNode g i).1 type value hk₀] at hk
    | continues links₀ types₀ =>
      rw [(kind_optimizedNode g i).2 links₀ types₀ hk₀] at hk
      cases hk
      exact ⟨_, rfl⟩

/-- The full text of a text-safe grammar reads as a grammar with the same words. Its nodes are
those of the grammar as the text leaves it, word by word and for each word in the order of their
creation. -/
theorem parseText_toText {g : Grammar} (hg : g.Built) (hsafe : g.TextSafe) :
    ∃ h, parseText (g.toText true).1 = .ok h ∧ h.words = g.words ∧
      (g.words.flatMap (g.toText true).2.ofWord).Perm (g.toText true).2.nodes.toList ∧
      List.Forall₂ Restored (g.words.flatMap (g.toText true).2.ofWord) h.nodes.toList := by
  have hlisted : g.optimize.Listed := (Built.computeTypes (.expandBegins hg)).listed
  obtain ⟨h, hparse, -, -, hwords, hnodes⟩ := parseText_restored hg hsafe
  exact ⟨h, hparse, hwords, hlisted.perm, hnodes⟩

theorem parseText_toText_one :
    let g := Grammar.ofNodes [
      { word := "b", id := "1", initial := true, kind := .ends "T" none },
      { word := "a", id := "2", initial := true, action := some "say \\'hi\\'",
        kind := .continues [{ word := "b", id := "1" }] none, coords := ⟨3, -4⟩ }] []
    g.TextSafe ∧ ∃ h, parseText (g.toText true).1 = .ok h ∧ h.words = g.words ∧
      (g.words.flatMap (g.toText true).2.ofWord).Perm (g.toText true).2.nodes.toList ∧
      List.Forall₂ Restored (g.words.flatMap (g.toText true).2.ofWord) h.nodes.toList := by
  intro g
  have hg : g.Built := built_ofNodes (by simp [Node.Fresh, Node.links]) _
  have hsafe : g.TextSafe := by
    refine ⟨fun w hw => ?_, by decide +kernel, ?_, ?_, by decide +kernel⟩
    · have hkeys : ∀ v ∈ g.lexicon.map (·.1), IsWord v := by decide +kernel
      exact hkeys w (mem_words.1 hw)
    · simp [g, ofNodes, addNode, Node.type?, IsListable, show IsWord "T" by decide,
        show startsWithDigit "T" = false by decide]
    · simp [g, ofNodes, addNode, Node.value?, IsQuotable, quotable]
  exact ⟨hsafe, parseText_toText hg hsafe⟩

end StateDiagram.Grammar
