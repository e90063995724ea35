import StateDiagram.Grammar.Persist
import StateDiagram.Proofs.Grammar.RoundTrip
import StateDiagram.Proofs.Json.RoundTrip

/-! Grammars that are stored as JSON and read back. What is stored of a node is read as the node
without its flag and without what its links remember. -/
namespace StateDiagram

namespace Json

theorem valuesOf_of_mem {fields : List (String × Json)} (h : (fields.map Prod.fst).Nodup)
    {name : String} {j : Json} (hmem : (name, j) ∈ fields) :
    valuesOf name (fields.map fun f => (some f.1, f.2)) = [j] := by
  induction fields with
  | nil => cases hmem
  | cons f fields ih =>
    obtain ⟨key, i⟩ := f
    obtain ⟨hkey, hfields⟩ := List.nodup_cons.1 h
    cases List.mem_cons.1 hmem with
    | inl heq =>
      obtain ⟨rfl, rfl⟩ := Prod.mk.inj heq
      have hnone : valuesOf name (fields.map fun f => (some f.1, f.2)) = [] := by
        refine List.filterMap_eq_nil_iff.2 fun f hf => ?_
        obtain ⟨g, hg, rfl⟩ := List.mem_map.1 hf
        have hne : g.1 ≠ name := fun heq => hkey (List.mem_map.2 ⟨g, hg, heq⟩)
        simp [hne]
      simpa [valuesOf] using hnone
    | inr hmem =>
      have hne : key ≠ name := fun heq =>
        hkey (List.mem_map.2 ⟨_, hmem, heq.symm⟩)
      simpa [valuesOf, hne] using ih hfields hmem

/-- The fields of a record are found under their names. -/
theorem record?_ofFields {names : List String} {fields : List (String × Json)}
    (hnames : fields.map Prod.fst = names) (h : names.Nodup) :
    (ofFields fields).record? names = some (fields.map fun f => some f.2) := by
  subst hnames
  have hpick : ∀ fs : List (String × Json), fs ⊆ fields →
      pick? (fields.map fun f => (some f.1, f.2)) (fs.map Prod.fst) =
        some (fs.map fun f => some f.2) := by
    intro fs hfs
    induction fs with
    | nil => rfl
    | cons f fs ih =>
      obtain ⟨name, j⟩ := f
      obtain ⟨hf, hfs⟩ := List.cons_subset.1 hfs
      simp [pick?, valuesOf_of_mem h hf, ih hfs]
  rw [ofFields, record?, if_pos (by simp)]
  exact hpick fields (List.Subset.refl _)

theorem list?_ofList {α β : Type} {f : α → Json} {g : Json → Option β} {φ : α → β}
    (h : ∀ a, g (f a) = some (φ a)) (xs : List α) : (ofList f xs).list? g = some (xs.map φ) := by
  rw [ofList, list?]
  induction xs with
  | nil => rfl
  | cons x xs ih => simp [h, ih]

theorem option?_ofOption {α β : Type} {f : α → Json} {g : Json → Option β} {φ : α → β}
    (h : ∀ a, g (f a) = some (φ a)) (hnull : ∀ a, f a ≠ .null) (o : Option α) :
    (ofOption f o).option? g = some (o.map φ) := by
  cases o with
  | none => rfl
  | some a =>
    have hoption : (f a).option? g = (g (f a)).map some := by
      unfold option?
      cases hf : f a with
      | null => exact absurd hf (hnull a)
      | _ => rfl
    rw [ofOption, hoption, h]
    rfl

theorem mem_of_list? {α : Type} {f : Json → Option α} {j : Json} {xs : List α}
    (h : j.list? f = some xs) : ∀ x ∈ xs, ∃ i, f i = some x := by
  cases j with
  | array items =>
    rw [list?] at h
    induction items generalizing xs with
    | nil =>
      obtain rfl : [] = xs := Option.some.inj h
      simp
    | cons i items ih =>
      simp only [List.mapM_cons, Option.bind_eq_bind, Option.bind_eq_some_iff] at h
      obtain ⟨y, hy, ys, hys, h⟩ := h
      obtain rfl : y :: ys = xs := Option.some.inj h
      exact List.forall_mem_cons.2 ⟨⟨i, hy⟩, ih hys⟩
  | _ => cases h

end Json

open Json

theorem Coords.exact_toJson (c : Coords) : Exact c.toJson := by
  refine exact_ofFields fun f hf => ?_
  simp only [List.mem_cons, List.not_mem_nil, or_false] at hf
  obtain rfl | rfl := hf
  · exact exact_ofInt32 c.x
  · exact exact_ofInt32 c.y

theorem Coords.ofJson?_toJson (c : Coords) : ofJson? c.toJson = some c := by
  rw [ofJson?, toJson, record?_ofFields]
  · simp [ofInt, int32?, Text.int32?_toInt]
  · rfl
  · decide

theorem Link.exact_toJson (l : Link) : Exact l.toJson := by
  refine exact_ofFields fun f hf => ?_
  simp only [List.mem_cons, List.not_mem_nil, or_false] at hf
  obtain rfl | rfl | rfl := hf
  · exact .string l.word
  · exact .string l.id
  · exact l.coords.exact_toJson

theorem Link.ofJson?_toJson (l : Link) : ofJson? l.toJson = some { l with target := none } := by
  rw [ofJson?, toJson, record?_ofFields]
  · simp [ofString, string?, orDefault, Coords.ofJson?_toJson]
  · rfl
  · decide

theorem Link.target_of_ofJson? {j : Json} {l : Link} (h : ofJson? j = some l) :
    l.target = none := by
  simp only [ofJson?, Option.bind_eq_bind, Option.bind_eq_some_iff] at h
  obtain ⟨fields, -, h⟩ := h
  split at h
  · simp only [Option.bind_eq_some_iff, Option.pure_def, Option.some.injEq] at h
    obtain ⟨-, -, -, -, -, -, rfl⟩ := h
    rfl
  · cases h

namespace Node

theorem exact_typesToJson (types : Option (List String)) : Exact (typesToJson types) :=
  exact_ofOption (fun _ => exact_ofList fun t _ => .string t) types

theorem Kind.exact_toJson (k : Kind) : Exact k.toJson := by
  cases k with
  | ends type value =>
    refine exact_ofFields fun f hf => ?_
    obtain rfl := List.mem_singleton.1 hf
    refine exact_ofFields fun f hf => ?_
    simp only [List.mem_cons, List.not_mem_nil, or_false] at hf
    obtain rfl | rfl := hf
    · exact .string type
    · exact exact_ofOption .string value
  | continues links types =>
    refine exact_ofFields fun f hf => ?_
    obtain rfl := List.mem_singleton.1 hf
    refine exact_ofFields fun f hf => ?_
    simp only [List.mem_cons, List.not_mem_nil, or_false] at hf
    obtain rfl | rfl := hf
    · exact exact_ofList fun l _ => l.exact_toJson
    · exact exact_typesToJson types

theorem exact_toJson (n : Node) : Exact n.toJson := by
  refine exact_ofFields fun f hf => ?_
  simp only [List.mem_cons, List.not_mem_nil, or_false] at hf
  obtain rfl | rfl | rfl | rfl | rfl | rfl | rfl := hf
  · exact .string n.word
  · exact .string n.id
  · exact .bool n.initial
  · exact exact_typesToJson n.begins
  · exact n.kind.exact_toJson
  · exact exact_ofOption .string n.action
  · exact n.coords.exact_toJson

theorem typesOfJson?_typesToJson (types : Option (List String)) :
    typesOfJson? (typesToJson types) = some types := by
  have hlist : ∀ ts : List String, list? string? (ofList ofString ts) = some ts := fun ts => by
    simpa using list?_ofList (f := ofString) (g := string?) (φ := fun s => s) (fun _ => rfl) ts
  rw [typesOfJson?, typesToJson]
  simpa using option?_ofOption (φ := fun ts => ts) hlist (fun _ h => (nomatch h)) types

theorem option?_ofString (v : Option String) : (ofOption ofString v).option? string? = some v := by
  simpa using option?_ofOption (f := ofString) (g := string?) (φ := fun s => s) (fun _ => rfl)
    (fun _ h => (nomatch h)) v

theorem Kind.ofJson?_toJson (n : Node) : Kind.ofJson? n.kind.toJson = some n.forget.kind := by
  obtain ⟨word, id, kind⟩ := n
  cases kind with
  | ends type value =>
    change Kind.endsOfJson? (ofFields [("phrase_type", ofString type),
      ("value", ofOption ofString value)]) = _
    rw [endsOfJson?, record?_ofFields]
    · simp [ofString, string?, orDefault, option?_ofString, forget, mapLinks]
    · rfl
    · decide
  | continues links types =>
    change Kind.continuesOfJson? (ofFields [("successors", ofList Link.toJson links),
      ("successor_types", typesToJson types)]) = _
    rw [continuesOfJson?, record?_ofFields]
    · simp [orDefault, list?_ofList Link.ofJson?_toJson, typesOfJson?_typesToJson, forget, mapLinks]
    · rfl
    · decide

/-- What is stored of a node. -/
def stored (n : Node) : Node :=
  { n with kind := n.forget.kind, incoming := false }

theorem fresh_stored (n : Node) : n.stored.Fresh := by
  obtain ⟨word, id, kind⟩ := n
  cases kind with
  | ends type value => exact fun l hl => nomatch hl
  | continues links types =>
    intro l hl
    obtain ⟨l₀, -, rfl⟩ := List.mem_map.1 hl
    rfl

theorem forget_stored (n : Node) : n.stored.forget.kind = n.forget.kind := by
  obtain ⟨word, id, kind⟩ := n
  cases kind with
  | ends type value => rfl
  | continues links types => simp [stored, forget, mapLinks]

theorem ofJson?_toJson (n : Node) : ofJson? n.toJson = some n.stored := by
  rw [ofJson?, toJson, record?_ofFields]
  · simp [stored, ofString, string?, bool?, orDefault, option?_ofString, typesOfJson?_typesToJson,
      Kind.ofJson?_toJson, Coords.ofJson?_toJson]
  · rfl
  · decide

theorem Kind.fresh_of_ofJson? {j : Json} {links : List Link} {types : Option (List String)}
    (h : ofJson? j = some (.continues links types)) : ∀ l ∈ links, l.target = none := by
  unfold ofJson? at h
  split at h
  · simp only [endsOfJson?, Option.bind_eq_bind, Option.bind_eq_some_iff] at h
    obtain ⟨fields, -, h⟩ := h
    split at h
    · simp [Option.bind_eq_some_iff] at h
    · cases h
  · simp only [continuesOfJson?, Option.bind_eq_bind, Option.bind_eq_some_iff] at h
    obtain ⟨fields, -, h⟩ := h
    split at h
    · simp only [Option.bind_eq_some_iff, Option.pure_def, Option.some.injEq,
        Kind.continues.injEq] at h
      obtain ⟨ls, hls, -, -, rfl, -⟩ := h
      intro l hl
      obtain ⟨i, hi⟩ := mem_of_list? hls l hl
      exact Link.target_of_ofJson? hi
    · cases h
  · cases h

/-- No document tells what a link remembers. -/
theorem fresh_of_ofJson? {j : Json} {n : Node} (h : ofJson? j = some n) : n.Fresh := by
  simp only [ofJson?, Option.bind_eq_bind, Option.bind_eq_some_iff] at h
  obtain ⟨fields, -, h⟩ := h
  split at h
  · simp only [Option.bind_eq_some_iff, Option.pure_def, Option.some.injEq] at h
    obtain ⟨-, -, -, -, -, -, -, -, kind, hkind, -, -, -, -, rfl⟩ := h
    cases kind with
    | ends type value => exact fun l hl => nomatch hl
    | continues links types => exact Kind.fresh_of_ofJson? hkind
  · cases h

end Node

namespace Grammar

theorem Entry.ofJson?_toJson (e : Entry) : ofJson? e.toJson =
    some ⟨e.word, e.nodes.map Node.stored⟩ := by
  rw [ofJson?, toJson, record?_ofFields]
  · simp [ofString, string?, list?_ofList Node.ofJson?_toJson]
  · rfl
  · decide

theorem Entry.exact_toJson (e : Entry) : Exact e.toJson := by
  refine exact_ofFields fun f hf => ?_
  simp only [List.mem_cons, List.not_mem_nil, or_false] at hf
  obtain rfl | rfl := hf
  · exact .string e.word
  · exact exact_ofList fun n _ => n.exact_toJson

theorem read?_toJsonText (g : Grammar) :
    Json.read? g.toJsonText = some (ofList Entry.toJson g.entries) :=
  read?_pretty (exact_ofList fun e _ => e.exact_toJson)

theorem Entry.fresh_of_ofJson? {j : Json} {e : Entry} (h : ofJson? j = some e) :
    ∀ n ∈ e.nodes, n.Fresh := by
  simp only [ofJson?, Option.bind_eq_bind, Option.bind_eq_some_iff] at h
  obtain ⟨fields, -, h⟩ := h
  split at h
  · simp only [Option.bind_eq_some_iff, Option.pure_def, Option.some.injEq] at h
    obtain ⟨-, -, nodes, hnodes, rfl⟩ := h
    intro n hn
    obtain ⟨i, hi⟩ := mem_of_list? hnodes n hn
    exact Node.fresh_of_ofJson? hi
  · cases h

/-- Whatever document a grammar is read from, it is built from words and nodes. -/
theorem built_of_ofJsonText? {text : String} {g : Grammar} (h : ofJsonText? text = some g) :
    g.Built := by
  simp only [ofJsonText?, Option.bind_eq_bind, Option.bind_eq_some_iff, Option.pure_def,
    Option.some.injEq] at h
  obtain ⟨j, -, es, hes, rfl⟩ := h
  refine built_ofEntries fun e he => ?_
  obtain ⟨i, hi⟩ := mem_of_list? hes e he
  exact Entry.fresh_of_ofJson? hi

/-- An entry as it is read back. -/
def Entry.stored (e : Entry) : Entry :=
  ⟨e.word, e.nodes.map Node.stored⟩

theorem ofJsonText?_eq (g : Grammar) :
    ofJsonText? g.toJsonText = some (ofEntries (g.entries.map Entry.stored)) := by
  simp only [ofJsonText?, read?_toJsonText, list?_ofList Entry.ofJson?_toJson, Option.bind_eq_bind,
    Option.bind_some, Option.pure_def]
  rfl

theorem built_stored (es : List Entry) : Built (ofEntries (es.map Entry.stored)) := by
  refine built_ofEntries fun e he n hn => ?_
  obtain ⟨e₀, -, rfl⟩ := List.mem_map.1 he
  obtain ⟨n₀, -, rfl⟩ := List.mem_map.1 hn
  exact n₀.fresh_stored

/-- What is stored of a grammar is read, once it is marked, as a grammar with the same words. Its
nodes are those of the grammar, word by word and for each word in the order of their creation. -/
theorem mark_stored {g : Grammar} (hg : g.Listed) :
    (ofEntries (g.entries.map Entry.stored)).mark.words = g.words ∧
      List.Forall₂ Alike (g.words.flatMap g.ofWord)
        (ofEntries (g.entries.map Entry.stored)).mark.nodes.toList := by
  obtain ⟨hwords, hnodes⟩ := mark_ofEntries hg fun _ => Node.stored
  refine ⟨hwords, hnodes.imp fun n m hnm => ?_⟩
  exact ⟨hnm.word, hnm.id, hnm.initial, hnm.begins, hnm.kind.trans n.forget_stored, hnm.action,
    hnm.coords⟩

/-- The nodes that are read back, one word after the other. -/
theorem nodes_stored {g : Grammar} (hg : g.Listed) :
    (ofEntries (g.entries.map Entry.stored)).nodes.toList =
      (g.words.flatMap g.ofWord).map Node.stored := by
  rw [nodes_ofEntries, hg.entries_eq, List.map_flatMap, List.flatMap_map, List.flatMap_map]
  refine List.flatMap_congr fun w _ => ?_
  rw [Entry.stored, Entry.named, List.map_map]
  refine List.map_congr_left fun n hn => ?_
  have hw : n.word = w := of_decide_eq_true (List.mem_filter.1 hn).2
  subst hw
  rfl

theorem ofWord_stored {g h : Grammar} (hg : g.Listed)
    (hnodes : h.nodes.toList = (g.words.flatMap g.ofWord).map Node.stored) {w : String}
    (hw : w ∈ g.words) : h.ofWord w = (g.ofWord w).map Node.stored := by
  have hfilter : (g.words.flatMap g.ofWord).filter (fun n => n.word = w) = g.ofWord w :=
    (filter_flatMap_filter Node.word g.nodes.toList hg.nodup_words w).trans (if_pos hw)
  rw [ofWord, hnodes, List.filter_map, ← hfilter]
  rfl

/-- What is not stored of a node does not show in what is stored. -/
theorem toJson_stored (n : Node) : n.stored.toJson = n.toJson := by
  obtain ⟨word, id, kind⟩ := n
  cases kind with
  | ends type value => rfl
  | continues links types =>
    have hlinks : ofList Link.toJson (links.map fun l => { l with target := none }) =
        ofList Link.toJson links := by
      rw [ofList, ofList, List.map_map]
      rfl
    simp only [Node.toJson, Node.stored, Node.forget, Node.mapLinks, Node.Kind.toJson, hlinks]

/-- A grammar that is stored and read back has the same words and is not marked. Its nodes are
those of the grammar, word by word and for each word in the order of their creation, but for their
flags and for what their links remember; and it is stored as the same text. -/
theorem ofJsonText?_toJsonText {g : Grammar} (hg : g.Listed) :
    ∃ h, ofJsonText? g.toJsonText = some h ∧ h.Listed ∧ h.marked = false ∧ h.words = g.words ∧
      (g.words.flatMap g.ofWord).Perm g.nodes.toList ∧
      h.nodes.toList = (g.words.flatMap g.ofWord).map Node.stored ∧
      (∀ n ∈ h.nodes.toList, n.incoming = false ∧ n.Fresh) ∧ h.toJsonText = g.toJsonText := by
  let h : Grammar := ofEntries (g.entries.map Entry.stored)
  have hh : h.Listed := (built_stored g.entries).listed
  have hwords : h.words = g.words :=
    words_ofEntries hg (by simp [hg.entries_eq, Entry.stored, Function.comp_def])
  have hnodes : h.nodes.toList = (g.words.flatMap g.ofWord).map Node.stored := nodes_stored hg
  refine ⟨h, ofJsonText?_eq g, hh, marked_ofEntries _, hwords, hg.perm, hnodes, fun n hn => ?_, ?_⟩
  · rw [hnodes] at hn
    obtain ⟨n₀, -, rfl⟩ := List.mem_map.1 hn
    exact ⟨rfl, n₀.fresh_stored⟩
  · have hentries : h.entries.map Entry.toJson = g.entries.map Entry.toJson := by
      rw [hh.entries_eq, hg.entries_eq, hwords, List.map_map, List.map_map]
      refine List.map_congr_left fun w hw => ?_
      have hlist : ofList Node.toJson ((g.ofWord w).map Node.stored) =
          ofList Node.toJson (g.ofWord w) := by
        simp [ofList, Function.comp_def, toJson_stored]
      simp only [Function.comp_apply, Entry.toJson, ofWord_stored hg hnodes hw, hlist]
    rw [toJsonText, toJsonText, ofList, ofList, hentries]

theorem ofJsonText?_toJsonText_twice :
    let g := (Grammar.ofNodes [
      { word := "b", id := "1", initial := true, begins := some [], kind := .ends "\"T\n" (some "") },
      { word := "a", id := "2", begins := some ["T"], coords := ⟨3, -4⟩,
        kind := .continues [{ word := "b", id := "1", coords := ⟨-1, 0⟩ }, { word := "c", id := "" }]
          (some ["T"]) },
      { word := "b", id := "1", action := some "é\\", kind := .continues [] none }] ["$$"]).mark
    g.Listed ∧ ∃ h, ofJsonText? g.toJsonText = some h ∧ h.Listed ∧ h.marked = false ∧
      h.words = g.words ∧ (g.words.flatMap g.ofWord).Perm g.nodes.toList ∧
      h.nodes.toList = (g.words.flatMap g.ofWord).map Node.stored ∧
      (∀ n ∈ h.nodes.toList, n.incoming = false ∧ n.Fresh) ∧ h.toJsonText = g.toJsonText := by
  intro g
  have hg : g.Built := .mark (built_ofNodes (by simp [Node.Fresh, Node.links]) _)
  exact ⟨hg.listed, ofJsonText?_toJsonText hg.listed⟩

end Grammar

end StateDiagram
