import StateDiagram.Proofs.Grammar.RoundTrip

/-! Texts that are read, written and read again. Whatever is read is put together from tokens, so
most of it can be written back. A value between double quotes may hold a single quote, and a phrase
type that a node ends may be quoted or start with a digit; these are not read again where the
writer puts single quotes or a list of types. -/
namespace StateDiagram.Grammar

open Text Wire

/-- What is known of a node that has been read. -/
structure Read (n : Node) : Prop where
  id : IsWord n.id
  type : ∀ type, n.type? = some type → IsName type
  links : ∀ l ∈ n.links, (IsWord l.word ∧ IsWord l.id) ∧ l.target = none
  value : n.value? ≠ some ""
  action : n.action ≠ some ""
  begins : n.initial = false → n.begins = none

theorem Wire.Quote.value_ne (q : Quote) : q.value ≠ some "" := by
  rw [Quote.value]
  split
  · simp
  · rename_i hne
    simpa using hne

theorem Wire.Name.isName {n : Name} (h : n.token.Proper) : IsName n.text := by
  cases n with
  | word w => exact .inl h
  | quoted w => exact .inr h

/-- The tokens of an instance are such as are found in a text, so it can nearly be written back. -/
theorem Wire.Instance.read {i : Instance} (h : ∀ t ∈ i.tokens, t.Proper) (word : String) :
    Read (i.node word) := by
  obtain ⟨id, b, kind, rest⟩ := i
  have hkind : ∀ t ∈ kind.tokens, t.Proper := fun t ht => h t (by simp [Instance.tokens, ht])
  have hbegins : b.value.1 = false → b.value.2 = none := fun hb => by
    rw [← b.set, hb]
    rfl
  have haction : rest.action ≠ some "" := by
    cases rest with
    | closed => simp [AfterKind.action]
    | fourth f rest =>
      cases rest with
      | closed => simp [AfterKind.action, AfterFourth.actionText]
      | action a place =>
        cases a with
        | nothing k => simp [AfterKind.action, AfterFourth.actionText]
        | quoted q => exact q.value_ne
  have hvalue : rest.value ≠ some "" := by
    cases rest with
    | closed => simp [AfterKind.value]
    | fourth f rest =>
      cases f with
      | value q => exact q.value_ne
      | _ => simp [AfterKind.value]
  have hid : IsWord id := h (.word id) (by simp [Instance.tokens])
  cases kind with
  | ends type =>
    refine ⟨hid, fun t ht => ?_, fun l hl => absurd hl List.not_mem_nil, hvalue, haction, hbegins⟩
    obtain rfl := Option.some.inj ht
    exact Wire.Name.isName (hkind _ (List.mem_singleton_self _))
  | continues ls =>
    have hnone : (Instance.node word ⟨id, b, .continues ls, rest⟩).value? = none := rfl
    refine ⟨hid, fun t ht => absurd ht.symm (Option.some_ne_none t), fun l' hl' => ?_,
      by simp [hnone], haction, hbegins⟩
    obtain ⟨l, hl, rfl⟩ := List.mem_map.1 hl'
    have hmem : ∀ t ∈ l.tokens, t ∈ (Kind.continues ls).tokens := fun t ht => by
      simp only [Kind.tokens, blockTokens, List.mem_cons, List.mem_append, List.mem_flatMap]
      exact .inr (.inl ⟨l, hl, .inr ht⟩)
    exact ⟨⟨hkind _ (hmem (.word l.word) (by simp [Successor.tokens])),
      hkind _ (hmem (.word l.id) (by simp [Successor.tokens]))⟩, rfl⟩

theorem of_readEntries {s : Tokens} {es : List Entry} (hs : s.Proper)
    (h : readEntries s = .ok es) : ∀ e ∈ es, IsName e.word ∧ ∀ n ∈ e.nodes, Read n := by
  obtain ⟨fs, line, hb, rfl⟩ := (readEntries_iff hs).1 h
  obtain ⟨hproper, -⟩ := hb.proper hs
  intro e he
  obtain ⟨f, hf, rfl⟩ := List.mem_map.1 he
  have hentry : ∀ t ∈ f.tokens, t.Proper := fun t ht =>
    hproper t (List.mem_flatMap.2 ⟨f, hf, List.mem_cons_of_mem _ ht⟩)
  refine ⟨Wire.Name.isName (hentry _ (List.mem_cons_self ..)), fun n hn => ?_⟩
  obtain ⟨i, hi, rfl⟩ := List.mem_map.1 hn
  refine i.read (fun t ht => hentry t ?_) _
  simp only [Wire.Entry.tokens, blockTokens, List.mem_cons, List.mem_append, List.mem_flatMap]
  exact .inr (.inr (.inl (.inl ⟨i, hi, .inr ht⟩)))

/-- Words and nodes of a grammar that has been read. -/
theorem of_read {text : String} {g : Grammar} (h : read text = .ok g) :
    g.Built ∧ (∀ w ∈ g.words, IsName w) ∧ ∀ n ∈ g.nodes.toList, Read n := by
  obtain ⟨es, hes, h⟩ := bind_eq_ok h
  obtain rfl : ofEntries es = g := Except.ok.inj h
  have hall := of_readEntries (Tokens.proper_scan _) hes
  refine ⟨built_ofEntries fun e he n hn l hl => ((hall e he).2 n hn).links l hl |>.2,
    fun w hw => ?_, fun n hn => ?_⟩
  · obtain ⟨e, he, rfl⟩ := List.mem_map.1 (mem_words_ofEntries.1 hw)
    exact (hall e he).1
  · rw [nodes_ofEntries, List.mem_flatMap] at hn
    obtain ⟨e, he, hn⟩ := hn
    obtain ⟨m, hm, rfl⟩ := List.mem_map.1 hn
    have hread := (hall e he).2 m hm
    exact ⟨hread.id, hread.type, hread.links, hread.value, hread.action, hread.begins⟩

/-- The node `m` stands for the node `n`: it has the same id and the same kind, with the same
phrase type and value or the same links, the same action, and the same place. -/
structure Kept (n m : Node) : Prop where
  id : m.id = n.id
  type : m.type? = n.type?
  value : m.value? = n.value?
  links : m.links.map rereadLink = n.links.map rereadLink
  action : m.action = n.action
  coords : m.coords = n.coords

/-- What the values and actions of a node need to be written between single quotes. -/
def Quotable (n : Node) : Prop :=
  ∀ s, n.value? = some s ∨ n.action = some s → quotable '\'' s.toList = true

theorem kept_setTypes (n : Node) (types : Option (List String)) : Kept n (n.setTypes types) := by
  obtain ⟨word, id, kind⟩ := n
  cases kind <;> exact ⟨rfl, rfl, rfl, rfl, rfl, rfl⟩

theorem kept_optimizedNode (g : Grammar) (i : Nat) (n : Node) : Kept n (optimizedNode g i n) := by
  obtain ⟨-, hid, -, htype, hvalue, hlinks⟩ := optimizedNode_frame g i n
  obtain ⟨haction, hcoords, -⟩ := optimizedNode_texts g i n
  refine ⟨hid, htype, hvalue, ?_, haction, hcoords⟩
  rw [hlinks, List.map_map]
  rfl

theorem Kept.of_reread {full : Bool} {n n' m : Node} (h : Kept n n') (hw : n'.word = n.word)
    (hm : Alike (rereadNode full n'.word n') m) : Kept n m := by
  have hkind : m.forget.kind = (rereadNode full n'.word n').forget.kind := hm.kind
  have hnode : ∀ a b : Node, a.forget.kind = b.forget.kind → a.type? = b.type? ∧
      a.value? = b.value? ∧ a.links.map rereadLink = b.links.map rereadLink := by
    intro a b hab
    obtain ⟨aw, ai, ak⟩ := a
    obtain ⟨bw, bi, bk⟩ := b
    have hlink : rereadLink = fun l => { l with target := none } := rfl
    cases ak <;> cases bk <;>
      simp_all [Node.forget, Node.mapLinks, Node.type?, Node.value?, Node.links]
  obtain ⟨htype, hvalue, hlinks⟩ := hnode _ _ hkind
  have hreread : (rereadNode full n'.word n').type? = n'.type? ∧
      (rereadNode full n'.word n').value? = n'.value? ∧
      (rereadNode full n'.word n').links.map rereadLink = n'.links.map rereadLink := by
    obtain ⟨word, id, kind⟩ := n'
    cases kind with
    | ends type value => exact ⟨rfl, rfl, rfl⟩
    | continues links types =>
      simp [rereadNode, rereadKind, Node.setInitial, Node.type?, Node.value?, Node.links,
        rereadLink, Function.comp_def]
  exact ⟨hm.id.trans h.id, htype.trans (hreread.1.trans h.type),
    hvalue.trans (hreread.2.1.trans h.value), hlinks.trans (hreread.2.2.trans h.links),
    hm.action.trans h.action, hm.coords.trans h.coords⟩

/-- What is computed for a text changes neither the words of the nodes nor what is kept of them. -/
theorem prepareText_kept (full : Bool) (g : Grammar) :
    List.Forall₂ (fun n n' => n'.word = n.word ∧ Kept n n') g.nodes.toList
      (g.prepareText full).nodes.toList := by
  cases full with
  | false =>
    have hnodes : (g.prepareText false).nodes.toList = g.nodes.toList.map fun n =>
        n.setTypes (some (Text.sortedSet ((n.links.map (·.word)).filter g.phraseTypes.contains))) := by
      simp [prepareText, computeTypes, mapNodes]
    rw [hnodes]
    refine List.forall₂_map_right_iff.2 (List.forall₂_same.2 fun n _ => ?_)
    exact ⟨(setTypes_keeps _ n).1, kept_setTypes n _⟩
  | true =>
    have hnodes : (g.prepareText true).nodes.toList = g.nodes.toList.mapIdx (optimizedNode g) := by
      refine List.ext_getElem? fun i => ?_
      rw [Array.getElem?_toList, List.getElem?_mapIdx, Array.getElem?_toList]
      exact optimize_nodes g i
    rw [hnodes]
    exact forall₂_mapIdx fun i n _ => ⟨(optimizedNode_frame g i n).1, kept_optimizedNode g i n⟩

theorem Read.writable {full : Bool} {n n' : Node} (h : Read n) (hquote : Quotable n)
    (hkept : Kept n n')
    (hbegins : full = true → ∀ types, n'.begins = some types → ∀ type ∈ types, IsListable type)
    (htypes : full = true → ∀ types, n'.types? = some types → ∀ type ∈ types, IsListable type) :
    Writable full n' := by
  have hquotable : ∀ {v : Option String}, v ≠ some "" →
      (∀ s, v = some s → n.value? = some s ∨ n.action = some s) → IsQuotable v := by
    intro v hne hv s hs
    exact ⟨fun hempty => hne (hempty ▸ hs), hquote s (hv s hs)⟩
  refine ⟨hkept.id ▸ h.id, hkept.type ▸ h.type, hkept.value ▸ hquotable h.value fun s hs => .inl hs,
    fun l' hl' => ?_, hkept.action ▸ hquotable h.action fun s hs => .inr hs, hbegins, htypes⟩
  have hmem : rereadLink l' ∈ n.links.map rereadLink := by
    rw [← hkept.links]
    exact List.mem_map_of_mem hl'
  obtain ⟨l, hl, heq⟩ := List.mem_map.1 hmem
  have hword : l.word = l'.word := (Link.mk.inj heq).1
  have hid : l.id = l'.id := (Link.mk.inj heq).2.1
  exact ⟨hword ▸ (h.links l hl).1.1, hid ▸ (h.links l hl).1.2⟩

/-- What a text is read as can be written and read again, with the same words and for each word
the same nodes in the same order, if no value or action that was read from double quotes is spoilt
by single quotes; for the full text, moreover, the phrase types that are ended must be words that
do not start with a digit. -/
theorem parseText_toText_read {text : String} {g : Grammar} (hread : read text = .ok g)
    (hquote : ∀ n ∈ g.nodes.toList, Quotable n) (full : Bool)
    (htypes : full = true → ∀ type ∈ g.phraseTypes, IsListable type) :
    ∃ h, parseText (g.toText full).1 = .ok h ∧ h.words = g.words ∧
      ∀ w, List.Forall₂ Kept (g.ofWord w) (h.ofWord w) := by
  obtain ⟨hbuilt, hwords, hnodes⟩ := of_read hread
  have hkept := prepareText_kept full g
  have hlisted : (g.prepareText full).Listed := by
    cases full with
    | false => exact (Built.computeTypes hbuilt).listed
    | true => exact (Built.computeTypes (.expandBegins hbuilt)).listed
  have hwritable : ∀ n' ∈ (g.prepareText full).nodes.toList, Writable full n' := by
    intro n' hn'
    cases full with
    | false =>
      have hmap : ∃ n ∈ g.nodes.toList, n.setTypes (some (Text.sortedSet
          ((n.links.map (·.word)).filter g.phraseTypes.contains))) = n' := by
        simpa [prepareText, computeTypes, mapNodes] using hn'
      obtain ⟨n, hn, rfl⟩ := hmap
      exact (hnodes n hn).writable (hquote n hn) (kept_setTypes n _) (by simp)
        (by simp)
    | true =>
      obtain ⟨i, n, hi, hn, rfl⟩ := mem_optimize hn'
      obtain ⟨hbeginsTypes, hsuccessors⟩ := types_optimizedNode (g := g) i n
      refine (hnodes n hn).writable (hquote n hn) (kept_optimizedNode g i n)
        (fun _ types h type hmem => ?_) fun _ types h type hmem =>
          htypes rfl type (hsuccessors types h type hmem)
      cases hinitial : n.initial with
      | true => exact htypes rfl type (hbeginsTypes hinitial types h type hmem)
      | false =>
        rw [(optimizedNode_texts g i n).2.2 hinitial, (hnodes n hn).begins hinitial] at h
        cases h
  have hwordsEq : (g.prepareText full).words = g.words := by cases full <;> rfl
  obtain ⟨h, hparse, -, -, hwords', -, hall⟩ :=
    parseText_render hlisted (fun w hw => hwords w (hwordsEq ▸ hw)) hwritable
  refine ⟨h, hparse, hwords'.trans hwordsEq, fun w => ?_⟩
  have hfilter := forall₂_filter (p := fun n => n.word = w) (q := fun n => n.word = w)
    (fun n n' hnn' => by rw [hnn'.1]) hkept
  exact forall₂_comp (fun n n' m hn hm => hn.2.of_reread hn.1 hm) hfilter (hall w)

theorem parseText_toText_read_one :
    let text := "(a ((1 T ((b 1)) T 'go')))\n(\"b\" ((1 (X) X \"v\" nil 4 -2)))"
    ∃ g, read text = .ok g ∧ (∀ n ∈ g.nodes.toList, Quotable n) ∧
      (∀ type ∈ g.phraseTypes, IsListable type) ∧
      ∃ h, parseText (g.toText true).1 = .ok h ∧ h.words = g.words ∧
        ∀ w, List.Forall₂ Kept (g.ofWord w) (h.ofWord w) := by
  intro text
  let g := Grammar.ofNodes [
    { word := "a", id := "1", initial := true, action := some "go",
      kind := .continues [{ word := "b", id := "1" }] none },
    { word := "\"b\"", id := "1", initial := true, begins := some ["X"],
      kind := .ends "X" (some "v"), coords := ⟨4, -2⟩ }] []
  have hread : read text = .ok g := by decide +kernel
  have hquote : ∀ n ∈ g.nodes.toList, Quotable n := by
    simp [g, ofNodes, addNode, Quotable, Node.value?, quotable]
  have htypes : ∀ type ∈ g.phraseTypes, IsListable type := by
    simp [g, ofNodes, addNode, phraseTypes, Node.type?, IsListable, show IsWord "X" by decide,
      show startsWithDigit "X" = false by decide]
  exact ⟨g, hread, hquote, htypes, parseText_toText_read hread hquote true fun _ => htypes⟩

/-- A value in double quotes may hold a single quote; between single quotes it cannot be read
again. -/
theorem parseText_toText_spoilt :
    ∃ g, read "(a ((1 T X \"it's\")))" = .ok g ∧ ∀ h, parseText (g.toText false).1 ≠ .ok h := by
  have hrun : (match read "(a ((1 T X \"it's\")))" with
      | .ok g => (parseText (g.toText false).1).toBool
      | .error _ => true) = false := by decide +kernel
  cases hread : read "(a ((1 T X \"it's\")))" with
  | error e =>
    rw [hread] at hrun
    cases hrun
  | ok g =>
    rw [hread] at hrun
    refine ⟨g, rfl, fun h hparse => ?_⟩
    have hfalse : (parseText (g.toText false).1).toBool = false := hrun
    rw [hparse] at hfalse
    cases hfalse

end StateDiagram.Grammar
