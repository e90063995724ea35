import StateDiagram.Proofs.Grammar.Recognized
import StateDiagram.Proofs.Grammar.Written

/-! What the reader makes of the text of a grammar: the entries that were written, in their order,
but for what the text does not tell. -/
namespace StateDiagram.Grammar

open Wire

/-! ### What becomes of a node that is written and read -/

def rereadBegins (full : Bool) (n : Node) : Bool × Option (List String) :=
  if n.initial then
    match n.begins with
    | some types =>
      if full then if types.isEmpty then (false, none) else (true, some types) else (true, none)
    | none => (true, none)
  else (false, none)

def rereadTypes (full : Bool) (types : List String) : Option (List String) :=
  if full then some types
  else if types.isEmpty then some []
  else none

def rereadLink (l : Link) : Link :=
  { l with target := none }

def rereadKind (full : Bool) : Node.Kind → Node.Kind
  | .ends type value => .ends type value
  | .continues links types =>
    .continues (links.map rereadLink) (rereadTypes full (types.getD []))

/-- A node that is written and then read in an entry of `word`. -/
def rereadNode (full : Bool) (word : String) (n : Node) : Node :=
  ({ word, id := n.id, kind := rereadKind full n.kind, action := n.action,
     coords := n.coords } : Node).setInitial (rereadBegins full n).1 (rereadBegins full n).2

def rereadEntry (full : Bool) (e : Entry) : Entry :=
  ⟨e.word, e.nodes.map (rereadNode full e.word)⟩

/-! ### Forms of what is written -/

theorem exists_types {types : List String} (h : ∀ type ∈ types, IsListable type) :
    ∃ ts : List TypeName, .opening :: typeTokens ts = listTokens types ∧
      ts.map (·.text) = types := by
  induction types with
  | nil => exact ⟨[], rfl, rfl⟩
  | cons type types ih =>
    obtain ⟨ts, -, rfl⟩ := ih fun t ht => h t (List.mem_cons_of_mem type ht)
    refine ⟨⟨type, (h type (List.mem_cons_self ..)).2⟩ :: ts, ?_, rfl⟩
    simp [typeTokens, listTokens]

theorem exists_name (w : String) : ∃ n : Name, n.token = nameToken w ∧ n.text = w := by
  unfold nameToken
  split
  · exact ⟨.word w, rfl, rfl⟩
  · exact ⟨.quoted w, rfl, rfl⟩

theorem exists_value {v : Option String} (hv : IsQuotable v) :
    ∃ q : Quote, .quoted q.text = quotedToken v ∧ q.value = v := by
  refine ⟨⟨"'" ++ v.getD "" ++ "'", '\'', (v.getD "").toList, by simp⟩, rfl, ?_⟩
  cases v with
  | none => rfl
  | some s =>
    have hne : s.toList ≠ [] := fun h => (hv s rfl).1 (String.toList_eq_nil_iff.1 h)
    simp [Quote.value, hne]

def coordinate (n : Int32) : Coordinate :=
  ⟨intText n, n, Text.readInt32?_toString n⟩

def successor (l : Link) : Successor :=
  ⟨l.word, l.id, some (coordinate l.coords.x, coordinate l.coords.y)⟩

theorem exists_begins {full : Bool} {n : Node} (hn : Writable full n) :
    ∃ b : Begins, b.tokens = beginsTokens full n ∧ b.value = rereadBegins full n := by
  have hnever : ∃ b : Begins, b.tokens = [.word "nil"] ∧ b.value = (false, none) :=
    ⟨.never ⟨"nil", "nil", by simp, rfl⟩, rfl, rfl⟩
  have halways : ∃ b : Begins, b.tokens = [.word "T"] ∧ b.value = (true, none) :=
    ⟨.always ⟨"T", "t", by simp, rfl⟩, rfl, rfl⟩
  unfold beginsTokens rereadBegins
  cases n.initial with
  | false => exact hnever
  | true =>
    cases hb : n.begins with
    | none => exact halways
    | some types =>
      cases full with
      | false => exact halways
      | true =>
        obtain ⟨ts, htokens, rfl⟩ := exists_types (hn.begins rfl types hb)
        refine ⟨.types ts, htokens, ?_⟩
        cases ts <;> rfl

theorem exists_fourth {full : Bool} {types : List String}
    (h : full = true → ∀ type ∈ types, IsListable type) :
    ∃ f : Fourth, f.tokens = typesTokens full types ∧
      ∀ rest, (AfterKind.fourth f rest).types = rereadTypes full types := by
  unfold typesTokens rereadTypes
  cases full with
  | true =>
    obtain ⟨ts, htokens, rfl⟩ := exists_types (h rfl)
    exact ⟨.types ts, htokens, fun _ => rfl⟩
  | false =>
    cases types with
    | nil => exact ⟨.nothing ⟨"nil", "nil", by simp, rfl⟩, rfl, fun _ => rfl⟩
    | cons type types => exact ⟨.unknown ⟨"T", "t", by simp, rfl⟩, rfl, fun _ => rfl⟩

theorem exists_instance {full : Bool} (word : String) {n : Node} (hn : Writable full n) :
    ∃ i : Instance, .opening :: i.tokens = nodeTokens full n ∧
      i.node word = rereadNode full word n := by
  obtain ⟨b, hb, hbvalue⟩ := exists_begins hn
  obtain ⟨q, hq, hqvalue⟩ := exists_value hn.action
  let rest : AfterFourth :=
    .action (.quoted q) (some (coordinate n.coords.x, coordinate n.coords.y))
  have hrest : rest.tokens = quotedToken n.action :: coordsTokens n.coords := by
    rw [← hq]
    rfl
  have hvalue := hn.value
  have htypes := hn.types
  cases hk : n.kind with
  | ends type value =>
    simp only [Node.value?, hk] at hvalue
    obtain ⟨v, hv, hvvalue⟩ := exists_value hvalue
    obtain ⟨name, hname, hnametext⟩ := exists_name type
    refine ⟨⟨n.id, b, .ends name, .fourth (.value v) rest⟩, ?_, ?_⟩
    · simp [Instance.tokens, nodeTokens, kindTokens, Kind.tokens, AfterKind.tokens, Fourth.tokens,
        hb, hname, hv, hrest, hk]
    · simp only [Instance.node, Instance.kindRead, AfterKind.value, hnametext, hvvalue, rereadNode,
        hk, rereadKind, Node.setInitial, ← hbvalue, b.set, ← hqvalue]
      rfl
  | continues links types =>
    have hlist : full = true → ∀ type ∈ types.getD [], IsListable type := by
      intro hfull
      cases types with
      | none => simp
      | some types => exact htypes hfull types (by simp [Node.types?, hk])
    obtain ⟨f, hf, hftypes⟩ := exists_fourth hlist
    have hlinks : blockTokens Successor.tokens (links.map successor) =
        links.flatMap linkTokens ++ [.closing] := by
      rw [blockTokens, List.flatMap_map]
      rfl
    refine ⟨⟨n.id, b, .continues (links.map successor), .fourth f rest⟩, ?_, ?_⟩
    · simp [Instance.tokens, nodeTokens, kindTokens, Kind.tokens, AfterKind.tokens, hb, hf, hrest,
        hk, hlinks]
    · simp only [Instance.node, Instance.kindRead, hftypes, List.map_map, rereadNode, hk, rereadKind,
        Node.setInitial, ← hbvalue, b.set, ← hqvalue]
      rfl

theorem exists_entry {full : Bool} {e : Entry} (he : ∀ n ∈ e.nodes, Writable full n) :
    ∃ f : Wire.Entry, .opening :: f.tokens = entryTokens full e ∧ f.read = rereadEntry full e := by
  obtain ⟨name, hname, hnametext⟩ := exists_name e.word
  have hnodes : ∀ ns : List Node, (∀ n ∈ ns, Writable full n) → ∃ is : List Instance,
      blockTokens Instance.tokens is = ns.flatMap (nodeTokens full) ++ [.closing] ∧
        is.map (Instance.node e.word) = ns.map (rereadNode full e.word) := by
    intro ns hns
    induction ns with
    | nil => exact ⟨[], rfl, rfl⟩
    | cons n ns ih =>
      obtain ⟨is, htokens, hvalues⟩ := ih fun m hm => hns m (List.mem_cons_of_mem n hm)
      obtain ⟨i, hi, hivalue⟩ := exists_instance e.word (hns n (List.mem_cons_self ..))
      refine ⟨i :: is, ?_, congrArg₂ List.cons hivalue hvalues⟩
      rw [blockTokens_cons, htokens, ← List.cons_append, hi, List.flatMap_cons, List.append_assoc]
  obtain ⟨is, htokens, hvalues⟩ := hnodes e.nodes he
  refine ⟨⟨name, is⟩, ?_, ?_⟩
  · simp [Wire.Entry.tokens, entryTokens, hname, htokens]
  · simp [Wire.Entry.read, Wire.Entry.nodes, rereadEntry, hnametext, hvalues]

theorem exists_entries {full : Bool} {es : List Entry}
    (hes : ∀ e ∈ es, ∀ n ∈ e.nodes, Writable full n) : ∃ fs : List Wire.Entry,
      Wire.tokens fs = es.flatMap (entryTokens full) ∧
        fs.map Wire.Entry.read = es.map (rereadEntry full) := by
  induction es with
  | nil => exact ⟨[], rfl, rfl⟩
  | cons e es ih =>
    obtain ⟨fs, htokens, hvalues⟩ := ih fun f hf => hes f (List.mem_cons_of_mem e hf)
    obtain ⟨f, hf, hfvalue⟩ := exists_entry (hes e (List.mem_cons_self ..))
    refine ⟨f :: fs, ?_, congrArg₂ List.cons hfvalue hvalues⟩
    rw [Wire.tokens, List.flatMap_cons, hf, List.flatMap_cons, ← htokens]
    rfl

/-- The text of a grammar is read as its entries. -/
theorem read_render {full : Bool} {g : Grammar}
    (hg : ∀ e ∈ g.entries, IsName e.word ∧ ∀ n ∈ e.nodes, Writable full n) :
    read (g.render full) = .ok (ofEntries (g.entries.map (rereadEntry full))) := by
  obtain ⟨last, hlast⟩ := (spelled_render hg).scan 1
  obtain ⟨fs, htokens, hvalues⟩ := exists_entries fun e he => (hg e he).2
  have hread := (readEntries_iff (Tokens.proper_scan _)).2 ⟨fs, last, htokens ▸ hlast, rfl⟩
  rw [read, Tokens.ofText, Scanner.ofText, hread, hvalues]
  rfl

end StateDiagram.Grammar
