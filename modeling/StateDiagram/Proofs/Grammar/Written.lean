import StateDiagram.Grammar.Reader
import StateDiagram.Grammar.Writer
import StateDiagram.Proofs.Grammar.Spelled
import StateDiagram.Proofs.Text.Numeral

/-! Texts that are written and read back. The text of a grammar is put together from the tokens of
its entries, and the reader takes each of these runs of tokens for what it was written from. -/
namespace StateDiagram.Grammar

open Text

/-- A text that can be written between single quotes and is there when it is read again. -/
def IsQuotable (v : Option String) : Prop :=
  ∀ s, v = some s → s ≠ "" ∧ quotable '\'' s.toList = true

/-- A phrase type that can stand in a list of types. -/
def IsListable (type : String) : Prop :=
  IsWord type ∧ startsWithDigit type = false

/-- What a node needs to be written and read back. Lists of phrase types are written out only in
full texts. -/
structure Writable (full : Bool) (n : Node) : Prop where
  id : IsWord n.id
  type : ∀ type, n.type? = some type → IsName type
  value : IsQuotable n.value?
  links : ∀ l ∈ n.links, IsWord l.word ∧ IsWord l.id
  action : IsQuotable n.action
  begins : full = true → ∀ types, n.begins = some types → ∀ type ∈ types, IsListable type
  types : full = true → ∀ types, n.types? = some types → ∀ type ∈ types, IsListable type

/-! ### Tokens of what is written -/

def nameToken (w : String) : Token :=
  if IsWord w then .word w else .quoted w

def quotedToken (v : Option String) : Token :=
  .quoted ("'" ++ v.getD "" ++ "'")

def listTokens (types : List String) : List Token :=
  .opening :: (types.map .word ++ [.closing])

def coordsTokens (c : Coords) : List Token :=
  [.word (intText c.x), .word (intText c.y), .closing]

def linkTokens (l : Link) : List Token :=
  [.opening, .word l.word, .word l.id] ++ coordsTokens l.coords

def beginsTokens (full : Bool) (n : Node) : List Token :=
  if n.initial then
    match n.begins with
    | some types => if full then listTokens types else [.word "T"]
    | none => [.word "T"]
  else [.word "nil"]

def typesTokens (full : Bool) (types : List String) : List Token :=
  if full then listTokens types
  else if types.isEmpty then [.word "nil"]
  else [.word "T"]

def kindTokens (full : Bool) : Node.Kind → List Token
  | .ends type value => [nameToken type, quotedToken value]
  | .continues links types =>
    .opening :: (links.flatMap linkTokens ++ .closing :: typesTokens full (types.getD []))

def nodeTokens (full : Bool) (n : Node) : List Token :=
  .opening :: .word n.id :: (beginsTokens full n ++ (kindTokens full n.kind ++
    quotedToken n.action :: coordsTokens n.coords))

def entryTokens (full : Bool) (e : Entry) : List Token :=
  .opening :: nameToken e.word :: .opening ::
    (e.nodes.flatMap (nodeTokens full) ++ [.closing, .closing])

/-! ### What is written is spelled with these tokens -/

section Spelling

variable {cs : List Char} {ts : List Token}

theorem delimited_cons {c : Char} (h : endsWord c = true) : Delimited (c :: cs) := by
  intro d hd
  obtain rfl : c = d := by simpa using hd
  exact h

theorem spelled_name {w : String} (hw : IsName w) (hcs : Delimited cs) (h : Spelled cs ts) :
    Spelled (w.toList ++ cs) (nameToken w :: ts) := by
  unfold nameToken
  split
  · exact .word ‹_› hcs h
  · exact .quoted (hw.resolve_left ‹_›) h

theorem isQuoted_quotedToken {v : Option String} (hv : IsQuotable v) :
    IsQuoted ("'" ++ v.getD "" ++ "'") := by
  refine ⟨'\'', (v.getD "").toList, .inl rfl, ?_, by simp⟩
  cases v with
  | none => rfl
  | some s => exact (hv s rfl).2

theorem spelled_quotedToken {v : Option String} (hv : IsQuotable v) (h : Spelled cs ts) :
    Spelled ('\'' :: ((v.getD "").toList ++ '\'' :: cs)) (quotedToken v :: ts) := by
  have hq := Spelled.quoted (isQuoted_quotedToken hv) h
  simpa [quotedToken] using hq

theorem endsWord_of_isDigit {c : Char} (h : c.isDigit = true) : endsWord c = false := by
  have hne : ∀ d : Char, d.isDigit = false → c ≠ d := by
    rintro d hd rfl
    rw [h] at hd
    cases hd
  simp [endsWord, isBlank_of_isDigit h, hne]

theorem isWord_intText (n : Int32) : IsWord (intText n) := by
  have hchar : ∀ c ∈ (intText n).toList, c.isDigit = true ∨ c = '-' := fun c hc => mem_toString hc
  refine ⟨toString_ne_nil _, fun c hc => ?_, fun h => ?_⟩
  · obtain hd | rfl := hchar c hc
    · exact endsWord_of_isDigit hd
    · decide
  · obtain hd | hd := hchar '\'' (List.mem_of_mem_head? h)
    · cases hd
    · cases hd

theorem spelled_coords {c : Coords} (h : Spelled cs ts) :
    Spelled ((coordsText c).toList ++ ')' :: cs) (coordsTokens c ++ ts) := by
  have hx := Spelled.word (isWord_intText c.x) (delimited_cons rfl) (.blank (c := ' ') rfl
    (.word (isWord_intText c.y) (delimited_cons rfl) (.closing h)))
  simpa [coordsText, coordsTokens] using hx

theorem spelled_link {l : Link} (hl : IsWord l.word ∧ IsWord l.id) (h : Spelled cs ts) :
    Spelled ((linkText l).toList ++ cs) (linkTokens l ++ ts) := by
  have hid := Spelled.word hl.2 (delimited_cons rfl) (.blank (c := ' ') rfl
    (spelled_coords (c := l.coords) h))
  have hword := Spelled.opening (.word hl.1 (delimited_cons rfl) (.blank (c := ' ') rfl hid))
  simpa [linkText, linkTokens] using hword

/-- Texts with single spaces between them. -/
theorem spelled_spaced {α : Type} {text : α → String} {tokens : α → List Token} {xs : List α}
    (hx : ∀ x ∈ xs, ∀ {cs ts}, Delimited cs → Spelled cs ts →
      Spelled ((text x).toList ++ cs) (tokens x ++ ts)) (hcs : Delimited cs) (h : Spelled cs ts) :
    Spelled ((spaced (xs.map text)).toList ++ cs) (xs.flatMap tokens ++ ts) := by
  induction xs with
  | nil => simpa [spaced] using h
  | cons x xs ih =>
    have ih := ih fun y hy => hx y (List.mem_cons_of_mem x hy)
    have hfirst : ∀ {cs ts}, Delimited cs → Spelled cs ts →
        Spelled ((text x).toList ++ cs) (tokens x ++ ts) := hx x (List.mem_cons_self ..)
    cases xs with
    | nil => simpa [spaced] using hfirst hcs h
    | cons y ys =>
      have hspelled := hfirst (delimited_cons rfl) (.blank (c := ' ') rfl ih)
      simpa [spaced, String.intercalate_cons_cons] using hspelled

theorem spelled_list {types : List String} (htypes : ∀ type ∈ types, IsListable type)
    (h : Spelled cs ts) :
    Spelled ('(' :: ((spaced types).toList ++ ')' :: cs)) (listTokens types ++ ts) := by
  have hspaced : Spelled ((spaced (types.map id)).toList ++ ')' :: cs)
      (types.flatMap (fun type => [.word type]) ++ .closing :: ts) :=
    spelled_spaced (fun type htype => fun hcs h => .word (htypes type htype).1 hcs h)
      (delimited_cons rfl) (Spelled.closing h)
  have htokens : types.flatMap (fun type => [Token.word type]) = types.map .word :=
    List.map_eq_flatMap.symm
  rw [htokens] at hspaced
  simpa [listTokens] using Spelled.opening hspaced

theorem spelled_begins {full : Bool} {n : Node} (hn : Writable full n) (hcs : Delimited cs)
    (h : Spelled cs ts) :
    Spelled ((beginsText full n).toList ++ cs) (beginsTokens full n ++ ts) := by
  unfold beginsText beginsTokens
  cases n.initial with
  | false => exact Spelled.word (w := "nil") (by decide) hcs h
  | true =>
    simp only [if_true]
    cases hb : n.begins with
    | none => exact Spelled.word (w := "T") (by decide) hcs h
    | some types =>
      cases full with
      | false => exact Spelled.word (w := "T") (by decide) hcs h
      | true => simpa using spelled_list (hn.begins rfl types hb) h

theorem spelled_types {full : Bool} {types : List String}
    (htypes : full = true → ∀ type ∈ types, IsListable type) (hcs : Delimited cs)
    (h : Spelled cs ts) :
    Spelled ((typesText full types).toList ++ cs) (typesTokens full types ++ ts) := by
  unfold typesText typesTokens
  cases full with
  | true => simpa using spelled_list (htypes rfl) h
  | false =>
    cases types with
    | nil => exact Spelled.word (w := "nil") (by decide) hcs h
    | cons type types => exact Spelled.word (w := "T") (by decide) hcs h

theorem spelled_kind {full : Bool} {n : Node} (hn : Writable full n) (hcs : Delimited cs)
    (h : Spelled cs ts) :
    Spelled ((kindText full n.kind).toList ++ cs) (kindTokens full n.kind ++ ts) := by
  have htype := hn.type
  have hvalue := hn.value
  have hlinks := hn.links
  have htypes := hn.types
  unfold kindText kindTokens
  cases hk : n.kind with
  | ends type value =>
    simp only [Node.type?, hk, Option.some.injEq, forall_eq', Node.value?] at htype hvalue
    have hspelled := spelled_name htype (delimited_cons rfl) (.blank (c := ' ') rfl
      (spelled_quotedToken hvalue h))
    simpa using hspelled
  | continues links types =>
    simp only [Node.links, Node.types?, hk] at hlinks htypes
    have hlist : full = true → ∀ type ∈ types.getD [], IsListable type := by
      intro hfull
      cases types with
      | none => exact fun type htype => (nomatch htype)
      | some types => exact htypes hfull types rfl
    have hrest := Spelled.closing (.blank (c := ' ') rfl (spelled_types hlist hcs h))
    have hspaced := spelled_spaced (fun l hl => fun _ h => spelled_link (hlinks l hl) h)
      (delimited_cons rfl) hrest
    simpa using Spelled.opening hspaced

theorem spelled_node {full : Bool} {n : Node} (hn : Writable full n) (h : Spelled cs ts) :
    Spelled ((nodeText full n).toList ++ cs) (nodeTokens full n ++ ts) := by
  have hcoords := spelled_coords (c := n.coords) (.blank (c := '\n') rfl h)
  have haction := Spelled.blank (c := ' ') rfl (spelled_quotedToken hn.action
    (.blank (c := ' ') rfl hcoords))
  have hkind := Spelled.blank (c := ' ') rfl (spelled_kind hn (delimited_cons rfl) haction)
  have hbegins := Spelled.blank (c := ' ') rfl (spelled_begins hn (delimited_cons rfl) hkind)
  have hid := Spelled.blank (c := ' ') rfl (.blank (c := ' ') rfl (.opening
    (.word hn.id (delimited_cons rfl) hbegins)))
  simpa [nodeText, nodeTokens] using hid

theorem spelled_nodes {full : Bool} {ns : List Node} (hns : ∀ n ∈ ns, Writable full n)
    (h : Spelled cs ts) :
    Spelled (ns.flatMap (fun n => (nodeText full n).toList) ++ cs)
      (ns.flatMap (nodeTokens full) ++ ts) := by
  induction ns with
  | nil => exact h
  | cons n ns ih =>
    have hnode := spelled_node (hns n (List.mem_cons_self ..))
      (ih fun m hm => hns m (List.mem_cons_of_mem n hm))
    simpa using hnode

theorem spelled_entry {full : Bool} {e : Entry} (hword : IsName e.word)
    (hnodes : ∀ n ∈ e.nodes, Writable full n) (h : Spelled cs ts) :
    Spelled ((entryText full e).toList ++ cs) (entryTokens full e ++ ts) := by
  have hstop := Spelled.closing (.closing (.blank (c := '\n') rfl (.blank (c := '\n') rfl h)))
  have hstart := Spelled.opening (.blank (c := '\n') rfl (spelled_nodes hnodes hstop))
  have hentry := Spelled.opening (spelled_name hword (delimited_cons rfl)
    (.blank (c := ' ') rfl hstart))
  simpa [entryText, entryTokens, String.toList_join, List.flatMap_map] using hentry

theorem spelled_render {full : Bool} {g : Grammar}
    (hg : ∀ e ∈ g.entries, IsName e.word ∧ ∀ n ∈ e.nodes, Writable full n) :
    Spelled (g.render full).toList (g.entries.flatMap (entryTokens full)) := by
  rw [render, String.toList_join, List.flatMap_map]
  generalize g.entries = es at hg
  induction es with
  | nil => exact .nil
  | cons e es ih =>
    have he := hg e (List.mem_cons_self ..)
    exact spelled_entry he.1 he.2 (ih fun f hf => hg f (List.mem_cons_of_mem e hf))

end Spelling

end StateDiagram.Grammar
