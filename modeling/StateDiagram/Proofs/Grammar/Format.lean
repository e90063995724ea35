import StateDiagram.Grammar.Reader
import StateDiagram.Proofs.Grammar.Listed

/-! The form of the texts that can be read. The types below say what stands where in a text; for
each of them there are the tokens that it is written with and what it is read as. -/
namespace StateDiagram.Grammar

namespace Wire

/-- One of the keywords, in small or in capital letters. -/
structure Keyword (names : List String) where
  text : String
  named : ∃ name ∈ names, lowerAscii text = name.toList

/-- A token is a keyword if and only if it is written as one. -/
theorem any_isKeyword {names : List String} {t : Token} :
    names.any (fun name => t.isKeyword name) = true ↔ ∃ k : Keyword names, t = .word k.text := by
  rw [List.any_eq_true]
  constructor
  · rintro ⟨name, hmem, hname⟩
    cases t with
    | word w => exact ⟨⟨w, name, hmem, beq_iff_eq.1 hname⟩, rfl⟩
    | _ => cases hname
  · rintro ⟨⟨w, name, hmem, hname⟩, rfl⟩
    exact ⟨name, hmem, beq_iff_eq.2 hname⟩

/-- A keyword of one list is none of another. -/
theorem Keyword.any_eq_false {names others : List String} (k : Keyword names)
    (h : ∀ name ∈ names, name ∉ others) :
    others.any (fun name => (Token.word k.text).isKeyword name) = false := by
  obtain ⟨name, hmem, hname⟩ := k.named
  rw [List.any_eq_false]
  intro other hother hkeyword
  have heq : lowerAscii k.text = other.toList := beq_iff_eq.1 hkeyword
  obtain rfl : name = other := String.toList_injective (hname.symm.trans heq)
  exact h name hmem hother

structure TypeName where
  text : String
  plain : startsWithDigit text = false

structure Coordinate where
  text : String
  value : Int32
  reads : Text.readInt32? text.toList = some value

/-- A text between two quotes of the same kind. -/
structure Quote where
  text : String
  quote : Char
  inner : List Char
  quoted : text.toList = quote :: (inner ++ [quote])

/-- The word of an entry, or the phrase type that a node ends. A quoted one keeps its quotes. -/
inductive Name where
  | word (text : String)
  | quoted (text : String)

inductive Begins where
  | never (keyword : Keyword ["nil", "null", "false"])
  | always (keyword : Keyword ["t", "true"])
  | types (types : List TypeName)

/-- Coordinates may be left out. -/
structure Successor where
  word : String
  id : String
  place : Option (Coordinate × Coordinate)

inductive Kind where
  | ends (type : Name)
  | continues (successors : List Successor)

inductive Fourth where
  | unknown (keyword : Keyword ["t"])
  | nothing (keyword : Keyword ["nil", "null"])
  | types (types : List TypeName)
  | value (value : Quote)

inductive Action where
  | nothing (keyword : Keyword ["nil", "null"])
  | quoted (action : Quote)

/-- What follows the fourth field of an instance. -/
inductive AfterFourth where
  | closed
  | action (action : Action) (place : Option (Coordinate × Coordinate))

/-- What follows the kind of an instance. -/
inductive AfterKind where
  | closed
  | fourth (fourth : Fourth) (rest : AfterFourth)

structure Instance where
  id : String
  begins : Begins
  kind : Kind
  rest : AfterKind

structure Entry where
  word : Name
  instances : List Instance

/-! ### How they are written -/

def Name.token : Name → Token
  | .word text => .word text
  | .quoted text => .quoted text

/-- Phrase types and the closing parenthesis. -/
def typeTokens (types : List TypeName) : List Token :=
  types.map (fun type => .word type.text) ++ [.closing]

def Begins.tokens : Begins → List Token
  | .never keyword => [.word keyword.text]
  | .always keyword => [.word keyword.text]
  | .types ts => .opening :: typeTokens ts

/-- Coordinates, if there are any, and the closing parenthesis. -/
def placeTokens : Option (Coordinate × Coordinate) → List Token
  | none => [.closing]
  | some (x, y) => [.word x.text, .word y.text, .closing]

/-- A successor after its opening parenthesis. -/
def Successor.tokens (l : Successor) : List Token :=
  .word l.word :: .word l.id :: placeTokens l.place

/-- Items in parentheses and the closing parenthesis. -/
def blockTokens {α : Type} (tokens : α → List Token) (xs : List α) : List Token :=
  xs.flatMap (fun x => .opening :: tokens x) ++ [.closing]

theorem blockTokens_cons {α : Type} (tokens : α → List Token) (x : α) (xs : List α) :
    blockTokens tokens (x :: xs) = .opening :: (tokens x ++ blockTokens tokens xs) := by
  simp [blockTokens]

def Kind.tokens : Kind → List Token
  | .ends type => [type.token]
  | .continues ls => .opening :: blockTokens Successor.tokens ls

def Fourth.tokens : Fourth → List Token
  | .unknown keyword => [.word keyword.text]
  | .nothing keyword => [.word keyword.text]
  | .types ts => .opening :: typeTokens ts
  | .value q => [.quoted q.text]

def Action.token : Action → Token
  | .nothing keyword => .word keyword.text
  | .quoted q => .quoted q.text

def AfterFourth.tokens : AfterFourth → List Token
  | .closed => [.closing]
  | .action a place => a.token :: placeTokens place

def AfterKind.tokens : AfterKind → List Token
  | .closed => [.closing]
  | .fourth f rest => f.tokens ++ rest.tokens

/-- An instance after its opening parenthesis. -/
def Instance.tokens (i : Instance) : List Token :=
  .word i.id :: (i.begins.tokens ++ (i.kind.tokens ++ i.rest.tokens))

/-- An entry after its opening parenthesis. -/
def Entry.tokens (e : Entry) : List Token :=
  e.word.token :: .opening :: (blockTokens Instance.tokens e.instances ++ [.closing])

def tokens (es : List Entry) : List Token :=
  es.flatMap fun e => .opening :: e.tokens

/-! ### What they are read as -/

def Name.text : Name → String
  | .word text => text
  | .quoted text => text

/-- Empty quotes hold nothing. -/
def Quote.value (q : Quote) : Option String :=
  if q.inner = [] then none else some (String.ofList q.inner)

theorem Quote.unquote (q : Quote) : unquote q.text = q.value := by
  rw [Grammar.unquote, q.quoted, Quote.value]
  simp

/-- Whether the node is initial, and its begin set. An empty list makes no initial node. -/
def Begins.value : Begins → Bool × Option (List String)
  | .never _ => (false, none)
  | .always _ => (true, none)
  | .types [] => (false, none)
  | .types ts => (true, some (ts.map (·.text)))

/-- Only an initial node has a begin set. -/
theorem Begins.set (b : Begins) : (if b.value.1 then b.value.2 else none) = b.value.2 := by
  cases b with
  | never k => rfl
  | always k => rfl
  | types ts => cases ts <;> rfl

def coords : Option (Coordinate × Coordinate) → Coords
  | none => {}
  | some (x, y) => ⟨x.value, y.value⟩

def Successor.link (l : Successor) : Link :=
  { word := l.word, id := l.id, coords := coords l.place }

/-- The successor types. Only the keyword for it leaves them unknown; where there is a value
or nothing at all, there are none. -/
def AfterKind.types : AfterKind → Option (List String)
  | .fourth (.unknown _) _ => none
  | .fourth (.types ts) _ => some (ts.map (·.text))
  | _ => some []

def AfterKind.value : AfterKind → Option String
  | .fourth (.value q) _ => q.value
  | _ => none

def AfterFourth.actionText : AfterFourth → Option String
  | .closed => none
  | .action (.nothing _) _ => none
  | .action (.quoted q) _ => q.value

def AfterFourth.coords : AfterFourth → Coords
  | .closed => {}
  | .action _ place => Wire.coords place

def AfterKind.action : AfterKind → Option String
  | .closed => none
  | .fourth _ rest => rest.actionText

def AfterKind.coords : AfterKind → Coords
  | .closed => {}
  | .fourth _ rest => rest.coords

/-- A node that ends a phrase has no successor types, and any other node has no value. -/
def Instance.kindRead (i : Instance) : Node.Kind :=
  match i.kind with
  | .ends type => .ends type.text i.rest.value
  | .continues ls => .continues (ls.map Successor.link) i.rest.types

def Instance.node (word : String) (i : Instance) : Node where
  word
  id := i.id
  kind := i.kindRead
  initial := i.begins.value.1
  begins := i.begins.value.2
  action := i.rest.action
  coords := i.rest.coords

def Entry.nodes (e : Entry) : List Node :=
  e.instances.map (Instance.node e.word.text)

def Entry.read (e : Entry) : Grammar.Entry :=
  ⟨e.word.text, e.nodes⟩

theorem Entry.named_read (e : Entry) : e.read.named = e.nodes := by
  simp only [Grammar.Entry.named, Entry.read, Entry.nodes, List.map_map]
  rfl

theorem filter_nodes (es : List Entry) (w : String) :
    (es.flatMap Entry.nodes).filter (fun n => n.word = w) =
      (es.filter fun e => e.word.text = w).flatMap Entry.nodes := by
  induction es with
  | nil => rfl
  | cons e es ih =>
    have hword : ∀ n ∈ e.nodes, n.word = e.word.text := fun n hn => by
      obtain ⟨i, -, rfl⟩ := List.mem_map.1 hn
      rfl
    rw [List.flatMap_cons, List.filter_append, ih]
    by_cases hw : e.word.text = w
    · rw [List.filter_cons_of_pos (by simpa using hw), List.flatMap_cons,
        List.filter_eq_self.2 fun n hn => by simpa [hword n hn] using hw]
    · rw [List.filter_cons_of_neg (by simpa using hw),
        List.filter_eq_nil_iff.2 fun n hn => by simpa [hword n hn] using hw, List.nil_append]

end Wire

end StateDiagram.Grammar
