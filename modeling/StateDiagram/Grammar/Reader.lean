import StateDiagram.Grammar.Basic
import StateDiagram.Grammar.Token
import StateDiagram.Text.Numeral

/-!
Reading of a grammar from its text. A text is a sequence of entries

    (word ((id begins successors [types-or-value [action [x y]]]) ...))

where `begins` is a keyword or a list of phrase types, `successors` is a list of links
`(word id [x y])` or the phrase type that the node ends, `types-or-value` is a keyword, a list of
phrase types or a quoted value, and `action` is `nil` or a quoted text. Keywords are read without
regard to case. Every step takes at least one token and says so in its type.
-/
namespace StateDiagram.Grammar

/-- Something read from the head of `s`, and the tokens that follow it. -/
structure Parsed (s : Tokens) (α : Type) where
  value : α
  rest : Tokens
  shorter : rest.size < s.size

/-- The same reading, seen from one token earlier. -/
def Parsed.after {t : Token} {line : Nat} {s : Tokens} {α : Type} (p : Parsed s α) :
    Parsed (.token t line s) α :=
  ⟨p.value, p.rest, Nat.lt_succ_of_lt p.shorter⟩

/-- The same reading, seen from an earlier place. -/
def Parsed.followed {s : Tokens} {α β : Type} (q : Parsed s β) (p : Parsed q.rest α) :
    Parsed s α :=
  ⟨p.value, p.rest, Nat.lt_trans p.shorter q.shorter⟩

def Parsed.map {s : Tokens} {α β : Type} (f : α → β) (p : Parsed s α) : Parsed s β :=
  ⟨f p.value, p.rest, p.shorter⟩

def Parsed.head (t : Token) (line : Nat) (rest : Tokens) {α : Type} (value : α) :
    Parsed (.token t line rest) α :=
  ⟨value, rest, Nat.lt_succ_self _⟩

def lowerAscii (s : String) : List Char :=
  s.toList.map Char.toLower

def Token.isKeyword (keyword : String) : Token → Bool
  | .word w => lowerAscii w == keyword.toList
  | _ => false

def Token.isNil (t : Token) : Bool :=
  t.isKeyword "nil" || t.isKeyword "null"

/-- The text between the quotes; an empty one reads as absent. -/
def unquote (s : String) : Option String :=
  let inner := s.toList.tail.dropLast
  if inner.isEmpty then none else some (String.ofList inner)

def startsWithDigit (s : String) : Bool :=
  s.toList.head?.any Char.isDigit

/-- The word at the head with its line, or `flaw`. -/
def readWord (flaw : Flaw) : (s : Tokens) → Except Malformed (Parsed s (String × Nat))
  | .done line => .error ⟨line, flaw⟩
  | .failed lexical line => .error ⟨line, lexical⟩
  | .token (.word w) line _ => .ok (.head _ _ _ (w, line))
  | .token _ line _ => .error ⟨line, flaw⟩

/-- A closing parenthesis, or `flaw`. -/
def readClose (flaw : Flaw) : (s : Tokens) → Except Malformed (Parsed s Unit)
  | .done line => .error ⟨line, flaw⟩
  | .failed lexical line => .error ⟨line, lexical⟩
  | .token .closing _ _ => .ok (.head _ _ _ ())
  | .token _ line _ => .error ⟨line, flaw⟩

/-- The instance that is being read, for the flaws that are found in it. -/
structure Place where
  word : String
  id : String

def Place.flaw (p : Place) (flaw : InstanceFlaw) : Flaw :=
  .inInstance p.word p.id flaw

def readCoordinate (p : Place) (w : String × Nat) : Except Malformed Int32 :=
  match Text.readInt32? w.1.toList with
  | some n => .ok n
  | none => .error ⟨w.2, p.flaw (.coordinate w.1)⟩

/-- Phrase types up to the closing parenthesis. No type starts with a digit. -/
def readTypes (p : Place) (field : TypeField) :
    (s : Tokens) → Except Malformed (Parsed s (List String))
  | .done line => .error ⟨line, p.flaw (.typesEnd field)⟩
  | .failed lexical line => .error ⟨line, lexical⟩
  | .token .closing _ _ => .ok (.head _ _ _ [])
  | .token (.word w) line rest =>
    if startsWithDigit w then .error ⟨line, p.flaw (.typeName field)⟩
    else do
      let ts ← readTypes p field rest
      return ts.after.map (w :: ·)
  | .token _ line _ => .error ⟨line, p.flaw (.typeName field)⟩

/-- Whether the node is initial and which types it begins. An empty list makes no initial node. -/
def readBegins (p : Place) :
    (s : Tokens) → Except Malformed (Parsed s (Bool × Option (List String)))
  | .done line => .error ⟨line, p.flaw .beginsStart⟩
  | .failed lexical line => .error ⟨line, lexical⟩
  | .token .opening _ rest => do
    let ts ← readTypes p .begins rest
    return ts.after.map fun ts => if ts.isEmpty then (false, none) else (true, some ts)
  | .token t line _ =>
    if t.isNil || t.isKeyword "false" then .ok (.head _ _ _ (false, none))
    else if t.isKeyword "t" || t.isKeyword "true" then .ok (.head _ _ _ (true, none))
    else .error ⟨line, p.flaw .beginsStart⟩

/-- Two coordinates and a closing parenthesis after the first coordinate's word. -/
def readCoords (p : Place) (x : String × Nat) (noSecond unclosed : InstanceFlaw) (s : Tokens) :
    Except Malformed (Parsed s Coords) := do
  let x ← readCoordinate p x
  let w ← readWord (p.flaw noSecond) s
  let y ← readCoordinate p w.value
  let c ← readClose (p.flaw unclosed) w.rest
  return (w.followed c).map fun _ => ⟨x, y⟩

/-- The coordinates of a link, if there are any, and its closing parenthesis. -/
def readLinkEnd (p : Place) : (s : Tokens) → Except Malformed (Parsed s Coords)
  | .done line => .error ⟨line, p.flaw .linkEnd⟩
  | .failed lexical line => .error ⟨line, lexical⟩
  | .token .closing _ _ => .ok (.head _ _ _ {})
  | .token (.word x) line rest => do
    let c ← readCoords p (x, line) .linkEnd .linkEnd rest
    return c.after
  | .token _ line _ => .error ⟨line, p.flaw .linkEnd⟩

/-- A link after its opening parenthesis. -/
def readLink (p : Place) (s : Tokens) : Except Malformed (Parsed s Link) := do
  let word ← readWord (p.flaw .linkName) s
  let id ← readWord (p.flaw .linkName) word.rest
  let coords ← readLinkEnd p id.rest
  return (word.followed (id.followed coords)).map fun c =>
    { word := word.value.1, id := id.value.1, coords := c }

/-- Links up to the closing parenthesis. -/
def readLinks (p : Place) (s : Tokens) : Except Malformed (Parsed s (List Link)) :=
  match s with
  | .done line => .error ⟨line, p.flaw .linkStart⟩
  | .failed lexical line => .error ⟨line, lexical⟩
  | .token .closing _ _ => .ok (.head _ _ _ [])
  | .token .opening _ rest => do
    let l ← readLink p rest
    let ls ← readLinks p l.rest
    return (l.followed ls).after.map (l.value :: ·)
  | .token _ line _ => .error ⟨line, p.flaw .linkStart⟩
termination_by s.size
decreasing_by exact Nat.lt_succ_of_lt l.shorter

/-- The kind of a node: links in parentheses, or the phrase type that it ends. -/
def readKind (p : Place) : (s : Tokens) → Except Malformed (Parsed s Node.Kind)
  | .done line => .error ⟨line, p.flaw .noSuccessors⟩
  | .failed lexical line => .error ⟨line, lexical⟩
  | .token .closing line _ => .error ⟨line, p.flaw .noSuccessors⟩
  | .token .opening _ rest => do
    let ls ← readLinks p rest
    return ls.after.map fun ls => .continues ls none
  | .token (.word w) _ _ => .ok (.head _ _ _ (.ends w none))
  | .token (.quoted w) _ _ => .ok (.head _ _ _ (.ends w none))

/-- The coordinates of a node, if there are any, and its closing parenthesis. -/
def readPlacement (p : Place) (n : Node) : (s : Tokens) → Except Malformed (Parsed s Node)
  | .done line => .error ⟨line, p.flaw .textEnd⟩
  | .failed lexical line => .error ⟨line, lexical⟩
  | .token .closing _ _ => .ok (.head _ _ _ n)
  | .token (.word x) line rest => do
    let c ← readCoords p (x, line) .noCoordinate .instanceEnd rest
    return c.after.map fun c => { n with coords := c }
  | .token _ line _ => .error ⟨line, p.flaw .instanceEnd⟩

/-- The action of a node, if there is one, and what follows it. -/
def readAction (p : Place) (n : Node) : (s : Tokens) → Except Malformed (Parsed s Node)
  | .done line => .error ⟨line, p.flaw .actionStart⟩
  | .failed lexical line => .error ⟨line, lexical⟩
  | .token .closing _ _ => .ok (.head _ _ _ n)
  | .token (.quoted q) _ rest => do
    let r ← readPlacement p { n with action := unquote q } rest
    return r.after
  | .token t line rest =>
    if t.isNil then do
      let r ← readPlacement p n rest
      return r.after
    else .error ⟨line, p.flaw .actionStart⟩

/-- The successor types or the value of a node, if there are any, and what follows them. Left
out, the types are known to be none. -/
def readTypesOrValue (p : Place) (n : Node) : (s : Tokens) → Except Malformed (Parsed s Node)
  | .done line => .error ⟨line, p.flaw .valueStart⟩
  | .failed lexical line => .error ⟨line, lexical⟩
  | .token .closing _ _ => .ok (.head _ _ _ (n.setTypes (some [])))
  | .token .opening _ rest => do
    let ts ← readTypes p .successorTypes rest
    let r ← readAction p (n.setTypes (some ts.value)) ts.rest
    return (ts.followed r).after
  | .token (.quoted q) _ rest => do
    let r ← readAction p ((n.setTypes (some [])).setValue (unquote q)) rest
    return r.after
  | .token (.word w) line rest =>
    if (Token.word w).isKeyword "t" then do
      let r ← readAction p (n.setTypes none) rest
      return r.after
    else if (Token.word w).isNil then do
      let r ← readAction p (n.setTypes (some [])) rest
      return r.after
    else .error ⟨line, p.flaw .valueStart⟩

/-- A node after its opening parenthesis. -/
def readInstance (word : String) (s : Tokens) : Except Malformed (Parsed s Node) := do
  let id ← readWord (.instanceId word) s
  let p : Place := ⟨word, id.value.1⟩
  let b ← readBegins p id.rest
  let k ← readKind p b.rest
  let n : Node := { word, id := id.value.1, kind := k.value }
  let r ← readTypesOrValue p (n.setInitial b.value.1 b.value.2) k.rest
  return id.followed (b.followed (k.followed r))

/-- Nodes up to the closing parenthesis. -/
def readInstances (word : String) (s : Tokens) : Except Malformed (Parsed s (List Node)) :=
  match s with
  | .done line => .error ⟨line, .instanceStart word⟩
  | .failed lexical line => .error ⟨line, lexical⟩
  | .token .closing _ _ => .ok (.head _ _ _ [])
  | .token .opening _ rest => do
    let n ← readInstance word rest
    let ns ← readInstances word n.rest
    return (n.followed ns).after.map (n.value :: ·)
  | .token _ line _ => .error ⟨line, .instanceStart word⟩
termination_by s.size
decreasing_by exact Nat.lt_succ_of_lt n.shorter

/-- The word of an entry; a quoted one keeps its quotes. -/
def readEntryWord : (s : Tokens) → Except Malformed (Parsed s String)
  | .done line => .error ⟨line, .entryWord⟩
  | .failed lexical line => .error ⟨line, lexical⟩
  | .token (.word w) _ _ => .ok (.head _ _ _ w)
  | .token (.quoted w) _ _ => .ok (.head _ _ _ w)
  | .token _ line _ => .error ⟨line, .entryWord⟩

def readOpen (flaw : Flaw) : (s : Tokens) → Except Malformed (Parsed s Unit)
  | .done line => .error ⟨line, flaw⟩
  | .failed lexical line => .error ⟨line, lexical⟩
  | .token .opening _ _ => .ok (.head _ _ _ ())
  | .token _ line _ => .error ⟨line, flaw⟩

/-- An entry after its opening parenthesis. -/
def readEntry (s : Tokens) : Except Malformed (Parsed s Entry) := do
  let word ← readEntryWord s
  let start ← readOpen (.instancesStart word.value) word.rest
  let nodes ← readInstances word.value start.rest
  let stop ← readClose .entryEnd nodes.rest
  return (word.followed (start.followed (nodes.followed stop))).map fun _ =>
    ⟨word.value, nodes.value⟩

def readEntries (s : Tokens) : Except Malformed (List Entry) :=
  match s with
  | .done _ => .ok []
  | .failed lexical line => .error ⟨line, lexical⟩
  | .token .opening _ rest => do
    let e ← readEntry rest
    let es ← readEntries e.rest
    return e.value :: es
  | .token _ line _ => .error ⟨line, .entryStart⟩
termination_by s.size
decreasing_by exact Nat.lt_succ_of_lt e.shorter

/-- The grammar that a text describes, not yet marked. -/
def read (text : String) : Except Malformed Grammar :=
  (readEntries (.ofText text)).map ofEntries

/-- The grammar that a text describes, marked. -/
def parseText (text : String) : Except Malformed Grammar :=
  (read text).map mark

end StateDiagram.Grammar
