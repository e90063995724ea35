/-!
Nodes of a grammar. A node is one instance of a word or of a phrase type; it either ends a phrase
or goes on to the successors that its links name. The target of a link is remembered once it has
been found.
-/
namespace StateDiagram

/-- A place on the screen, kept for the tools that draw grammars. -/
structure Coords where
  x : Int32 := 0
  y : Int32 := 0
deriving DecidableEq, Repr, Inhabited

/-- The successor with this word and instance id. -/
structure Link where
  word : String
  id : String
  coords : Coords := {}
  target : Option Nat := none
deriving DecidableEq, Repr, Inhabited

inductive Node.Kind where
  /-- Ends a phrase of this type, with an expression for its value. -/
  | ends (type : String) (value : Option String)
  /-- Goes on to one of the successors. `types` holds the phrase types among their words, or
  nothing if they are not known. -/
  | continues (links : List Link) (types : Option (List String))
deriving DecidableEq, Repr, Inhabited

/-- `begins` holds the phrase types that an initial node can begin, or nothing if they are not
known; `incoming` says that some link leads here, once the grammar has been marked. -/
structure Node where
  word : String
  id : String
  kind : Node.Kind
  initial : Bool := false
  begins : Option (List String) := none
  action : Option String := none
  coords : Coords := {}
  incoming : Bool := false
deriving DecidableEq, Repr, Inhabited

namespace Node

def isFinal (n : Node) : Bool :=
  match n.kind with
  | .ends _ _ => true
  | .continues _ _ => false

def type? (n : Node) : Option String :=
  match n.kind with
  | .ends type _ => some type
  | .continues _ _ => none

def value? (n : Node) : Option String :=
  match n.kind with
  | .ends _ value => value
  | .continues _ _ => none

def links (n : Node) : List Link :=
  match n.kind with
  | .ends _ _ => []
  | .continues links _ => links

def types? (n : Node) : Option (List String) :=
  match n.kind with
  | .ends _ _ => none
  | .continues _ types => types

/-- Only an initial node keeps a begin set. -/
def setInitial (initial : Bool) (begins : Option (List String)) (n : Node) : Node :=
  { n with initial, begins := if initial then begins else none }

def setBegins (begins : Option (List String)) (n : Node) : Node :=
  { n with begins }

/-- Leaves a final node as it is. -/
def setTypes (types : Option (List String)) (n : Node) : Node :=
  match n.kind with
  | .ends _ _ => n
  | .continues links _ => { n with kind := .continues links types }

/-- Leaves a node that is not final as it is. -/
def setValue (value : Option String) (n : Node) : Node :=
  match n.kind with
  | .ends type _ => { n with kind := .ends type value }
  | .continues _ _ => n

def mapLinks (f : Link → Link) (n : Node) : Node :=
  match n.kind with
  | .ends _ _ => n
  | .continues links types => { n with kind := .continues (links.map f) types }

/-- The node without what its links remember. -/
def forget (n : Node) : Node :=
  n.mapLinks fun l => { l with target := none }

/-- Equality of nodes does not look at what links remember. -/
def same (m n : Node) : Bool :=
  m.forget == n.forget

end Node

end StateDiagram
