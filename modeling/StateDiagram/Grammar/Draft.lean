import StateDiagram.Grammar.Basic

/-!
Drafts of nodes. A draft that names a phrase type becomes a final node and its links are left
out; any other draft becomes a node with links and its value is left out.
-/
namespace StateDiagram

structure Draft where
  word : String
  id : String
  initial : Bool := false
  begins : Option (List String) := none
  type : Option String := none
  value : Option String := none
  links : List Link := []
  types : Option (List String) := none
  action : Option String := none
  coords : Coords := {}
deriving DecidableEq, Repr

namespace Draft

/-- A node with a begin set is initial. -/
def setBegins (types : List String) (d : Draft) : Draft :=
  { d with initial := true, begins := some types }

def addLink (word id : String) (d : Draft) : Draft :=
  { d with links := d.links ++ [{ word, id }] }

def finish (d : Draft) : Node :=
  let kind : Node.Kind :=
    match d.type with
    | some type => .ends type d.value
    | none => .continues d.links d.types
  ({ word := d.word, id := d.id, kind, action := d.action, coords := d.coords } : Node).setInitial
    d.initial d.begins

end Draft

end StateDiagram
