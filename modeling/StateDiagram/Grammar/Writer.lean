import StateDiagram.Grammar.Begins

/-!
Text of a grammar, words in their order and one line for each node. The full text writes out the
begin sets and the successor types, after both have been computed; the plain text says only that
there are some.
-/
namespace StateDiagram.Grammar

def spaced (ss : List String) : String :=
  " ".intercalate ss

def intText (n : Int32) : String :=
  toString n.toInt

def coordsText (c : Coords) : String :=
  intText c.x ++ " " ++ intText c.y

def linkText (l : Link) : String :=
  "(" ++ l.word ++ " " ++ l.id ++ " " ++ coordsText l.coords ++ ")"

def beginsText (full : Bool) (n : Node) : String :=
  if n.initial then
    match n.begins with
    | some types => if full then "(" ++ spaced types ++ ")" else "T"
    | none => "T"
  else "nil"

def typesText (full : Bool) (types : List String) : String :=
  if full then "(" ++ spaced types ++ ")"
  else if types.isEmpty then "nil"
  else "T"

def kindText (full : Bool) : Node.Kind → String
  | .ends type value => type ++ " '" ++ value.getD "" ++ "'"
  | .continues links types =>
    "(" ++ spaced (links.map linkText) ++ ") " ++ typesText full (types.getD [])

def nodeText (full : Bool) (n : Node) : String :=
  "  (" ++ n.id ++ " " ++ beginsText full n ++ " " ++ kindText full n.kind ++ " '" ++
    n.action.getD "" ++ "' " ++ coordsText n.coords ++ ")\n"

def entryText (full : Bool) (e : Entry) : String :=
  "(" ++ e.word ++ " (\n" ++ String.join (e.nodes.map (nodeText full)) ++ "))\n\n"

def render (full : Bool) (g : Grammar) : String :=
  String.join (g.entries.map (entryText full))

/-- The grammar as it stands after a text has been taken from it. -/
def prepareText (full : Bool) (g : Grammar) : Grammar :=
  if full then g.optimize else g.computeTypes

/-- The text of a grammar, and the grammar with the sets that were computed for it. -/
def toText (full : Bool) (g : Grammar) : String × Grammar :=
  let g := g.prepareText full
  (g.render full, g)

end StateDiagram.Grammar
