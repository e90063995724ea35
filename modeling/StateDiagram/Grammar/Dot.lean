import StateDiagram.Grammar.Basic

/-!
A grammar as a Graphviz diagram. Initial nodes are filled, final nodes are ellipses with their
phrase type, and a link that leads nowhere is dashed and goes to a placeholder.
-/
namespace StateDiagram.Grammar.Dot

/-- Backslashes and double quotes are escaped. -/
def escape (s : String) : String :=
  String.ofList (s.toList.flatMap fun c =>
    if c = '\\' then ['\\', '\\'] else if c = '"' then ['\\', '"'] else [c])

def name (word id : String) : String :=
  escape word ++ " " ++ escape id

def label (n : Node) : String :=
  match n.kind with
  | .ends type _ => "label=\"" ++ name n.word n.id ++ "\\n=> " ++ escape type ++ "\", shape=ellipse"
  | .continues _ _ => "label=\"" ++ name n.word n.id ++ "\""

def nodeLine (i : Nat) (n : Node) : String :=
  "  n" ++ toString i ++ " [" ++ label n ++
    (if n.initial then ", style=filled, fillcolor=lightblue" else "") ++ "]\n"

def linkLines (g : Grammar) (i : Nat) (l : Link) : String :=
  match g.target? l with
  | some t => "  n" ++ toString i ++ " -> n" ++ toString t ++ "\n"
  | none =>
    "  \"" ++ name l.word l.id ++ "\" [shape=plaintext]\n  n" ++ toString i ++ " -> \"" ++
      name l.word l.id ++ "\" [style=dashed]\n"

def nodeLines (g : Grammar) : List String :=
  g.nodes.toList.zipIdx.map fun e => nodeLine e.2 e.1

def edgeLines (g : Grammar) : List String :=
  g.nodes.toList.zipIdx.flatMap fun e => e.1.links.map (linkLines g e.2)

def render (g : Grammar) : String :=
  "digraph Grammar \x7b\n  rankdir=LR;\n  node [shape=box];\n" ++ String.join (nodeLines g) ++
    String.join (edgeLines g) ++ "\x7d\n"

end StateDiagram.Grammar.Dot
