import StateDiagram.Grammar.Basic
import StateDiagram.Graph.Reach

/-!
What an initial node can begin. The links of a grammar make a digraph over its nodes; a node that
ends a phrase of some type gets edges to the initial nodes of that type as well, since the
completed phrase can go on wherever one of them can. An initial node begins its own type, if it
is final, and the types of all nodes that it reaches. The edges of completed phrases stand in the
digraph alone, never in the grammar.
-/
namespace StateDiagram

/-- A digraph over the nodes of a grammar: the targets of each node's edges. -/
structure Digraph where
  edges : Array (List Nat)
deriving DecidableEq, Repr

namespace Digraph

def edgesFrom (d : Digraph) (n : Nat) : List Nat :=
  d.edges[n]?.getD []

/-- The edges of the links that lead somewhere. -/
def ofLinks (g : Grammar) : Digraph :=
  ⟨g.nodes.map fun n => n.links.filterMap g.target?⟩

def addEdge (source target : Nat) (d : Digraph) : Digraph :=
  ⟨d.edges.modify source (· ++ [target])⟩

/-- The initial nodes of the type that a node ends. -/
def phraseTargets (g : Grammar) (n : Node) : List Nat :=
  match n.type? with
  | some type => (g.instances type).filter fun t => g.nodes[t]?.any (·.initial)
  | none => []

/-- Adds the edges of completed phrases. -/
def addPhraseEdges (g : Grammar) (d : Digraph) : Digraph :=
  ⟨d.edges.mapIdx fun n ts => ts ++ (g.nodes[n]?.map (phraseTargets g)).getD []⟩

def ofGrammar (g : Grammar) : Digraph :=
  (ofLinks g).addPhraseEdges g

def edgeCount (d : Digraph) : Nat :=
  d.edges.toList.flatten.length

/-- The nodes that are reached by one or more edges. -/
def descendants (d : Digraph) (n : Nat) : List Nat :=
  Graph.reach d.edges.size d.edgesFrom (d.edgesFrom n)

def typesOf (g : Grammar) (ns : List Nat) : List String :=
  ns.filterMap fun n => g.nodes[n]?.bind Node.type?

/-- The phrase types that an initial node can begin, in order; nothing for any other node. -/
def closure? (d : Digraph) (g : Grammar) (n : Nat) : Option (List String) :=
  match g.nodes[n]? with
  | some node =>
    if node.initial then some (Text.sortedSet (typesOf g (n :: d.descendants n))) else none
  | none => none

end Digraph

namespace Grammar

/-- Gives every initial node all that it can begin. -/
def expandBegins (g : Grammar) : Grammar :=
  let d := Digraph.ofGrammar g
  { g.settleAll with
    nodes := g.settleAll.nodes.mapIdx fun n node =>
      match d.closure? g n with
      | some types => node.setBegins (some types)
      | none => node }

/-- Gives every node that is not final the phrase types among the words of its links. -/
def computeTypes (g : Grammar) : Grammar :=
  let types := g.phraseTypes
  g.mapNodes fun n =>
    n.setTypes (some (Text.sortedSet ((n.links.map (·.word)).filter types.contains)))

def optimize (g : Grammar) : Grammar :=
  g.expandBegins.computeTypes

end Grammar

end StateDiagram
