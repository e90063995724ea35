import StateDiagram.Grammar.Node
import StateDiagram.Text.Lowercase
import StateDiagram.Text.Sorted

/-!
Grammars: nodes numbered in the order of their creation, and a lexicon that lists for each word
its nodes in that order. A word may stand in the lexicon without any node. Nodes are never removed
or put in another order.
-/
namespace StateDiagram

/-- `marked` says that the `incoming` flags of the nodes are up to date. -/
structure Grammar where
  nodes : Array Node := #[]
  lexicon : List (String × List Nat) := []
  marked : Bool := false
deriving DecidableEq, Repr, Inhabited

namespace Grammar

/-- The word of steps that consume no token. -/
def dummyWord : String :=
  "$$"

def lookupIn (word : String) : List (String × List Nat) → Option (List Nat)
  | [] => none
  | (w, ids) :: es => if w = word then some ids else lookupIn word es

/-- The nodes of a word in the order of their creation; nothing if the lexicon lacks the word. -/
def lookup? (g : Grammar) (word : String) : Option (List Nat) :=
  lookupIn word g.lexicon

def instances (g : Grammar) (word : String) : List Nat :=
  (g.lookup? word).getD []

def hasId (g : Grammar) (id : String) (n : Nat) : Bool :=
  g.nodes[n]?.any fun node => node.id == id

/-- The first node of `word` with this instance id. -/
def find? (g : Grammar) (word id : String) : Option Nat :=
  (g.instances word).find? (g.hasId id)

/-- Where a link leads: the remembered target, or else the one that is found now. -/
def target? (g : Grammar) (l : Link) : Option Nat :=
  match l.target with
  | some n => some n
  | none => g.find? l.word l.id

/-- Whether `word` has exactly one node. -/
def isUnique (g : Grammar) (word : String) : Bool :=
  (g.lookup? word).any fun ids => ids.length == 1

def addEntry (word : String) (ids : List Nat) : List (String × List Nat) → List (String × List Nat)
  | [] => [(word, ids)]
  | (w, old) :: es => if w = word then (w, old ++ ids) :: es else (w, old) :: addEntry word ids es

/-- Gives `word` a place in the lexicon. -/
def addWord (word : String) (g : Grammar) : Grammar :=
  { g with lexicon := addEntry word [] g.lexicon }

def addNode (node : Node) (g : Grammar) : Grammar where
  nodes := g.nodes.push node
  lexicon := addEntry node.word [g.nodes.size] g.lexicon
  marked := false

/-- A word with its nodes, each of which gets that word. -/
structure Entry where
  word : String
  nodes : List Node

def addEntryNodes (e : Entry) (g : Grammar) : Grammar :=
  e.nodes.foldl (fun g n => g.addNode { n with word := e.word }) (g.addWord e.word)

/-- Entries of one word add up. -/
def ofEntries (es : List Entry) : Grammar :=
  es.foldl (fun g e => g.addEntryNodes e) {}

/-- The dummy word comes first; the others follow in lower case, then by their own letters. -/
def wordLe (v w : String) : Bool :=
  if v = dummyWord then true
  else if w = dummyWord then false
  else
    let a := Text.lowercase v
    let b := Text.lowercase w
    a < b || (a == b && v ≤ w)

def words (g : Grammar) : List String :=
  (g.lexicon.map (·.1)).mergeSort wordLe

/-- The words in order, each with its nodes. -/
def entries (g : Grammar) : List Entry :=
  g.words.map fun w => ⟨w, (g.instances w).filterMap fun n => g.nodes[n]?⟩

/-- Every phrase type that some node ends. -/
def phraseTypes (g : Grammar) : List String :=
  Text.sortedSet (g.nodes.toList.filterMap Node.type?)

def mapNodes (f : Node → Node) (g : Grammar) : Grammar :=
  { g with nodes := g.nodes.map f }

/-- Lets one link remember its target, if it has one. -/
def settle (g : Grammar) (l : Link) : Link :=
  { l with target := g.target? l }

/-- Lets every link remember its target, if it has one. -/
def settleAll (g : Grammar) : Grammar :=
  g.mapNodes fun n => n.mapLinks g.settle

/-- Lets link number `l` of node number `n` remember its target. -/
def settleLink (n l : Nat) (g : Grammar) : Grammar :=
  match g.nodes[n]? with
  | some node =>
    match node.kind with
    | .continues links types =>
      let node := { node with kind := .continues (links.modify l g.settle) types }
      { g with nodes := g.nodes.setIfInBounds n node }
    | .ends _ _ => g
  | none => g

def allLinks (g : Grammar) : List (Node × Link) :=
  g.nodes.toList.flatMap fun n => n.links.map fun l => (n, l)

/-- Every node that some link leads to, as often as one does. -/
def targets (g : Grammar) : List Nat :=
  g.allLinks.filterMap fun e => g.target? e.2

def danglingText (n : Node) (l : Link) : String :=
  "(" ++ n.word ++ " " ++ n.id ++ ") has edge to non-existent node (" ++ l.word ++ " " ++ l.id ++
    ")."

/-- A line for each link that leads nowhere. -/
def dangling (g : Grammar) : List String :=
  g.allLinks.filterMap fun e =>
    match g.target? e.2 with
    | some _ => none
    | none => some (danglingText e.1 e.2)

/-- Sets the `incoming` flag of the nodes that some link leads to and of no other node. -/
def mark (g : Grammar) : Grammar :=
  let ts := g.targets
  { g.settleAll with
    nodes := g.settleAll.nodes.mapIdx fun n node => { node with incoming := ts.contains n }
    marked := true }

/-- A grammar of single nodes, then words without nodes. -/
def ofNodes (nodes : List Node) (words : List String) : Grammar :=
  words.foldl (fun g w => g.addWord w) (nodes.foldl (fun g n => g.addNode n) {})

end Grammar

end StateDiagram
