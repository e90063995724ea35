import StateDiagram.Grammar.Basic

/-!
Defects that do not stop a grammar from being used but are mostly mistakes, and the size of a
grammar. Warnings come in the order of the words and, for one word, of its nodes.
-/
namespace StateDiagram.Grammar

inductive Warning.Kind where
  | emptyWord
  | noIncoming
  | noOutgoing
  | dangling
deriving DecidableEq, Repr

def Warning.Kind.text : Warning.Kind → String
  | emptyWord => "empty word"
  | noIncoming => "no incoming edges"
  | noOutgoing => "no outgoing edges"
  | dangling => "dangling successor"

structure Warning where
  kind : Warning.Kind
  word : String
  node : Option Nat
  message : String
deriving DecidableEq, Repr

def nodeName (n : Node) : String :=
  "(" ++ n.word ++ " " ++ n.id ++ ")"

def warnEmpty (word : String) : Warning :=
  ⟨.emptyWord, word, none, "Word \"" ++ word ++ "\" has no instances."⟩

def warnNoIncoming (i : Nat) (n : Node) : Warning :=
  ⟨.noIncoming, n.word, some i, "Non-initial node " ++ nodeName n ++ " has no incoming edges."⟩

def warnNoOutgoing (i : Nat) (n : Node) : Warning :=
  ⟨.noOutgoing, n.word, some i, "Non-final node " ++ nodeName n ++ " has no outgoing edges."⟩

def warnDangling (i : Nat) (n : Node) (l : Link) : Warning :=
  ⟨.dangling, n.word, some i, danglingText n l⟩

/-- The warnings about node number `i`, when `targets` are the nodes that links lead to. -/
def nodeWarnings (g : Grammar) (targets : List Nat) (i : Nat) (n : Node) : List Warning :=
  (if !n.initial && !targets.contains i then [warnNoIncoming i n] else []) ++
  (if !n.isFinal && n.links.isEmpty then [warnNoOutgoing i n] else []) ++
  (n.links.filter fun l => (g.target? l).isNone).map (warnDangling i n)

def wordWarnings (g : Grammar) (targets : List Nat) (word : String) : List Warning :=
  match g.instances word with
  | [] => [warnEmpty word]
  | ids => ids.flatMap fun i => (g.nodes[i]?.map (g.nodeWarnings targets i)).getD []

def warnings (g : Grammar) : List Warning :=
  g.words.flatMap (g.wordWarnings g.targets)

structure Stats where
  words : Nat
  nodes : Nat
  validEdges : Nat
deriving DecidableEq, Repr

/-- Counts words, nodes and the links that lead somewhere. -/
def stats (g : Grammar) : Stats :=
  ⟨g.lexicon.length, g.nodes.size, g.targets.length⟩

def Stats.text (s : Stats) : String :=
  "Words & phrase types:   " ++ toString s.words ++ "\nNodes (instances):      " ++
    toString s.nodes ++ "\nValid edges:            " ++ toString s.validEdges

end StateDiagram.Grammar
