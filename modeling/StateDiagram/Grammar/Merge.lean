import StateDiagram.Grammar.Basic
import StateDiagram.Grammar.Error
import StateDiagram.Text.Blank
import StateDiagram.Text.Numeral

/-!
Merging of one grammar into another. The instance ids of the newcomer are shifted past the nodes
that the word already has, in nodes and in links alike, so that every link keeps its own target.
An id that need not be shifted may be any text.
-/
namespace StateDiagram.Grammar

/-- The id is read as a number of 64 bits, but the sum is not bounded: it is what an addition of 64
bits gives as long as it is less than `2 ^ 63`. -/
def shiftId (word id : String) (offset : Nat) : Except Error String :=
  if offset = 0 then .ok id
  else match Text.readInt64? (Text.trim id.toList) with
    | some n => .ok (toString (n.toInt + offset))
    | none => .error (.notNumeric word id)

def shiftLink (g : Grammar) (l : Link) : Except Error Link := do
  let id ← shiftId l.word l.id (g.instances l.word).length
  return { l with id, target := none }

def shiftNode (g : Grammar) (n : Node) : Except Error Node := do
  let id ← shiftId n.word n.id (g.instances n.word).length
  match n.kind with
  | .ends _ _ => return { n with id, incoming := false }
  | .continues links types =>
    let links ← links.mapM g.shiftLink
    return { n with id, kind := .continues links types, incoming := false }

/-- Adds the words and the nodes of `other`; on an error nothing is added. -/
def merge (g other : Grammar) : Except Error Grammar := do
  let nodes ← other.nodes.toList.mapM g.shiftNode
  let g := other.lexicon.foldl (fun g e => g.addWord e.1) g
  return { nodes.foldl (fun g n => g.addNode n) g with marked := false }

end StateDiagram.Grammar
