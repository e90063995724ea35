import StateDiagram.Grammar.Basic
import StateDiagram.Phrase.Tree

/-!
Phrases over several lines, one unit with the instance id of its node on each and subphrases
indented below their unit. One unit may be marked. Levels past a greatest depth are left out.
-/
namespace StateDiagram

structure Outline where
  indent : String := "   "
  maxDepth : Option Nat := none
deriving DecidableEq, Repr

namespace Outline

def repeated (s : String) (n : Nat) : String :=
  String.join (List.replicate n s)

def tooDeep (o : Outline) (depth : Nat) : Bool :=
  o.maxDepth.any fun m => m < depth

def ellipsis (o : Outline) (depth : Nat) : String :=
  "   " ++ repeated o.indent depth ++ "...\n"

def idText (g : Grammar) (node : Option Nat) : String :=
  match node.bind fun n => g.nodes[n]? with
  | some n => n.id
  | none => "nil"

def line (o : Outline) (g : Grammar) (mark : Option Nat) (depth i : Nat) (word : String)
    (node : Option Nat) : String :=
  (if mark = some i then "*->" else "   ") ++ repeated o.indent depth ++ word ++ " " ++
    idText g node ++ "\n"

mutual

def tree (o : Outline) (g : Grammar) (mark : Option Nat) (depth : Nat) : Tree → String
  | .node i word node _ [] => o.line g mark depth i word node
  | .node i word node _ (p :: ps) =>
    o.line g mark depth i word node ++
      (if o.tooDeep (depth + 1) then o.ellipsis (depth + 1)
      else o.tree g mark (depth + 1) p ++ o.trees g mark (depth + 1) ps)

def trees (o : Outline) (g : Grammar) (mark : Option Nat) (depth : Nat) : List Tree → String
  | [] => ""
  | t :: ts => o.tree g mark depth t ++ o.trees g mark depth ts

end

def text (o : Outline) (g : Grammar) (mark : Option Nat) (ts : List Tree) : String :=
  o.trees g mark 0 ts

end Outline

end StateDiagram
