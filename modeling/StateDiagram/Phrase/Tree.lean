import StateDiagram.Phrase.Arena

/-!
Phrase structures as trees: the view of a chain of the arena as a list of trees. A leaf has no
parts; every other tree stands for a completed phrase, whose parts are its subphrase.
-/
namespace StateDiagram

inductive Tree where
  | node (slot : Nat) (word : String) (matched : Option Nat) (value : Option Value)
      (parts : List Tree)
deriving Repr, Inhabited

namespace Tree

def word : Tree → String
  | node _ w _ _ _ => w

def parts : Tree → List Tree
  | node _ _ _ _ ps => ps

end Tree

namespace Arena

def grow (a : Arena) : Nat → Option Nat → List Tree
  | 0, _ => []
  | _ + 1, none => []
  | fuel + 1, some i =>
    match a.get? i with
    | some p => .node i p.word p.node p.value (a.grow fuel p.sub) :: a.grow fuel p.next
    | none => []

/-- The chain that starts at `i`. No path of links is longer than the arena. -/
def trees (a : Arena) (i : Nat) : List Tree :=
  a.grow a.size (some i)

end Arena

end StateDiagram
