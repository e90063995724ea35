import StateDiagram.Phrase.Tree

/-!
Phrases in one line: a level with one word other than the dummy word stands for itself, any other
level is put in parentheses. Dummy words are left out.
-/
namespace StateDiagram.Bracket

/-- A unit of a level with its text; `real` says that it does not have the dummy word. -/
structure Item where
  real : Bool
  leaf : Bool
  text : String
deriving DecidableEq, Repr

/-- The items that are shown, each behind a separator, the first one behind `sep`. Once a unit
has been passed the separator is a space, whether the unit was shown or not. -/
def row (sep : String) : List Item → String
  | [] => ""
  | i :: is => (if i.real || !i.leaf then sep ++ i.text else "") ++ row " " is

def level : List Item → String
  | [] => ""
  | [i] => i.text
  | is =>
    match is.filter (·.real) with
    | [i] => i.text
    | _ => row "(" is ++ ")"

mutual

def item (dummy : String) : Tree → Item
  | .node _ word _ _ [] => ⟨word != dummy, true, word⟩
  | .node _ word _ _ (p :: ps) => ⟨word != dummy, false, level (item dummy p :: items dummy ps)⟩

def items (dummy : String) : List Tree → List Item
  | [] => []
  | t :: ts => item dummy t :: items dummy ts

end

def text (dummy : String) (ts : List Tree) : String :=
  level (items dummy ts)

end StateDiagram.Bracket

namespace StateDiagram.Arena

/-- The phrase that starts at `i`, in one line. -/
def bracket (a : Arena) (dummy : String) (i : Nat) : String :=
  Bracket.text dummy (a.trees i)

end StateDiagram.Arena
