/-!
What can go wrong with a grammar, and the words for it.
-/
namespace StateDiagram.Grammar

inductive Error where
  /-- The text does not have the form of a grammar. -/
  | malformed (line : Nat) (flaw : String)
  /-- A file could not be read or written. -/
  | file (path cause : String)
  | json (cause : String)
  /-- An instance id would have to be renumbered and is no number. -/
  | notNumeric (word id : String)
deriving DecidableEq, Repr

def Error.message : Error → String
  | malformed line flaw => "grammar syntax error at line " ++ toString line ++ ": " ++ flaw
  | file path cause => "cannot access grammar file " ++ path ++ ": " ++ cause
  | json cause => "invalid grammar JSON: " ++ cause
  | notNumeric word id =>
    "cannot renumber instance " ++ id ++ " of word " ++ word ++ ": instance ids must be integers"

end StateDiagram.Grammar
