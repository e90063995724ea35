/-!
What never happens in a parse of a well-formed phrase structure, and the words for it.
-/
namespace StateDiagram

inductive Fault where
  /-- A chain ended before the unit that was looked for. -/
  | chainEnded
  /-- A unit that is not matched to a node was to complete a phrase. -/
  | unmatchedFinal
  /-- A phrase was completed that had not been begun. -/
  | neverOpened
  /-- A unit behind the header was not matched to a node. -/
  | unmatchedUnit
  | outOfRange (size index : Nat)
  /-- A chain did not end. -/
  | endlessChain
deriving DecidableEq, Repr

def Fault.message : Fault → String
  | chainEnded => "ASD parser invariant violated: phrase chain ended before the current node"
  | unmatchedFinal => "ASD parser invariant violated: final move from an unmatched phrase node"
  | neverOpened => "ASD parser invariant violated: completed a subphrase that was never opened"
  | unmatchedUnit =>
    "ASD parser invariant violated: interior phrase node has no grammar instance"
  | outOfRange size index =>
    "index out of bounds: the len is " ++ toString size ++ " but the index is " ++ toString index
  | endlessChain => "ASD parser invariant violated: phrase chain has no end"

end StateDiagram
