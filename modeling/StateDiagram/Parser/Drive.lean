import StateDiagram.Parser.Advance
import StateDiagram.Phrase.Bracket
import StateDiagram.Phrase.Outline

/-!
Driving of a parse: advance, and back up whenever there is no advance, until the parse is
complete, no alternative is left, or a callback gives up. A search may go on for ever, so it takes
a bound on the number of advances and says when the bound was not enough.
-/
namespace StateDiagram.Parser

variable {σ : Type}

/-- What one advance, with a backup if there was none, makes of a search. -/
inductive Stage where
  | complete
  | failed
  | searching
deriving DecidableEq, Repr

/-- One advance, and a backup if it gave no advance. -/
def stage (p : Parser σ) (s : Session σ) : Except Fault (Stage × Session σ) := do
  let (signal, s) ← p.advance s
  match signal with
  | .quit => return (.failed, s)
  | .succeed => return (if s.isDone then .complete else .searching, s)
  | .noAdvance =>
    let (found, s) ← p.backup s
    return (if found then .searching else .failed, s)

/-- Searches for the next parse: whether there is one, or nothing if `fuel` advances were not
enough to tell. -/
def parse (p : Parser σ) : Nat → Session σ → Except Fault (Option Bool × Session σ)
  | 0, s => .ok (none, s)
  | fuel + 1, s => do
    let (stage, s) ← p.stage s
    match stage with
    | .complete => return (some true, s)
    | .failed => return (some false, s)
    | .searching => p.parse fuel s

/-- Searches for the next parse with at most `left` more advances, `made` of them having been made
before. Gives the number of advances, negative unless the parse is complete. -/
def boundedFrom (p : Parser σ) (made : Nat) : Nat → Session σ → Except Fault (Int × Session σ)
  | 0, s => .ok (-made, s)
  | left + 1, s => do
    let (stage, s) ← p.stage s
    match stage with
    | .complete => return (made + 1, s)
    | .failed => return (-(made + 1), s)
    | .searching => p.boundedFrom (made + 1) left s

def parseBounded (p : Parser σ) (max : Nat) (s : Session σ) : Except Fault (Int × Session σ) :=
  p.boundedFrom 0 max s

/-- A new parse of tokens. -/
def startTokens (tokens goals : List String) (s : Session σ) : Session σ :=
  .start tokens goals s.host

/-- A new parse of an input. -/
def start (p : Parser σ) (input : String) (goals : List String) (s : Session σ) : Session σ :=
  startTokens (p.config.segmenter.segment input) goals s

/-- The phrase structure in one line. -/
def bracket (p : Parser σ) (s : Session σ) : String :=
  match s.top? with
  | some i => s.arena.bracket p.config.dummyWord i
  | none => ""

/-- The phrase structure over several lines, the current unit marked if `mark` says so. -/
def outline (p : Parser σ) (o : Outline) (mark : Bool) (s : Session σ) : String :=
  o.text p.grammar (if mark then some s.state.current else none) (s.arena.trees s.state.head)

/-- What became of the parse of an input. -/
structure Summary where
  input : String
  success : Bool
  steps : Nat
  type : Option String
  bracketed : Option String
  value : Option Value
deriving Repr

def summary (p : Parser σ) (input : String) (success : Bool) (s : Session σ) : Summary where
  input := input
  success := success
  steps := s.steps
  type := if success then s.completedType? else none
  bracketed := if success then some (p.bracket s) else none
  value := if success then s.completedValue? else none

/-- Parses an input from the start; nothing if `fuel` advances were not enough. -/
def run (p : Parser σ) (fuel : Nat) (input : String) (goals : List String) (s : Session σ) :
    Except Fault (Option Summary × Session σ) := do
  let (found, s) ← p.parse fuel (p.start input goals s)
  return (found.map fun success => p.summary input success s, s)

/-- Takes certain choices one after the other; false at the first that cannot be taken. -/
def follow (p : Parser σ) : List Choice → Session σ → Except Fault (Bool × Session σ)
  | [], s => .ok (s.isDone, s)
  | c :: cs, s => do
    let (signal, s) ← p.advanceWith c s
    if signal = .succeed then p.follow cs s else return (false, s)

/-- Parses an input by certain choices. Tells whether all could be taken and led to a parse. -/
def replay (p : Parser σ) (input : String) (goals : List String) (cs : List Choice)
    (s : Session σ) : Except Fault (Bool × Session σ) :=
  p.follow cs (p.start input goals s)

end StateDiagram.Parser
