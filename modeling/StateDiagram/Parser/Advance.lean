import StateDiagram.Parser.Moves

/-!
Steps of a parse. To advance is to take the first of the choices at the current unit; if others
remain, the state is saved with them. To back up is to take up the latest of the saved states.
-/
namespace StateDiagram.Parser

variable {σ : Type}

/-- The choices at the current unit that have not been tried. -/
def pending (p : Parser σ) (s : Session σ) : Except Fault (List Choice) :=
  match s.state.choices with
  | some cs => .ok cs
  | none => p.choices s .all

/-- The subphrase of the unit after the current one. -/
def subAhead (s : Session σ) : Except Fault (Option Nat) := do
  let u ← s.arena.fetch s.state.current
  match u.next with
  | some i => return (← s.arena.fetch i).sub
  | none => return none

/-- Sets out on `choice` and saves the state if other choices remain. -/
def commit (choice : Choice) (others : List Choice) (s : Session σ) :
    Except Fault (Session σ) := do
  let st := { s.state with lastMove := some choice.move, choices := some others }
  if others.isEmpty then return { s with state := st }
  else
    let nextSub ← subAhead s
    let st := { st with unique := false, nextSub }
    return { s with state := st, saved := st :: s.saved }

/-- Makes a move and runs the action of the node that it enters. -/
def perform (p : Parser σ) (choice : Choice) (s : Session σ) :
    Except Fault (Signal × Session σ) := do
  match choice with
  | .final type => p.moveFinal type s
  | .initial n => p.runAction n (← p.moveInitial n s)
  | .nonDummy n => p.runAction n (← p.moveNonDummy n s)
  | .dummy n => p.runAction n (← p.moveDummy n s)

/-- Counts a move that stands. -/
def record (choice : Choice) (s : Session σ) : Session σ :=
  { s with state := { s.state with path := choice :: s.state.path }, steps := s.steps + 1 }

/-- Takes the first of the choices `cs`. -/
def take (p : Parser σ) (cs : List Choice) (s : Session σ) :
    Except Fault (Signal × Session σ) := do
  match cs with
  | [] => return (.noAdvance, { s with state := { s.state with choices := some [] } })
  | choice :: others =>
    let (signal, s) ← p.perform choice (← commit choice others s)
    match signal with
    | .succeed => return (.succeed, record choice s)
    | signal => return (signal, s)

/-- Takes the next choice that has not been tried. -/
def advance (p : Parser σ) (s : Session σ) : Except Fault (Signal × Session σ) := do
  p.take (← p.pending s) s

/-- Takes a certain choice, if it is among those that have not been tried. -/
def advanceWith (p : Parser σ) (choice : Choice) (s : Session σ) :
    Except Fault (Signal × Session σ) := do
  let cs ← p.pending s
  if cs.contains choice then p.take (choice :: cs.erase choice) s
  else return (.noAdvance, { s with state := { s.state with choices := some cs } })

/-- The choices of a state that is taken up again. If the next unit has been collapsed since the
state was saved, only dummy moves are left; after a dummy move, what the collapsed unit offers is
computed anew. -/
def revised (p : Parser σ) (s : Session σ) : Except Fault (Option (List Choice)) := do
  let u ← s.arena.fetch s.state.current
  match u.next with
  | none => return s.state.choices
  | some i =>
    if (← s.arena.fetch i).sub = s.state.nextSub then return s.state.choices
    else
      let left := (s.state.choices.getD []).filter Choice.isDummy
      if s.state.lastMove = some .dummy then
        return some (← p.choices s (.only (left.filterMap Choice.node?)))
      else return some left

/-- Takes up the latest saved state; false if there is none. -/
def backup (p : Parser σ) (s : Session σ) : Except Fault (Bool × Session σ) := do
  match s.saved with
  | [] => return (false, s)
  | st :: saved =>
    let s := { s with state := st, saved }
    let choices ← p.revised s
    return (true, { s with state := { s.state with choices }, steps := s.steps + 1 })

end StateDiagram.Parser
