import StateDiagram.Parser.Drive

/-!
Traces of a parse: what happened at each step of the search for the next parse, up to a greatest
number of events.
-/
namespace StateDiagram

inductive Trace.Event where
  | advance (choice : Choice)
  | blocked
  | backup
  | exhausted
  | quit
  | complete
deriving DecidableEq, Repr

/-- An event, and what the parse is like after it. -/
structure Trace.Entry where
  step : Nat
  event : Trace.Event
  depth : Nat
  phrase : String
deriving DecidableEq, Repr

namespace Trace

variable {σ : Type}

def entry (p : Parser σ) (event : Event) (s : Session σ) : Entry :=
  ⟨s.steps, event, s.saved.length, p.bracket s⟩

/-- The event of an advance. -/
def eventOf (signal : Signal) (s : Session σ) : Event :=
  match signal, s.state.path with
  | .succeed, c :: _ => .advance c
  | .succeed, [] => .blocked
  | .noAdvance, _ => .blocked
  | .quit, _ => .quit

/-- The entries of the search that goes on when `made` events have been recorded, if it stops once
there are `max` of them. Every round records one event or more, so `fuel = max` rounds suffice. -/
def recordFrom (p : Parser σ) (max : Nat) :
    Nat → Nat → Session σ → Except Fault (List Entry × Session σ)
  | 0, _, s => .ok ([], s)
  | fuel + 1, made, s =>
    if max ≤ made then .ok ([], s)
    else do
      let (signal, s) ← p.advance s
      let e := entry p (eventOf signal s) s
      match signal with
      | .quit => return ([e], s)
      | .succeed =>
        if s.isDone then return ([e, entry p .complete s], s)
        else
          let (es, s) ← recordFrom p max fuel (made + 1) s
          return (e :: es, s)
      | .noAdvance =>
        let (found, s) ← p.backup s
        if found then
          let (es, s') ← recordFrom p max fuel (made + 2) s
          return (e :: entry p .backup s :: es, s')
        else return ([e, entry p .exhausted s], s)

def record (p : Parser σ) (max : Nat) (s : Session σ) : Except Fault (List Entry × Session σ) :=
  recordFrom p max max 0 s

def completed (es : List Entry) : Bool :=
  es.getLast?.any fun e => e.event == .complete

def padLeft (width : Nat) (s : String) : String :=
  String.ofList (List.replicate (width - s.length) ' ') ++ s

def targetText (g : Grammar) (c : Choice) : String :=
  match c.node?.bind fun n => g.nodes[n]? with
  | some n => " " ++ n.word ++ " " ++ n.id
  | none => ""

def eventText (g : Grammar) (phrase : String) : Event → String
  | .advance c => c.move.text ++ targetText g c ++ "  " ++ phrase
  | .blocked => "blocked"
  | .backup => "backup  " ++ phrase
  | .exhausted => "no more alternatives"
  | .quit => "quit"
  | .complete => "complete  " ++ phrase

def Entry.line (g : Grammar) (e : Entry) : String :=
  padLeft 4 (toString e.step) ++ " " ++ Outline.repeated "  " e.depth ++
    eventText g e.phrase e.event ++ "\n"

/-- A line for each entry, indented by the number of saved states. -/
def text (g : Grammar) (es : List Entry) : String :=
  String.join (es.map (Entry.line g))

end Trace

end StateDiagram
