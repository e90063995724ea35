import StateDiagram.Parser.Config
import StateDiagram.Semantics.Basic

/-!
States of a parse. A parse walks along a phrase structure; at each place it has some choices, of
which it takes the first and saves the others. A state holds all that tells one alternative from
another; the arena is common to all of them.
-/
namespace StateDiagram

/-- The kinds of moves. -/
inductive Move where
  /-- Begins a phrase at the next unit. -/
  | initial
  /-- Completes the open phrase. -/
  | final
  /-- Goes on without consuming a unit. -/
  | dummy
  /-- Goes on to the next unit. -/
  | nonDummy
deriving DecidableEq, Repr, Inhabited

def Move.text : Move → String
  | initial => "Initial"
  | final => "Final"
  | dummy => "Dummy"
  | nonDummy => "NonDummy"

/-- A move with the grammar node that it goes to, or with the phrase type that it completes. -/
inductive Choice where
  | initial (node : Nat)
  | nonDummy (node : Nat)
  | dummy (node : Nat)
  | final (type : String)
deriving DecidableEq, Repr, Inhabited

namespace Choice

def move : Choice → Move
  | initial _ => .initial
  | nonDummy _ => .nonDummy
  | dummy _ => .dummy
  | final _ => .final

def node? : Choice → Option Nat
  | initial n => some n
  | nonDummy n => some n
  | dummy n => some n
  | final _ => none

def isDummy : Choice → Bool
  | dummy _ => true
  | _ => false

end Choice

/-- What is kept of a phrase while another one is open inside of it. -/
structure Frame where
  beginning : Nat
  features : Features
  unique : Bool
deriving Repr, Inhabited

/-- One alternative of a parse. -/
structure State where
  /-- The header of the phrase structure. -/
  head : Nat
  /-- The unit that the parse has come to. -/
  current : Nat
  /-- The choices that have not been tried; nothing until they are computed. -/
  choices : Option (List Choice) := none
  /-- How many units from the header the open phrase begins. -/
  beginning : Nat := 0
  /-- The features of the open phrase. -/
  features : Features := []
  /-- Whether the open phrase has been parsed in a single way so far. -/
  unique : Bool := false
  /-- The phrases around the open one, the innermost first. -/
  frames : List Frame := []
  /-- The subphrase of the unit after `current` at the time when the state was saved. -/
  nextSub : Option Nat := none
  lastMove : Option Move := none
  /-- The moves on the way here, the latest first. -/
  path : List Choice := []
deriving Repr, Inhabited

/-- What a parser works with and never changes. -/
structure Parser (σ : Type) where
  grammar : Grammar
  config : Config := {}
  semantics : Option (Semantics σ) := none

/-- A parse in progress: the arena, the active state, the saved states with the latest first, the
goals, the number of steps, and the host's state. -/
structure Session (σ : Type) where
  arena : Arena
  state : State
  saved : List State := []
  goals : List String := []
  steps : Nat := 0
  host : σ

/-- A grammar has to be marked before it can be parsed with. -/
inductive Refusal where
  | unmarked
deriving DecidableEq, Repr

def Refusal.message : Refusal → String
  | unmarked => "grammar incoming edges have not been marked"

/-- The word of the header of every phrase structure. -/
def headerWord : String :=
  "nil"

namespace Parser

variable {σ : Type}

/-- A parser for a marked grammar. -/
def make (grammar : Grammar) (config : Config) (semantics : Option (Semantics σ)) :
    Except Refusal (Parser σ) :=
  if grammar.marked then .ok ⟨grammar, config, semantics⟩ else .error .unmarked

/-- A parser with the default settings, for a grammar that is marked first if need be. -/
def prepare (grammar : Grammar) : Parser σ :=
  ⟨if grammar.marked then grammar else grammar.mark, {}, none⟩

end Parser

namespace Session

variable {σ : Type}

/-- A parse of `tokens` that has made no step. -/
def start (tokens : List String) (goals : List String) (host : σ) : Session σ where
  arena := Arena.addChain headerWord tokens {}
  state := { head := 0, current := 0 }
  goals := goals
  host := host

/-- A parse of nothing. -/
def empty (host : σ) : Session σ :=
  start [] [] host

/-- The first unit after the header. -/
def top? (s : Session σ) : Option Nat :=
  (s.arena.get? s.state.head).bind (·.next)

def topUnit? (s : Session σ) : Option Phrase :=
  s.top?.bind s.arena.get?

/-- Complete: back at the header, with a single unit after it whose word is a goal. -/
def isDone (s : Session σ) : Bool :=
  s.state.current == s.state.head &&
    s.topUnit?.any fun p => p.next.isNone && s.goals.contains p.word

def completedType? (s : Session σ) : Option String :=
  if s.isDone then s.topUnit?.map (·.word) else none

def completedValue? (s : Session σ) : Option Value :=
  if s.isDone then s.topUnit?.bind (·.value) else none

/-- The moves on the way here, the oldest first. -/
def taken (s : Session σ) : List Choice :=
  s.state.path.reverse

def setFeature (name : String) (value : Value) (s : Session σ) : Session σ :=
  { s with state := { s.state with features := s.state.features.insert name value } }

end Session

end StateDiagram
