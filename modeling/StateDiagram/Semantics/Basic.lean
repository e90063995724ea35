import StateDiagram.Grammar.Basic
import StateDiagram.Phrase.Arena

/-!
Semantics of a parse. Nodes carry expressions: an action is run when the parser comes to the
node, a value when the node completes a phrase. What they mean is for the host to say, who gives
a function for each and a state of its own that is handed from one call to the next. A call sees
the grammar, the arena and the current unit, and it may change the features of the open phrase.
-/
namespace StateDiagram

/-- What an action makes of a move, and what a whole step of the parser comes to. -/
inductive Signal where
  | succeed
  | noAdvance
  | quit
deriving DecidableEq, Repr, Inhabited

inductive Outcome where
  | value (v : Value)
  | noAdvance
  | quit
deriving Repr, Inhabited

/-- What a call sees of the parse. -/
structure Context where
  grammar : Grammar
  arena : Arena
  current : Nat
  features : Features

namespace Context

def unit (c : Context) : Phrase :=
  (c.arena.get? c.current).getD { word := "" }

def word (c : Context) : String :=
  c.unit.word

def value? (c : Context) : Option Value :=
  c.unit.value

/-- The grammar node that the current unit is matched to. -/
def node? (c : Context) : Option Node :=
  c.unit.node.bind fun n => c.grammar.nodes[n]?

def set (name : String) (value : Value) (c : Context) : Context :=
  { c with features := c.features.insert name value }

/-- Makes the entries of the current unit's value features, if that value is a map. -/
def raise (c : Context) : Context :=
  match c.value? with
  | some (.map entries) =>
    { c with features := entries.foldl (fun fs e => fs.insert e.1 e.2) c.features }
  | _ => c

/-- Raises entries one after the other, up to one whose feature has another value. -/
def raiseEntries : List (String × Value) → Features → Signal × Features
  | [], fs => (.succeed, fs)
  | (k, v) :: es, fs =>
    match fs.get? k with
    | some w => if w.same v then raiseEntries es (fs.insert k v) else (.noAdvance, fs)
    | none => raiseEntries es (fs.insert k v)

/-- Like `raise`, but refuses to change a feature, and gives up if the value is no map. -/
def raiseChecking (c : Context) : Signal × Context :=
  match c.value? with
  | some (.map entries) =>
    let r := raiseEntries entries c.features
    (r.1, { c with features := r.2 })
  | _ => (.quit, c)

end Context

/-- The host's functions. They give back the features and the host's state. -/
structure Semantics (σ : Type) where
  action : String → Context → σ → Signal × Features × σ
  value : String → Context → σ → Outcome × Features × σ

/-- Accepts every action and takes each value expression as a text. -/
def Semantics.plain {σ : Type} : Semantics σ where
  action _ c s := (.succeed, c.features, s)
  value e c s := (.value (.string e), c.features, s)

end StateDiagram
