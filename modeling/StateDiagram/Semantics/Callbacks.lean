import StateDiagram.Semantics.Basic
import StateDiagram.Text.Numeral
import StateDiagram.Text.Quoted

/-!
Semantics by name. Value expressions that are whole numbers or texts in double quotes stand for
themselves. An action without a callback succeeds, a value without one is nil.
-/
namespace StateDiagram

structure Callbacks (σ : Type) where
  actions : List (String × (Context → σ → Signal × Features × σ)) := []
  values : List (String × (Context → σ → Outcome × Features × σ)) := []

namespace Callbacks

variable {σ : Type}

def named {α : Type} (name : String) : List (String × α) → Option α
  | [] => none
  | (k, a) :: es => if k = name then some a else named name es

/-- The value that a literal expression stands for. -/
def literal? (e : String) : Option Value :=
  match Text.readInt64? e.toList with
  | some n => some (.int n)
  | none =>
    match e.toList with
    | '"' :: c :: cs =>
      if (c :: cs).getLast? = some '"' then some (.string (String.ofList (c :: cs).dropLast))
      else none
    | _ => none

def semantics (t : Callbacks σ) : Semantics σ where
  action name c s :=
    match named name t.actions with
    | some f => f c s
    | none => (.succeed, c.features, s)
  value e c s :=
    match literal? e with
    | some v => (.value v, c.features, s)
    | none =>
      match named e t.values with
      | some f => f c s
      | none => (.value .nil, c.features, s)

def nameList (names : List String) : String :=
  "[" ++ ", ".intercalate ((Text.sortedSet names).map Text.quoted) ++ "]"

/-- The names that have callbacks. -/
def text (t : Callbacks σ) : String :=
  "CallbackTable \x7b actions: " ++ nameList (t.actions.map (·.1)) ++ ", values: " ++
    nameList (t.values.map (·.1)) ++ " \x7d"

end Callbacks

/-- The name of the plain semantics. -/
def Semantics.plainText : String :=
  "NoSemantics"

end StateDiagram
