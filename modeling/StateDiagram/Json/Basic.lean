/-!
JSON documents as they stand in a text: the fields of an object keep their order and their
repetitions. A number past the range of doubles and a string that holds half of a surrogate pair
are well formed, so they can be skipped, but they have no value to read.
-/
namespace StateDiagram

inductive Json.Number where
  | int (n : Int)
  | float (x : Float)
  | tooLarge
deriving Repr

/-- A string is `none` when one of its escapes names no character. -/
inductive Json where
  | null
  | bool (b : Bool)
  | number (n : Json.Number)
  | string (s : Option String)
  | array (items : List Json)
  | object (fields : List (Option String × Json))
deriving Repr, Inhabited

namespace Json

def ofString (s : String) : Json :=
  .string (some s)

def ofInt (n : Int) : Json :=
  .number (.int n)

def ofNat (n : Nat) : Json :=
  ofInt n

def ofFields (fields : List (String × Json)) : Json :=
  .object (fields.map fun f => (some f.1, f.2))

def ofOption {α : Type} (f : α → Json) : Option α → Json
  | none => .null
  | some a => f a

def ofList {α : Type} (f : α → Json) (xs : List α) : Json :=
  .array (xs.map f)

mutual

/-- How many arrays and objects stand inside one another. -/
def nesting : Json → Nat
  | .array items => nestingItems items + 1
  | .object fields => nestingFields fields + 1
  | _ => 0

def nestingItems : List Json → Nat
  | [] => 0
  | j :: js => max (nesting j) (nestingItems js)

def nestingFields : List (Option String × Json) → Nat
  | [] => 0
  | (_, j) :: fs => max (nesting j) (nestingFields fs)

end

end Json

end StateDiagram
