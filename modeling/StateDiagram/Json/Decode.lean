import StateDiagram.Json.Basic
import StateDiagram.Text.Numeral

/-!
Typed parts of a document. A record is given either as an object or as an array of its fields in
their declared order. In an object, fields that the record does not declare are skipped and a
declared field may stand only once; in an array, fields at the end may be left out. Whether a
field that is left out has a default is for the record to say.
-/
namespace StateDiagram.Json

def string? : Json → Option String
  | .string s => s
  | _ => none

def bool? : Json → Option Bool
  | .bool b => some b
  | _ => none

def int32? : Json → Option Int32
  | .number (.int n) => Text.int32? n
  | _ => none

def int64? : Json → Option Int64
  | .number (.int n) => Text.int64? n
  | _ => none

def float? : Json → Option Float
  | .number (.int n) => some (if n < 0 then -(Float.ofNat n.natAbs) else Float.ofNat n.natAbs)
  | .number (.float x) => some x
  | _ => none

/-- A string of exactly one character. -/
def char? (j : Json) : Option Char :=
  match j.string?.map String.toList with
  | some [c] => some c
  | _ => none

def list? {α : Type} (f : Json → Option α) : Json → Option (List α)
  | .array items => items.mapM f
  | _ => none

/-- `null` stands for nothing. -/
def option? {α : Type} (f : Json → Option α) : Json → Option (Option α)
  | .null => some none
  | j => (f j).map some

/-- A field that may be left out. -/
def orDefault {α : Type} (default : α) (f : Json → Option α) : Option Json → Option α
  | none => some default
  | some j => f j

/-- The values given for `name`. -/
def valuesOf (name : String) (fields : List (Option String × Json)) : List Json :=
  fields.filterMap fun f => if f.1 = some name then some f.2 else none

/-- What an object gives for each of the declared names: `none` where the name is absent. -/
def pick? (fields : List (Option String × Json)) : List String → Option (List (Option Json))
  | [] => some []
  | name :: names =>
    match valuesOf name fields with
    | [] => (pick? fields names).map (none :: ·)
    | [j] => (pick? fields names).map (some j :: ·)
    | _ => none

/-- What an array gives for the declared names in turn. -/
def spread? : List Json → List String → Option (List (Option Json))
  | [], names => some (names.map fun _ => none)
  | _ :: _, [] => none
  | j :: js, _ :: names => (spread? js names).map (some j :: ·)

/-- What a record gives for each of its declared names. -/
def record? (names : List String) : Json → Option (List (Option Json))
  | .object fields => if fields.all (·.1.isSome) then pick? fields names else none
  | .array items => spread? items names
  | _ => none

/-- A value under the name of its kind, the only field of its object. -/
def tagged? : Json → Option (String × Json)
  | .object [(some tag, j)] => some (tag, j)
  | _ => none

end StateDiagram.Json
