import StateDiagram.Json.Decode
import StateDiagram.Json.Reader
import StateDiagram.Json.Writer
import StateDiagram.Value.Basic

/-!
Values as JSON. Each value stands under the name of its kind; nil is that name alone. Documents
nested 128 levels deep or more are refused.
-/
namespace StateDiagram.Value

open Json

mutual

def toJson : Value → Json
  | .nil => ofString "Nil"
  | .bool b => ofFields [("Bool", .bool b)]
  | .int n => ofFields [("Int", ofInt n.toInt)]
  | .float x => ofFields [("Float", .number (.float x))]
  | .string s => ofFields [("String", ofString s)]
  | .list items => ofFields [("List", .array (itemsToJson items))]
  | .map entries => ofFields [("Map", .object (entriesToJson entries))]

def itemsToJson : List Value → List Json
  | [] => []
  | v :: vs => toJson v :: itemsToJson vs

def entriesToJson : List (String × Value) → List (Option String × Json)
  | [] => []
  | (k, v) :: es => (some k, toJson v) :: entriesToJson es

end

/-- The kinds of value whose content holds no further values. -/
def ofTag? (tag : String) (j : Json) : Option Value :=
  match tag with
  | "Nil" => match j with
    | .null => some .nil
    | _ => none
  | "Bool" => j.bool?.map .bool
  | "Int" => j.int64?.map .int
  | "Float" => j.float?.map .float
  | "String" => j.string?.map .string
  | _ => none

mutual

def decode? : Json → Option Value
  | .string (some "Nil") => some .nil
  | .object [(some "List", .array items)] => (decodeItems? items).map .list
  | .object [(some "Map", .object fields)] =>
    (decodeFields? fields).map fun es => .map (Features.ofList es)
  | .object [(some tag, j)] => ofTag? tag j
  | _ => none

def decodeItems? : List Json → Option (List Value)
  | [] => some []
  | j :: js =>
    match decode? j, decodeItems? js with
    | some v, some vs => some (v :: vs)
    | _, _ => none

/-- Entries in the order of the document; of a repeated name the last one counts. -/
def decodeFields? : List (Option String × Json) → Option (List (String × Value))
  | [] => some []
  | (some k, j) :: fs =>
    match decode? j, decodeFields? fs with
    | some v, some es => some ((k, v) :: es)
    | _, _ => none
  | (none, _) :: _ => none

end

def ofJson? (j : Json) : Option Value :=
  if j.nesting < 128 then decode? j else none

def read? (s : String) : Option Value :=
  (Json.read? s).bind ofJson?

def write (v : Value) : String :=
  v.toJson.compact

/-- Whether a value is read back from its own text. -/
def survives (v : Value) : Bool :=
  match read? v.write with
  | some w => v.same w
  | none => false

end StateDiagram.Value
