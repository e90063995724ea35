import StateDiagram.Grammar.Basic
import StateDiagram.Json.Decode
import StateDiagram.Json.Reader
import StateDiagram.Json.Writer

/-!
Grammars as JSON: the entries in the order of the words. What links remember and which nodes have
incoming links is not kept, and a grammar that is read back is not marked.
-/
namespace StateDiagram

open Json

namespace Coords

def toJson (c : Coords) : Json :=
  ofFields [("x", ofInt c.x.toInt), ("y", ofInt c.y.toInt)]

def ofJson? (j : Json) : Option Coords := do
  let [some x, some y] ← j.record? ["x", "y"] | none
  return ⟨← x.int32?, ← y.int32?⟩

end Coords

namespace Link

def toJson (l : Link) : Json :=
  ofFields [("word", ofString l.word), ("instance", ofString l.id), ("coords", l.coords.toJson)]

def ofJson? (j : Json) : Option Link := do
  let [some word, some id, coords] ← j.record? ["word", "instance", "coords"] | none
  return {
    word := ← word.string?
    id := ← id.string?
    coords := ← orDefault {} Coords.ofJson? coords }

end Link

namespace Node

def typesToJson (types : Option (List String)) : Json :=
  ofOption (ofList ofString) types

def typesOfJson? : Json → Option (Option (List String)) :=
  option? (list? string?)

def Kind.toJson : Kind → Json
  | .ends type value =>
    ofFields [("Final", ofFields [("phrase_type", ofString type),
      ("value", ofOption ofString value)])]
  | .continues links types =>
    ofFields [("NonFinal", ofFields [("successors", ofList Link.toJson links),
      ("successor_types", typesToJson types)])]

def Kind.endsOfJson? (j : Json) : Option Kind := do
  let [some type, value] ← j.record? ["phrase_type", "value"] | none
  return .ends (← type.string?) (← orDefault none (option? string?) value)

def Kind.continuesOfJson? (j : Json) : Option Kind := do
  let [some links, types] ← j.record? ["successors", "successor_types"] | none
  return .continues (← links.list? Link.ofJson?) (← orDefault none typesOfJson? types)

def Kind.ofJson? (j : Json) : Option Kind :=
  match j.tagged? with
  | some ("Final", j) => endsOfJson? j
  | some ("NonFinal", j) => continuesOfJson? j
  | _ => none

def toJson (n : Node) : Json :=
  ofFields [("word", ofString n.word), ("instance", ofString n.id), ("initial", .bool n.initial),
    ("begins_types", typesToJson n.begins), ("kind", n.kind.toJson),
    ("action", ofOption ofString n.action), ("coords", n.coords.toJson)]

def ofJson? (j : Json) : Option Node := do
  let [some word, some id, initial, begins, some kind, action, coords] ← j.record?
    ["word", "instance", "initial", "begins_types", "kind", "action", "coords"] | none
  return {
    word := ← word.string?
    id := ← id.string?
    initial := ← orDefault false bool? initial
    begins := ← orDefault none typesOfJson? begins
    kind := ← Kind.ofJson? kind
    action := ← orDefault none (option? string?) action
    coords := ← orDefault {} Coords.ofJson? coords }

end Node

namespace Grammar

def Entry.toJson (e : Entry) : Json :=
  ofFields [("word", ofString e.word), ("instances", ofList Node.toJson e.nodes)]

def Entry.ofJson? (j : Json) : Option Entry := do
  let [some word, some nodes] ← j.record? ["word", "instances"] | none
  return ⟨← word.string?, ← nodes.list? Node.ofJson?⟩

def toJsonText (g : Grammar) : String :=
  (ofList Entry.toJson g.entries).pretty

def ofJsonText? (s : String) : Option Grammar := do
  let j ← Json.read? s
  return ofEntries (← j.list? Entry.ofJson?)

end Grammar

end StateDiagram
