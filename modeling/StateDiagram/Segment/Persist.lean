import StateDiagram.Json.Decode
import StateDiagram.Segment.Basic

/-!
Character classes as JSON. Every field may be left out and then keeps its default.
-/
namespace StateDiagram.Segmenter

open Json

def toJson (g : Segmenter) : Json :=
  ofFields [("space_chars", ofString g.spaceChars), ("special_chars", ofString g.specialChars),
    ("open_quote", ofString (String.singleton g.openQuote)),
    ("close_quote", ofString (String.singleton g.closeQuote))]

def ofJson? (j : Json) : Option Segmenter := do
  let [spaces, specials, opening, closing] ←
    j.record? ["space_chars", "special_chars", "open_quote", "close_quote"] | none
  let base : Segmenter := {}
  return {
    spaceChars := ← orDefault base.spaceChars string? spaces
    specialChars := ← orDefault base.specialChars string? specials
    openQuote := ← orDefault base.openQuote char? opening
    closeQuote := ← orDefault base.closeQuote char? closing }

end StateDiagram.Segmenter
