import StateDiagram.Grammar.Basic
import StateDiagram.Segment.Persist

/-!
Settings of a parser: the words with a meaning of their own, whether phrases that are parsed in a
single way are collapsed in place, and the segmentation of inputs.
-/
namespace StateDiagram

structure Config where
  /-- A link with this word matches any unit. -/
  anythingWord : String := "ANYTHING"
  /-- A link with this word consumes nothing. -/
  dummyWord : String := Grammar.dummyWord
  /-- The entry for whole numbers that have no entry of their own. -/
  numberWord : String := "NUMBER"
  /-- The entry for quoted tokens that have no entry of their own. -/
  stringWord : String := "STRING"
  /-- The entry for all other tokens that have no entry of their own. -/
  unknownWord : String := "UNKNOWN"
  saveUnique : Bool := true
  segmenter : Segmenter := {}
deriving DecidableEq, Repr, Inhabited

namespace Config

open Json

def toJson (c : Config) : Json :=
  ofFields [("anything_word", ofString c.anythingWord), ("dummy_word", ofString c.dummyWord),
    ("number_word", ofString c.numberWord), ("string_word", ofString c.stringWord),
    ("unknown_word", ofString c.unknownWord),
    ("save_uniquely_parsed_subphrases", .bool c.saveUnique), ("segmenter", c.segmenter.toJson)]

/-- Every field may be left out and then keeps its default. -/
def ofJson? (j : Json) : Option Config := do
  let [anything, dummy, numeric, quote, unknown, save, segmenter] ← j.record?
    ["anything_word", "dummy_word", "number_word", "string_word", "unknown_word",
      "save_uniquely_parsed_subphrases", "segmenter"] | none
  let base : Config := {}
  return {
    anythingWord := ← orDefault base.anythingWord string? anything
    dummyWord := ← orDefault base.dummyWord string? dummy
    numberWord := ← orDefault base.numberWord string? numeric
    stringWord := ← orDefault base.stringWord string? quote
    unknownWord := ← orDefault base.unknownWord string? unknown
    saveUnique := ← orDefault base.saveUnique bool? save
    segmenter := ← orDefault base.segmenter Segmenter.ofJson? segmenter }

end Config

end StateDiagram
