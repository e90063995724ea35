import StateDiagram.Text.Blank

/-!
Segmentation of an utterance into tokens. Runs of ordinary characters are words, each special
character is a token of its own, blanks separate, and a quoted string is one token, quotes
included, in which every run of blanks is a single space. A quoted string without an end is
dropped.
-/
namespace StateDiagram

/-- The character classes of a segmentation. -/
structure Segmenter where
  spaceChars : String := " \t\n\r"
  specialChars : String := ",.;:?!$@#%&*()[]\x7b\x7d+=<>/~\\"
  openQuote : Char := '"'
  closeQuote : Char := '"'
deriving DecidableEq, Repr, Inhabited

namespace Segmenter

open Text

def isDelimiter (g : Segmenter) (c : Char) : Bool :=
  g.spaceChars.toList.contains c || g.specialChars.toList.contains c
    || c == g.openQuote || c == g.closeQuote

/-- Puts a character in front of the pieces that follow it. -/
def attach (g : Segmenter) (c : Char) (rest : List Char) (pieces : List (List Char)) :
    List (List Char) :=
  match rest, pieces with
  | d :: _, p :: ps => if g.isDelimiter c || g.isDelimiter d then [c] :: p :: ps else (c :: p) :: ps
  | _, ps => [c] :: ps

/-- Cuts a text into single delimiters and longest runs of other characters. -/
def pieces (g : Segmenter) : List Char → List (List Char)
  | [] => []
  | c :: cs => g.attach c cs (g.pieces cs)

mutual

/-- Tokens of the pieces outside of a quoted string. -/
def outside (g : Segmenter) : List (List Char) → List (List Char)
  | [] => []
  | p :: ps =>
    if trim p = [] then g.outside ps
    else if trim p = [g.openQuote] then g.inside [g.openQuote] false ps
    else trim p :: g.outside ps

/-- Tokens of the pieces inside of a quoted string that so far reads `text`; `blank` says that a
blank piece came last. -/
def inside (g : Segmenter) (text : List Char) (blank : Bool) : List (List Char) → List (List Char)
  | [] => []
  | p :: ps =>
    if trim p = [] then g.inside (if blank then text else text ++ [' ']) true ps
    else if trim p = [g.closeQuote] then (text ++ trim p) :: g.outside ps
    else g.inside (text ++ trim p) false ps

end

def segment (g : Segmenter) (input : String) : List String :=
  (g.outside (g.pieces input.toList)).map String.ofList

theorem flatten_attach (g : Segmenter) (c : Char) (rest : List Char) (ps : List (List Char)) :
    (g.attach c rest ps).flatten = c :: ps.flatten := by
  unfold attach
  split
  · split <;> simp
  · simp

/-- Cutting loses nothing. -/
theorem flatten_pieces (g : Segmenter) (cs : List Char) : (g.pieces cs).flatten = cs := by
  induction cs with
  | nil => rfl
  | cons c cs ih => rw [pieces, flatten_attach, ih]

end Segmenter

end StateDiagram
