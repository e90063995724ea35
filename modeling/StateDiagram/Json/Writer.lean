import StateDiagram.Json.Basic
import StateDiagram.Decimal.Shortest

/-!
Text of a document, either without any blank or laid out over lines with an indent of two blanks
for each level. Only the quote, the backslash and control characters are escaped.
-/
namespace StateDiagram.Json

def natChars (n : Nat) : List Char :=
  Nat.toDigits 10 n

def intChars (n : Int) : List Char :=
  if n < 0 then '-' :: natChars n.natAbs else natChars n.natAbs

def hexChar (n : Nat) : Char :=
  if n < 10 then Char.ofNat ('0'.toNat + n) else Char.ofNat ('a'.toNat + (n - 10))

def escaped (c : Char) : List Char :=
  if c = '"' then ['\\', '"']
  else if c = '\\' then ['\\', '\\']
  else if c = '\n' then ['\\', 'n']
  else if c = '\r' then ['\\', 'r']
  else if c = '\t' then ['\\', 't']
  else if c.toNat = 8 then ['\\', 'b']
  else if c.toNat = 12 then ['\\', 'f']
  else if c.toNat < 0x20 then
    ['\\', 'u', '0', '0', hexChar (c.toNat / 16), hexChar (c.toNat % 16)]
  else [c]

def stringChars (s : String) : List Char :=
  '"' :: s.toList.flatMap escaped ++ ['"']

def numberChars : Number → List Char
  | .int n => intChars n
  | .float x => (Decimal.compact x).toList
  | .tooLarge => ['1', 'e', '9', '9', '9']

def nullChars : List Char :=
  ['n', 'u', 'l', 'l']

def boolChars : Bool → List Char
  | true => ['t', 'r', 'u', 'e']
  | false => ['f', 'a', 'l', 's', 'e']

def keyChars : Option String → List Char
  | some s => stringChars s
  | none => ['"', '\\', 'u', 'd', '8', '0', '0', '"']

/-- How the parts of a document are set apart: what follows a colon, and the break put before
each part at a given level. -/
structure Layout where
  colon : List Char
  lineBreak : Nat → List Char

def Layout.tight : Layout :=
  ⟨[':'], fun _ => []⟩

def Layout.lines : Layout :=
  ⟨[':', ' '], fun level => '\n' :: List.replicate (2 * level) ' '⟩

mutual

def write (l : Layout) (level : Nat) : Json → List Char
  | .null => nullChars
  | .bool b => boolChars b
  | .number n => numberChars n
  | .string s => keyChars s
  | .array [] => ['[', ']']
  | .array (j :: js) =>
    '[' :: l.lineBreak (level + 1) ++ write l (level + 1) j ++ writeItems l (level + 1) js ++
      l.lineBreak level ++ [']']
  | .object [] => ['\x7b', '\x7d']
  | .object ((k, j) :: fs) =>
    '\x7b' :: l.lineBreak (level + 1) ++ keyChars k ++ l.colon ++ write l (level + 1) j ++
      writeFields l (level + 1) fs ++ l.lineBreak level ++ ['\x7d']

def writeItems (l : Layout) (level : Nat) : List Json → List Char
  | [] => []
  | j :: js => ',' :: l.lineBreak level ++ write l level j ++ writeItems l level js

def writeFields (l : Layout) (level : Nat) : List (Option String × Json) → List Char
  | [] => []
  | (k, j) :: fs =>
    ',' :: l.lineBreak level ++ keyChars k ++ l.colon ++ write l level j ++
      writeFields l level fs

end

def compact (j : Json) : String :=
  String.ofList (write .tight 0 j)

def pretty (j : Json) : String :=
  String.ofList (write .lines 0 j)

end StateDiagram.Json
