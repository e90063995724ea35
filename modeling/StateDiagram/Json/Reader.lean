import StateDiagram.Json.Basic
import StateDiagram.Decimal.Scaled
import StateDiagram.Text.Numeral

/-!
Reading of a document from a text: strict syntax, four blank characters between the parts, and
nothing but blanks after the end. Every recursive call comes after at least one character, so the
length of the text bounds the depth of the recursion.
-/
namespace StateDiagram.Json

open Text

def isSpace (c : Char) : Bool :=
  c == ' ' || c == '\t' || c == '\n' || c == '\r'

def skipSpace (cs : List Char) : List Char :=
  cs.dropWhile isSpace

def hexValue? (c : Char) : Option Nat :=
  if '0' ≤ c ∧ c ≤ '9' then some (c.toNat - '0'.toNat)
  else if 'a' ≤ c ∧ c ≤ 'f' then some (c.toNat - 'a'.toNat + 10)
  else if 'A' ≤ c ∧ c ≤ 'F' then some (c.toNat - 'A'.toNat + 10)
  else none

def hexUnit? (a b c d : Char) : Option Nat := do
  return (((← hexValue? a) * 16 + (← hexValue? b)) * 16 + (← hexValue? c)) * 16 + (← hexValue? d)

def escape? : Char → Option Nat
  | '"' => some 0x22
  | '\\' => some 0x5C
  | '/' => some 0x2F
  | 'b' => some 8
  | 'f' => some 12
  | 'n' => some 10
  | 'r' => some 13
  | 't' => some 9
  | _ => none

def addUnit (n : Nat) : Option (List Nat × List Char) → Option (List Nat × List Char)
  | some (units, rest) => some (n :: units, rest)
  | none => none

/-- The characters of a string up to its closing quote as numbers, and what follows it. A plain
character gives its code point, a hexadecimal escape its four digits. -/
def readUnits : List Char → Option (List Nat × List Char)
  | [] => none
  | '"' :: cs => some ([], cs)
  | '\\' :: 'u' :: a :: b :: c :: d :: cs =>
    match hexUnit? a b c d with
    | some n => addUnit n (readUnits cs)
    | none => none
  | '\\' :: c :: cs =>
    match escape? c with
    | some n => addUnit n (readUnits cs)
    | none => none
  | c :: cs => if c.toNat < 0x20 then none else addUnit c.toNat (readUnits cs)

def isLeading (n : Nat) : Bool :=
  0xD800 ≤ n && n ≤ 0xDBFF

def isTrailing (n : Nat) : Bool :=
  0xDC00 ≤ n && n ≤ 0xDFFF

/-- Joins surrogate pairs; half of a pair on its own names no character. -/
def joinUnits : List Nat → Option (List Char)
  | [] => some []
  | n :: ns =>
    if isTrailing n then none
    else if isLeading n then
      match ns with
      | [] => none
      | m :: ms =>
        if isTrailing m then
          (joinUnits ms).map (Char.ofNat (0x10000 + (n - 0xD800) * 0x400 + (m - 0xDC00)) :: ·)
        else none
    else (joinUnits ns).map (Char.ofNat n :: ·)

/-- A string whose opening quote has been read. -/
def readString (cs : List Char) : Option (Option String × List Char) :=
  (readUnits cs).map fun r => ((joinUnits r.1).map String.ofList, r.2)

/-- Significands are kept below two to the sixty-fourth. -/
def fits (n : Nat) : Bool :=
  n < 18446744073709551616

/-- Significand of the digits before the point, and how many digits had no room in it. -/
def wholeDigits (sig : Nat) : List Char → Nat × Nat
  | [] => (sig, 0)
  | d :: ds =>
    if fits (10 * sig + digitValue d) then wholeDigits (10 * sig + digitValue d) ds
    else (sig, ds.length + 1)

/-- Goes on with the digits after the point, and counts those that found room. -/
def placeDigits (sig used : Nat) : List Char → Nat × Nat
  | [] => (sig, used)
  | d :: ds =>
    if fits (10 * sig + digitValue d) then placeDigits (10 * sig + digitValue d) (used + 1) ds
    else (sig, used)

def signed (negative : Bool) : Option Float → Number
  | some x => .float (if negative then -x else x)
  | none => .tooLarge

/-- Value of a number's parts. Without point and exponent it is whole if sixty-four bits hold it,
minus zero excepted. -/
def numberOf (negative : Bool) (whole places : List Char) (exponent : Option Int) : Number :=
  let w := wholeDigits 0 whole
  match places, exponent with
  | [], none =>
    if w.2 = 0 ∧ !negative then .int w.1
    else if w.2 = 0 ∧ 0 < w.1 ∧ w.1 ≤ 9223372036854775808 then .int (-(w.1 : Int))
    else signed negative (Decimal.scaled? w.1 w.2)
  | _, _ =>
    let p := placeDigits w.1 0 places
    signed negative (Decimal.scaled? p.1 ((w.2 : Int) - p.2 + exponent.getD 0))

/-- Digits after a point; a point without digits is no number. -/
def readPlaces : List Char → Option (List Char × List Char)
  | '.' :: cs =>
    if (cs.takeWhile Char.isDigit).isEmpty then none
    else some (cs.takeWhile Char.isDigit, cs.dropWhile Char.isDigit)
  | cs => some ([], cs)

def readPower (negative : Bool) (cs : List Char) : Option (Option Int × List Char) :=
  let ds := cs.takeWhile Char.isDigit
  if ds.isEmpty then none
  else some (some (if negative then -(ofDigits ds : Int) else ofDigits ds),
    cs.dropWhile Char.isDigit)

def readExponent : List Char → Option (Option Int × List Char)
  | c :: cs =>
    if c == 'e' || c == 'E' then
      match cs with
      | '-' :: ds => readPower true ds
      | '+' :: ds => readPower false ds
      | ds => readPower false ds
    else some (none, c :: cs)
  | [] => some (none, [])

/-- A number whose sign has been read. A whole part of several digits starts with no zero. -/
def readNumber (negative : Bool) (cs : List Char) : Option (Number × List Char) := do
  let whole := cs.takeWhile Char.isDigit
  if whole.isEmpty || (whole.head? == some '0' && whole.length != 1) then none
  let (places, cs) ← readPlaces (cs.dropWhile Char.isDigit)
  let (exponent, cs) ← readExponent cs
  return (numberOf negative whole places exponent, cs)

mutual

/-- A value at the head of the text, and what follows it. -/
def readValue : Nat → List Char → Option (Json × List Char)
  | 0, _ => none
  | fuel + 1, cs =>
    match skipSpace cs with
    | 'n' :: 'u' :: 'l' :: 'l' :: cs => some (.null, cs)
    | 't' :: 'r' :: 'u' :: 'e' :: cs => some (.bool true, cs)
    | 'f' :: 'a' :: 'l' :: 's' :: 'e' :: cs => some (.bool false, cs)
    | '"' :: cs => (readString cs).map fun r => (.string r.1, r.2)
    | '[' :: cs =>
      match skipSpace cs with
      | ']' :: cs => some (.array [], cs)
      | cs => (readItems fuel cs).map fun r => (.array r.1, r.2)
    | '\x7b' :: cs =>
      match skipSpace cs with
      | '\x7d' :: cs => some (.object [], cs)
      | cs => (readFields fuel cs).map fun r => (.object r.1, r.2)
    | '-' :: cs => (readNumber true cs).map fun r => (.number r.1, r.2)
    | cs => (readNumber false cs).map fun r => (.number r.1, r.2)

/-- One or more values up to the closing bracket. -/
def readItems : Nat → List Char → Option (List Json × List Char)
  | 0, _ => none
  | fuel + 1, cs =>
    match readValue fuel cs with
    | none => none
    | some (j, cs) =>
      match skipSpace cs with
      | ']' :: cs => some ([j], cs)
      | ',' :: cs => (readItems fuel cs).map fun r => (j :: r.1, r.2)
      | _ => none

/-- One or more fields up to the closing brace. -/
def readFields : Nat → List Char → Option (List (Option String × Json) × List Char)
  | 0, _ => none
  | fuel + 1, cs =>
    match skipSpace cs with
    | '"' :: cs =>
      match readString cs with
      | none => none
      | some (key, cs) =>
        match skipSpace cs with
        | ':' :: cs =>
          match readValue fuel cs with
          | none => none
          | some (j, cs) =>
            match skipSpace cs with
            | '\x7d' :: cs => some ([(key, j)], cs)
            | ',' :: cs => (readFields fuel cs).map fun r => ((key, j) :: r.1, r.2)
            | _ => none
        | _ => none
    | _ => none

end

/-- The document that a text holds, if it is well formed. -/
def read? (s : String) : Option Json :=
  match readValue (2 * s.toList.length + 1) s.toList with
  | some (j, cs) => if (skipSpace cs).isEmpty then some j else none
  | none => none

end StateDiagram.Json
