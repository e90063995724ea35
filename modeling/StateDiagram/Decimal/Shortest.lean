/-!
The shortest decimal that reads back as a given double.

A finite double is `m * 2 ^ q`. The decimals that round to it fill an interval around it, whose
ends belong to it when `m` is even. For one digit, two digits and so on up to seventeen, the two
neighbours of the value on that decimal grid are tried; the first grid with a neighbour inside the
interval gives the digits, the nearer neighbour if both are inside. A tie is settled by the format
that asks.
-/
namespace StateDiagram.Decimal

/-- The number `digits * 10 ^ exponent`. -/
structure Scientific where
  digits : Nat
  exponent : Int
deriving DecidableEq, Repr

/-- Where a value half way between two points of a grid goes. -/
inductive Tie where
  | up
  | even
deriving DecidableEq, Repr

/-- A positive value `num / den` and the ends `low / den`, `high / den` of its interval. -/
structure Rounding where
  low : Nat
  num : Nat
  high : Nat
  den : Nat
  ends : Bool

def mantissaField (bits : UInt64) : Nat :=
  bits.toNat % Nat.pow 2 52

def exponentField (bits : UInt64) : Nat :=
  bits.toNat / Nat.pow 2 52 % Nat.pow 2 11

def isNegative (bits : UInt64) : Bool :=
  bits.toNat / Nat.pow 2 63 == 1

/-- The interval of the positive double with these fields. Below a power of two the gap to the
next smaller double is half as wide. -/
def Rounding.ofFields (mantissa exponent : Nat) : Rounding :=
  let m := if exponent = 0 then mantissa else mantissa + Nat.pow 2 52
  let q : Int := (if exponent = 0 then 1 else exponent : Nat) - 1077
  let down := if mantissa = 0 ∧ 1 < exponent then 1 else 2
  let up := Nat.pow 2 q.toNat
  ⟨(4 * m - down) * up, 4 * m * up, (4 * m + 2) * up, Nat.pow 2 (-q).toNat, m % 2 == 0⟩

/-- The sides of `c * 10 ^ k` against `n / den`, cleared of fractions. -/
def sides (c : Nat) (k : Int) (n den : Nat) : Nat × Nat :=
  (c * Nat.pow 10 k.toNat * den, n * Nat.pow 10 (-k).toNat)

def Rounding.holds (r : Rounding) (c : Nat) (k : Int) : Bool :=
  let l := sides c k r.low r.den
  let h := sides c k r.high r.den
  if r.ends then l.2 ≤ l.1 && h.1 ≤ h.2 else l.2 < l.1 && h.1 < h.2

/-- The value goes to the point above `c * 10 ^ k` rather than to that point. -/
def Rounding.goesUp (r : Rounding) (tie : Tie) (c : Nat) (k : Int) : Bool :=
  let s := sides (2 * c + 1) k (2 * r.num) r.den
  s.1 < s.2 || (s.1 == s.2 && (tie == .up || c % 2 == 1))

def Rounding.floor (r : Rounding) (k : Int) : Nat :=
  r.num * Nat.pow 10 (-k).toNat / (r.den * Nat.pow 10 k.toNat)

def Rounding.onGrid (r : Rounding) (tie : Tie) (k : Int) : Option Nat :=
  let c := r.floor k
  match r.holds c k, r.holds (c + 1) k with
  | true, true => some (if r.goesUp tie c k then c + 1 else c)
  | true, false => some c
  | false, true => some (c + 1)
  | false, false => none

/-- How many places left of the point the value starts; none or fewer below one tenth. -/
def Rounding.magnitude (r : Rounding) : Int :=
  if r.den ≤ r.num then (Nat.toDigits 10 (r.num / r.den)).length
  else match (List.range 330).find? fun j => r.den ≤ r.num * Nat.pow 10 (j + 1) with
    | some j => -(j : Int)
    | none => -330

def dropZeros : Nat → Nat → Int → Scientific
  | 0, d, k => ⟨d, k⟩
  | fuel + 1, d, k => if d % 10 = 0 ∧ d ≠ 0 then dropZeros fuel (d / 10) (k + 1) else ⟨d, k⟩

def Rounding.shortest (r : Rounding) (tie : Tie) : Scientific :=
  let top := r.magnitude
  match (List.range 17).findSome? fun (n : Nat) =>
      (r.onGrid tie (top - (n + 1))).map fun c => dropZeros 20 c (top - (n + 1)) with
  | some s => s
  | none => ⟨0, 0⟩

/-- Digits and exponent of a finite double, its sign left out. -/
def shortest (tie : Tie) (bits : UInt64) : Scientific :=
  if mantissaField bits = 0 ∧ exponentField bits = 0 then ⟨0, 0⟩
  else (Rounding.ofFields (mantissaField bits) (exponentField bits)).shortest tie

def zeros (n : Nat) : String :=
  String.ofList (List.replicate n '0')

/-- All places written out: no exponent, and no point behind a whole number. -/
def Scientific.positional (s : Scientific) : String :=
  let ds := Nat.toDigits 10 s.digits
  if 0 ≤ s.exponent then String.ofList ds ++ zeros s.exponent.toNat
  else
    let places := (-s.exponent).toNat
    if places < ds.length then
      String.ofList (ds.take (ds.length - places)) ++ "." ++
        String.ofList (ds.drop (ds.length - places))
    else "0." ++ zeros (places - ds.length) ++ String.ofList ds

/-- Places written out while the point stays within sixteen digits on the left and five zeros on
the right, a whole number then ending in a zero place; outside of that, an exponent. -/
def Scientific.compact (s : Scientific) : String :=
  let ds := Nat.toDigits 10 s.digits
  let point : Int := ds.length + s.exponent
  if 0 ≤ s.exponent ∧ point ≤ 16 then s.positional ++ ".0"
  else if -5 < point ∧ point ≤ 16 then s.positional
  else
    let tail := if ds.length = 1 then "" else "." ++ String.ofList (ds.drop 1)
    String.ofList (ds.take 1) ++ tail ++ "e" ++ toString (point - 1)

/-- Text of a double: the sign, then `form` of its shortest digits. -/
def text (tie : Tie) (form : Scientific → String) (x : Float) : String :=
  let bits := x.toBits
  let sign := if isNegative bits then "-" else ""
  if exponentField bits = 2047 then
    if mantissaField bits = 0 then sign ++ "inf" else "NaN"
  else sign ++ form (shortest tie bits)

def positional (x : Float) : String :=
  text .up Scientific.positional x

def compact (x : Float) : String :=
  text .even Scientific.compact x

end StateDiagram.Decimal
