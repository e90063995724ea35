/-!
Doubles from a whole number and a power of ten. The whole number is rounded to a double first and
then multiplied or divided by a power of ten that is itself a double, so the result may be one
unit away from the nearest double; a result past the largest double is refused.
-/
namespace StateDiagram.Decimal

def tenTo (k : Nat) : Float :=
  Float.ofNat (Nat.pow 10 k)

/-- Exponents below the smallest power of ten are taken in several divisions. -/
def divided (x : Float) (k : Nat) : Float :=
  if k ≤ 308 then x / tenTo k
  else if x == 0.0 then x
  else divided (x / tenTo 308) (k - 308)
termination_by k

def scaled? (significand : Nat) (exponent : Int) : Option Float :=
  let x := Float.ofNat significand
  if exponent < 0 then some (divided x (-exponent).toNat)
  else if 308 < exponent then if x == 0.0 then some x else none
  else
    let y := x * tenTo exponent.toNat
    if y.isInf then none else some y

end StateDiagram.Decimal
