import StateDiagram.Phrase.Chain

/-!
Reduction of a part of a chain to a single unit. The part goes one level down and becomes the
subphrase of the unit that takes its place.
-/
namespace StateDiagram.Arena

/-- Puts the units from `first` to `last` below a new unit, on a copy of the chain from `head`, so
that no old slot changes. Gives the copies of the header and of the unit before `first`. -/
def reduceByCopy (type : String) (value : Option Value) (head first last : Nat) (a : Arena) :
    Except Fault (Nat × Nat × Arena) := do
  let u ← a.fetch last
  let reduced := a.size
  let a := a.alloc { word := type, next := u.next, value }
  let sub := a.size
  let (stop, a) ← a.copyChain first last
  let a := (a.setSub reduced (some sub)).setNext stop none
  let b ← a.before head first
  let copy := a.size
  let (stop, a) ← a.copyChain head b
  return (copy, stop, a.setNext stop (some reduced))

/-- Cuts the chain from `first`, the copy of its first unit, behind `last`. If others may hold the
units in between, they are copied. -/
def cutBehind (held : Bool) (first last : Nat) (a : Arena) : Except Fault Arena := do
  if held then
    let i ← a.nextOf first
    let copy := a.size
    let (stop, a) ← a.copyChain i last
    return (a.setNext first (some copy)).setNext stop none
  else return a.setNext last none

/-- Puts the units from `first` to `last` below `first` itself, whose old contents go into a new
slot. `held` says that others may hold the units after `first`. -/
def reduceInPlace (type : String) (value : Option Value) (held : Bool) (first last : Nat)
    (a : Arena) : Except Fault Arena := do
  let u ← a.fetch last
  let down := a.size
  let a ← a.duplicate first
  let a := a.modify first fun _ => { word := type, next := u.next, sub := some down, value }
  if last = first then return a.setNext down none
  else a.cutBehind held down last

end StateDiagram.Arena
