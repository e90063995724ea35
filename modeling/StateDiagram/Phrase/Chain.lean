import StateDiagram.Phrase.Arena
import StateDiagram.Phrase.Fault

/-!
Walks along the chains of an arena, and copies of parts of a chain. No chain has more units than
the arena, so a walk that takes more steps has gone astray.
-/
namespace StateDiagram.Arena

def fetch (a : Arena) (i : Nat) : Except Fault Phrase :=
  match a.get? i with
  | some u => .ok u
  | none => .error (.outOfRange a.size i)

/-- The unit after unit `i`. -/
def nextOf (a : Arena) (i : Nat) : Except Fault Nat := do
  let u ← a.fetch i
  match u.next with
  | some j => .ok j
  | none => .error .chainEnded

/-- The unit `n` links after unit `i`. -/
def ahead (a : Arena) : Nat → Nat → Except Fault Nat
  | 0, i => .ok i
  | n + 1, i => do a.ahead n (← a.nextOf i)

def beforeFrom (a : Arena) (first : Nat) : Nat → Nat → Except Fault Nat
  | 0, _ => .error .endlessChain
  | fuel + 1, i => do
    let j ← a.nextOf i
    if j = first then return i else a.beforeFrom first fuel j

/-- The unit before `first` on the chain from `head`. -/
def before (a : Arena) (head first : Nat) : Except Fault Nat :=
  a.beforeFrom first a.size head

/-- How many units stand before `i` on the chain from `head`. -/
def position (a : Arena) (head i : Nat) : Nat :=
  ((a.chain head).takeWhile (· ≠ i)).length

/-- A copy of unit `i` in the first free slot. -/
def duplicate (i : Nat) (a : Arena) : Except Fault Arena := do
  return a.alloc (← a.fetch i)

/-- Copies the units after `old` up to `last` and links the copies behind `copy`, the copy of
`old`. Gives the copy of `last`. -/
def copyFrom (last : Nat) : Nat → Nat → Nat → Arena → Except Fault (Nat × Arena)
  | 0, _, _, _ => .error .endlessChain
  | fuel + 1, old, copy, a =>
    if old = last then .ok (copy, a)
    else do
      let i ← a.nextOf old
      let b ← a.duplicate i
      copyFrom last fuel i a.size (b.setNext copy (some a.size))

/-- Copies the units from `first` to `last`. The copy of `first` takes the first free slot; gives
the copy of `last`, which goes on as `last` does. -/
def copyChain (first last : Nat) (a : Arena) : Except Fault (Nat × Arena) := do
  let b ← a.duplicate first
  copyFrom last a.size first a.size b

end StateDiagram.Arena
