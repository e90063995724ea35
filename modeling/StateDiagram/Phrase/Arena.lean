import StateDiagram.Graph.Reach
import StateDiagram.Value.Basic

/-!
Phrase structures in an arena. A phrase structure is a chain of units linked by `next`, each of
which may expand into a chain of its own, its subphrase. Units refer to each other by their
position in the arena and are never freed: a copy is a new slot, so that whoever holds the old
position keeps the old contents, while a change in place is seen by all who hold the position.
-/
namespace StateDiagram

/-- A token or a completed phrase. `node` is the grammar node that it is matched to. -/
structure Phrase where
  word : String
  node : Option Nat := none
  next : Option Nat := none
  sub : Option Nat := none
  value : Option Value := none
deriving Repr, Inhabited

def sameValue : Option Value → Option Value → Bool
  | none, none => true
  | some v, some w => v.same w
  | _, _ => false

def Phrase.same (p q : Phrase) : Bool :=
  p.word == q.word && p.node == q.node && p.next == q.next && p.sub == q.sub &&
    sameValue p.value q.value

structure Arena where
  phrases : Array Phrase := #[]
deriving Repr, Inhabited

namespace Arena

def size (a : Arena) : Nat :=
  a.phrases.size

def get? (a : Arena) (i : Nat) : Option Phrase :=
  a.phrases[i]?

def alloc (p : Phrase) (a : Arena) : Arena :=
  ⟨a.phrases.push p⟩

def modify (i : Nat) (f : Phrase → Phrase) (a : Arena) : Arena :=
  ⟨a.phrases.modify i f⟩

def setNext (i : Nat) (next : Option Nat) (a : Arena) : Arena :=
  a.modify i fun p => { p with next }

def setSub (i : Nat) (sub : Option Nat) (a : Arena) : Arena :=
  a.modify i fun p => { p with sub }

def setNode (i : Nat) (node : Option Nat) (a : Arena) : Arena :=
  a.modify i fun p => { p with node }

/-- Tokens behind the unit `last`, which they follow. -/
def appendTokens (last : Nat) : List String → Arena → Arena
  | [], a => a
  | t :: ts, a => appendTokens a.size ts ((a.alloc { word := t }).setNext last (some a.size))

/-- A chain for `tokens` behind a header; the header takes the next free position. -/
def addChain (header : String) (tokens : List String) (a : Arena) : Arena :=
  appendTokens a.size tokens (a.alloc { word := header })

def follow (a : Arena) : Nat → Option Nat → List Nat
  | 0, _ => []
  | _ + 1, none => []
  | fuel + 1, some i =>
    match a.get? i with
    | some p => i :: a.follow fuel p.next
    | none => []

/-- Positions along the chain that starts at `i`. A chain has no more units than the arena. -/
def chain (a : Arena) (i : Nat) : List Nat :=
  a.follow a.size (some i)

def chainWords (a : Arena) (i : Nat) : List String :=
  (a.chain i).filterMap fun j => (a.get? j).map (·.word)

/-- A unit's subphrase, then the unit after it. -/
def parts (a : Arena) (i : Nat) : List Nat :=
  match a.get? i with
  | some p => p.sub.toList ++ p.next.toList
  | none => []

/-- All positions that are reached from `i`, subphrases before what follows them. -/
def reachable (a : Arena) (i : Nat) : List Nat :=
  Graph.reach a.size a.parts [i]

@[simp] theorem size_alloc (p : Phrase) (a : Arena) : (a.alloc p).size = a.size + 1 := by
  simp [alloc, size]

@[simp] theorem size_modify (i : Nat) (f : Phrase → Phrase) (a : Arena) :
    (a.modify i f).size = a.size := by
  simp [modify, size]

end Arena

end StateDiagram
