import StateDiagram.Parser.State
import StateDiagram.Phrase.Chain
import StateDiagram.Text.Numeral

/-!
The choices at a place of a parse, in the order in which they are tried.
-/
namespace StateDiagram

/-- Which dummy moves are wanted. -/
inductive Dummies where
  | none
  | all
  | only (nodes : List Nat)
deriving DecidableEq, Repr

def Dummies.admits : Dummies → Nat → Bool
  | none, _ => false
  | all, _ => true
  | only ns, n => ns.contains n

namespace Parser

variable {σ : Type}

/-- The entry for a word that the lexicon lacks. -/
def fallback (p : Parser σ) (word : String) : String :=
  if (Text.readInt32? word.toList).isSome then p.config.numberWord
  else if word.toList.head? = some p.config.segmenter.openQuote then p.config.stringWord
  else p.config.unknownWord

/-- The nodes of a word. The word that stands for anything has no fallback. -/
def entry (p : Parser σ) (word : String) : List Nat :=
  match p.grammar.lookup? word with
  | some ids => ids
  | none =>
    if word = p.config.anythingWord then []
    else p.grammar.instances (p.fallback word)

/-- Whether a node can begin one of the expected types. What is not known excludes nothing. -/
def canBegin (node : Node) (expected : Option (List String)) : Bool :=
  node.initial &&
    match node.begins, expected with
    | some begins, some types => types.any begins.contains
    | _, _ => true

/-- The ways to begin a phrase of an expected type at a unit with this word. -/
def initials (p : Parser σ) (word : String) (expected : Option (List String)) : List Choice :=
  ((p.entry word).filter fun n =>
    p.grammar.nodes[n]?.any fun node => canBegin node expected).map .initial

/-- The ways to begin a phrase at a unit with this word, whatever the word. -/
def openings (p : Parser σ) (word : String) (expected : Option (List String)) : List Choice :=
  p.initials word expected ++ p.initials p.config.anythingWord expected

/-- Whether a link asks for the phrases that can begin here. -/
def opens (types : Option (List String)) (l : Link) : Bool :=
  match types with
  | some ts => ts.contains l.word
  | none => true

def dummyChoice (p : Parser σ) (dummies : Dummies) (l : Link) : List Choice :=
  match p.grammar.target? l with
  | some n => if dummies.admits n then [.dummy n] else []
  | none => []

def stepChoice (p : Parser σ) (word : String) (l : Link) : List Choice :=
  if word = l.word ∨ l.word = p.config.anythingWord then
    match p.grammar.target? l with
    | some n => [.nonDummy n]
    | none => []
  else []

/-- The choices that links give when `next` is the word of the next unit, if there is one. The
phrases that can begin there are offered once, at the first link that asks for them. -/
def linkChoices (p : Parser σ) (types : Option (List String)) (next : Option String)
    (dummies : Dummies) (opened : Bool) : List Link → List Choice
  | [] => []
  | l :: ls =>
    if l.word = p.config.dummyWord then
      p.dummyChoice dummies l ++ p.linkChoices types next dummies opened ls
    else match next with
      | none => p.linkChoices types next dummies opened ls
      | some word =>
        if !opened && opens types l then
          p.stepChoice word l ++ p.openings word types ++ p.linkChoices types next dummies true ls
        else p.stepChoice word l ++ p.linkChoices types next dummies opened ls

def nodeOf (p : Parser σ) (n : Nat) : Except Fault Node :=
  match p.grammar.nodes[n]? with
  | some node => .ok node
  | none => .error (.outOfRange p.grammar.nodes.size n)

/-- The word of the unit after `u`. -/
def nextWord (s : Session σ) (u : Phrase) : Except Fault (Option String) :=
  match u.next with
  | some i => do return some (← s.arena.fetch i).word
  | none => .ok none

/-- The choices at the current unit. At the header, phrases of the goal types can begin. -/
def choices (p : Parser σ) (s : Session σ) (dummies : Dummies) : Except Fault (List Choice) := do
  let u ← s.arena.fetch s.state.current
  let next ← nextWord s u
  if s.state.current = s.state.head then
    return match next with
      | some word => p.openings word (some s.goals)
      | none => []
  else
    match u.node with
    | none => .error .unmatchedUnit
    | some n =>
      let node ← p.nodeOf n
      return match node.kind with
        | .ends type _ => [.final type]
        | .continues links types => p.linkChoices types next dummies false links

end Parser

end StateDiagram
