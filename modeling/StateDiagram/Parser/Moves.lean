import StateDiagram.Parser.Choices
import StateDiagram.Phrase.Reduce

/-!
The moves of a parse. A move that changes the chain up to the current unit works on a copy of it
while states are saved. A phrase that is completed is put below a new unit on a copy of the chain,
or, if it was parsed in a single way, below its own first unit.
-/
namespace StateDiagram.Parser

variable {σ : Type}

/-- Begins a phrase at the next unit, matched to node `n`. -/
def moveInitial (p : Parser σ) (n : Nat) (s : Session σ) : Except Fault (Session σ) := do
  let i ← s.arena.nextOf s.state.current
  let u ← s.arena.fetch i
  let node ← p.nodeOf n
  let s := { s with arena := s.arena.setNode i (some n) }
  let st := s.state
  return { s with state := { st with
    current := i
    choices := none
    frames := ⟨st.beginning, st.features, st.unique⟩ :: st.frames
    beginning := s.arena.position st.head i
    features := []
    unique := !node.incoming && p.grammar.isUnique u.word } }

/-- Goes on to the next unit, matched to node `n`. -/
def moveNonDummy (p : Parser σ) (n : Nat) (s : Session σ) : Except Fault (Session σ) := do
  let i ← s.arena.nextOf s.state.current
  let u ← s.arena.fetch i
  let s := { s with arena := s.arena.setNode i (some n) }
  return { s with state := { s.state with
    current := i
    choices := none
    unique := s.state.unique && p.grammar.isUnique u.word } }

/-- Puts a unit with the dummy word, matched to node `n`, behind the current one. While states
are saved this is done on a copy of the chain. -/
def moveDummy (p : Parser σ) (n : Nat) (s : Session σ) : Except Fault (Session σ) := do
  let st := s.state
  let u ← s.arena.fetch st.current
  let d := s.arena.size
  let a := s.arena.alloc { word := p.config.dummyWord, node := some n, next := u.next }
  if s.saved.isEmpty then
    return { s with
      arena := a.setNext st.current (some d)
      state := { st with current := d, choices := none } }
  else
    let head := a.size
    let (stop, a) ← a.copyChain st.head st.current
    return { s with
      arena := a.setNext stop (some d)
      state := { st with head, current := d, choices := none } }

def context (p : Parser σ) (s : Session σ) : Context :=
  ⟨p.grammar, s.arena, s.state.current, s.state.features⟩

def setFeatures (features : Features) (host : σ) (s : Session σ) : Session σ :=
  { s with state := { s.state with features }, host }

/-- Runs the action of a node that has been entered. -/
def runAction (p : Parser σ) (n : Nat) (s : Session σ) : Except Fault (Signal × Session σ) := do
  let node ← p.nodeOf n
  match node.action, p.semantics with
  | some action, some sem =>
    if action.isEmpty then return (.succeed, s)
    else
      let (signal, features, host) := sem.action action (p.context s) s.host
      return (signal, setFeatures features host s)
  | _, _ => return (.succeed, s)

/-- Evaluates the value of the node that completes a phrase. Without semantics the value is the
text of its expression. -/
def runValue (p : Parser σ) (node : Node) (s : Session σ) :
    Except Signal (Option Value) × Session σ :=
  match node.value?, p.semantics with
  | some e, some sem =>
    if e.isEmpty then (.ok (some (.string e)), s)
    else
      let (outcome, features, host) := sem.value e (p.context s) s.host
      let s := setFeatures features host s
      match outcome with
      | .value v => (.ok (some v), s)
      | .noAdvance => (.error .noAdvance, s)
      | .quit => (.error .quit, s)
  | e, _ => (.ok (e.map .string), s)

/-- Leaves the open phrase for the one around it. -/
def closeFrame (s : Session σ) : Except Fault (Session σ) :=
  match s.state.frames with
  | [] => .error .neverOpened
  | f :: frames =>
    .ok { s with state := { s.state with
      frames
      unique := f.unique && s.state.unique
      features := f.features
      beginning := f.beginning } }

/-- Whether a completed phrase is collapsed in place. -/
def collapses (p : Parser σ) (s : Session σ) : Bool :=
  p.config.saveUnique && (s.state.unique || s.saved.isEmpty)

/-- Puts the open phrase below a single unit. -/
def reduce (p : Parser σ) (type : String) (value : Option Value) (s : Session σ) :
    Except Fault (Session σ) := do
  let st := s.state
  let prev ← s.arena.ahead (st.beginning - 1) st.head
  let first ← s.arena.nextOf prev
  if p.collapses s then
    let arena ← s.arena.reduceInPlace type value (!s.saved.isEmpty) first st.current
    return { s with arena, state := { st with current := prev } }
  else
    let (head, stop, arena) ← s.arena.reduceByCopy type value st.head first st.current
    return { s with arena, state := { st with head, current := stop } }

/-- Completes the open phrase. A value that is refused leaves the phrase open. -/
def moveFinal (p : Parser σ) (type : String) (s : Session σ) :
    Except Fault (Signal × Session σ) := do
  let u ← s.arena.fetch s.state.current
  match u.node with
  | none => .error .unmatchedFinal
  | some n =>
    match p.runValue (← p.nodeOf n) s with
    | (.error signal, s) => return (signal, s)
    | (.ok value, s) =>
      let s ← closeFrame (← p.reduce type value s)
      let choices ← if s.isDone then pure none else (p.choices s .none).map some
      return (.succeed, { s with state := { s.state with choices } })

end StateDiagram.Parser
