import StateDiagram.Parser.Drive

/-!
Parsing of many inputs with one grammar, each in a parse of its own.
-/
namespace StateDiagram.Parser

variable {σ : Type}

/-- Why a batch has no summaries. -/
inductive BatchFailure where
  | refused (cause : Refusal)
  | fault (cause : Fault)
  | outOfFuel
deriving DecidableEq, Repr

/-- The summaries of the inputs in order. An unmarked grammar is refused only if there is an
input. -/
def batch (grammar : Grammar) (config : Config) (semantics : Option (Semantics σ)) (host : σ)
    (fuel : Nat) (goals : List String) : List String → Except BatchFailure (List Summary)
  | [] => .ok []
  | input :: inputs =>
    match make grammar config semantics with
    | .error cause => .error (.refused cause)
    | .ok p =>
      match p.run fuel input goals (.empty host) with
      | .error cause => .error (.fault cause)
      | .ok (none, _) => .error .outOfFuel
      | .ok (some summary, _) =>
        (batch grammar config semantics host fuel goals inputs).map (summary :: ·)

end StateDiagram.Parser
