import StateDiagram.Grammar.Error

/-!
Flaws of a grammar text. Most of them concern the entry of one instance and name it.
-/
namespace StateDiagram.Grammar

/-- The fields of an instance that list phrase types. -/
inductive TypeField where
  | begins
  | successorTypes
deriving DecidableEq, Repr

def TypeField.name : TypeField → String
  | begins => "begins"
  | successorTypes => "successorTypes"

inductive InstanceFlaw where
  | beginsStart
  | typesEnd (field : TypeField)
  | typeName (field : TypeField)
  | noSuccessors
  | linkStart
  | linkName
  | linkEnd
  | valueStart
  | actionStart
  | coordinate (text : String)
  | noCoordinate
  | textEnd
  | instanceEnd
deriving DecidableEq, Repr

inductive Flaw where
  | openQuote
  | openEscape
  | entryStart
  | entryWord
  | entryEnd
  | instancesStart (word : String)
  | instanceStart (word : String)
  | instanceId (word : String)
  | inInstance (word id : String) (flaw : InstanceFlaw)
deriving DecidableEq, Repr

def InstanceFlaw.text (place : String) : InstanceFlaw → String
  | beginsStart => "missing parenthesis at start of 'begins' field\n" ++ place
  | typesEnd field => "missing ) at end of '" ++ field.name ++ "' list\n" ++ place
  | typeName field =>
    "expected phrase type name missing in '" ++ field.name ++ "' field\n" ++ place
  | noSuccessors => "successors field missing\n" ++ place
  | linkStart =>
    "missing ( at start of a (word instance ... ) entry\nin successors list " ++ place
  | linkName => "missing word or instance in successors list\n" ++ place
  | linkEnd => "missing ) at end of (word instance ... ) entry\nin successors list " ++ place
  | valueStart => "missing quote at beginning of semantic value field\n" ++ place
  | actionStart => "missing quote at beginning of semantic action field\n" ++ place
  | coordinate text => "invalid pixel coordinate \"" ++ text ++ "\"\nin entry " ++ place
  | noCoordinate => "invalid or missing pixel coordinate\nin entry " ++ place
  | textEnd => "unexpected end of grammar file in entry " ++ place
  | instanceEnd => "missing ) at end of a word instance entry\n" ++ place

def Flaw.text : Flaw → String
  | openQuote => "missing quote at end of quoted string ending at end of input"
  | openEscape => "unexpected end of input after \\ character"
  | entryStart => "missing ( at beginning of a word entry"
  | entryWord => "missing word in a word entry"
  | entryEnd => "missing ) where expected"
  | instancesStart word => "missing ( around list of instance entries\nfor word " ++ word
  | instanceStart word => "missing ( at start of an instance entry\nfor word " ++ word
  | instanceId word => "missing instance id in an instance entry\nfor word " ++ word
  | inInstance word id flaw => flaw.text ("for word " ++ word ++ " instance " ++ id)

/-- A flaw and the line on which it was noticed. -/
structure Malformed where
  line : Nat
  flaw : Flaw
deriving DecidableEq, Repr

def Malformed.toError (m : Malformed) : Error :=
  .malformed m.line m.flaw.text

end StateDiagram.Grammar
