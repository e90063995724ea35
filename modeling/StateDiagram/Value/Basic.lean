import StateDiagram.Decimal.Shortest

/-!
Values that callbacks compute: they are attached to completed phrases and stored as features.
Named values are kept in the order of their names, each name once, so that two maps with the same
entries are the same list.
-/
namespace StateDiagram

inductive Value where
  | nil
  | bool (b : Bool)
  | int (n : Int64)
  | float (x : Float)
  | string (s : String)
  | list (items : List Value)
  | map (entries : List (String × Value))
deriving Repr, Inhabited

/-- Values under names, in the order of the names. -/
abbrev Features :=
  List (String × Value)

namespace Features

def get? (name : String) : Features → Option Value
  | [] => none
  | (k, v) :: fs => if k = name then some v else get? name fs

/-- Puts a value under a name, in place of the one that stood there. -/
def insert (name : String) (value : Value) : Features → Features
  | [] => [(name, value)]
  | (k, v) :: fs =>
    if k = name then (name, value) :: fs
    else if name < k then (name, value) :: (k, v) :: fs
    else (k, v) :: insert name value fs

def ofList (entries : List (String × Value)) : Features :=
  entries.foldl (fun fs e => fs.insert e.1 e.2) []

@[simp] theorem get?_insert_self (name : String) (value : Value) (fs : Features) :
    (fs.insert name value).get? name = some value := by
  induction fs with
  | nil => simp [insert, get?]
  | cons f fs ih =>
    rw [insert]
    split
    · simp [get?]
    · split
      · simp [get?]
      · rename_i h _
        simp [get?, h, ih]

theorem get?_insert_of_ne {name other : String} (h : other ≠ name) (value : Value)
    (fs : Features) : (fs.insert name value).get? other = fs.get? other := by
  induction fs with
  | nil => simp [insert, get?, h.symm]
  | cons f fs ih =>
    rw [insert]
    split
    · rename_i hk
      simp [get?, hk, h.symm]
    · split
      · simp [get?, h.symm]
      · simp only [get?, ih]

end Features

namespace Value

def isNil : Value → Bool
  | nil => true
  | _ => false

def int? : Value → Option Int64
  | int n => some n
  | _ => none

def string? : Value → Option String
  | string s => some s
  | _ => none

def map? : Value → Option Features
  | map entries => some entries
  | _ => none

mutual

/-- Equality of values, floats being compared as numbers: the two zeros are equal. -/
def same : Value → Value → Bool
  | nil, nil => true
  | bool a, bool b => a == b
  | int a, int b => a == b
  | float a, float b => a == b
  | string a, string b => a == b
  | list a, list b => sameItems a b
  | map a, map b => sameEntries a b
  | _, _ => false

def sameItems : List Value → List Value → Bool
  | [], [] => true
  | a :: as, b :: bs => same a b && sameItems as bs
  | _, _ => false

def sameEntries : List (String × Value) → List (String × Value) → Bool
  | [], [] => true
  | (j, a) :: as, (k, b) :: bs => j == k && same a b && sameEntries as bs
  | _, _ => false

end

mutual

/-- Plain text of a value: items in parentheses, entries in braces. -/
def text : Value → String
  | nil => "nil"
  | bool b => if b then "true" else "false"
  | int n => toString n.toInt
  | float x => Decimal.positional x
  | string s => s
  | list items => "(" ++ textItems "" items ++ ")"
  | map entries => "\x7b" ++ textEntries "" entries ++ "\x7d"

def textItems (gap : String) : List Value → String
  | [] => ""
  | v :: vs => gap ++ text v ++ textItems " " vs

def textEntries (gap : String) : List (String × Value) → String
  | [] => ""
  | (k, v) :: es => gap ++ k ++ "=" ++ text v ++ textEntries ", " es

end

end Value

end StateDiagram
