/-!
Tables of character ranges. A table is written as lines of entries parted by single spaces, each
entry a code point in hexadecimal or two of them joined by a dash.
-/
namespace StateDiagram.Text.Table

def hexDigit (c : Char) : Nat :=
  if '0' ≤ c ∧ c ≤ '9' then c.toNat - '0'.toNat else c.toNat - 'a'.toNat + 10

def hex (s : String) : Nat :=
  s.toList.foldl (fun n c => 16 * n + hexDigit c) 0

/-- A range of one code point may be written as that code point alone. -/
def range (entry : String) : Nat × Nat :=
  match entry.splitOn "-" with
  | lo :: hi :: _ => (hex lo, hex hi)
  | _ => (hex entry, hex entry)

def entries (lines : List String) : List String :=
  lines.flatMap fun l => l.splitOn " "

def ofLines (lines : List String) : List (Nat × Nat) :=
  (entries lines).map range

def covers (ranges : List (Nat × Nat)) (c : Char) : Bool :=
  ranges.any fun r => r.1 ≤ c.toNat && c.toNat ≤ r.2

end StateDiagram.Text.Table
