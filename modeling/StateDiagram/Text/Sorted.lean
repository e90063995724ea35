/-!
Sets of texts as lists in code point order without repetitions.
-/
namespace StateDiagram.Text

def insertInOrder (s : String) : List String → List String
  | [] => [s]
  | t :: ts =>
    if s = t then t :: ts
    else if s < t then s :: t :: ts
    else t :: insertInOrder s ts

def sortedSet (ss : List String) : List String :=
  ss.foldr insertInOrder []

@[simp] theorem mem_insertInOrder {s u : String} {ts : List String} :
    u ∈ insertInOrder s ts ↔ u = s ∨ u ∈ ts := by
  induction ts with
  | nil => simp [insertInOrder]
  | cons t ts ih =>
    rw [insertInOrder]
    split
    · rename_i h
      simp [h]
    · split
      · simp
      · simp only [List.mem_cons, ih]
        exact or_left_comm

@[simp] theorem mem_sortedSet {u : String} {ss : List String} : u ∈ sortedSet ss ↔ u ∈ ss := by
  induction ss with
  | nil => simp [sortedSet]
  | cons s ss ih =>
    rw [sortedSet, List.foldr_cons, ← sortedSet, mem_insertInOrder, ih, List.mem_cons]

end StateDiagram.Text
