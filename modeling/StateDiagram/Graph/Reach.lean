/-!
Depth-first search over the numbers below a bound. Every number is listed once, in the order in
which the search comes to it; numbers at or past the bound are passed over.
-/
namespace StateDiagram.Graph

/-- How many numbers below `size` have not been seen. -/
def unseen (size : Nat) (seen : List Nat) : Nat :=
  ((List.range size).filter fun v => decide (v ∉ seen)).length

theorem unseen_cons_lt {size v : Nat} {seen : List Nat} (hv : v < size) (hs : v ∉ seen) :
    unseen size (v :: seen) < unseen size seen := by
  have hsplit : (List.range size).filter (fun u => decide (u ∉ v :: seen))
      = ((List.range size).filter fun u => decide (u ∉ seen)).filter fun u => decide (u ≠ v) := by
    rw [List.filter_filter]
    congr 1
    funext u
    simp
  rw [unseen, hsplit]
  exact List.length_filter_lt_length_iff_exists.2 ⟨v, by simp [hv, hs], by simp⟩

/-- Goes on from `stack`; `seen` holds what has been listed so far, the latest first. -/
def search (size : Nat) (next : Nat → List Nat) (seen : List Nat) : List Nat → List Nat
  | [] => seen.reverse
  | v :: stack =>
    if _h : v < size ∧ v ∉ seen then search size next (v :: seen) (next v ++ stack)
    else search size next seen stack
termination_by stack => (unseen size seen, stack.length)
decreasing_by
  · exact Prod.Lex.left _ _ (unseen_cons_lt _h.1 _h.2)
  · exact Prod.Lex.right _ (Nat.lt_succ_self _)

/-- What can be reached from `start`, the members of `start` included. -/
def reach (size : Nat) (next : Nat → List Nat) (start : List Nat) : List Nat :=
  search size next [] start

end StateDiagram.Graph
