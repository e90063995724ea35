import StateDiagram.Text.Sorted
import Mathlib.Data.List.Sort
import Mathlib.Data.String.Basic

/-! Sets of texts are in order, so the members of a set determine how it is listed. -/
namespace StateDiagram.Text

theorem pairwise_insertInOrder (s : String) {ts : List String} (h : ts.Pairwise (· < ·)) :
    (insertInOrder s ts).Pairwise (· < ·) := by
  induction ts with
  | nil => simp [insertInOrder]
  | cons t ts ih =>
    obtain ⟨ht, hts⟩ := List.pairwise_cons.1 h
    rw [insertInOrder]
    split
    · exact h
    · rename_i hne
      split
      · rename_i hlt
        refine List.pairwise_cons.2 ⟨fun u hu => ?_, h⟩
        obtain rfl | hu := List.mem_cons.1 hu
        · exact hlt
        · exact lt_trans hlt (ht u hu)
      · rename_i hnot
        refine List.pairwise_cons.2 ⟨fun u hu => ?_, ih hts⟩
        obtain rfl | hu := mem_insertInOrder.1 hu
        · exact lt_of_le_of_ne (not_lt.1 hnot) (Ne.symm hne)
        · exact ht u hu

theorem pairwise_sortedSet (ss : List String) : (sortedSet ss).Pairwise (· < ·) := by
  induction ss with
  | nil => exact .nil
  | cons s ss ih => exact pairwise_insertInOrder s ih

theorem sortedSet_congr {ss ts : List String} (h : ∀ u, u ∈ ss ↔ u ∈ ts) :
    sortedSet ss = sortedSet ts :=
  (pairwise_sortedSet ss).eq_of_mem_iff (pairwise_sortedSet ts) (by simpa using h)

theorem sortedSet_eq_nil {ss : List String} : sortedSet ss = [] ↔ ss = [] := by
  simp only [List.eq_nil_iff_forall_not_mem, mem_sortedSet]

end StateDiagram.Text
