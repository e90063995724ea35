import StateDiagram.Text.Blank
import Mathlib.Data.List.DropRight
import Mathlib.Data.List.TakeWhile

/-! What trimming leaves of a text: nothing but blanks is taken away, and what is left neither
starts nor ends with a blank. -/
namespace StateDiagram.Text

/-- A text without its blanks. -/
def solid (cs : List Char) : List Char :=
  cs.filter fun c => !isBlank c

/-- A text that neither starts nor ends with a blank. -/
structure Trimmed (cs : List Char) : Prop where
  first : ∀ c ∈ cs.head?, isBlank c = false
  last : ∀ c ∈ cs.getLast?, isBlank c = false

@[simp] theorem solid_append (cs ds : List Char) : solid (cs ++ ds) = solid cs ++ solid ds :=
  List.filter_append ..

theorem solid_cons_blank {c : Char} (h : isBlank c = true) (cs : List Char) :
    solid (c :: cs) = solid cs :=
  List.filter_cons_of_neg (by simp [h])

theorem solid_eq_nil {cs : List Char} : solid cs = [] ↔ ∀ c ∈ cs, isBlank c = true := by
  simp [solid, List.filter_eq_nil_iff]

theorem Trimmed.trim_eq {cs : List Char} (h : Trimmed cs) : trim cs = cs := by
  have hstart : trimStart cs = cs := by
    cases cs with
    | nil => rfl
    | cons c cs => exact List.dropWhile_cons_of_neg (by simp [h.first c rfl])
  rw [trim, hstart]
  refine List.rdropWhile_eq_self_iff.2 fun hne => ?_
  simp [h.last _ (List.getLast?_eq_some_getLast hne)]

theorem trimmed_trim (cs : List Char) : Trimmed (trim cs) where
  first c hc := by
    obtain ⟨back, hback⟩ : trim cs <+: trimStart cs := List.rdropWhile_prefix ..
    have hhead : c ∈ (trimStart cs).head? := by
      rw [← hback]
      exact List.mem_head?_append_of_mem_head? hc
    have hstart := List.head?_dropWhile_not isBlank cs
    rw [trimStart, Option.mem_def] at hhead
    simpa [hhead] using hstart
  last c hc := by
    have hc : c ∈ ((trimStart cs).rdropWhile isBlank).getLast? := hc
    have hne : (trimStart cs).rdropWhile isBlank ≠ [] :=
      List.ne_nil_of_mem (List.mem_of_getLast? hc)
    have hlast := List.rdropWhile_last_not isBlank (trimStart cs) hne
    rw [List.getLast?_eq_some_getLast hne, Option.mem_some_iff] at hc
    simpa [hc] using hlast

@[simp] theorem trim_trim (cs : List Char) : trim (trim cs) = trim cs :=
  (trimmed_trim cs).trim_eq

/-- Only blanks are taken away, from both ends. -/
theorem exists_trim (cs : List Char) : ∃ front back, cs = front ++ trim cs ++ back ∧
    solid front = [] ∧ solid back = [] := by
  refine ⟨cs.takeWhile isBlank, (trimStart cs).rtakeWhile isBlank, ?_,
    solid_eq_nil.2 fun c => List.mem_takeWhile_imp, solid_eq_nil.2 fun c => List.mem_rtakeWhile_imp⟩
  have hback : trim cs ++ (trimStart cs).rtakeWhile isBlank = trimStart cs :=
    List.rdropWhile_append_rtakeWhile
  rw [List.append_assoc, hback, trimStart, List.takeWhile_append_dropWhile]

@[simp] theorem solid_trim (cs : List Char) : solid (trim cs) = solid cs := by
  obtain ⟨front, back, hcs, hfront, hback⟩ := exists_trim cs
  have h := congrArg solid hcs
  simpa [hfront, hback] using h.symm

theorem mem_of_mem_trim {cs : List Char} {c : Char} (h : c ∈ trim cs) : c ∈ cs := by
  obtain ⟨front, back, hcs, -⟩ := exists_trim cs
  rw [hcs]
  simp [h]

/-- Nothing is left of blanks. -/
theorem trim_eq_nil {cs : List Char} : trim cs = [] ↔ solid cs = [] := by
  constructor
  · intro h
    rw [← solid_trim, h]
    rfl
  · intro h
    rw [← solid_trim, solid_eq_nil] at h
    cases htrim : trim cs with
    | nil => rfl
    | cons c ds =>
      have hblank := h c (by simp [htrim])
      have hfirst := (trimmed_trim cs).first c (by simp [htrim])
      simp [hblank] at hfirst

theorem trim_singleton (c : Char) : trim [c] = if isBlank c then [] else [c] := by
  split
  · rename_i h
    exact trim_eq_nil.2 (solid_eq_nil.2 (by simpa using h))
  · rename_i h
    exact Trimmed.trim_eq ⟨by simpa using h, by simpa using h⟩

theorem trim_singleton_of_ne_nil {c : Char} (h : trim [c] ≠ []) : trim [c] = [c] := by
  rw [trim_singleton] at h ⊢
  split at h
  · exact absurd rfl h
  · rename_i hblank
    exact if_neg hblank

end StateDiagram.Text
