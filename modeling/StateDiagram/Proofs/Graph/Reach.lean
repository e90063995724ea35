import StateDiagram.Graph.Reach
import Mathlib.Data.List.Nodup
import Mathlib.Logic.Relation

/-! A depth-first search lists what can be reached and nothing else, each number once. What it lists
is closed under the edges to numbers below the bound, and whatever holds of the start and is carried
along the edges holds of all that it lists. -/
namespace StateDiagram.Graph

open Relation

/-- What has been seen, and what stands on the stack below the bound, is listed in the end. -/
theorem mem_search {size : Nat} {next : Nat → List Nat} {seen stack : List Nat} {v : Nat}
    (h : v ∈ seen ∨ v < size ∧ v ∈ stack) : v ∈ search size next seen stack := by
  fun_induction search size next seen stack with
  | case1 seen => simpa using h
  | case2 seen u stack _ ih =>
    refine ih ?_
    obtain hseen | ⟨hlt, hstack⟩ := h
    · exact .inl (List.mem_cons_of_mem u hseen)
    · cases List.mem_cons.1 hstack with
      | inl heq => exact .inl (by simp [heq])
      | inr hmem => exact .inr ⟨hlt, List.mem_append_right _ hmem⟩
  | case3 seen u stack hu ih =>
    refine ih ?_
    obtain hseen | ⟨hlt, hstack⟩ := h
    · exact .inl hseen
    · cases List.mem_cons.1 hstack with
      | inr hmem => exact .inr ⟨hlt, hmem⟩
      | inl heq =>
        subst heq
        exact .inl (Classical.not_not.1 fun hseen => hu ⟨hlt, hseen⟩)

/-- If the edges of all that has been seen lead to what has been seen or stands on the stack, then
the edges of all that is listed lead to what is listed. -/
theorem search_closed {size : Nat} {next : Nat → List Nat} {seen stack : List Nat}
    (h : ∀ u ∈ seen, ∀ v ∈ next u, v < size → v ∈ seen ∨ v ∈ stack) :
    ∀ u ∈ search size next seen stack, ∀ v ∈ next u, v < size →
      v ∈ search size next seen stack := by
  fun_induction search size next seen stack with
  | case1 seen =>
    intro u hu v hv hlt
    rw [List.mem_reverse] at hu ⊢
    exact (h u hu v hv hlt).resolve_right List.not_mem_nil
  | case2 seen w stack _ ih =>
    refine ih fun u hu v hv hlt => ?_
    cases List.mem_cons.1 hu with
    | inl heq => exact .inr (List.mem_append_left _ (heq ▸ hv))
    | inr hu =>
      obtain hseen | hstack := h u hu v hv hlt
      · exact .inl (List.mem_cons_of_mem w hseen)
      · cases List.mem_cons.1 hstack with
        | inl heq => exact .inl (by simp [heq])
        | inr hmem => exact .inr (List.mem_append_right _ hmem)
  | case3 seen w stack hw ih =>
    refine ih fun u hu v hv hlt => ?_
    obtain hseen | hstack := h u hu v hv hlt
    · exact .inl hseen
    · cases List.mem_cons.1 hstack with
      | inr hmem => exact .inr hmem
      | inl heq =>
        subst heq
        exact .inl (Classical.not_not.1 fun hseen => hw ⟨hlt, hseen⟩)

/-- What holds of all that has been seen and of the stack, and is carried along the edges, holds of
all that is listed. -/
theorem of_mem_search {size : Nat} {next : Nat → List Nat} {seen stack : List Nat} {P : Nat → Prop}
    (hnext : ∀ u, P u → ∀ v ∈ next u, P v) (hseen : ∀ v ∈ seen, P v) (hstack : ∀ v ∈ stack, P v) :
    ∀ v ∈ search size next seen stack, P v := by
  fun_induction search size next seen stack with
  | case1 seen => simpa using hseen
  | case2 seen u stack _ ih =>
    have hu : P u := hstack u (List.mem_cons_self ..)
    refine ih (List.forall_mem_cons.2 ⟨hu, hseen⟩) fun v hv => ?_
    obtain hv | hv := List.mem_append.1 hv
    · exact hnext u hu v hv
    · exact hstack v (List.mem_cons_of_mem u hv)
  | case3 seen u stack _ ih => exact ih hseen fun v hv => hstack v (List.mem_cons_of_mem u hv)

theorem nodup_search {size : Nat} {next : Nat → List Nat} {seen stack : List Nat}
    (h : seen.Nodup) : (search size next seen stack).Nodup := by
  fun_induction search size next seen stack with
  | case1 seen => exact List.nodup_reverse.2 h
  | case2 seen u stack hu ih => exact ih (List.nodup_cons.2 ⟨hu.2, h⟩)
  | case3 seen u stack _ ih => exact ih h

/-- All that a path of edges leads to is reached, as long as no edge leads past the bound. -/
theorem mem_reach {size : Nat} {next : Nat → List Nat} {start : List Nat} {u v : Nat}
    (hbound : ∀ u, ∀ v ∈ next u, v < size) (hu : u ∈ start) (hlt : u < size)
    (h : ReflTransGen (fun u v => v ∈ next u) u v) : v ∈ reach size next start := by
  induction h with
  | refl => exact mem_search (.inr ⟨hlt, hu⟩)
  | @tail w v _ hv ih =>
    exact search_closed (fun u hu => absurd hu List.not_mem_nil) w ih v hv (hbound w v hv)

/-- What is reached is what paths of edges lead to. -/
theorem mem_reach_iff {size : Nat} {next : Nat → List Nat} {start : List Nat} {v : Nat}
    (hbound : ∀ u, ∀ v ∈ next u, v < size) (hstart : ∀ u ∈ start, u < size) :
    v ∈ reach size next start ↔ ∃ u ∈ start, ReflTransGen (fun u v => v ∈ next u) u v := by
  constructor
  · have hseen : ∀ w ∈ ([] : List Nat), ∃ u ∈ start, ReflTransGen (fun u v => v ∈ next u) u w :=
      fun w hw => absurd hw List.not_mem_nil
    refine of_mem_search (fun w hw v hv => ?_) hseen (fun u hu => ⟨u, hu, .refl⟩) v
    obtain ⟨u, hu, hpath⟩ := hw
    exact ⟨u, hu, hpath.tail hv⟩
  · rintro ⟨u, hu, hpath⟩
    exact mem_reach hbound hu (hstart u hu) hpath

end StateDiagram.Graph
