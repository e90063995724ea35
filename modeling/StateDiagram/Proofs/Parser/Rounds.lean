import StateDiagram.Proofs.Parser.Calls

/-! Rounds of a search. Each round makes one advance, and nothing but the session is handed from one
round to the next. So a search can stop after any number of rounds, and it then goes on as if it had
not stopped. -/
namespace StateDiagram.Parser

variable {σ : Type} {p : Parser σ} {s t s' : Session σ} {b : Bool} {j k : Nat}

/-- Nothing is taken up if no state is saved. -/
theorem backup_false (h : p.backup s = .ok (false, s')) : s.saved = [] ∧ s' = s := by
  unfold backup at h
  cases hsaved : s.saved with
  | nil =>
    simp only [hsaved] at h
    cases h
    exact ⟨rfl, rfl⟩
  | cons st saved =>
    simp only [hsaved] at h
    obtain ⟨choices, -, h⟩ := bind_eq_ok h
    cases h

/-- The latest saved state is taken up as it was saved, except for its choices. -/
theorem backup_true (h : p.backup s = .ok (true, s')) : ∃ st saved choices, s.saved = st :: saved ∧
    s'.state = { st with choices } ∧ s'.saved = saved := by
  unfold backup at h
  cases hsaved : s.saved with
  | nil =>
    simp only [hsaved] at h
    cases h
  | cons st saved =>
    simp only [hsaved] at h
    obtain ⟨choices, -, h⟩ := bind_eq_ok h
    cases h
    exact ⟨st, saved, choices, rfl, rfl, rfl⟩

/-- What can happen in a round. -/
theorem stage_cases {stage : Stage} (h : p.stage s = .ok (stage, s')) :
    (p.advance s = .ok (.quit, s') ∧ stage = .failed) ∨
    (p.advance s = .ok (.succeed, s') ∧ stage = if s'.isDone then .complete else .searching) ∨
    ∃ t found, p.advance s = .ok (.noAdvance, t) ∧ p.backup t = .ok (found, s') ∧
      stage = if found then .searching else .failed := by
  obtain ⟨⟨signal, t⟩, hadvance, h⟩ := bind_eq_ok h
  cases signal with
  | quit =>
    cases h
    exact .inl ⟨hadvance, rfl⟩
  | succeed =>
    cases h
    exact .inr (.inl ⟨hadvance, rfl⟩)
  | noAdvance =>
    obtain ⟨⟨found, t'⟩, hback, h⟩ := bind_eq_ok h
    cases h
    exact .inr (.inr ⟨t, found, hadvance, hback, rfl⟩)

/-- A round that goes on has made a move, or has taken up a saved state. -/
theorem stage_searching (h : p.stage s = .ok (.searching, t)) :
    (p.advance s = .ok (.succeed, t) ∧ t.isDone = false) ∨
    ∃ u, p.advance s = .ok (.noAdvance, u) ∧ p.backup u = .ok (true, t) := by
  obtain ⟨-, hstage⟩ | ⟨hadvance, hstage⟩ | ⟨u, found, hadvance, hback, hstage⟩ := stage_cases h
  · cases hstage
  · cases hdone : t.isDone with
    | false => exact .inl ⟨hadvance, rfl⟩
    | true => simp [hdone] at hstage
  · cases found with
    | false => cases hstage
    | true => exact .inr ⟨u, hadvance, hback⟩

/-- A round that completes a parse has made a move. -/
theorem stage_complete (h : p.stage s = .ok (.complete, s')) :
    p.advance s = .ok (.succeed, s') ∧ s'.isDone = true := by
  obtain ⟨-, hstage⟩ | ⟨hadvance, hstage⟩ | ⟨t, found, -, -, hstage⟩ := stage_cases h
  · cases hstage
  · cases hdone : s'.isDone with
    | false => simp [hdone] at hstage
    | true => exact ⟨hadvance, rfl⟩
  · cases found <;> cases hstage

/-- A search goes through some rounds and has not come to an end. -/
inductive Rounds (p : Parser σ) : Nat → Session σ → Session σ → Prop where
  | refl (s : Session σ) : Rounds p 0 s s
  | head {k : Nat} {s t u : Session σ} : p.stage s = .ok (.searching, t) → Rounds p k t u →
    Rounds p (k + 1) s u

/-- A search succeeds or fails, as `b` says, in its last round. -/
inductive Concludes (p : Parser σ) : Nat → Bool → Session σ → Session σ → Prop where
  | last {b : Bool} {s s' : Session σ} :
    p.stage s = .ok (if b then .complete else .failed, s') → Concludes p 1 b s s'
  | head {k : Nat} {b : Bool} {s t s' : Session σ} : p.stage s = .ok (.searching, t) →
    Concludes p k b t s' → Concludes p (k + 1) b s s'

namespace Rounds

theorem parse (h : p.Rounds k s t) (fuel : Nat) : p.parse (k + fuel) s = p.parse fuel t := by
  induction h with
  | refl s => rw [Nat.zero_add]
  | head hstage _ ih =>
    rw [Nat.add_right_comm, Parser.parse, hstage, ← ih]
    rfl

theorem boundedFrom (h : p.Rounds k s t) (made left : Nat) :
    p.boundedFrom made (k + left) s = p.boundedFrom (made + k) left t := by
  induction h generalizing made with
  | refl s => rw [Nat.zero_add, Nat.add_zero]
  | @head k _ _ _ hstage _ ih =>
    rw [Nat.add_right_comm, Parser.boundedFrom, hstage, Nat.add_comm k 1, ← Nat.add_assoc, ← ih]
    rfl

theorem parse_stopped (h : p.Rounds k s t) : p.parse k s = .ok (none, t) :=
  h.parse 0

theorem bounded_stopped (h : p.Rounds k s t) : p.parseBounded k s = .ok (-k, t) := by
  have hrun := h.boundedFrom 0 0
  rw [Nat.zero_add] at hrun
  exact hrun

end Rounds

namespace Concludes

theorem pos (h : p.Concludes k b s s') : 0 < k := by
  cases h with
  | last _ => exact Nat.one_pos
  | head _ _ => exact Nat.succ_pos _

/-- What is left of a search that has been stopped before its end. -/
theorem after (h : p.Concludes k b s s') (hj : j < k) :
    ∃ t, p.Rounds j s t ∧ p.Concludes (k - j) b t s' := by
  induction j generalizing k s with
  | zero => exact ⟨s, .refl s, h⟩
  | succ j ih =>
    cases h with
    | last _ => omega
    | @head k _ _ t _ hstage h =>
      obtain ⟨u, hrounds, hrest⟩ := ih h (Nat.lt_of_succ_lt_succ hj)
      rw [← Nat.add_sub_add_right k 1 j] at hrest
      exact ⟨u, .head hstage hrounds, hrest⟩

theorem parse (h : p.Concludes k b s s') (fuel : Nat) :
    p.parse (k + fuel) s = .ok (some b, s') := by
  induction h with
  | @last b _ _ hstage =>
    rw [Nat.add_comm, Parser.parse, hstage]
    cases b <;> rfl
  | head hstage _ ih =>
    rw [Nat.add_right_comm, Parser.parse, hstage, ← ih]
    rfl

theorem boundedFrom (h : p.Concludes k b s s') (made left : Nat) :
    p.boundedFrom made (k + left) s =
      .ok (if b then (made + k : Int) else -(made + k), s') := by
  induction h generalizing made with
  | @last b _ _ hstage =>
    rw [Nat.add_comm, Parser.boundedFrom, hstage]
    cases b <;> rfl
  | @head k _ _ _ _ hstage _ ih =>
    have hcount : ((made + 1 : Nat) : Int) + k = made + (k + 1 : Nat) := by omega
    rw [Nat.add_right_comm, Parser.boundedFrom, hstage, ← hcount, ← ih]
    rfl

end Concludes

/-- A search that comes to an end goes through rounds until then. -/
theorem parse_concludes (fuel : Nat) : ∀ {s s' : Session σ}, p.parse fuel s = .ok (some b, s') →
    ∃ k ≤ fuel, p.Concludes k b s s' := by
  induction fuel with
  | zero => simp [parse]
  | succ fuel ih =>
    intro s s' hrun
    obtain ⟨⟨stage, s₁⟩, hstage, hrun⟩ := bind_eq_ok hrun
    cases stage with
    | complete =>
      cases hrun
      exact ⟨1, by omega, .last hstage⟩
    | failed =>
      cases hrun
      exact ⟨1, by omega, .last hstage⟩
    | searching =>
      obtain ⟨k, hk, hrest⟩ := ih hrun
      exact ⟨k + 1, by omega, .head hstage hrest⟩

end StateDiagram.Parser
