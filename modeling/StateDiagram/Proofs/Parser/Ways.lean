import StateDiagram.Proofs.Parser.Persistent

/-! Ways through the places of a parse without semantics. At each place some choices are offered,
and each of them leads to one other place, whatever the arena looks like. -/
namespace StateDiagram

open StateDiagram.Tree Arena

variable {σ : Type}

namespace Parser

variable (p : Parser σ)

/-- The value of the innermost phrase, if it is completed here. -/
def valueAt (x : Place Form) : Option Value :=
  x.opened.head?.bind p.plainValue

/-- Where a choice leads to without semantics. -/
def moved (c : Choice) (x : Place Form) : Place Form :=
  x.after p.config.dummyWord (p.valueAt x) c

/-- What is offered at a place that the moves `path`, the latest first, have led to. Once a phrase
has been completed there are no dummy moves behind it. -/
def fresh (goals : List String) (path : List Choice) (x : Place Form) : List Choice :=
  match path with
  | .final _ :: _ => p.offered goals .none x
  | _ => p.offered goals .all x

/-- The moves `path`, the latest first, lead from `x₀` to a place. -/
inductive Way (goals : List String) (x₀ : Place Form) : List Choice → Place Form → Prop where
  | start : Way goals x₀ [] x₀
  | step {path : List Choice} {x : Place Form} {c : Choice} : Way goals x₀ path x →
    c ∈ p.fresh goals path x → Way goals x₀ (c :: path) (p.moved c x)

/-- The value that a phrase has without semantics if it ends at the node. -/
def Plain (node : Node) (v : Option Value) : Prop :=
  v = node.value?.map .string

variable {p} {goals : List String} {x₀ x y : Place Form} {path : List Choice} {c : Choice}

@[simp] theorem moved_initial (n : Nat) (os : List (List Form)) (u : Form) (us : List Form) :
    p.moved (.initial n) ⟨os, u :: us⟩ = ⟨[u.mark n] :: os, us⟩ := rfl

@[simp] theorem moved_nonDummy (n : Nat) (o : List Form) (os : List (List Form)) (u : Form)
    (us : List Form) :
    p.moved (.nonDummy n) ⟨o :: os, u :: us⟩ = ⟨(u.mark n :: o) :: os, us⟩ := rfl

@[simp] theorem moved_dummy (n : Nat) (o : List Form) (os : List (List Form)) (us : List Form) :
    p.moved (.dummy n) ⟨o :: os, us⟩ =
      ⟨(.unit p.config.dummyWord (some n) none [] :: o) :: os, us⟩ := by
  cases us <;> rfl

@[simp] theorem moved_final (type : String) (o : List Form) (os : List (List Form))
    (us : List Form) : p.moved (.final type) ⟨o :: os, us⟩ =
      ⟨os, .unit type none (p.plainValue o) o.reverse :: us⟩ := by
  cases us <;> rfl

theorem offered_of_mem_fresh (h : c ∈ p.fresh goals path x) : ∃ d, c ∈ p.offered goals d x := by
  unfold fresh at h
  split at h <;> exact ⟨_, h⟩

theorem mem_fresh_of_offered (h : ∀ d, c ∈ p.offered goals d x) : c ∈ p.fresh goals path x := by
  unfold fresh
  split <;> exact h _

/-- What is offered there as well, whatever dummy moves are left out, stays fresh. -/
theorem fresh_mono {q : Parser σ} (h : ∀ d, c ∈ p.offered goals d x → c ∈ q.offered goals d y)
    (hc : c ∈ p.fresh goals path x) : c ∈ q.fresh goals path y := by
  unfold fresh at hc ⊢
  split at hc <;> exact h _ hc

theorem legal_of_mem_fresh (h : c ∈ p.fresh goals path x) : p.Legal x c :=
  have ⟨_, hd⟩ := offered_of_mem_fresh h
  legal_of_mem_offered hd

/-- Where no phrase is open there are no dummy moves. -/
theorem offered_outside (h : x.opened = []) (d d' : Dummies) :
    p.offered goals d x = p.offered goals d' x := by
  simp only [offered, h]

theorem fresh_of_ne (h : ∀ type, c ≠ .final type) :
    p.fresh goals (c :: path) x = p.offered goals .all x := by
  unfold fresh
  split
  · rename_i type _ heq
    exact absurd (List.cons.inj heq).1 (h type)
  · rfl

theorem Way.unique (h : p.Way goals x₀ path x) (h' : p.Way goals x₀ path y) : x = y := by
  induction path generalizing x y with
  | nil =>
    cases h
    cases h'
    rfl
  | cons c path ih =>
    cases h with
    | step h hc =>
      cases h' with
      | step h' hc' => rw [ih h h']

/-- The way up to an earlier place. -/
theorem Way.before {cs : List Choice} (h : p.Way goals x₀ (cs ++ path) y) :
    ∃ x, p.Way goals x₀ path x := by
  induction cs generalizing y with
  | nil => exact ⟨y, h⟩
  | cons c cs ih =>
    cases h with
    | step h _ => exact ih h

theorem Fits.moved (h : p.Fits Plain x) (hc : p.Legal x c) : p.Fits Plain (p.moved c x) := by
  refine h.after hc fun o os type node ho _ hat => ?_
  simp [Plain, valueAt, ho, plainValue, hat]

end Parser

/-- A place before the tokens of an input. -/
def Place.ofTokens (tokens : List String) : Place Form :=
  ⟨[], tokens.map fun w => .unit w none none []⟩

@[simp] theorem Place.view_tokenUnits (i : Nat) (tokens : List String) :
    Place.view ⟨[], tokenUnits i tokens⟩ = .ofTokens tokens := by
  rw [Place.view, bare_tokenUnits]
  rfl

variable {p : Parser σ}

/-- What a parse without semantics makes of the choice `c` if `others` remain. -/
structure Advanced (p : Parser σ) (c : Choice) (others : List Choice) (s : Session σ)
    (x : Place Tree) (saved : List Post) (s' : Session σ) (x' : Place Tree) (saved' : List Post) :
    Prop where
  stands : Stands p s' x' saved'
  view : x'.view = p.moved c x.view
  path : s'.state.path = c :: s.state.path
  goals : s'.goals = s.goals
  steps : s'.steps = s.steps + 1
  untried : s'.untried p x' = p.fresh s.goals (c :: s.state.path) x'.view
  carried : List.Forall₂ (Carried p ⟨Post.setOut c others ⟨s.state, x⟩, x⟩ s.arena s'.arena x')
    (pushed c others ⟨s.state, x⟩ saved) saved'
  grown : Grown p (pushed c others ⟨s.state, x⟩ saved) s.arena
    (Post.setOut c others ⟨s.state, x⟩) s'.state x x' c

namespace Made

variable {s s' : Session σ} {x x' : Place Tree} {saved saved' : List Post} {c : Choice}
  {v : Option Value} {signal : Signal}

/-- Without semantics a move comes to the place to which its choice leads. -/
theorem view_eq (h : Made p c v signal s s' x x' saved saved') (hc : p.Legal x.view c)
    (hsem : p.semantics = none) : x'.view = p.moved c x.view := by
  rw [h.view, Parser.moved]
  cases c with
  | final type =>
    obtain ⟨o, os, node, hopened, -⟩ := hc.final_inv
    rw [(h.plain hsem).2 o os hopened ⟨type, rfl⟩, Parser.valueAt, hopened]
    rfl
  | _ => cases hx : x.view with | mk os us => cases os <;> cases us <;> rfl

/-- The choices that are there once the move has been recorded. -/
theorem untried_record (h : Made p c v signal s s' x x' saved saved') :
    (Parser.record c s').untried p x' = p.fresh s.goals (c :: s.state.path) x'.view := by
  have hrecord : (Parser.record c s').untried p x' = s'.untried p x' := rfl
  rw [hrecord, Session.untried, h.moved.goals]
  by_cases hfinal : ∃ type, c = .final type
  · obtain ⟨type, rfl⟩ := hfinal
    rw [(h.completed ⟨type, rfl⟩).2]
    cases hdone : x'.view.isDone s.goals with
    | false => rfl
    | true =>
      simp only [if_true, Option.getD_none]
      exact Parser.offered_outside (Place.isDone_iff.1 hdone).1 _ _
  · have hne : ∀ type, c ≠ .final type := fun type hc => hfinal ⟨type, hc⟩
    rw [h.entered hne, Parser.fresh_of_ne hne]
    rfl

end Made

/-- Without semantics no move is refused: as long as a choice is left, an advance succeeds. -/
theorem Took.advanced {cs : List Choice} {s s' : Session σ} {x x' : Place Tree}
    {saved saved' : List Post} {signal : Signal} (h : Took p cs s x saved signal s' x' saved')
    (hs : Stands p s x saved) (hcs : ∀ c ∈ cs, p.Legal x.view c) (hsem : p.semantics = none) :
    (cs = [] ∧ signal = .noAdvance ∧
      s' = { s with state := { s.state with choices := some [] } } ∧ x' = x ∧ saved' = saved) ∨
    ∃ c others, cs = c :: others ∧ signal = .succeed ∧
      Advanced p c others s x saved s' x' saved' := by
  have hstands := h.stands hs
  have hgoals := h.goals
  cases h with
  | blocked hnil => exact .inl ⟨hnil, rfl, rfl, rfl, rfl⟩
  | refused _ h => exact absurd hsem h.semantics
  | vetoed _ hsignal h => exact absurd (h.plain hsem).1 hsignal
  | @made c others v s' _ _ heq h =>
    have hpath : (s.setOut c others x).state.path = s.state.path :=
      (Post.setOut_frame c others ⟨s.state, x⟩).2.2.2.2.1
    refine .inr ⟨c, others, heq, rfl, hstands, h.view_eq (hcs c (by simp [heq])) hsem, ?_, hgoals,
      ?_, ?_, h.moved.carried, h.grown.restate rfl rfl⟩
    · simp [Parser.record, h.moved.path, hpath]
    · have hsteps : s'.steps = s.steps := h.moved.steps
      simp [Parser.record, hsteps]
    · rw [h.untried_record, hpath]
      rfl

end StateDiagram
