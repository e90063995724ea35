import StateDiagram.Parser.Trace
import StateDiagram.Proofs.Parser.Steps
import Mathlib.Logic.Relation

/-! Calls of the host and what they come to. Each call that does not start a new parse is a chain
of steps: advances, backups and changes of features. From a session that stands somewhere every
call gives a session that stands somewhere, and none of them fails. -/
namespace StateDiagram

open StateDiagram.Tree Arena

variable {σ : Type} {p : Parser σ}

/-- The calls that a host can make. A search for the next parse goes on for at most `fuel`
rounds. -/
inductive Call where
  | start (input : String) (goals : List String)
  | startTokens (tokens goals : List String)
  | replay (input : String) (goals : List String) (choices : List Choice)
  | advance
  | advanceWith (choice : Choice)
  | backup
  | parse (fuel : Nat)
  | parseBounded (max : Nat)
  | record (max : Nat)
  | set (name : String) (value : Value)

/-- Starts no new parse. -/
def Call.goesOn : Call → Bool
  | start _ _ => false
  | startTokens _ _ => false
  | replay _ _ _ => false
  | _ => true

namespace Parser

def call (p : Parser σ) : Call → Session σ → Except Fault (Session σ)
  | .start input goals, s => .ok (p.start input goals s)
  | .startTokens tokens goals, s => .ok (startTokens tokens goals s)
  | .replay input goals cs, s => (p.replay input goals cs s).map (·.2)
  | .advance, s => (p.advance s).map (·.2)
  | .advanceWith c, s => (p.advanceWith c s).map (·.2)
  | .backup, s => (p.backup s).map (·.2)
  | .parse fuel, s => (p.parse fuel s).map (·.2)
  | .parseBounded max, s => (p.parseBounded max s).map (·.2)
  | .record max, s => (Trace.record p max s).map (·.2)
  | .set name value, s => .ok (s.setFeature name value)

def calls (p : Parser σ) : List Call → Session σ → Except Fault (Session σ)
  | [], s => .ok s
  | c :: cs, s => do p.calls cs (← p.call c s)

/-- One step of a parse. -/
inductive Step (p : Parser σ) : Session σ → Session σ → Prop where
  | advance {s s' : Session σ} {signal : Signal} : p.advance s = .ok (signal, s') → Step p s s'
  | advanceWith {s s' : Session σ} {signal : Signal} (c : Choice) :
    p.advanceWith c s = .ok (signal, s') → Step p s s'
  | backup {s s' : Session σ} {found : Bool} : p.backup s = .ok (found, s') → Step p s s'
  | set (s : Session σ) (name : String) (value : Value) : Step p s (s.setFeature name value)

end Parser

/-- The session stands somewhere. -/
def Session.Placed (p : Parser σ) (s : Session σ) : Prop :=
  ∃ x saved, Stands p s x saved

/-- The units of a parse that has made no move. -/
def tokenUnits : Nat → List String → List Tree
  | _, [] => []
  | i, w :: ws => .node i w none none [] :: tokenUnits (i + 1) ws

theorem bare_tokenUnits (i : Nat) (ws : List String) :
    (tokenUnits i ws).map Tree.bare = ws.map fun w => .unit w none none [] := by
  induction ws generalizing i with
  | nil => rfl
  | cons w ws ih => simp [tokenUnits, ih, bare, Form.clear]

theorem parts_tokenUnits {i : Nat} {ws : List String} {t : Tree} (h : t ∈ tokenUnits i ws) :
    t.parts = [] := by
  induction ws generalizing i with
  | nil => cases h
  | cons w ws ih =>
    cases List.mem_cons.1 h with
    | inl heq => rw [heq]; rfl
    | inr hmem => exact ih hmem

/-- Tokens behind the last unit of an arena: the arena keeps all but the link of that unit. -/
theorem spans_appendTokens (tokens : List String) : ∀ {a : Arena} {last : Nat} {u : Phrase},
    a.get? last = some u → u.next = none → last + 1 = a.size →
      (appendTokens last tokens a).get? last =
          some { u with next := start (tokenUnits a.size tokens) none } ∧
        (∀ i < last, (appendTokens last tokens a).get? i = a.get? i) ∧
        (appendTokens last tokens a).Spans (start (tokenUnits a.size tokens) none)
          (tokenUnits a.size tokens) none := by
  induction tokens with
  | nil =>
    intro a last u hu hnext _
    refine ⟨?_, fun _ _ => rfl, .nil none⟩
    rw [appendTokens, hu, tokenUnits, start, ← hnext]
  | cons t ts ih =>
    intro a last u hu hnext hsize
    let b := (a.alloc { word := t }).setNext last (some a.size)
    have hbsize : b.size = a.size + 1 := by simp [b, setNext]
    have hblast : b.get? last = some { u with next := some a.size } := by
      simp [b, setNext, hu, show last ≠ a.size by omega]
    have hbnew : b.get? a.size = some { word := t } := by
      simp [b, setNext, get?_modify_ne _ (show a.size ≠ last by omega)]
    obtain ⟨hlast, hkept, hspans⟩ := ih hbnew rfl (by omega)
    rw [hbsize] at hlast hspans
    have hrun : appendTokens last (t :: ts) a = appendTokens a.size ts b := rfl
    rw [hrun]
    refine ⟨?_, fun i hi => ?_, ?_⟩
    · rw [hkept last (by omega), hblast]
      rfl
    · rw [hkept i (by omega)]
      simp [b, setNext, get?_modify_ne _ (Nat.ne_of_lt hi), show i ≠ a.size by omega]
    · exact .cons hlast (.nil none) hspans

/-- A parse that has made no move stands before its tokens. -/
theorem stands_start (p : Parser σ) (tokens goals : List String) (host : σ) :
    Stands p (.start tokens goals host) ⟨[], tokenUnits 1 tokens⟩ [] := by
  let a₀ : Arena := Arena.alloc { word := headerWord } {}
  have hhead : a₀.get? 0 = some { word := headerWord } := rfl
  obtain ⟨hlast, -, hspans⟩ := spans_appendTokens tokens hhead rfl rfl
  have hunits : Post.units ⟨(Session.start tokens goals host).state, ⟨[], tokenUnits 1 tokens⟩⟩ =
      header 0 :: tokenUnits 1 tokens := rfl
  have hlays : Post.Lays (Session.start tokens goals host).arena
      ⟨(Session.start tokens goals host).state, ⟨[], tokenUnits 1 tokens⟩⟩ := by
    refine ⟨?_, rfl, .outside⟩
    rw [hunits]
    exact .cons hlast (.nil none) hspans
  have hinner : inner (header 0 :: tokenUnits 1 tokens) = [] := by
    rw [inner_cons, parts_header, slotsOf_nil, List.nil_append, Tree.inner, List.flatMap_eq_nil_iff]
    intro t ht
    rw [parts_tokenUnits ht]
    rfl
  refine ⟨⟨by simpa using hlays, ?_, by simp, ?_, free_false .., ?_, by simp⟩, rfl⟩
  · intro f hf
    obtain rfl := List.mem_singleton.1 hf
    refine ⟨by simp [Place.view], fun u hu => ?_⟩
    simp only [Place.view, bare_tokenUnits, List.mem_map] at hu
    obtain ⟨w, -, rfl⟩ := hu
    exact ⟨[w], .token w⟩
  · intro f hf g hg i _ hin
    obtain rfl := List.mem_singleton.1 hg
    rw [hunits, hinner] at hin
    cases hin
  · intro cs hcs
    cases hcs

theorem Took.stands {cs : List Choice} {s s' : Session σ} {x x' : Place Tree}
    {saved saved' : List Post} {signal : Signal} (h : Took p cs s x saved signal s' x' saved')
    (hs : Stands p s x saved) : Stands p s' x' saved' := by
  cases h with
  | blocked hcs =>
    exact ⟨hs.standing.restate _ rfl rfl rfl rfl id (by simp), hs.stack⟩
  | refused hcs h => exact h.stands
  | vetoed hcs hsignal h => exact h.moved.stands
  | made hcs h => exact h.moved.stands.record _

theorem Took.goals {cs : List Choice} {s s' : Session σ} {x x' : Place Tree}
    {saved saved' : List Post} {signal : Signal} (h : Took p cs s x saved signal s' x' saved') :
    s'.goals = s.goals := by
  cases h with
  | blocked _ => rfl
  | refused _ h =>
    obtain ⟨features, host, rfl⟩ := h.same
    rfl
  | vetoed _ _ h => exact h.moved.goals
  | made _ h => exact h.moved.goals

theorem Stands.set {s : Session σ} {x : Place Tree} {saved : List Post} (h : Stands p s x saved)
    (name : String) (value : Value) : Stands p (s.setFeature name value) x saved :=
  ⟨h.standing.restate _ rfl rfl rfl rfl id h.standing.choices, h.stack⟩

/-- What a step makes of a session: it takes the first of some choices that are left, it changes
nothing that the places of the states depend on, or it takes up the latest saved state. -/
inductive Stepped (p : Parser σ) (s : Session σ) (x : Place Tree) (saved : List Post)
    (s' : Session σ) : Place Tree → List Post → Prop where
  | took {cs : List Choice} {signal : Signal} {x' : Place Tree} {saved' : List Post} :
    cs.Subperm (s.untried p x) → Took p cs s x saved signal s' x' saved' →
      Stepped p s x saved s' x' saved'
  | kept : Stands p s' x saved → s'.arena = s.arena → s'.goals = s.goals →
    s'.state.path = s.state.path → s'.untried p x = s.untried p x → Stepped p s x saved s' x saved
  | resumed {e : Post} {saved' : List Post} : saved = e :: saved' → Stands p s' e.place saved' →
    Resumed p s s' e → Stepped p s x saved s' e.place saved'

theorem Stands.step {s s' : Session σ} {x : Place Tree} {saved : List Post}
    (h : Stands p s x saved) (hg : p.grammar.Sound) (hstep : p.Step s s') :
    ∃ x' saved', Stepped p s x saved s' x' saved' := by
  cases hstep with
  | advance hrun =>
    obtain ⟨signal, s₁, x', saved', hrun', htook⟩ := h.advance hg
    rw [hrun] at hrun'
    cases hrun'
    exact ⟨x', saved', .took (List.Subperm.refl _) htook⟩
  | advanceWith c hrun =>
    obtain ⟨-, hrun', hs'⟩ | ⟨hc, signal, s₁, x', saved', hrun', htook⟩ := h.advanceWith hg c
    · rw [hrun] at hrun'
      cases hrun'
      exact ⟨x, saved, .kept hs' rfl rfl rfl rfl⟩
    · rw [hrun] at hrun'
      cases hrun'
      exact ⟨x', saved', .took (List.perm_cons_erase hc).symm.subperm htook⟩
  | backup hrun =>
    cases saved with
    | nil =>
      rw [h.backup_nil] at hrun
      cases hrun
      exact ⟨x, [], .kept h rfl rfl rfl rfl⟩
    | cons e saved =>
      obtain ⟨s₁, hrun', hs', hresumed⟩ := h.backup hg
      rw [hrun] at hrun'
      cases hrun'
      exact ⟨e.place, saved, .resumed rfl hs' hresumed⟩
  | set name value => exact ⟨x, saved, .kept (h.set name value) rfl rfl rfl rfl⟩

theorem Stepped.stands {s s' : Session σ} {x x' : Place Tree} {saved saved' : List Post}
    (h : Stepped p s x saved s' x' saved') (hs : Stands p s x saved) : Stands p s' x' saved' := by
  cases h with
  | took _ h => exact h.stands hs
  | kept h _ _ _ _ => exact h
  | resumed _ h _ => exact h

/-- A parse never changes its goals. -/
theorem Stepped.goals {s s' : Session σ} {x x' : Place Tree} {saved saved' : List Post}
    (h : Stepped p s x saved s' x' saved') : s'.goals = s.goals := by
  cases h with
  | took _ h => exact h.goals
  | kept _ _ h _ _ => exact h
  | resumed _ _ h => exact h.goals

namespace Session.Placed

variable {s : Session σ}

theorem start (p : Parser σ) (tokens goals : List String) (host : σ) :
    Placed p (.start tokens goals host) :=
  ⟨_, _, stands_start p tokens goals host⟩

theorem advance (h : s.Placed p) (hg : p.grammar.Sound) :
    ∃ signal s', p.advance s = .ok (signal, s') ∧ s'.Placed p := by
  obtain ⟨x, saved, hs⟩ := h
  obtain ⟨signal, s', x', saved', hrun, htook⟩ := hs.advance hg
  exact ⟨signal, s', hrun, x', saved', htook.stands hs⟩

theorem advanceWith (h : s.Placed p) (hg : p.grammar.Sound) (c : Choice) :
    ∃ signal s', p.advanceWith c s = .ok (signal, s') ∧ s'.Placed p := by
  obtain ⟨x, saved, hs⟩ := h
  obtain ⟨-, hrun, hs'⟩ | ⟨-, signal, s', x', saved', hrun, htook⟩ := hs.advanceWith hg c
  · exact ⟨_, _, hrun, x, saved, hs'⟩
  · exact ⟨signal, s', hrun, x', saved', htook.stands hs⟩

theorem backup (h : s.Placed p) (hg : p.grammar.Sound) :
    ∃ found s', p.backup s = .ok (found, s') ∧ s'.Placed p := by
  obtain ⟨x, saved, hs⟩ := h
  cases saved with
  | nil => exact ⟨false, s, hs.backup_nil, x, [], hs⟩
  | cons e saved =>
    obtain ⟨s', hrun, hs', -⟩ := hs.backup hg
    exact ⟨true, s', hrun, e.place, saved, hs'⟩

theorem step {s' : Session σ} (h : s.Placed p) (hg : p.grammar.Sound) (hstep : p.Step s s') :
    s'.Placed p := by
  obtain ⟨x, saved, hs⟩ := h
  obtain ⟨x', saved', hstepped⟩ := hs.step hg hstep
  exact ⟨x', saved', hstepped.stands hs⟩

theorem steps {s' : Session σ} (h : s.Placed p) (hg : p.grammar.Sound)
    (hsteps : Relation.ReflTransGen p.Step s s') : s'.Placed p := by
  induction hsteps with
  | refl => exact h
  | tail _ hstep ih => exact ih.step hg hstep

theorem steps_goals {s' : Session σ} (h : s.Placed p) (hg : p.grammar.Sound)
    (hsteps : Relation.ReflTransGen p.Step s s') : s'.goals = s.goals := by
  induction hsteps with
  | refl => rfl
  | tail hsteps hstep ih =>
    obtain ⟨x, saved, hs⟩ := h.steps hg hsteps
    obtain ⟨x', saved', hstepped⟩ := hs.step hg hstep
    exact hstepped.goals.trans ih

end Session.Placed

namespace Parser

open Relation

variable {s : Session σ}

/-- One round of a search is an advance and perhaps a backup. -/
theorem stage_steps (h : s.Placed p) (hg : p.grammar.Sound) :
    ∃ stage s', p.stage s = .ok (stage, s') ∧ ReflTransGen p.Step s s' := by
  obtain ⟨signal, s', hrun, hs'⟩ := h.advance hg
  have hstep : ReflTransGen p.Step s s' := .single (.advance hrun)
  simp only [stage, hrun, bind, Except.bind, pure, Except.pure]
  cases signal with
  | quit => exact ⟨_, _, rfl, hstep⟩
  | succeed => exact ⟨_, _, rfl, hstep⟩
  | noAdvance =>
    obtain ⟨found, s'', hback, -⟩ := hs'.backup hg
    rw [hback]
    exact ⟨_, _, rfl, hstep.tail (.backup hback)⟩

theorem parse_steps (hg : p.grammar.Sound) (fuel : Nat) : ∀ {s : Session σ}, s.Placed p →
    ∃ found s', p.parse fuel s = .ok (found, s') ∧ ReflTransGen p.Step s s' := by
  induction fuel with
  | zero => exact fun _ => ⟨none, _, rfl, .refl⟩
  | succ fuel ih =>
    intro s h
    obtain ⟨stage, s', hrun, hsteps⟩ := stage_steps h hg
    simp only [parse, hrun, bind, Except.bind, pure, Except.pure]
    cases stage with
    | complete => exact ⟨_, _, rfl, hsteps⟩
    | failed => exact ⟨_, _, rfl, hsteps⟩
    | searching =>
      obtain ⟨found, s'', hrun', hsteps'⟩ := ih (h.steps hg hsteps)
      exact ⟨found, s'', hrun', hsteps.trans hsteps'⟩

theorem boundedFrom_steps (hg : p.grammar.Sound) (left : Nat) : ∀ (made : Nat) {s : Session σ},
    s.Placed p → ∃ n s', p.boundedFrom made left s = .ok (n, s') ∧ ReflTransGen p.Step s s' := by
  induction left with
  | zero => exact fun _ _ _ => ⟨_, _, rfl, .refl⟩
  | succ left ih =>
    intro made s h
    obtain ⟨stage, s', hrun, hsteps⟩ := stage_steps h hg
    simp only [boundedFrom, hrun, bind, Except.bind, pure, Except.pure]
    cases stage with
    | complete => exact ⟨_, _, rfl, hsteps⟩
    | failed => exact ⟨_, _, rfl, hsteps⟩
    | searching =>
      obtain ⟨n, s'', hrun', hsteps'⟩ := ih (made + 1) (h.steps hg hsteps)
      exact ⟨n, s'', hrun', hsteps.trans hsteps'⟩

theorem follow_steps (hg : p.grammar.Sound) (cs : List Choice) : ∀ {s : Session σ}, s.Placed p →
    ∃ found s', p.follow cs s = .ok (found, s') ∧ ReflTransGen p.Step s s' := by
  induction cs with
  | nil => exact fun _ => ⟨_, _, rfl, .refl⟩
  | cons c cs ih =>
    intro s h
    obtain ⟨signal, s', hrun, hs'⟩ := h.advanceWith hg c
    have hstep : ReflTransGen p.Step s s' := .single (.advanceWith c hrun)
    simp only [follow, hrun, bind, Except.bind, pure, Except.pure]
    cases signal with
    | quit => exact ⟨_, _, rfl, hstep⟩
    | noAdvance => exact ⟨_, _, rfl, hstep⟩
    | succeed =>
      obtain ⟨found, s'', hrun', hsteps'⟩ := ih hs'
      exact ⟨found, s'', hrun', hstep.trans hsteps'⟩

theorem recordFrom_steps (hg : p.grammar.Sound) (max fuel : Nat) :
    ∀ (made : Nat) {s : Session σ}, s.Placed p →
      ∃ es s', Trace.recordFrom p max fuel made s = .ok (es, s') ∧ ReflTransGen p.Step s s' := by
  induction fuel with
  | zero => exact fun _ _ _ => ⟨_, _, rfl, .refl⟩
  | succ fuel ih =>
    intro made s h
    by_cases hmade : max ≤ made
    · exact ⟨_, _, by rw [Trace.recordFrom, if_pos hmade], .refl⟩
    obtain ⟨signal, s', hrun, hs'⟩ := h.advance hg
    have hstep : ReflTransGen p.Step s s' := .single (.advance hrun)
    simp only [Trace.recordFrom, if_neg hmade, hrun, bind, Except.bind, pure, Except.pure]
    cases signal with
    | quit => exact ⟨_, _, rfl, hstep⟩
    | succeed =>
      obtain ⟨es, s'', hrun', hsteps'⟩ := ih (made + 1) hs'
      simp only [hrun']
      cases s'.isDone with
      | true => exact ⟨_, _, rfl, hstep⟩
      | false => exact ⟨_, _, rfl, hstep.trans hsteps'⟩
    | noAdvance =>
      obtain ⟨found, s'', hback, hs''⟩ := hs'.backup hg
      have hboth := hstep.tail (.backup hback)
      obtain ⟨es, s₃, hrun', hsteps'⟩ := ih (made + 2) hs''
      simp only [hback, hrun']
      cases found with
      | false => exact ⟨_, _, rfl, hboth⟩
      | true => exact ⟨_, _, rfl, hboth.trans hsteps'⟩

/-- A call that starts no new parse is a chain of steps. -/
theorem call_steps (h : s.Placed p) (hg : p.grammar.Sound) {c : Call} (hc : c.goesOn = true) :
    ∃ s', p.call c s = .ok s' ∧ ReflTransGen p.Step s s' := by
  cases c with
  | start input goals => cases hc
  | startTokens tokens goals => cases hc
  | replay input goals cs => cases hc
  | advance =>
    obtain ⟨signal, s', hrun, -⟩ := h.advance hg
    exact ⟨s', by rw [call, hrun]; rfl, .single (.advance hrun)⟩
  | advanceWith choice =>
    obtain ⟨signal, s', hrun, -⟩ := h.advanceWith hg choice
    exact ⟨s', by rw [call, hrun]; rfl, .single (.advanceWith choice hrun)⟩
  | backup =>
    obtain ⟨found, s', hrun, -⟩ := h.backup hg
    exact ⟨s', by rw [call, hrun]; rfl, .single (.backup hrun)⟩
  | parse fuel =>
    obtain ⟨found, s', hrun, hsteps⟩ := parse_steps hg fuel h
    exact ⟨s', by rw [call, hrun]; rfl, hsteps⟩
  | parseBounded max =>
    obtain ⟨n, s', hrun, hsteps⟩ := boundedFrom_steps hg max 0 h
    exact ⟨s', by rw [call, parseBounded, hrun]; rfl, hsteps⟩
  | record max =>
    obtain ⟨es, s', hrun, hsteps⟩ := recordFrom_steps hg max max 0 h
    exact ⟨s', by rw [call, Trace.record, hrun]; rfl, hsteps⟩
  | set name value => exact ⟨_, rfl, .single (.set s name value)⟩

/-- What holds at the start of every parse and is kept by every step is kept by every call. -/
theorem call_keeps {P : Session σ → Prop} (hg : p.grammar.Sound) (hplaced : ∀ s, P s → s.Placed p)
    (hstart : ∀ tokens goals host, P (.start tokens goals host))
    (hstep : ∀ s s', P s → p.Step s s' → P s') (hs : P s) (c : Call) :
    ∃ s', p.call c s = .ok s' ∧ P s' := by
  have hsteps : ∀ {s s' : Session σ}, P s → ReflTransGen p.Step s s' → P s' := by
    intro s s' hs hsteps
    induction hsteps with
    | refl => exact hs
    | tail _ hlast ih => exact hstep _ _ ih hlast
  cases hc : c.goesOn with
  | true =>
    obtain ⟨s', hrun, hchain⟩ := call_steps (hplaced s hs) hg hc
    exact ⟨s', hrun, hsteps hs hchain⟩
  | false =>
    cases c with
    | start input goals => exact ⟨_, rfl, hstart _ goals s.host⟩
    | startTokens tokens goals => exact ⟨_, rfl, hstart _ goals s.host⟩
    | replay input goals cs =>
      have hbegun : P (p.start input goals s) := hstart _ goals s.host
      obtain ⟨found, s', hrun, hchain⟩ := follow_steps hg cs (hplaced _ hbegun)
      exact ⟨s', by rw [call, replay, hrun]; rfl, hsteps hbegun hchain⟩
    | _ => cases hc

/-- What holds at the start of every parse and is kept by every step holds wherever calls lead; and
each of them succeeds. -/
theorem calls_keep {P : Session σ → Prop} (hg : p.grammar.Sound) (hplaced : ∀ s, P s → s.Placed p)
    (hstart : ∀ tokens goals host, P (.start tokens goals host))
    (hstep : ∀ s s', P s → p.Step s s' → P s') (cs : List Call) :
    ∀ {s : Session σ}, P s → ∃ s', p.calls cs s = .ok s' ∧ P s' := by
  induction cs with
  | nil => exact fun h => ⟨_, rfl, h⟩
  | cons c cs ih =>
    intro s h
    obtain ⟨s', hrun, hs'⟩ := call_keeps hg hplaced hstart hstep h c
    obtain ⟨s'', hrun', hs''⟩ := ih hs'
    refine ⟨s'', ?_, hs''⟩
    rw [calls, hrun]
    exact hrun'

/-- Whatever calls a host makes, each of them succeeds. -/
theorem calls_placed (hg : p.grammar.Sound) (cs : List Call) {s : Session σ} (h : s.Placed p) :
    ∃ s', p.calls cs s = .ok s' ∧ s'.Placed p :=
  calls_keep hg (fun _ hs => hs) (fun tokens goals host => .start p tokens goals host)
    (fun _ _ hs hstep => hs.step hg hstep) cs h

/-- Calls that start no new parse are a chain of steps. -/
theorem calls_steps (hg : p.grammar.Sound) {cs : List Call} (hcs : ∀ c ∈ cs, c.goesOn = true) :
    ∀ {s : Session σ}, s.Placed p →
      ∃ s', p.calls cs s = .ok s' ∧ ReflTransGen p.Step s s' := by
  induction cs with
  | nil => exact fun _ => ⟨_, rfl, .refl⟩
  | cons c cs ih =>
    intro s h
    obtain ⟨s', hrun, hsteps⟩ := call_steps h hg (hcs c (List.mem_cons_self ..))
    obtain ⟨s'', hrun', hsteps'⟩ :=
      ih (fun c hc => hcs c (List.mem_cons_of_mem _ hc)) (h.steps hg hsteps)
    refine ⟨s'', ?_, hsteps.trans hsteps'⟩
    rw [calls, hrun]
    exact hrun'

end Parser

end StateDiagram
