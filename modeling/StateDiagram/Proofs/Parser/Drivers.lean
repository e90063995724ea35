import StateDiagram.Proofs.Parser.Exhausted
import StateDiagram.Proofs.Parser.Search
import Mathlib.Algebra.GroupWithZero.Nat

/-! The drivers of a parse. A search without a bound, a search with a bound that is taken up again
any number of times, and a search that is recorded make the same advances and leave the same
session. -/
namespace StateDiagram

/-- The event of an advance, also of one that found nothing to try. -/
def Trace.Event.tries : Trace.Event → Bool
  | .advance _ | .blocked => true
  | _ => false

/-- How many advances were made. -/
def Trace.tried (es : List Trace.Entry) : Nat :=
  es.countP fun e => e.event.tries

/-- A round of a search leads from a session that stands somewhere to another. -/
theorem Session.Placed.searching {σ : Type} {p : Parser σ} {s t : Session σ} (h : s.Placed p)
    (hg : p.grammar.Sound) (hstage : p.stage s = .ok (.searching, t)) : t.Placed p := by
  obtain ⟨stage, s₁, hrun, hsteps⟩ := Parser.stage_steps h hg
  rw [hstage] at hrun
  cases hrun
  exact h.steps hg hsteps

namespace Parser

variable {σ : Type} {p : Parser σ} {s t s' : Session σ} {b : Bool} {k : Nat}

/-- The search from `s` makes `k` advances and succeeds or fails, as `b` says, and leaves `s'`. -/
structure Settles (p : Parser σ) (k : Nat) (b : Bool) (s s' : Session σ) : Prop where
  enough : ∀ n, k ≤ n → p.parse n s = .ok (some b, s')
  early : ∀ n < k, ∃ t, p.parse n s = .ok (none, t)

/-- How a bounded search tells the number of advances. -/
def advances (b : Bool) (k : Nat) : Int :=
  if b then k else -k

/-- Bounded searches one after the other, each of which goes on where the one before has stopped. -/
def parseBudgets (p : Parser σ) : List Nat → Session σ → Except Fault (List Int × Session σ)
  | [], s => .ok ([], s)
  | max :: budgets, s => do
    let (n, s) ← p.parseBounded max s
    let (ns, s) ← p.parseBudgets budgets s
    return (n :: ns, s)

theorem settles_iff : p.Settles k b s s' ↔ p.Concludes k b s s' := by
  constructor
  · intro h
    obtain ⟨j, hj, hrest⟩ := parse_concludes k (h.enough k (Nat.le_refl k))
    obtain rfl | hlt := Nat.eq_or_lt_of_le hj
    · exact hrest
    · obtain ⟨t, hnone⟩ := h.early j hlt
      have hsome : p.parse j s = .ok (some b, s') := hrest.parse 0
      rw [hnone] at hsome
      cases hsome
  · refine fun h => ⟨fun n hn => ?_, fun n hn => ?_⟩
    · obtain ⟨fuel, rfl⟩ := Nat.exists_eq_add_of_le hn
      exact h.parse fuel
    · obtain ⟨t, hrounds, -⟩ := h.after hn
      exact ⟨t, hrounds.parse_stopped⟩

theorem natAbs_advances (b : Bool) (k : Nat) : (advances b k).natAbs = k := by
  cases b <;> simp [advances]

namespace Concludes

theorem parseBounded (h : p.Concludes k b s s') {max : Nat} (hk : k ≤ max) :
    p.parseBounded max s = .ok (advances b k, s') := by
  obtain ⟨left, rfl⟩ := Nat.exists_eq_add_of_le hk
  rw [Parser.parseBounded, h.boundedFrom]
  simp [advances]

/-- Budgets that do not suffice are used up. -/
theorem budgets_stopped (budgets : List Nat) : ∀ {k : Nat} {s : Session σ}, p.Concludes k b s s' →
    budgets.sum < k → ∃ t, p.Concludes (k - budgets.sum) b t s' ∧ ∀ more,
      p.parseBudgets (budgets ++ more) s = (p.parseBudgets more t).map fun r =>
        (budgets.map (fun max : Nat => -(max : Int)) ++ r.1, r.2) := by
  induction budgets with
  | nil =>
    intro k s h _
    refine ⟨s, h, fun more => ?_⟩
    rw [List.nil_append]
    cases p.parseBudgets more s <;> rfl
  | cons max budgets ih =>
    intro k s h hsum
    rw [List.sum_cons] at hsum
    obtain ⟨t, hrounds, hrest⟩ := h.after (j := max) (by omega)
    obtain ⟨u, hrest', hmore⟩ := ih hrest (by omega)
    rw [List.sum_cons, ← Nat.sub_sub]
    refine ⟨u, hrest', fun more => ?_⟩
    rw [List.cons_append, parseBudgets, hrounds.bounded_stopped]
    simp only [bind, Except.bind, pure, Except.pure, hmore]
    cases p.parseBudgets more u <;> rfl

theorem parseBudgets (h : p.Concludes k b s s') {budgets : List Nat} {max : Nat}
    (hsum : budgets.sum < k) (hk : k ≤ budgets.sum + max) :
    p.parseBudgets (budgets ++ [max]) s =
      .ok (budgets.map (fun max : Nat => -(max : Int)) ++ [advances b (k - budgets.sum)], s') := by
  obtain ⟨t, hrest, hmore⟩ := h.budgets_stopped budgets hsum
  rw [hmore, Parser.parseBudgets, hrest.parseBounded (by omega)]
  rfl

end Concludes

/-- Without semantics no callback gives up. -/
theorem advance_ne_quit (hs : s.Placed p) (hg : p.grammar.Sound) (hsem : p.semantics = none) :
    p.advance s ≠ .ok (.quit, s') := by
  obtain ⟨x, saved, hs⟩ := hs
  obtain ⟨signal, s₁, x₁, saved₁, hrun, htook⟩ := hs.advance hg
  rw [hrun]
  rintro ⟨⟩
  obtain ⟨-, hsignal, -⟩ | ⟨-, -, -, hsignal, -⟩ := htook.advanced hs hs.legal_untried hsem
  · cases hsignal
  · cases hsignal

theorem tried_eventOf (s : Session σ) {signal : Signal} (h : signal ≠ .quit)
    (es : List Trace.Entry) :
    Trace.tried (Trace.entry p (Trace.eventOf signal s) s :: es) = Trace.tried es + 1 := by
  refine List.countP_cons_of_pos ?_
  unfold Trace.entry Trace.eventOf
  split
  · rfl
  · rfl
  · rfl
  · exact absurd rfl h

/-- A round that does not end the search records its advance, and perhaps a backup. -/
theorem record_round (h : p.stage s = .ok (.searching, t)) : ∃ es : List Trace.Entry,
    Trace.tried es = 1 ∧ es.length ≤ 2 ∧ ∀ max fuel made, made < max →
      Trace.recordFrom p max (fuel + 1) made s =
        (Trace.recordFrom p max fuel (made + es.length) t).map fun r => (es ++ r.1, r.2) := by
  obtain ⟨hadvance, hdone⟩ | ⟨u, hadvance, hback⟩ := stage_searching h
  · refine ⟨[Trace.entry p (Trace.eventOf .succeed t) t], ?_, by simp,
      fun max fuel made hmade => ?_⟩
    · rw [tried_eventOf t (by decide)]
      rfl
    · rw [Trace.recordFrom, if_neg (Nat.not_le.2 hmade), hadvance]
      simp only [bind, Except.bind, hdone]
      cases Trace.recordFrom p max fuel (made + 1) t <;> rfl
  · refine ⟨[Trace.entry p (Trace.eventOf .noAdvance u) u, Trace.entry p .backup t], ?_,
      by simp, fun max fuel made hmade => ?_⟩
    · rw [tried_eventOf u (by decide)]
      rfl
    · rw [Trace.recordFrom, if_neg (Nat.not_le.2 hmade), hadvance]
      simp only [bind, Except.bind, hback]
      cases Trace.recordFrom p max fuel (made + 2) t <;> rfl

/-- The last round of a search records its advance and how the search has ended. -/
theorem record_last (h : p.stage s = .ok (if b then .complete else .failed, s'))
    (hquit : p.advance s ≠ .ok (.quit, s')) : ∃ es : List Trace.Entry,
    Trace.tried es = 1 ∧ Trace.completed es = b ∧ ∀ max fuel made, made < max →
      Trace.recordFrom p max (fuel + 1) made s = .ok (es, s') := by
  cases b with
  | false =>
    have hout : p.GivesOut s s' := (stage_failed h).resolve_left hquit
    have hback : p.backup s' = .ok (false, s') := by
      rw [backup, hout.saved]
      rfl
    refine ⟨[Trace.entry p (Trace.eventOf .noAdvance s') s', Trace.entry p .exhausted s'], ?_, rfl,
      fun max fuel made hmade => ?_⟩
    · rw [tried_eventOf s' (by decide)]
      rfl
    · rw [Trace.recordFrom, if_neg (Nat.not_le.2 hmade), hout.advance]
      simp only [bind, Except.bind, hback]
      rfl
  | true =>
    obtain ⟨hadvance, hdone⟩ := stage_complete h
    refine ⟨[Trace.entry p (Trace.eventOf .succeed s') s', Trace.entry p .complete s'], ?_, rfl,
      fun max fuel made hmade => ?_⟩
    · rw [tried_eventOf s' (by decide)]
      rfl
    · rw [Trace.recordFrom, if_neg (Nat.not_le.2 hmade), hadvance]
      simp only [bind, Except.bind, hdone]
      rfl

/-- A search is recorded until its end if there is room for two events in each round. -/
theorem Concludes.record (h : p.Concludes k b s s') (hs : s.Placed p) (hg : p.grammar.Sound)
    (hsem : p.semantics = none) : ∃ es : List Trace.Entry,
    Trace.tried es = k ∧ Trace.completed es = b ∧ ∀ max fuel made, k ≤ fuel →
      made + 2 * k ≤ max → Trace.recordFrom p max fuel made s = .ok (es, s') := by
  induction h with
  | last hstage =>
    obtain ⟨es, hcount, hcompleted, hrun⟩ := record_last hstage (advance_ne_quit hs hg hsem)
    refine ⟨es, hcount, hcompleted, fun max fuel made hfuel hmax => ?_⟩
    obtain ⟨fuel, rfl⟩ := Nat.exists_eq_add_of_le' hfuel
    exact hrun max fuel made (by omega)
  | @head k b s t s' hstage hrest ih =>
    obtain ⟨pre, hone, hlength, hround⟩ := record_round hstage
    obtain ⟨es, hcount, hcompleted, hrun⟩ := ih (hs.searching hg hstage)
    -- the last entry of the rest tells whether the whole record is complete
    have hne : es ≠ [] := fun hnil => by
      have hpos := hrest.pos
      rw [hnil] at hcount
      have hzero : 0 = k := hcount
      omega
    refine ⟨pre ++ es, ?_, ?_, fun max fuel made hfuel hmax => ?_⟩
    · rw [Trace.tried, List.countP_append, ← Trace.tried, ← Trace.tried, hone, hcount,
        Nat.add_comm]
    · rw [Trace.completed, List.getLast?_append_of_ne_nil _ hne]
      exact hcompleted
    · obtain ⟨fuel, rfl⟩ := Nat.exists_eq_add_of_le' (Nat.le_trans (Nat.le_add_left 1 k) hfuel)
      rw [hround max fuel made (by omega), hrun max fuel _ (by omega) (by omega)]
      rfl

/-- Wherever the calls of a host have led a parser without semantics, let the search for the next
parse make `k` advances. Then a bounded search that may make as many gives `k`, or `-k` if there is
no parse, and leaves the same session. One that may make fewer uses up its bound and stops on the
way, so that bounded searches one after the other reach the same end with `k` advances in all. And a
record with room enough leaves the same session too and has `k` advances in it. -/
theorem drivers_agree {g : Grammar} (hg : g.Built) (hm : g.marked = true) (config : Config)
    (host : σ) (cs : List Call) :
    ∃ p s, make g config (none : Option (Semantics σ)) = .ok p ∧
      p.calls cs (.empty host) = .ok s ∧
      (∀ fuel b s', p.parse fuel s = .ok (some b, s') → ∃ k ≤ fuel, p.Settles k b s s') ∧
      ∀ k b s', p.Settles k b s s' →
        (∀ max, k ≤ max → p.parseBounded max s = .ok (advances b k, s')) ∧
        (∀ max < k, ∃ t, p.parseBounded max s = .ok (-max, t) ∧ p.parse max s = .ok (none, t) ∧
          p.Settles (k - max) b t s') ∧
        (∀ budgets max, budgets.sum < k → k ≤ budgets.sum + max → ∃ ns,
          p.parseBudgets (budgets ++ [max]) s = .ok (ns, s') ∧
          ns = budgets.map (fun max : Nat => -(max : Int)) ++ [advances b (k - budgets.sum)] ∧
          (ns.map Int.natAbs).sum = k) ∧
        ∃ es, Trace.tried es = k ∧ Trace.completed es = b ∧
          ∀ max, 2 * k ≤ max → Trace.record p max s = .ok (es, s') := by
  let p : Parser σ := ⟨g, config, none⟩
  have hsound : p.grammar.Sound := hg.sound
  obtain ⟨s, hrun, hs⟩ := calls_placed hsound cs (.start p [] [] host)
  refine ⟨p, s, if_pos hm, hrun, fun fuel b s' hparse => ?_, fun k b s' hsettles => ?_⟩
  · obtain ⟨k, hk, hrest⟩ := parse_concludes fuel hparse
    exact ⟨k, hk, settles_iff.2 hrest⟩
  have hrest := settles_iff.1 hsettles
  refine ⟨fun max hk => hrest.parseBounded hk, fun max hmax => ?_,
    fun budgets max hsum hk => ?_, ?_⟩
  · obtain ⟨t, hrounds, hafter⟩ := hrest.after hmax
    exact ⟨t, hrounds.bounded_stopped, hrounds.parse_stopped, settles_iff.2 hafter⟩
  · refine ⟨_, hrest.parseBudgets hsum hk, rfl, ?_⟩
    have habs : (budgets.map fun max : Nat => -(max : Int)).map Int.natAbs = budgets := by
      simp [Function.comp_def]
    rw [List.map_append, habs, List.sum_append, List.map_singleton, natAbs_advances,
      List.sum_singleton]
    omega
  · obtain ⟨es, hcount, hcompleted, hrecord⟩ := hrest.record hs hsound rfl
    exact ⟨es, hcount, hcompleted, fun max hmax => hrecord max max 0 (by omega) (by omega)⟩

/-- A word that is first taken for another phrase than the goal: the budget of three advances ends
right after that alternative has been given up. -/
theorem drivers_agree_resumed :
    let g := ((Grammar.addNode { word := "a", id := "1", kind := .ends "X" none, initial := true }
      {}).addNode { word := "a", id := "2", kind := .ends "S" none, initial := true }).mark
    g.marked = true ∧ ∃ p s s' es, make g {} (none : Option (Semantics Unit)) = .ok p ∧
      p.calls [.startTokens ["a"] ["S"]] (.empty ()) = .ok s ∧ p.Settles 5 true s s' ∧
      p.parseBounded 9 s = .ok (5, s') ∧ p.parseBudgets [3, 9] s = .ok ([-3, 2], s') ∧
      Trace.record p 10 s = .ok (es, s') ∧ Trace.tried es = 5 ∧ Trace.completed es = true := by
  intro g
  have hg : g.Built := .mark (.addNode (.addNode .new (by simp [Node.Fresh, Node.links]))
    (by simp [Node.Fresh, Node.links]))
  obtain ⟨p, s, hmake, hrun, hends, hagree⟩ :=
    drivers_agree hg rfl {} () [.startTokens ["a"] ["S"]]
  obtain rfl : ⟨g, {}, none⟩ = p := Except.ok.inj hmake
  let p : Parser Unit := ⟨g, {}, none⟩
  obtain rfl : .start ["a"] ["S"] () = s := Except.ok.inj hrun
  have hfive : (p.parse 5 (.start ["a"] ["S"] ())).map Prod.fst = .ok (some true) := by
    decide +kernel
  have hfour : (p.parse 4 (.start ["a"] ["S"] ())).map Prod.fst = .ok none := by decide +kernel
  obtain ⟨⟨-, s'⟩, hparse, rfl⟩ := map_eq_ok hfive
  obtain ⟨k, hk, hsettles⟩ := hends 5 true s' hparse
  obtain rfl : k = 5 := by
    by_contra hne
    rw [show p.parse 4 _ = _ from hsettles.enough 4 (by omega)] at hfour
    cases hfour
  obtain ⟨hbounded, -, hbudgets, es, hcount, hcompleted, hrecord⟩ := hagree 5 true s' hsettles
  obtain ⟨ns, hresumed, rfl, -⟩ := hbudgets [3] 9 (by decide) (by decide)
  exact ⟨rfl, p, _, s', es, rfl, rfl, hsettles, hbounded 9 (by decide), hresumed,
    hrecord 10 (by decide), hcount, hcompleted⟩

end Parser

end StateDiagram
