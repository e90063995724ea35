import StateDiagram.Proofs.Parser.Search
import Mathlib.Algebra.GroupWithZero.Nat
import Mathlib.Algebra.Order.Group.Nat
import Mathlib.Algebra.BigOperators.Group.List.Basic
import Mathlib.Data.Finset.Card
import Mathlib.Data.Prod.Lex
import Mathlib.Order.RelClasses

/-! Weights of places. If no word rises to itself and no node skips to itself, every legal move
leads to a place of less weight: a move that completes a phrase leaves fewer units, or a unit with
a lower word in the place of another; any other move leaves fewer units to come, or goes down among
the nodes that follow each other without a unit. -/
namespace StateDiagram

open Relation

/-- If a relation leads into a finite set and never back to where it started, it goes down in some
ranking. -/
theorem exists_rank {α : Type} {R : α → α → Prop} (S : Finset α) (hS : ∀ a b, R a b → b ∈ S)
    (hR : ∀ a, ¬TransGen R a a) : ∃ rank : α → Nat, ∀ a b, R a b → rank b < rank a := by
  classical
  refine ⟨fun a => (S.filter (TransGen R a)).card, fun a b hab => Finset.card_lt_card ?_⟩
  rw [Finset.ssubset_iff_of_subset fun c hc => ?_]
  · exact ⟨b, Finset.mem_filter.2 ⟨hS a b hab, .single hab⟩,
      fun hb => hR b (Finset.mem_filter.1 hb).2⟩
  · obtain ⟨hc, hbc⟩ := Finset.mem_filter.1 hc
    exact Finset.mem_filter.2 ⟨hc, .head hab hbc⟩

namespace Parser

variable {σ : Type} (p : Parser σ)

/-- A link that takes up no unit leads from node `i` to node `j`. -/
def Skips (i j : Nat) : Prop :=
  ∃ node l, p.grammar.nodes[i]? = some node ∧ l ∈ node.links ∧ l.word = p.config.dummyWord ∧
    p.grammar.target? l = some j

/-- A unit with the word `w` alone can make up a phrase of the type `type`. -/
def Rises (w type : String) : Prop :=
  ∃ i j node, Choice.initial i ∈ p.openings w none ∧ ReflTransGen p.Skips i j ∧
    p.grammar.nodes[j]? = some node ∧ node.type? = some type

/-- No node skips to itself and no word rises to itself, in however many steps. -/
structure Acyclic : Prop where
  skips : ∀ i, ¬TransGen p.Skips i i
  rises : ∀ w, ¬TransGen p.Rises w w

/-- Numbers for words and nodes that go down where words rise and nodes skip. -/
structure Ranking where
  rank : String → Nat
  height : Nat → Nat
  rises : ∀ w type, p.Rises w type → rank type < rank w
  skips : ∀ i j, p.Skips i j → height j < height i

variable {p}

theorem Acyclic.ranking (h : p.Acyclic) (hg : p.grammar.Sound) : Nonempty p.Ranking := by
  obtain ⟨rank, hrank⟩ := exists_rank (R := p.Rises)
    (p.grammar.nodes.toList.filterMap Node.type?).toFinset (fun w type ⟨_, j, n, _, _, hn, ht⟩ => by
      rw [List.mem_toFinset, List.mem_filterMap]
      exact ⟨n, List.mem_of_getElem? (by simpa using hn), ht⟩) h.rises
  obtain ⟨height, hheight⟩ := exists_rank (R := p.Skips) (Finset.range p.grammar.nodes.size)
    (fun i j ⟨n, l, hn, hl, _, ht⟩ => by
      obtain ⟨m, hm, -⟩ := hg.node_of_target hn hl ht
      exact Finset.mem_range.2 (Array.getElem?_eq_some_iff.1 hm).1) h.skips
  exact ⟨⟨rank, height, hrank, hheight⟩⟩

variable (p) in
/-- How many units an open phrase has taken up, dummy units apart, and the sum of their ranks. -/
inductive Tally (r : p.Ranking) : List Form → Nat → Nat → Prop where
  | first {u : Form} {n : Nat} : Choice.initial n ∈ p.openings u.word none →
    Tally r [u.mark n] 1 (r.rank u.word)
  | next {o : List Form} {k m : Nat} (u : Form) (n : Nat) : Tally r o k m →
    Tally r (u.mark n :: o) (k + 1) (m + r.rank u.word)
  | skip {o : List Form} {k m i n : Nat} : Tally r o k m → o.head?.bind Form.matched = some i →
    p.Skips i n → Tally r (.unit p.config.dummyWord (some n) none [] :: o) k m

theorem matched_of_at? {o : List Form} {node : Node} (h : p.at? o = some node) :
    ∃ i, o.head?.bind Form.matched = some i ∧ p.grammar.nodes[i]? = some node := by
  obtain ⟨u, hu, i, hi, hnode⟩ := at?_eq_some.1 h
  exact ⟨i, by rw [hu, Option.bind_some, hi], hnode⟩

variable {r : p.Ranking}

theorem Row.tally {V : Node → Option Value → Prop} {o : List Form} {ws : List String}
    (h : p.Row V o ws) : ∃ k m, p.Tally r o k m := by
  cases h with
  | first _ hn => exact ⟨1, _, .first hn⟩
  | next ho _ _ _ _ _ _ =>
    obtain ⟨k, m, h⟩ := ho.tally
    exact ⟨k + 1, _, .next _ _ h⟩
  | skip ho hat hl hd ht =>
    obtain ⟨k, m, h⟩ := ho.tally
    obtain ⟨i, hi, hnode⟩ := matched_of_at? hat
    exact ⟨k, m, .skip h hi ⟨_, _, hnode, hl, hd, ht⟩⟩

theorem Tally.pos {o : List Form} {k m : Nat} (h : p.Tally r o k m) : 0 < k := by
  induction h with
  | first _ => exact Nat.one_pos
  | next _ _ _ _ => exact Nat.succ_pos _
  | skip _ _ _ ih => exact ih

/-- A phrase that has taken up a single unit has risen from its word. -/
theorem Tally.risen {o : List Form} {k m : Nat} (h : p.Tally r o k m) (hk : k = 1) :
    ∃ w i j, m = r.rank w ∧ Choice.initial i ∈ p.openings w none ∧ ReflTransGen p.Skips i j ∧
      o.head?.bind Form.matched = some j := by
  induction h with
  | @first u n hn => exact ⟨u.word, n, n, rfl, hn, .refl, by simp⟩
  | next u n ho _ =>
    have hpos := ho.pos
    omega
  | skip _ hi hskip ih =>
    obtain ⟨w, i, j, hm, hn, hij, hj⟩ := ih hk
    obtain rfl : j = _ := Option.some.inj (hj.symm.trans hi)
    exact ⟨w, i, _, hm, hn, hij.tail hskip, by simp⟩

/-- A phrase that is completed stands for more units than one, or for one of higher rank. -/
theorem Tally.completed {o : List Form} {k m : Nat} (h : p.Tally r o k m) {node : Node}
    {type : String} (hat : p.at? o = some node) (htype : node.type? = some type) :
    1 < k ∨ k = 1 ∧ r.rank type < m := by
  have hpos := h.pos
  by_cases hk : k = 1
  · obtain ⟨w, i, j, rfl, hn, hij, hj⟩ := h.risen hk
    obtain ⟨j', hj', hnode⟩ := matched_of_at? hat
    obtain rfl : j = j' := Option.some.inj (hj.symm.trans hj')
    exact .inr ⟨hk, r.rises w type ⟨i, j, node, hn, hij, hnode, htype⟩⟩
  · exact .inl (by omega)

/-- How far the innermost phrase can skip. -/
def Ranking.depth (r : p.Ranking) (x : Place Form) : Nat :=
  ((x.opened.head?.bind fun o => o.head?.bind Form.matched).map r.height).getD 0

/-- The number of units, the sum of their ranks, the number of units to come, and how far the
innermost phrase can skip; compared in this order. -/
abbrev Weight : Type :=
  ℕ ×ₗ ℕ ×ₗ ℕ ×ₗ ℕ

variable (p) in
inductive Weighs (r : p.Ranking) (x : Place Form) : Weight → Prop where
  | of {ks : List (Nat × Nat)} : List.Forall₂ (fun o k => p.Tally r o k.1 k.2) x.opened ks →
    Weighs r x (toLex ((ks.map Prod.fst).sum + x.ahead.length,
      toLex ((ks.map Prod.snd).sum + (x.ahead.map fun u => r.rank u.word).sum,
        toLex (x.ahead.length, r.depth x))))

theorem Weight.lt_iff {a b c d a' b' c' d' : Nat} :
    (toLex (a, toLex (b, toLex (c, d))) : Weight) < toLex (a', toLex (b', toLex (c', d'))) ↔
      a < a' ∨ a = a' ∧ (b < b' ∨ b = b' ∧ (c < c' ∨ c = c' ∧ d < d')) := by
  simp [Prod.Lex.toLex_lt_toLex]

theorem Fits.weighs {V : Node → Option Value → Prop} {x : Place Form} (h : p.Fits V x)
    (r : p.Ranking) : ∃ w, p.Weighs r x w := by
  have hall : ∀ os : List (List Form), (∀ o ∈ os, ∃ ws, p.Row V o ws) →
      ∃ ks : List (Nat × Nat), List.Forall₂ (fun o k => p.Tally r o k.1 k.2) os ks := by
    intro os hos
    induction os with
    | nil => exact ⟨[], .nil⟩
    | cons o os ih =>
      obtain ⟨ks, hks⟩ := ih fun o' ho' => hos o' (List.mem_cons_of_mem o ho')
      obtain ⟨ws, hrow⟩ := hos o (List.mem_cons_self ..)
      obtain ⟨k, m, hk⟩ := hrow.tally (r := r)
      exact ⟨(k, m) :: ks, .cons hk hks⟩
  obtain ⟨ks, hks⟩ := hall x.opened h.opened
  exact ⟨_, .of hks⟩

/-- Every legal move makes a place lighter. -/
theorem Weighs.after {x : Place Form} {c : Choice} {w : Weight} (h : p.Weighs r x w)
    (hc : p.Legal x c) (v : Option Value) :
    ∃ w' < w, p.Weighs r (x.after p.config.dummyWord v c) w' := by
  cases h with
  | @of ks hks =>
    cases hc with
    | @initial os u us n hn =>
      refine ⟨_, ?_, @Weighs.of _ _ _ _ ((1, r.rank u.word) :: ks) (.cons (.first hn) hks)⟩
      rw [Weight.lt_iff]
      simp only [Place.after, List.map_cons, List.sum_cons, List.length_cons]
      omega
    | @nonDummy o os u us node l n hat hl hd hm ht =>
      cases hks with
      | @cons _ k _ ks hk hks =>
        refine ⟨_, ?_, @Weighs.of _ _ _ _ ((k.1 + 1, k.2 + r.rank u.word) :: ks)
          (.cons (.next u n hk) hks)⟩
        rw [Weight.lt_iff]
        simp only [Place.after, List.map_cons, List.sum_cons, List.length_cons]
        omega
    | @dummy o os us node l n hat hl hd ht =>
      cases hks with
      | @cons _ k _ ks hk hks =>
        obtain ⟨i, hi, hnode⟩ := matched_of_at? hat
        have hskip : p.Skips i n := ⟨node, l, hnode, hl, hd, ht⟩
        refine ⟨_, ?_, @Weighs.of _ _ _ _ (k :: ks) (.cons (.skip hk hi hskip) hks)⟩
        rw [Weight.lt_iff]
        have hlt := r.skips i n hskip
        simp [Place.after, Ranking.depth, hi, hlt]
    | @final o os us node type hat htype =>
      cases hks with
      | @cons _ k _ ks hk hks =>
        refine ⟨_, ?_, @Weighs.of _ _ _ _ ks hks⟩
        rw [Weight.lt_iff]
        have hdown := hk.completed hat htype
        simp only [Place.after, List.map_cons, List.sum_cons, List.length_cons, Form.word_unit]
        omega

/-- A place becomes lighter if a phrase to come is completed. -/
theorem Weighs.collapse {V : Node → Option Value → Prop} {os : List (List Form)}
    {o pre us : List Form} {node : Node} {type : String} {v : Option Value} {ws : List String}
    {w : Weight} (h : p.Weighs r ⟨os, pre ++ (o.reverse.map Form.clear ++ us)⟩ w)
    (ho : p.Row V o ws) (hat : p.at? o = some node) (htype : node.type? = some type) :
    ∃ w' < w, p.Weighs r ⟨os, pre ++ .unit type none v o.reverse :: us⟩ w' := by
  have hlen : 1 < o.length ∨ o.length = 1 ∧
      r.rank type < (o.map fun u => r.rank u.word).sum := by
    cases ho with
    | @first u _ n hu hn =>
      rw [at?_cons_mark] at hat
      exact .inr ⟨rfl, by simpa using r.rises _ _ ⟨n, n, node, hn, .refl, hat, htype⟩⟩
    | next ho _ _ _ _ _ _ => exact .inl (by simpa using List.length_pos_iff.2 ho.ne_nil)
    | skip ho _ _ _ _ => exact .inl (by simpa using List.length_pos_iff.2 ho.ne_nil)
  cases h with
  | @of ks hks =>
    refine ⟨_, ?_, @Weighs.of _ _ _ _ ks hks⟩
    have hsum : ((o.reverse.map Form.clear).map fun u => r.rank u.word).sum =
        (o.map fun u => r.rank u.word).sum := by
      rw [List.map_map, List.map_reverse, List.sum_reverse]
      simp [Function.comp_def]
    rw [Weight.lt_iff]
    simp only [List.length_append, List.length_map, List.length_reverse, List.length_cons,
      List.map_append, List.sum_append, List.map_cons, List.sum_cons, Form.word_unit, hsum]
    omega

end Parser

end StateDiagram
