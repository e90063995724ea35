import StateDiagram.Proofs.Parser.Complete
import StateDiagram.Proofs.Parser.UpToDate

/-! Where the choices at a place land: at which complete parses, if the search never goes on from a
complete parse. If there is one way only to begin at a unit, and nothing but one phrase comes of it,
then it makes no difference whether that phrase has been completed before. -/
namespace StateDiagram

open Form

variable {σ : Type}

/-- Takes no unit of those to come. -/
def Choice.stays : Choice → Bool
  | .dummy _ => true
  | .final _ => true
  | _ => false

theorem Place.isDone_of_opened {goals : List String} {x : Place Form} (h : x.opened ≠ []) :
    x.isDone goals = false := by
  rw [Bool.eq_false_iff]
  exact fun hdone => h (isDone_iff.1 hdone).1

theorem Place.isDone_behind {goals : List String} {os : List (List Form)} {pre us : List Form}
    (hus : us ≠ []) (h : pre = [] → os ≠ []) : Place.isDone goals ⟨os, pre ++ us⟩ = false := by
  cases os with
  | cons o os => exact isDone_of_opened (List.cons_ne_nil o os)
  | nil =>
    rw [Bool.eq_false_iff]
    intro hdone
    obtain ⟨-, u, hu, -⟩ := isDone_iff.1 hdone
    cases pre with
    | nil => exact h rfl rfl
    | cons v pre => simp [hus] at hu

namespace Parser

variable (p : Parser σ)

/-- The choice `c` at a place leads to the complete parse `y`, the first one on its way. -/
inductive Lands (goals : List String) : Place Form → Choice → Place Form → Prop where
  | found {x : Place Form} {c : Choice} : (p.moved c x).isDone goals = true →
    Lands goals x c (p.moved c x)
  | on {x y : Place Form} {c d : Choice} : (p.moved c x).isDone goals = false →
    d ∈ p.fresh goals [c] (p.moved c x) → Lands goals (p.moved c x) d y → Lands goals x c y

/-- The place `x`, to which the choice `c` has led, is the complete parse `y` or leads there. -/
def Reaches (goals : List String) (c : Choice) (x y : Place Form) : Prop :=
  if x.isDone goals then y = x else ∃ d ∈ p.fresh goals [c] x, p.Lands goals x d y

/-- A unit with the word `w` can do nothing but begin a phrase at node `n`. -/
structure Only (w : String) (n : Nat) : Prop where
  openings : p.openings w none = [.initial n]
  steps : ∀ (i : Nat) (node : Node), p.grammar.nodes[i]? = some node → ∀ l ∈ node.links,
    p.stepChoice w l = []

/-- The units `us` to come can begin in one way only, and then there is one way only up to a phrase
that makes `ts` of them. -/
structure Folds (goals : List String) (us ts : List Form) : Prop where
  begins : ∃ u us' n type, us = u :: us' ∧ p.Only u.word n ∧ ∀ os y,
    p.Lands goals ⟨os, us⟩ (.initial n) y ↔ p.Reaches goals (.final type) ⟨os, ts⟩ y
  nonempty : ts ≠ []

/-- A parser without semantics for a marked grammar in which nothing is known of phrase types and no
word stands for anything. -/
structure Regular : Prop where
  sound : p.grammar.Sound
  marked : p.grammar.marked = true
  strict : p.Strict
  unlimited : p.Unlimited
  silent : p.semantics = none

variable {p} {goals : List String} {x y : Place Form} {c : Choice}

theorem lands_iff : p.Lands goals x c y ↔ p.Reaches goals c (p.moved c x) y := by
  unfold Reaches
  constructor
  · intro h
    cases h with
    | found hdone => rw [if_pos hdone]
    | on hnot hd h => exact (if_neg (Bool.eq_false_iff.1 hnot)).symm ▸ ⟨_, hd, h⟩
  · intro h
    cases hdone : (p.moved c x).isDone goals with
    | true =>
      rw [hdone, if_pos rfl] at h
      exact h ▸ .found hdone
    | false =>
      rw [hdone, if_neg (by decide)] at h
      obtain ⟨d, hd, h⟩ := h
      exact .on hdone hd h

/-- Where a phrase is open the parse is not complete. -/
theorem reaches_open (h : x.opened ≠ []) :
    p.Reaches goals c x y ↔ ∃ d ∈ p.fresh goals [c] x, p.Lands goals x d y := by
  rw [Reaches, Place.isDone_of_opened h, if_neg (by decide)]

/-- What is fresh depends on the latest move only. -/
theorem fresh_cons {path : List Choice} : p.fresh goals (c :: path) x = p.fresh goals [c] x := by
  cases c <;> rfl

theorem fresh_sublist (goals : List String) (path : List Choice) (x : Place Form) :
    (p.fresh goals path x).Sublist (p.offered goals .all x) := by
  unfold fresh
  split
  · exact offered_sublist goals .none x
  · exact .refl _

theorem sublist_fresh (goals : List String) (path : List Choice) (x : Place Form) :
    (p.offered goals .none x).Sublist (p.fresh goals path x) := by
  unfold fresh
  split
  · exact .refl _
  · exact offered_sublist goals .none x

/-- If begin sets are not known, what can begin at a unit does not depend on what is expected. -/
theorem Unlimited.openings (h : p.Unlimited) (w : String) (expected : Option (List String)) :
    p.openings w expected = p.openings w none := by
  have hfilter : ∀ (expected : Option (List String)) (ids : List Nat),
      (ids.filter fun n => p.grammar.nodes[n]?.any fun node => Parser.canBegin node expected) =
        ids.filter fun n => p.grammar.nodes[n]?.any Node.initial := by
    intro expected ids
    refine List.filter_congr fun n _ => ?_
    cases hn : p.grammar.nodes[n]? with
    | none => rfl
    | some node => simp [h.canBegin hn]
  simp only [Parser.openings, initials, hfilter]

/-- A word with a single node, which is entered from nowhere, can only begin a phrase there. -/
theorem Regular.only (h : p.Regular) {w : String} {n : Nat} {node : Node}
    (hn : Choice.initial n ∈ p.openings w none) (hnode : p.grammar.nodes[n]? = some node)
    (hin : node.incoming = false) (hunique : p.grammar.isUnique w = true) : p.Only w n := by
  obtain ⟨ids, hids, hlen⟩ := (Option.any_eq_true _ _).1 hunique
  obtain ⟨hentry, node', hnode', hb⟩ := mem_openings_iff.1 hn
  obtain rfl : node = node' := Option.some.inj (hnode.symm.trans hnode')
  have hw : p.entry w = ids := by simp [entry, hids]
  have hmem : n ∈ ids := hw ▸ hentry.resolve_right (h.strict.not_mem_entry n)
  obtain ⟨m, rfl⟩ := List.length_eq_one_iff.1 (by simpa using hlen)
  obtain rfl : n = m := List.mem_singleton.1 hmem
  refine ⟨?_, fun i node' hi l hl => List.eq_nil_iff_forall_not_mem.2 fun c hc => ?_⟩
  · simp [Parser.openings, initials, hw, h.strict.entry_eq, hnode, hb]
  · obtain ⟨hword, t, ht, -⟩ := mem_stepChoice.1 hc
    have hlw : w = l.word := hword.resolve_right (h.strict.link i node' hi l hl)
    have hfind : p.grammar.find? l.word l.id = some t := h.sound.target_eq_find hi hl ▸ ht
    have hlisted : t ∈ p.grammar.instances l.word := Grammar.mem_instances_of_find hfind
    rw [← hlw, Grammar.instances, hids] at hlisted
    obtain rfl := List.mem_singleton.1 hlisted
    have htarget : t ∈ p.grammar.targets := Grammar.mem_targets.2 ⟨i, node', hi, l, hl, ht⟩
    rw [← h.sound.flagged h.marked t node hnode, hin] at htarget
    cases htarget

/-- Only dummy moves are ever left out. -/
theorem mem_offered_of_not_dummy {d : Dummies} (hc : c.isDummy = false)
    (h : c ∈ p.offered goals d x) (d' : Dummies) : c ∈ p.offered goals d' x := by
  obtain ⟨os, us⟩ := x
  cases os with
  | nil => exact h
  | cons o os =>
    cases c with
    | initial n => exact initial_mem_offered.2 (initial_mem_offered.1 h)
    | nonDummy n => exact nonDummy_mem_offered.2 (nonDummy_mem_offered.1 h)
    | dummy n => cases hc
    | final type => exact final_mem_offered.2 (final_mem_offered.1 h)

theorem dummy_mem_offered {d : Dummies} {n : Nat} : .dummy n ∈ p.offered goals d x ↔
    d.admits n = true ∧ .dummy n ∈ p.offered goals .all x := by
  obtain ⟨os, us⟩ := x
  cases os with
  | nil =>
    have hnot : ∀ d, .dummy n ∉ p.offered goals d ⟨[], us⟩ := fun d h => by
      obtain ⟨o, os, -, -, hopened, -⟩ := (legal_of_mem_offered h).dummy_inv
      cases hopened
    exact iff_of_false (hnot d) fun h => hnot .all h.2
  | cons o os =>
    rw [dummy_mem_offered_cons, dummy_mem_offered_cons]
    constructor
    · rintro ⟨node, hat, l, hl, hd, ht, hadmits⟩
      exact ⟨hadmits, node, hat, l, hl, hd, ht, rfl⟩
    · rintro ⟨hadmits, node, hat, l, hl, hd, ht, -⟩
      exact ⟨node, hat, l, hl, hd, ht, hadmits⟩

/-- Where a phrase can be completed nothing else can be done. -/
theorem offered_final {d : Dummies} {type : String} (h : .final type ∈ p.offered goals d x) :
    p.offered goals d x = [.final type] := by
  obtain ⟨os, us⟩ := x
  obtain ⟨o, os', node, rfl, hat, htype⟩ := (legal_of_mem_offered h).final_inv
  unfold Node.type? at htype
  cases hk : node.kind with
  | ends t v =>
    rw [hk] at htype
    obtain rfl := Option.some.inj htype
    simp [offered, hat, hk]
  | continues links types => simp [hk] at htype

/-- Moves that take no unit do not depend on the units to come. -/
theorem stays_mem_offered {d : Dummies} (hc : c.stays = true) (ho : x.opened = y.opened)
    (h : c ∈ p.offered goals d x) : c ∈ p.offered goals d y := by
  obtain ⟨os, us⟩ := x
  obtain ⟨os', us'⟩ := y
  obtain rfl : os = os' := ho
  cases c with
  | initial n => cases hc
  | nonDummy n => cases hc
  | dummy n =>
    obtain ⟨o, os, -, -, rfl, -⟩ := (legal_of_mem_offered h).dummy_inv
    exact dummy_mem_offered_cons.2 (dummy_mem_offered_cons.1 h)
  | final type =>
    obtain ⟨o, os, -, rfl, -⟩ := (legal_of_mem_offered h).final_inv
    exact final_mem_offered.2 (final_mem_offered.1 h)

/-- A choice that takes a unit asks for one. -/
theorem opens_of_mem_offered {d : Dummies} (hc : c.stays = false) (h : c ∈ p.offered goals d x) :
    p.Opens x.opened := by
  obtain ⟨os, us⟩ := x
  rintro o os' rfl
  cases c with
  | dummy n => cases hc
  | final type => cases hc
  | nonDummy n =>
    obtain ⟨node, hat, -, -, -, l, hl, hd, -⟩ := nonDummy_mem_offered.1 h
    exact ⟨node, l, hat, hl, hd⟩
  | initial n =>
    obtain ⟨node, hat, -, -, -, ⟨l, hl, hd, -⟩, -⟩ := initial_mem_offered.1 h
    exact ⟨node, l, hat, hl, hd⟩

theorem Only.openings_eq {w : String} {n : Nat} (honly : p.Only w n) (hunlimited : p.Unlimited)
    (expected : Option (List String)) : p.openings w expected = [.initial n] := by
  rw [hunlimited.openings, honly.openings]

/-- What is offered where the next unit can only begin a phrase at node `n`. -/
theorem Only.offered (hunlimited : p.Unlimited) {os : List (List Form)} {u : Form} {us : List Form}
    {n : Nat} (honly : p.Only u.word n) {d : Dummies} (h : c ∈ p.offered goals d ⟨os, u :: us⟩) :
    c.stays = true ∨ c = .initial n := by
  have hopenings : ∀ expected, c ∈ p.openings u.word expected → c = .initial n := by
    intro expected hc
    rw [honly.openings_eq hunlimited] at hc
    exact List.mem_singleton.1 hc
  cases os with
  | nil => exact .inr (hopenings _ h)
  | cons o os =>
    cases c with
    | dummy m => exact .inl rfl
    | final type => exact .inl rfl
    | nonDummy m =>
      obtain ⟨node, hat, v, vs, heq, l, hl, -, hm, ht⟩ := nonDummy_mem_offered.1 h
      obtain ⟨rfl, rfl⟩ := List.cons.inj heq
      obtain ⟨i, hi⟩ := node_of_at? hat
      have hstep : Choice.nonDummy m ∈ p.stepChoice u.word l := mem_stepChoice.2 ⟨hm, m, ht, rfl⟩
      rw [honly.steps i node hi l hl] at hstep
      cases hstep
    | initial m =>
      obtain ⟨node, -, v, vs, heq, -, hm⟩ := initial_mem_offered.1 h
      obtain ⟨rfl, rfl⟩ := List.cons.inj heq
      exact .inr (hopenings _ hm)

/-- What can be begun there is offered once. -/
theorem Only.count (hunlimited : p.Unlimited) {os : List (List Form)} {u : Form} {us : List Form}
    {n : Nat} (honly : p.Only u.word n) (d : Dummies) :
    (p.offered goals d ⟨os, u :: us⟩).count (.initial n) ≤ 1 := by
  have hopenings : ∀ expected, (p.openings u.word expected).count (.initial n) = 1 :=
    fun expected => by simp [honly.openings_eq hunlimited]
  have hdummy : ∀ l, (p.dummyChoice d l).count (.initial n) = 0 := fun l => by
    refine List.count_eq_zero.2 fun hm => ?_
    obtain ⟨m, -, -, hm⟩ := mem_dummyChoice.1 hm
    cases hm
  have hlinks : ∀ (i : Nat) (node : Node), p.grammar.nodes[i]? = some node → ∀ types opened ls,
      (∀ l ∈ ls, l ∈ node.links) →
        (p.linkChoices types (some u.word) d opened ls).count (.initial n) ≤
          if opened then 0 else 1 := by
    intro i node hi types opened ls hls
    induction ls generalizing opened with
    | nil => simp [linkChoices]
    | cons l ls ih =>
      obtain ⟨hl, hls⟩ := List.forall_mem_cons.1 hls
      unfold linkChoices
      split
      · rw [List.count_append, hdummy, Nat.zero_add]
        exact ih opened hls
      · simp only [honly.steps i node hi l hl, List.nil_append]
        cases opened with
        | true => simpa using ih true hls
        | false =>
          split
          · have hrest := ih true hls
            rw [List.count_append, hopenings]
            simp_all
          · exact ih false hls
  cases os with
  | nil => exact (hopenings _).le
  | cons o os =>
    simp only [Parser.offered]
    split
    · rename_i node hat
      obtain ⟨i, hi⟩ := node_of_at? hat
      split
      · simp
      · rename_i links types hk
        have hnode : node.links = links := by rw [Node.links, hk]
        exact hlinks i node hi types false links fun l hl => hnode ▸ hl
    · simp

/-- If the next unit can only begin a phrase at one node, and that or a phrase's end is tried,
dummy moves remain. -/
theorem Only.others (hunlimited : p.Unlimited) {os : List (List Form)} {u : Form} {us : List Form}
    {n : Nat} (honly : p.Only u.word n) {d : Dummies} {cs : List Choice}
    (hcs : (c :: cs).Subperm (p.offered goals d ⟨os, u :: us⟩)) (hc : c.isDummy = false) :
    ∀ e ∈ cs, e.isDummy = true := by
  intro e he
  have hall : ∀ e ∈ c :: cs, e ∈ p.offered goals d ⟨os, u :: us⟩ := fun e he => hcs.subset he
  have hfinal : ∀ type, .final type ∉ p.offered goals d ⟨os, u :: us⟩ := fun type hmem => by
    have hlen := hcs.length_le
    rw [offered_final hmem, List.length_cons, List.length_singleton] at hlen
    obtain rfl := List.length_eq_zero_iff.1 (Nat.le_zero.1 (Nat.le_of_succ_le_succ hlen))
    cases he
  have hnext : ∀ e ∈ c :: cs, e.isDummy = true ∨ e = .initial n := fun e he => by
    refine (honly.offered hunlimited (hall e he)).imp_left fun hstays => ?_
    cases e with
    | dummy m => rfl
    | final type => exact absurd (hall _ he) (hfinal type)
    | initial m => cases hstays
    | nonDummy m => cases hstays
  obtain hdummy | rfl := hnext c (List.mem_cons_self ..)
  · rw [hc] at hdummy
    cases hdummy
  · refine (hnext e (List.mem_cons_of_mem _ he)).resolve_right ?_
    rintro rfl
    have hcount := (hcs.count_le (.initial n)).trans (honly.count hunlimited d)
    rw [List.count_cons_self] at hcount
    have hpos := List.count_pos_iff.2 he
    omega

/-- A move that leaves the units `us` alone does the same whatever they are, and it leaves a phrase
open or a unit before them. -/
theorem moved_before {os : List (List Form)} {pre us : List Form} (hc : c.stays = true ∨ pre ≠ [])
    (hlegal : p.Legal ⟨os, pre ++ us⟩ c) : ∃ os' pre',
      (∀ ws, p.moved c ⟨os, pre ++ ws⟩ = ⟨os', pre' ++ ws⟩) ∧
      (pre' = [] → os' ≠ [] ∧ ∀ type, c ≠ .final type) := by
  cases c with
  | initial n =>
    obtain ⟨v, pre, rfl⟩ := List.exists_cons_of_ne_nil (hc.resolve_left (by simp [Choice.stays]))
    exact ⟨[v.mark n] :: os, pre, fun ws => rfl, fun _ => ⟨List.cons_ne_nil _ _, by simp⟩⟩
  | nonDummy n =>
    obtain ⟨v, pre, rfl⟩ := List.exists_cons_of_ne_nil (hc.resolve_left (by simp [Choice.stays]))
    obtain ⟨o, os', -, -, -, -, rfl, -⟩ := hlegal.nonDummy_inv
    exact ⟨(v.mark n :: o) :: os', pre, fun ws => rfl, fun _ => ⟨List.cons_ne_nil _ _, by simp⟩⟩
  | dummy n =>
    obtain ⟨o, os', -, -, rfl, -⟩ := hlegal.dummy_inv
    exact ⟨(.unit p.config.dummyWord (some n) none [] :: o) :: os', pre, fun ws => rfl, fun _ =>
      ⟨List.cons_ne_nil _ _, by simp⟩⟩
  | final type =>
    obtain ⟨o, os', -, rfl, -⟩ := hlegal.final_inv
    exact ⟨os', .unit type none (p.plainValue o) o.reverse :: pre, fun ws => moved_final ..,
      by simp⟩

/-- The choices after a move depend on the word of the next unit alone. -/
theorem fresh_congr {path : List Choice} (ho : x.opened = y.opened)
    (hw : x.ahead.head?.map Form.word = y.ahead.head?.map Form.word) :
    p.fresh goals path x = p.fresh goals path y := by
  unfold fresh
  split <;> exact offered_congr ho hw

/-- Let whatever comes of a choice that takes the first of the units `us` come of some choice before
the units `ts` as well. Then a choice before other units in front of them lands at the same complete
parses. -/
theorem Lands.before {os : List (List Form)} {pre us ts : List Form} (hus : us ≠ []) (hts : ts ≠ [])
    (htakes : ∀ os c y, os ≠ [] → c ∈ p.offered goals .all ⟨os, us⟩ → c.stays = false →
      p.Lands goals ⟨os, us⟩ c y → ∃ d ∈ p.offered goals .all ⟨os, ts⟩, p.Lands goals ⟨os, ts⟩ d y)
    (hl : p.Lands goals ⟨os, pre ++ us⟩ c y) (hc : c.stays = true ∨ pre ≠ [])
    (hlegal : p.Legal ⟨os, pre ++ us⟩ c) : p.Lands goals ⟨os, pre ++ ts⟩ c y := by
  generalize hx : (⟨os, pre ++ us⟩ : Place Form) = x at hl
  induction hl generalizing os pre with
  | @found x c hdone =>
    subst hx
    obtain ⟨os', pre', hmoved, hpre⟩ := moved_before hc hlegal
    rw [hmoved, Place.isDone_behind hus fun h => (hpre h).1] at hdone
    cases hdone
  | @on x y c d hnot hd hl ih =>
    subst hx
    obtain ⟨os', pre', hmoved, hpre⟩ := moved_before hc hlegal
    rw [hmoved] at hd hl
    rw [lands_iff, hmoved, Reaches, Place.isDone_behind hts fun h => (hpre h).1,
      if_neg (by decide)]
    have hd' : p.Legal ⟨os', pre' ++ us⟩ d := legal_of_mem_fresh hd
    cases pre' with
    | cons v pre' =>
      refine ⟨d, ?_, ih (.inr (List.cons_ne_nil v pre')) hd' (hmoved us).symm⟩
      exact fresh_congr (x := ⟨os', v :: pre' ++ us⟩) rfl rfl ▸ hd
    | nil =>
      obtain ⟨hos, hfinal⟩ := hpre rfl
      rw [fresh_of_ne hfinal] at hd ⊢
      cases hstays : d.stays with
      | true => exact ⟨d, stays_mem_offered (x := ⟨os', us⟩) hstays rfl hd,
          ih (.inl hstays) hd' (hmoved us).symm⟩
      | false => exact htakes os' d y hos hd hstays hl

namespace Folds

variable {os : List (List Form)} {pre us ts : List Form}

theorem ne_nil (h : p.Folds goals us ts) : us ≠ [] := by
  obtain ⟨u, us', -, -, rfl, -⟩ := h.begins
  exact List.cons_ne_nil u us'

/-- Where the folded phrase is taken it can be begun as well. -/
theorem lands_first (h : p.Folds goals us ts) (hunlimited : p.Unlimited) {d : Dummies}
    (hos : os ≠ []) (hc : c ∈ p.offered goals d ⟨os, ts⟩) (hstays : c.stays = false)
    (hl : p.Lands goals ⟨os, ts⟩ c y) :
    ∃ n, (∀ path, .initial n ∈ p.fresh goals path ⟨os, us⟩) ∧
      p.Lands goals ⟨os, us⟩ (.initial n) y := by
  obtain ⟨u, us', n, type, rfl, honly, hiff⟩ := h.begins
  have hopens : p.Opens os := opens_of_mem_offered hstays hc
  refine ⟨n, fun path => initial_mem_fresh hunlimited hopens (by simp [honly.openings]), ?_⟩
  rw [hiff, reaches_open hos]
  have hdummy : c.isDummy = false := by
    cases c <;> first | rfl | cases hstays
  exact ⟨c, mem_offered_of_not_dummy hdummy hc .none, hl⟩

/-- What can be reached by beginning the phrase is reached from behind it. -/
theorem of_first (h : p.Folds goals us ts) (hunlimited : p.Unlimited) {d : Dummies}
    (hos : os ≠ []) (hc : c ∈ p.offered goals d ⟨os, us⟩) (hstays : c.stays = false)
    (hl : p.Lands goals ⟨os, us⟩ c y) :
    ∃ d ∈ p.offered goals .none ⟨os, ts⟩, p.Lands goals ⟨os, ts⟩ d y := by
  obtain ⟨u, us', n, type, rfl, honly, hiff⟩ := h.begins
  obtain hc | rfl := honly.offered hunlimited hc
  · rw [hstays] at hc
    cases hc
  · exact (reaches_open hos).1 ((hiff os y).1 hl)

/-- A choice before the phrase lands where it did when the phrase has been folded. -/
theorem lands (h : p.Folds goals us ts) (hunlimited : p.Unlimited)
    (hl : p.Lands goals ⟨os, pre ++ us⟩ c y) (hc : c.stays = true ∨ pre ≠ [])
    (hlegal : p.Legal ⟨os, pre ++ us⟩ c) : p.Lands goals ⟨os, pre ++ ts⟩ c y := by
  refine hl.before h.ne_nil h.nonempty (fun os c y hos hd hstays hl => ?_) hc hlegal
  obtain ⟨e, he, hle⟩ := h.of_first hunlimited hos hd hstays hl
  exact ⟨e, (offered_sublist goals .none _).subset he, hle⟩

/-- A choice before a phrase that has been folded lands where it did before. -/
theorem lands_back (h : p.Folds goals us ts) (hunlimited : p.Unlimited)
    (hl : p.Lands goals ⟨os, pre ++ ts⟩ c y) (hc : c.stays = true ∨ pre ≠ [])
    (hlegal : p.Legal ⟨os, pre ++ ts⟩ c) : p.Lands goals ⟨os, pre ++ us⟩ c y := by
  refine hl.before h.nonempty h.ne_nil (fun os c y hos hd hstays hl => ?_) hc hlegal
  obtain ⟨n, hn, hln⟩ := h.lands_first hunlimited hos hd hstays hl
  exact ⟨_, hn [], hln⟩

end Folds

end Parser

end StateDiagram
