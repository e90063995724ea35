import StateDiagram.Parser.Drive
import StateDiagram.Proofs.Grammar.Renumbered
import StateDiagram.Proofs.Phrase.Forms

/-! A parse with a grammar whose nodes stand under other numbers. It goes through the same steps,
with the numbers of the one grammar in the place of those of the other. -/
namespace StateDiagram

@[simps]
def Phrase.renumber (f : Nat → Nat) (u : Phrase) : Phrase :=
  { u with node := u.node.map f }

def Arena.renumber (f : Nat → Nat) (a : Arena) : Arena :=
  ⟨a.phrases.map (Phrase.renumber f)⟩

def Choice.renumber (f : Nat → Nat) : Choice → Choice
  | .initial n => .initial (f n)
  | .nonDummy n => .nonDummy (f n)
  | .dummy n => .dummy (f n)
  | .final type => .final type

def Dummies.renumber (f : Nat → Nat) : Dummies → Dummies
  | .none => .none
  | .all => .all
  | .only ns => .only (ns.map f)

@[simps]
def State.renumber (f : Nat → Nat) (st : State) : State :=
  { st with
    choices := st.choices.map (·.map (Choice.renumber f))
    path := st.path.map (Choice.renumber f) }

variable {σ : Type}

@[simps]
def Session.renumber (f : Nat → Nat) (s : Session σ) : Session σ :=
  { s with
    arena := s.arena.renumber f
    state := s.state.renumber f
    saved := s.saved.map (State.renumber f) }

namespace Arena

variable (f : Nat → Nat) (a : Arena) (i : Nat)

@[simp] theorem size_renumber : (a.renumber f).size = a.size := by
  simp [renumber, size]

@[simp] theorem get?_renumber : (a.renumber f).get? i = (a.get? i).map (Phrase.renumber f) := by
  simp [renumber, get?]

@[simp] theorem alloc_renumber (u : Phrase) :
    (a.renumber f).alloc (u.renumber f) = (a.alloc u).renumber f := by
  simp [renumber, alloc]

@[simp] theorem alloc_unmatched (word : String) (next sub : Option Nat) (value : Option Value) :
    (a.renumber f).alloc ⟨word, none, next, sub, value⟩ =
      (a.alloc ⟨word, none, next, sub, value⟩).renumber f :=
  alloc_renumber f a ⟨word, none, next, sub, value⟩

theorem modify_renumber {g g' : Phrase → Phrase} (h : ∀ u, g' (u.renumber f) = (g u).renumber f) :
    (a.renumber f).modify i g' = (a.modify i g).renumber f := by
  refine congrArg Arena.mk (Array.ext_getElem? fun j => ?_)
  simp only [renumber, modify, Array.getElem?_modify, Array.getElem?_map]
  split <;> cases a.phrases[j]? <;> simp [h]

@[simp] theorem setNext_renumber (next : Option Nat) :
    (a.renumber f).setNext i next = (a.setNext i next).renumber f :=
  modify_renumber f a i fun _ => rfl

@[simp] theorem setSub_renumber (sub : Option Nat) :
    (a.renumber f).setSub i sub = (a.setSub i sub).renumber f :=
  modify_renumber f a i fun _ => rfl

@[simp] theorem setNode_renumber (n : Nat) :
    (a.renumber f).setNode i (some (f n)) = (a.setNode i (some n)).renumber f :=
  modify_renumber f a i fun _ => rfl

@[simp] theorem fetch_renumber :
    (a.renumber f).fetch i = Phrase.renumber f <$> a.fetch i := by
  simp only [fetch, get?_renumber, size_renumber]
  cases a.get? i <;> rfl

@[simp] theorem nextOf_renumber : (a.renumber f).nextOf i = a.nextOf i := by
  simp only [nextOf, fetch_renumber, bind_map_left]
  rfl

@[simp] theorem ahead_renumber (n : Nat) : (a.renumber f).ahead n i = a.ahead n i := by
  induction n generalizing i with
  | zero => rfl
  | succ n ih => simp [ahead, ih]

@[simp] theorem before_renumber (head first : Nat) :
    (a.renumber f).before head first = a.before head first := by
  have hfrom : ∀ fuel j, (a.renumber f).beforeFrom first fuel j = a.beforeFrom first fuel j := by
    intro fuel
    induction fuel with
    | zero => exact fun _ => rfl
    | succ fuel ih => exact fun j => by simp [beforeFrom, ih]
  simp [before, hfrom]

@[simp] theorem position_renumber (head : Nat) :
    (a.renumber f).position head i = a.position head i := by
  have hfollow : ∀ fuel j, (a.renumber f).follow fuel j = a.follow fuel j := by
    intro fuel
    induction fuel with
    | zero => exact fun _ => rfl
    | succ fuel ih =>
      intro j
      cases j with
      | none => rfl
      | some j =>
        simp only [follow, get?_renumber]
        cases a.get? j with
        | none => rfl
        | some u => simp [ih, Phrase.renumber]
  simp [position, chain, hfollow]

@[simp] theorem duplicate_renumber :
    (a.renumber f).duplicate i = Arena.renumber f <$> a.duplicate i := by
  simp [duplicate]

@[simp] theorem copyFrom_renumber (last fuel old copy : Nat) :
    copyFrom last fuel old copy (a.renumber f) =
      (fun r => (r.1, r.2.renumber f)) <$> copyFrom last fuel old copy a := by
  induction fuel generalizing old copy a with
  | zero => rfl
  | succ fuel ih =>
    unfold copyFrom
    by_cases h : old = last
    · simp [h]
    · simp [h, ih]

@[simp] theorem copyChain_renumber (first last : Nat) :
    (a.renumber f).copyChain first last =
      (fun r => (r.1, r.2.renumber f)) <$> a.copyChain first last := by
  simp [copyChain]

@[simp] theorem reduceByCopy_renumber (type : String) (value : Option Value)
    (head first last : Nat) : (a.renumber f).reduceByCopy type value head first last =
      (fun r => (r.1, r.2.1, r.2.2.renumber f)) <$> a.reduceByCopy type value head first last := by
  simp [reduceByCopy, Phrase.renumber]

@[simp] theorem cutBehind_renumber (held : Bool) (first last : Nat) :
    (a.renumber f).cutBehind held first last =
      Arena.renumber f <$> a.cutBehind held first last := by
  cases held <;> simp [cutBehind]

@[simp] theorem reduceInPlace_renumber (type : String) (value : Option Value) (held : Bool)
    (first last : Nat) : (a.renumber f).reduceInPlace type value held first last =
      Arena.renumber f <$> a.reduceInPlace type value held first last := by
  have hmodify : ∀ (b : Arena) (u : Phrase), (b.renumber f).modify first (fun _ =>
      ⟨type, none, u.next, some a.size, value⟩) = (b.modify first (fun _ =>
        ⟨type, none, u.next, some a.size, value⟩)).renumber f :=
    fun b u => modify_renumber f b first fun _ => rfl
  by_cases h : last = first
  · simp [reduceInPlace, h, hmodify, Phrase.renumber]
  · simp [reduceInPlace, h, hmodify, Phrase.renumber]

@[simp] theorem bracket_renumber (dummy : String) :
    (a.renumber f).bracket dummy i = a.bracket dummy i := by
  have hitems : ∀ fuel j, Bracket.items dummy ((a.renumber f).grow fuel j) =
      Bracket.items dummy (a.grow fuel j) := by
    intro fuel
    induction fuel with
    | zero => exact fun _ => rfl
    | succ fuel ih =>
      intro j
      cases j with
      | none => rfl
      | some j =>
        simp only [grow, get?_renumber]
        cases a.get? j with
        | none => rfl
        | some u => simp [Bracket.items, Bracket.item_node, Phrase.renumber, ih]
  simp [bracket, Bracket.text, trees, hitems]

end Arena

namespace Session

variable (f : Nat → Nat) (s : Session σ)

@[simp] theorem top?_renumber : (s.renumber f).top? = s.top? := by
  simp only [top?, renumber_arena, renumber_state, State.renumber_head, Arena.get?_renumber]
  cases s.arena.get? s.state.head <;> rfl

@[simp] theorem topUnit?_renumber :
    (s.renumber f).topUnit? = s.topUnit?.map (Phrase.renumber f) := by
  simp only [topUnit?, top?_renumber, renumber_arena]
  cases s.top? <;> simp

@[simp] theorem isDone_renumber : (s.renumber f).isDone = s.isDone := by
  simp [isDone, Option.any_map]

@[simp] theorem completedType?_renumber : (s.renumber f).completedType? = s.completedType? := by
  simp [completedType?, Function.comp_def]

@[simp] theorem completedValue?_renumber : (s.renumber f).completedValue? = s.completedValue? := by
  cases h : s.topUnit? <;> simp [completedValue?, h]

end Session

/-- If `x` gives a result, `y` gives the image of it. -/
def Follows {α β : Type} (φ : α → β) (x : Except Fault α) (y : Except Fault β) : Prop :=
  ∀ a, x = .ok a → y = .ok (φ a)

namespace Follows

variable {α β γ δ : Type} {φ : α → β} {ψ : γ → δ} {x : Except Fault α} {y : Except Fault β}

theorem map (φ : α → β) (x : Except Fault α) : Follows φ x (φ <$> x) := by
  rintro a rfl
  rfl

theorem pure {a : α} {b : β} (h : b = φ a) : Follows φ (Pure.pure a) (Pure.pure b) := by
  intro c hc
  obtain rfl : a = c := Except.ok.inj hc
  exact congrArg Except.ok h

theorem bind {k : α → Except Fault γ} {k' : β → Except Fault δ} (h : Follows φ x y)
    (hk : ∀ a, Follows ψ (k a) (k' (φ a))) : Follows ψ (x >>= k) (y >>= k') := by
  intro c hc
  obtain ⟨a, hx, hc⟩ := bind_eq_ok hc
  rw [h a hx]
  exact hk a c hc

theorem some (h : Follows φ x y) : Follows (Option.map φ) (x.map .some) (y.map .some) := by
  intro c hc
  obtain ⟨a, hx, rfl⟩ := map_eq_ok hc
  rw [h a hx]
  rfl

theorem same {k : α → Except Fault γ} {k' : α → Except Fault δ}
    (hk : ∀ a, Follows ψ (k a) (k' a)) : Follows ψ (x >>= k) (x >>= k') :=
  .bind (φ := id) (fun _ hx => hx) hk

end Follows

namespace Parser

/-- The parser `q` does what `p` does, without semantics, with a grammar under other numbers. -/
structure Mirrors (f : Nat → Nat) (p q : Parser σ) : Prop where
  grammar : Grammar.Renumbers f p.grammar q.grammar
  config : q.config = p.config
  plain : p.semantics = none ∧ q.semantics = none

namespace Mirrors

variable {f : Nat → Nat} {p q : Parser σ}

theorem isUnique (h : Mirrors f p q) (w : String) :
    q.grammar.isUnique w = p.grammar.isUnique w := by
  rw [Grammar.isUnique, Grammar.isUnique, h.grammar.lookup]
  cases p.grammar.lookup? w <;> simp

theorem entry (h : Mirrors f p q) (w : String) : q.entry w = (p.entry w).map f := by
  have hfallback : q.fallback w = p.fallback w := by rw [fallback, fallback, h.config]
  rw [Parser.entry, Parser.entry, h.grammar.lookup]
  cases p.grammar.lookup? w with
  | some ids => rfl
  | none =>
    simp only [Option.map_none, hfallback, h.config, Grammar.instances, h.grammar.lookup]
    split
    · rfl
    · cases p.grammar.lookup? (p.fallback w) <;> rfl

theorem initials (h : Mirrors f p q) (w : String) {expected : Option (List String)}
    (he : p.grammar.Expects expected) :
    q.initials w expected = (p.initials w expected).map (Choice.renumber f) := by
  have hbegin : ∀ n, (q.grammar.nodes[f n]?.any fun node => canBegin node expected) =
      (p.grammar.nodes[n]?.any fun node => canBegin node expected) := by
    intro n
    cases hn : p.grammar.nodes[n]? with
    | none => rw [h.grammar.missing n hn]
    | some node =>
      obtain ⟨node', hnode', hc⟩ := h.grammar.node n node hn
      rw [hnode']
      exact hc.begins expected he
  rw [Parser.initials, Parser.initials, h.entry, List.filter_map, List.map_map, List.map_map]
  simp only [Function.comp_def, hbegin]
  rfl

theorem openings (h : Mirrors f p q) (w : String) {expected : Option (List String)}
    (he : p.grammar.Expects expected) :
    q.openings w expected = (p.openings w expected).map (Choice.renumber f) := by
  rw [Parser.openings, Parser.openings, List.map_append, h.config, h.initials w he,
    h.initials _ he]

variable {l l' : Link}

theorem dummyChoice (h : Mirrors f p q) (d : Dummies)
    (ht : q.grammar.target? l' = (p.grammar.target? l).map f) :
    q.dummyChoice (d.renumber f) l' = (p.dummyChoice d l).map (Choice.renumber f) := by
  have hadmits : ∀ n, (d.renumber f).admits (f n) = d.admits n := by
    intro n
    cases d with
    | none => rfl
    | all => rfl
    | only ns =>
      rw [Bool.eq_iff_iff]
      simp [Dummies.renumber, Dummies.admits, h.grammar.injective.eq_iff]
  rw [Parser.dummyChoice, Parser.dummyChoice, ht]
  cases p.grammar.target? l with
  | none => rfl
  | some n =>
    simp only [Option.map_some, hadmits]
    split <;> rfl

theorem stepChoice (h : Mirrors f p q) (w : String) (hw : l'.word = l.word)
    (ht : q.grammar.target? l' = (p.grammar.target? l).map f) :
    q.stepChoice w l' = (p.stepChoice w l).map (Choice.renumber f) := by
  rw [Parser.stepChoice, Parser.stepChoice, ht, hw, h.config]
  split
  · cases p.grammar.target? l <;> rfl
  · rfl

theorem linkChoices (h : Mirrors f p q) {types : Option (List String)}
    (he : p.grammar.Expects types) (next : Option String) (d : Dummies) {ls ls' : List Link}
    (hls : List.Forall₂ (fun l l' => l'.word = l.word ∧
      q.grammar.target? l' = (p.grammar.target? l).map f) ls ls') : ∀ opened,
    q.linkChoices types next (d.renumber f) opened ls' =
      (p.linkChoices types next d opened ls).map (Choice.renumber f) := by
  induction hls with
  | nil => exact fun _ => rfl
  | @cons l l' ls ls' hl _ ih =>
    intro opened
    obtain ⟨hw, ht⟩ := hl
    have hopens : opens types l' = opens types l := by cases types <;> simp [opens, hw]
    simp only [Parser.linkChoices, hw, h.config, hopens, h.dummyChoice d ht]
    split
    · rw [ih, List.map_append]
    · cases next with
      | none => exact ih opened
      | some w =>
        simp only [h.stepChoice w hw ht, h.openings w he]
        split <;> rw [ih] <;> simp

theorem nodeOf (h : Mirrors f p q) (n : Nat) {α β : Type} {φ : α → β} {k : Node → Except Fault α}
    {k' : Node → Except Fault β}
    (hk : ∀ node node', p.grammar.nodes[n]? = some node →
      Grammar.Counterpart f p.grammar q.grammar node node' → Follows φ (k node) (k' node')) :
    Follows φ (p.nodeOf n >>= k) (q.nodeOf (f n) >>= k') := by
  unfold Parser.nodeOf
  cases hn : p.grammar.nodes[n]? with
  | none => exact fun a ha => nomatch ha
  | some node =>
    obtain ⟨node', hnode', hc⟩ := h.grammar.node n node hn
    rw [hnode']
    exact hk node node' hn hc

theorem choices (h : Mirrors f p q) (s : Session σ) (d : Dummies) :
    Follows (·.map (Choice.renumber f)) (p.choices s d)
      (q.choices (s.renumber f) (d.renumber f)) := by
  have hnext : ∀ u : Phrase, nextWord (s.renumber f) (u.renumber f) = nextWord s u := by
    intro u
    obtain ⟨word, node, next, sub, value⟩ := u
    cases next <;> simp [nextWord, Session.renumber, Phrase.renumber]
  have hfetch : (s.renumber f).arena.fetch (s.renumber f).state.current =
      Phrase.renumber f <$> s.arena.fetch s.state.current := Arena.fetch_renumber ..
  unfold Parser.choices
  rw [hfetch]
  refine .bind (.map _ _) fun u => ?_
  rw [hnext]
  refine .bind (φ := id) (fun _ hx => hx) fun next => ?_
  have hhead : (s.renumber f).state.current = (s.renumber f).state.head ↔
      s.state.current = s.state.head := Iff.rfl
  simp only [hhead]
  split
  · cases next with
    | none => exact .pure rfl
    | some w => exact .pure (h.openings w (.inl rfl))
  · cases hu : u.node with
    | none => exact fun a ha => nomatch ha
    | some n =>
      have hu' : (u.renumber f).node = some (f n) := by simp [Phrase.renumber, hu]
      simp only [hu']
      refine h.nodeOf n fun node node' hnode hc => ?_
      cases hk : node.kind with
      | ends type value =>
        simp only [hc.ends type value hk]
        exact .pure rfl
      | continues links types =>
        obtain ⟨links', hk', hlinks⟩ := hc.continues links types hk
        simp only [hk']
        exact .pure (h.linkChoices (.inr ⟨n, node, links, hnode, hk⟩) next d hlinks false)

theorem moveInitial (h : Mirrors f p q) (n : Nat) (s : Session σ) :
    Follows (Session.renumber f) (p.moveInitial n s) (q.moveInitial (f n) (s.renumber f)) := by
  simp only [Parser.moveInitial, Session.renumber_arena, Session.renumber_state,
    State.renumber_current, Arena.nextOf_renumber, Arena.fetch_renumber, bind_map_left]
  refine .same fun i => .same fun u => h.nodeOf n fun node node' _ hc => .pure ?_
  simp [Session.renumber, State.renumber, hc.incoming, h.isUnique]

theorem moveNonDummy (h : Mirrors f p q) (n : Nat) (s : Session σ) :
    Follows (Session.renumber f) (p.moveNonDummy n s) (q.moveNonDummy (f n) (s.renumber f)) := by
  simp only [Parser.moveNonDummy, Session.renumber_arena, Session.renumber_state,
    State.renumber_current, Arena.nextOf_renumber, Arena.fetch_renumber, bind_map_left]
  refine .same fun i => .same fun u => .pure ?_
  simp [Session.renumber, State.renumber, h.isUnique]

theorem moveDummy (h : Mirrors f p q) (n : Nat) (s : Session σ) :
    Follows (Session.renumber f) (p.moveDummy n s) (q.moveDummy (f n) (s.renumber f)) := by
  have halloc : ∀ u : Phrase, (s.arena.renumber f).alloc ⟨q.config.dummyWord, some (f n),
      u.next, none, none⟩ = (s.arena.alloc ⟨p.config.dummyWord, some n, u.next, none,
        none⟩).renumber f := by
    intro u
    rw [h.config]
    exact Arena.alloc_renumber f s.arena ⟨p.config.dummyWord, some n, u.next, none, none⟩
  simp only [Parser.moveDummy, Session.renumber_arena, Session.renumber_state,
    State.renumber_current, Arena.fetch_renumber, bind_map_left]
  refine .same fun u => ?_
  simp only [Phrase.renumber_next, halloc, Session.renumber_saved, List.isEmpty_map]
  split
  · exact .pure (by simp [Session.renumber, State.renumber])
  · simp only [State.renumber_head, Arena.size_renumber, Arena.copyChain_renumber, bind_map_left]
    exact .same fun r => .pure (by simp [Session.renumber, State.renumber])

/-- Without semantics no action is run. -/
theorem runAction (h : Mirrors f p q) (n : Nat) (s : Session σ) :
    Follows (fun r => (r.1, r.2.renumber f)) (p.runAction n s)
      (q.runAction (f n) (s.renumber f)) := by
  unfold Parser.runAction
  refine h.nodeOf n fun node node' _ _ => ?_
  rw [h.plain.1, h.plain.2]
  cases node.action <;> cases node'.action <;> exact .pure rfl

theorem reduce (h : Mirrors f p q) (type : String) (value : Option Value) (s : Session σ) :
    Follows (Session.renumber f) (p.reduce type value s) (q.reduce type value (s.renumber f)) := by
  have hcollapses : q.collapses (s.renumber f) = p.collapses s := by
    simp [collapses, h.config]
  simp only [Parser.reduce, hcollapses, Session.renumber_arena, Session.renumber_state,
    Session.renumber_saved, State.renumber_beginning, State.renumber_head, State.renumber_current,
    Arena.ahead_renumber, Arena.nextOf_renumber, List.isEmpty_map, Arena.reduceInPlace_renumber,
    Arena.reduceByCopy_renumber, bind_map_left]
  refine .same fun prev => .same fun first => ?_
  split
  · exact .same fun arena => .pure (by simp [Session.renumber, State.renumber])
  · exact .same fun r => .pure (by simp [Session.renumber, State.renumber])

theorem closeFrame_renumber (s : Session σ) :
    Follows (Session.renumber f) (closeFrame s) (closeFrame (s.renumber f)) := by
  simp only [closeFrame, Session.renumber_state, State.renumber_frames]
  cases s.state.frames with
  | nil => exact fun a ha => nomatch ha
  | cons fr frames => exact .pure rfl

theorem moveFinal (h : Mirrors f p q) (type : String) (s : Session σ) :
    Follows (fun r => (r.1, r.2.renumber f)) (p.moveFinal type s)
      (q.moveFinal type (s.renumber f)) := by
  simp only [Parser.moveFinal, Session.renumber_arena, Session.renumber_state,
    State.renumber_current, Arena.fetch_renumber, bind_map_left]
  refine .same fun u => ?_
  cases hu : u.node with
  | none => exact fun a ha => nomatch ha
  | some n =>
    have hu' : (u.renumber f).node = some (f n) := by simp [Phrase.renumber, hu]
    simp only [hu']
    refine h.nodeOf n fun node node' _ hc => ?_
    have hvalue : node'.value? = node.value? := by
      cases hk : node.kind with
      | ends type value => simp [Node.value?, hk, hc.ends type value hk]
      | continues links types =>
        obtain ⟨links', hk', -⟩ := hc.continues links types hk
        simp [Node.value?, hk, hk']
    have hrun : ∀ (r : Parser σ) (t : Session σ) (m : Node), r.semantics = none →
        r.runValue m t = (.ok (m.value?.map .string), t) := by
      intro r t m hr
      unfold runValue
      rw [hr]
      cases m.value? <;> rfl
    rw [hrun p _ _ h.plain.1, hrun q _ _ h.plain.2, hvalue]
    refine .bind (h.reduce type _ s) fun s₁ => .bind (closeFrame_renumber s₁) fun s₂ => ?_
    rw [Session.isDone_renumber]
    split
    · exact .pure rfl
    · exact .bind (h.choices s₂ .none).some fun choices => .pure rfl

theorem perform (h : Mirrors f p q) (c : Choice) (s : Session σ) :
    Follows (fun r => (r.1, r.2.renumber f)) (p.perform c s)
      (q.perform (c.renumber f) (s.renumber f)) := by
  cases c with
  | initial n => exact .bind (h.moveInitial n s) fun s => h.runAction n s
  | nonDummy n => exact .bind (h.moveNonDummy n s) fun s => h.runAction n s
  | dummy n => exact .bind (h.moveDummy n s) fun s => h.runAction n s
  | final type => exact h.moveFinal type s

theorem subAhead_renumber (s : Session σ) : subAhead (s.renumber f) = subAhead s := by
  simp only [subAhead, Session.renumber_arena, Session.renumber_state, State.renumber_current,
    Arena.fetch_renumber, bind_map_left, Phrase.renumber_next]
  refine bind_congr fun u => ?_
  cases u.next <;> simp

theorem commit_renumber (c : Choice) (others : List Choice) (s : Session σ) :
    Follows (Session.renumber f) (commit c others s)
      (commit (c.renumber f) (others.map (Choice.renumber f)) (s.renumber f)) := by
  have hmove : (c.renumber f).move = c.move := by cases c <;> rfl
  simp only [commit, hmove, List.isEmpty_map, subAhead_renumber]
  split
  · exact .pure rfl
  · exact .same fun nextSub => .pure rfl

theorem take (h : Mirrors f p q) (cs : List Choice) (s : Session σ) :
    Follows (fun r => (r.1, r.2.renumber f)) (p.take cs s)
      (q.take (cs.map (Choice.renumber f)) (s.renumber f)) := by
  cases cs with
  | nil => exact .pure rfl
  | cons c others =>
    refine .bind (commit_renumber c others s) fun s₁ => .bind (h.perform c s₁) fun r => ?_
    obtain ⟨signal, s₂⟩ := r
    cases signal <;> exact .pure rfl

theorem advance (h : Mirrors f p q) (s : Session σ) :
    Follows (fun r => (r.1, r.2.renumber f)) (p.advance s) (q.advance (s.renumber f)) := by
  refine .bind (φ := List.map (Choice.renumber f)) ?_ fun cs => h.take cs s
  simp only [pending, Session.renumber_state, State.renumber_choices]
  cases s.state.choices with
  | none => exact h.choices s .all
  | some cs => exact .pure rfl

theorem revised (h : Mirrors f p q) (s : Session σ) :
    Follows (Option.map (List.map (Choice.renumber f))) (p.revised s)
      (q.revised (s.renumber f)) := by
  have hdummy : ∀ c : Choice, (c.renumber f).isDummy = c.isDummy := fun c => by cases c <;> rfl
  have hnode : ∀ c : Choice, (c.renumber f).node? = c.node?.map f := fun c => by cases c <;> rfl
  have hleft : ((s.state.choices.map fun cs => cs.map (Choice.renumber f)).getD []).filter
      Choice.isDummy = ((s.state.choices.getD []).filter Choice.isDummy).map
        (Choice.renumber f) := by
    cases s.state.choices <;> simp [List.filter_map, Function.comp_def, hdummy]
  have honly : ∀ cs : List Choice, Dummies.only ((cs.map (Choice.renumber f)).filterMap
      Choice.node?) = (Dummies.only (cs.filterMap Choice.node?)).renumber f := fun cs => by
    simp [Dummies.renumber, List.filterMap_map, List.map_filterMap, hnode]
  simp only [Parser.revised, Session.renumber_arena, Session.renumber_state,
    State.renumber_current, State.renumber_nextSub, State.renumber_lastMove,
    State.renumber_choices, hleft, honly, Arena.fetch_renumber, bind_map_left,
    Phrase.renumber_next]
  refine .same fun u => ?_
  cases u.next with
  | none => exact .pure rfl
  | some i =>
    refine .same fun v => ?_
    simp only [Phrase.renumber_sub]
    split
    · exact .pure rfl
    · split
      · exact .bind (h.choices s _) fun cs => .pure rfl
      · exact .pure rfl

theorem backup (h : Mirrors f p q) (s : Session σ) :
    Follows (fun r => (r.1, r.2.renumber f)) (p.backup s) (q.backup (s.renumber f)) := by
  unfold Parser.backup
  simp only [Session.renumber_saved]
  cases s.saved with
  | nil => exact .pure rfl
  | cons st saved =>
    exact .bind (h.revised { s with state := st, saved }) fun choices => .pure rfl

theorem stage (h : Mirrors f p q) (s : Session σ) :
    Follows (fun r => (r.1, r.2.renumber f)) (p.stage s) (q.stage (s.renumber f)) := by
  refine .bind (h.advance s) fun r => ?_
  obtain ⟨signal, s₁⟩ := r
  cases signal with
  | quit => exact .pure rfl
  | succeed => exact .pure (by simp)
  | noAdvance => exact .bind (h.backup s₁) fun r => .pure rfl

theorem parse (h : Mirrors f p q) (fuel : Nat) (s : Session σ) :
    Follows (fun r => (r.1, r.2.renumber f)) (p.parse fuel s) (q.parse fuel (s.renumber f)) := by
  induction fuel generalizing s with
  | zero => exact .pure rfl
  | succ fuel ih =>
    refine .bind (h.stage s) fun r => ?_
    obtain ⟨stage, s₁⟩ := r
    cases stage with
    | complete => exact .pure rfl
    | failed => exact .pure rfl
    | searching => exact ih s₁

theorem summary (h : Mirrors f p q) (input : String) (success : Bool) (s : Session σ) :
    q.summary input success (s.renumber f) = p.summary input success s := by
  have hbracket : q.bracket (s.renumber f) = p.bracket s := by
    simp only [bracket, Session.top?_renumber, Session.renumber_arena, h.config,
      Arena.bracket_renumber]
  simp [Parser.summary, hbracket]

theorem start (h : Mirrors f p q) (input : String) (goals : List String) (s : Session σ) :
    q.start input goals s = (p.start input goals s).renumber f := by
  have hchain : ∀ (ts : List String) (last : Nat) (a : Arena),
      (Arena.appendTokens last ts a).renumber f = Arena.appendTokens last ts (a.renumber f) := by
    intro ts
    induction ts with
    | nil => exact fun _ _ => rfl
    | cons t ts ih => exact fun last a => by simp [Arena.appendTokens, ih]
  have hhead : (Arena.alloc { word := headerWord } {}).renumber f =
      Arena.alloc { word := headerWord } {} := by
    simp [Arena.renumber, Arena.alloc, Phrase.renumber]
  simp [Parser.start, startTokens, Session.start, Session.renumber, State.renumber, h.config,
    Arena.addChain, hchain, hhead]

/-- A run that comes to an end comes to the same end. -/
theorem run (h : Mirrors f p q) (fuel : Nat) (input : String) (goals : List String)
    (s : Session σ) : Follows (fun r => (r.1, r.2.renumber f)) (p.run fuel input goals s)
      (q.run fuel input goals s) := by
  rw [Parser.run, Parser.run, h.start]
  exact .bind (h.parse fuel _) fun r => .pure (by simp [h.summary])

end Mirrors

end Parser

end StateDiagram
