import StateDiagram.Proofs.Parser.Calls

/-! What every call of a host leaves behind: the active state and the saved states stand on chains
that end, subphrases and all, and their counters say where the open phrases begin. -/
namespace StateDiagram

open StateDiagram.Tree Arena

variable {σ : Type}

/-- The state has come along the chain `ts` as far as unit number `k`, the header being number 0.
Every unit behind the header is matched to a node, and the open phrases begin one before the
other. -/
structure State.Walks (g : Grammar) (a : Arena) (st : State) (ts : List Tree) (k : Nat) :
    Prop where
  spans : a.Spans (some st.head) ts none
  current : ts[k]?.map slot = some st.current
  outside : st.current = st.head ↔ st.frames = []
  inside : st.frames ≠ [] → 0 < st.beginning ∧ st.beginning ≤ k
  ordered : (st.beginning :: st.frames.map Frame.beginning).Pairwise (· > ·)
  outermost : (st.beginning :: st.frames.map Frame.beginning).getLast? = some 0
  matched : ∀ (i : Nat) (t : Tree), 0 < i → i ≤ k → ts[i]? = some t →
    ∃ n node, t.matched = some n ∧ g.nodes[n]? = some node

theorem Nested.le {α : Type} {b : Nat} {fs : List Frame} {os : List (List α)}
    (h : Nested b fs os) : b ≤ os.flatten.length := by
  induction h with
  | outside => exact Nat.le_refl 0
  | @inside f fs o os ho _ _ =>
    have hpos : 0 < o.length := List.length_pos_iff.2 ho
    simp only [List.flatten_cons, List.length_append]
    omega

theorem Nested.ordered {α : Type} {b : Nat} {fs : List Frame} {os : List (List α)}
    (h : Nested b fs os) : (b :: fs.map Frame.beginning).Pairwise (· > ·) := by
  induction h with
  | outside => simp
  | @inside f fs o os _ hos ih =>
    have hle := hos.le
    rw [List.map_cons]
    refine List.pairwise_cons.2 ⟨fun c hc => ?_, ih⟩
    cases List.mem_cons.1 hc with
    | inl heq => omega
    | inr hc =>
      have hlt : f.beginning > c := (List.pairwise_cons.1 ih).1 c hc
      omega

theorem Nested.outermost {α : Type} {b : Nat} {fs : List Frame} {os : List (List α)}
    (h : Nested b fs os) : (b :: fs.map Frame.beginning).getLast? = some 0 := by
  induction h with
  | outside => rfl
  | inside _ _ ih => rw [List.map_cons, List.getLast?_cons_cons, ih]

/-- The unit at which a walk along a chain has arrived. -/
theorem getElem?_lastSlot (t : Tree) (ts us : List Tree) :
    (t :: (ts ++ us))[ts.length]?.map slot = some (lastSlot t.slot ts) := by
  induction ts generalizing t with
  | nil => rfl
  | cons u ts ih => exact ih u

namespace Parser

variable {p : Parser σ}

theorem Row.matched {V : Node → Option Value → Prop} {o : List Form} {ws : List String}
    (h : p.Row V o ws) (hg : p.grammar.Sound) :
    ∀ u ∈ o, ∃ n node, u.matched = some n ∧ p.grammar.nodes[n]? = some node := by
  have hnode : ∀ {u : Form} {o : List Form} {ws : List String} {n : Nat}, u.matched = some n →
      p.Row V (u :: o) ws → ∃ n node, u.matched = some n ∧ p.grammar.nodes[n]? = some node := by
    intro u o ws n hu hrow
    obtain ⟨node, hat⟩ := hrow.at_node hg
    simp only [at?, List.head?_cons, Option.bind_some, hu] at hat
    exact ⟨n, node, hu, hat⟩
  induction o generalizing ws with
  | nil => simp
  | cons v o ih =>
    intro u hu
    cases h with
    | first hv hn =>
      obtain rfl := List.mem_singleton.1 hu
      exact hnode (Form.matched_mark _ _) (.first hv hn)
    | next ho hv hat hl hd hm ht =>
      cases List.mem_cons.1 hu with
      | inl heq => exact heq ▸ hnode (Form.matched_mark _ _) (.next ho hv hat hl hd hm ht)
      | inr hu => exact ih ho u hu
    | skip ho hat hl hd ht =>
      cases List.mem_cons.1 hu with
      | inl heq => exact heq ▸ hnode rfl (.skip ho hat hl hd ht)
      | inr hu => exact ih ho u hu

end Parser

/-- A state that stands at a place has walked along its chain. -/
theorem Post.Lays.walks {p : Parser σ} {a : Arena} {e : Post} (h : e.Lays a)
    (hproper : p.Proper e.place.view) (hg : p.grammar.Sound) :
    e.state.Walks p.grammar a e.units e.place.spine.length where
  spans := h.spans
  current := by
    rw [h.current]
    exact getElem?_lastSlot (header e.state.head) e.place.spine e.place.ahead
  outside := by
    rw [← h.opened_eq_nil]
    have hnested := h.nested
    cases ho : e.place.opened with
    | nil =>
      rw [ho] at hnested
      simp [hnested.of_nil.2]
    | cons o os =>
      rw [ho] at hnested
      obtain ⟨f, fs, hfs, -⟩ := hnested.of_cons
      simp [hfs]
  inside := by
    intro hframes
    have hle := h.nested.le
    have hpos : 0 < e.state.beginning := by
      have hnested := h.nested
      cases ho : e.place.opened with
      | nil =>
        rw [ho] at hnested
        exact absurd hnested.of_nil.2 hframes
      | cons o os =>
        rw [ho] at hnested
        obtain ⟨-, -, -, hb, -⟩ := hnested.of_cons
        omega
    refine ⟨hpos, ?_⟩
    rwa [Place.spine, List.length_reverse]
  ordered := h.nested.ordered
  outermost := h.nested.outermost
  matched := by
    intro i t hpos hle hi
    obtain ⟨j, rfl⟩ : ∃ j, i = j + 1 := ⟨i - 1, by omega⟩
    have hmem : t ∈ e.place.spine := by
      rw [units, List.getElem?_cons_succ, List.getElem?_append_left (by omega)] at hi
      exact List.mem_of_getElem? hi
    rw [Place.spine, List.mem_reverse, List.mem_flatten] at hmem
    obtain ⟨o, ho, hto⟩ := hmem
    obtain ⟨ws, hrow⟩ := hproper.opened (o.map form) (List.mem_map_of_mem ho)
    have hform := hrow.matched hg t.form (List.mem_map_of_mem hto)
    rwa [matched_form] at hform

theorem Stands.walks {p : Parser σ} {s : Session σ} {x : Place Tree} {saved : List Post}
    (h : Stands p s x saved) (hg : p.grammar.Sound) : ∀ st ∈ s.state :: s.saved,
      ∃ ts k, st.Walks p.grammar s.arena ts k := by
  intro st hst
  obtain ⟨e, he, rfl⟩ := h.post_of_mem hst
  exact ⟨_, _, (h.standing.lays e he).walks (h.standing.proper e he) hg⟩

/-- Whatever calls a host makes of a parser for a marked grammar, with whatever settings and
semantics, none of them fails, and all states stand on chains that they have walked along. What
the lexicon lists for a word are nodes of that word, so that no lookup passes one over. -/
theorem Parser.calls_walk {g : Grammar} (hg : g.Built) (hm : g.marked = true) (config : Config)
    (semantics : Option (Semantics σ)) (host : σ) (cs : List Call) :
    (∀ w, ∀ n ∈ g.instances w, ∃ node, g.nodes[n]? = some node ∧ node.word = w) ∧
    ∃ p s, make g config semantics = .ok p ∧ p.calls cs (.empty host) = .ok s ∧
      ∀ st ∈ s.state :: s.saved, ∃ ts k, st.Walks g s.arena ts k := by
  let p : Parser σ := ⟨g, config, semantics⟩
  have hsound : p.grammar.Sound := hg.sound
  obtain ⟨s, hrun, x, saved, hs⟩ := calls_placed hsound cs (.start p [] [] host)
  exact ⟨hsound.listed, p, s, if_pos hm, hrun, hs.walks hsound⟩

/-- A parser for a grammar of one word that ends a phrase. -/
theorem Parser.calls_walk_one :
    let g := ((Grammar.addNode { word := "a", id := "1", kind := .ends "T" none, initial := true }
      {}).mark)
    g.marked = true ∧ g.instances "a" = [0] ∧
      (∀ w, ∀ n ∈ g.instances w, ∃ node, g.nodes[n]? = some node ∧ node.word = w) ∧
      ∃ p s, make g {} (none : Option (Semantics Unit)) = .ok p ∧
        p.calls [.startTokens ["a"] ["T"], .advance, .advance, .backup] (.empty ()) = .ok s ∧
          ∀ st ∈ s.state :: s.saved, ∃ ts k, st.Walks g s.arena ts k :=
  ⟨rfl, rfl, calls_walk (.mark (.addNode .new (by simp [Node.Fresh, Node.links]))) rfl {} none ()
    _⟩

end StateDiagram
