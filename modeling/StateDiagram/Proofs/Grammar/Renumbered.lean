import StateDiagram.Parser.Choices
import StateDiagram.Proofs.Grammar.RoundTrip
import Mathlib.Data.List.Nodup
import Mathlib.Data.Option.Basic

/-! Grammars with the same nodes in another order. A grammar that is put together word by word from
the nodes of another one has them under other numbers: each node gets the place at which it comes
when the words are gone through in order. -/
namespace StateDiagram.Grammar

/-- Phrase types that are expected somewhere: goals, or what some node goes on with. -/
def Expects (g : Grammar) (expected : Option (List String)) : Prop :=
  expected.isSome = true ∨ ∃ (i : Nat) (n : Node) (links : List Link), g.nodes[i]? = some n ∧
    n.kind = .continues links expected

/-- The node `m` of `h` does for a parse what the node `n` of `g` does. -/
structure Counterpart (f : Nat → Nat) (g h : Grammar) (n m : Node) : Prop where
  begins : ∀ expected, g.Expects expected → Parser.canBegin m expected = Parser.canBegin n expected
  incoming : m.incoming = n.incoming
  ends : ∀ type value, n.kind = .ends type value → m.kind = .ends type value
  continues : ∀ links types, n.kind = .continues links types → ∃ links',
    m.kind = .continues links' types ∧
      List.Forall₂ (fun l l' => l'.word = l.word ∧ h.target? l' = (g.target? l).map f) links links'

/-- The grammar `h` has the nodes of `g` under other numbers. -/
structure Renumbers (f : Nat → Nat) (g h : Grammar) : Prop where
  injective : f.Injective
  lookup : ∀ w, h.lookup? w = (g.lookup? w).map (·.map f)
  missing : ∀ i : Nat, g.nodes[i]? = none → h.nodes[f i]? = none
  node : ∀ (i : Nat) (n : Node), g.nodes[i]? = some n → ∃ m, h.nodes[f i]? = some m ∧
    Counterpart f g h n m

/-- The places of some of the items of a list. -/
theorem map_idxOf_filter {α : Type} [DecidableEq α] {xs : List α} (hxs : xs.Nodup) (p : α → Bool) :
    (xs.filter p).map xs.idxOf = (List.range xs.length).filter fun k => xs[k]?.any p := by
  have hsome : ((List.range xs.length).filter fun k => xs[k]?.any p).map (xs[·]?) =
      (xs.filter p).map some := by
    calc
      _ = ((List.range xs.length).map (xs[·]?)).filter (·.any p) := by
        rw [List.filter_map]
        rfl
      _ = (xs.filter p).map some := by
        rw [map_getElem?_range, List.filter_map]
        rfl
  calc
    (xs.filter p).map xs.idxOf =
        ((xs.filter p).map some).map fun o => (o.map xs.idxOf).getD 0 := by simp
    _ = (List.range xs.length).filter fun k => xs[k]?.any p := by
      rw [← hsome, List.map_map]
      refine (List.map_congr_left fun k hk => ?_).trans (List.map_id _)
      have hlt := List.mem_range.1 (List.mem_of_mem_filter hk)
      simp [hlt, hxs.idxOf_getElem k hlt]

/-- The nodes, word by word. -/
def order (g : Grammar) : List Nat :=
  g.words.flatMap g.instances

/-- The place of a node when the words are gone through in order. -/
def placeOf (g : Grammar) (i : Nat) : Nat :=
  if i < g.nodes.size then g.order.idxOf i else i

variable {g h : Grammar}

theorem Listed.order_eq (hg : g.Listed) : g.order = (g.words.map some).flatMap fun w =>
    (List.range g.nodes.size).filter fun i => g.nodes[i]?.map Node.word = w := by
  rw [order, List.flatMap_map]
  exact List.flatMap_congr fun w _ => hg.instances w

theorem Listed.order_perm (hg : g.Listed) : g.order.Perm (List.range g.nodes.size) := by
  rw [hg.order_eq]
  refine (perm_flatMap_filter _ _ (hg.nodup_words.map (Option.some_injective _))).trans
    (.of_eq (List.filter_eq_self.2 fun i hi => ?_))
  have hlt := List.mem_range.1 hi
  have hmem : g.nodes[i]?.map Node.word ∈ g.words.map some :=
    List.mem_map.2 ⟨g.nodes[i].word, hg.word_mem (by simp), by simp [hlt]⟩
  simpa using hmem

theorem Listed.mem_order (hg : g.Listed) {i : Nat} : i ∈ g.order ↔ i < g.nodes.size :=
  hg.order_perm.mem_iff.trans List.mem_range

theorem Listed.length_order (hg : g.Listed) : g.order.length = g.nodes.size := by
  rw [hg.order_perm.length_eq, List.length_range]

theorem Listed.nodup_order (hg : g.Listed) : g.order.Nodup :=
  hg.order_perm.nodup_iff.2 List.nodup_range

theorem Listed.placeOf_injective (hg : g.Listed) : g.placeOf.Injective := by
  intro i j hij
  have hlt : ∀ k, k < g.nodes.size → g.order.idxOf k < g.nodes.size := fun k hk => by
    rw [← hg.length_order]
    exact List.idxOf_lt_length_of_mem (hg.mem_order.2 hk)
  unfold placeOf at hij
  by_cases hi : i < g.nodes.size
  · by_cases hj : j < g.nodes.size
    · rw [if_pos hi, if_pos hj] at hij
      exact (List.idxOf_inj (hg.mem_order.2 hi)).1 hij
    · rw [if_pos hi, if_neg hj] at hij
      have := hlt i hi
      omega
  · by_cases hj : j < g.nodes.size
    · rw [if_neg hi, if_pos hj] at hij
      have := hlt j hj
      omega
    · rwa [if_neg hi, if_neg hj] at hij

theorem Listed.map_order (hg : g.Listed) :
    g.order.map (g.nodes[·]?) = (g.words.flatMap g.ofWord).map some := by
  rw [order, List.map_flatMap, List.map_flatMap]
  exact List.flatMap_congr fun w _ => hg.map_instances w

/-- The grammar `h` has the words of `g` and, word by word, nodes that are related to those of
`g`. -/
structure Relists (R : Node → Node → Prop) (g h : Grammar) : Prop where
  words : h.words = g.words
  nodes : List.Forall₂ R (g.words.flatMap g.ofWord) h.nodes.toList

variable {R : Node → Node → Prop}

theorem Relists.size (r : Relists R g h) (hg : g.Listed) : h.nodes.size = g.nodes.size := by
  rw [← Array.length_toList, ← r.nodes.length_eq, hg.perm.length_eq, Array.length_toList]

/-- The node `i` of `g` has become another one of `h`. -/
theorem Relists.node (r : Relists R g h) (hg : g.Listed) {i : Nat} {n : Node}
    (hi : g.nodes[i]? = some n) : ∃ m, h.nodes[g.placeOf i]? = some m ∧ R n m := by
  have hlt := (Array.getElem?_eq_some_iff.1 hi).1
  have hplace : g.order[g.placeOf i]? = some i := by
    rw [placeOf, if_pos hlt]
    exact List.getElem?_idxOf (hg.mem_order.2 hlt)
  have hn : (g.words.flatMap g.ofWord)[g.placeOf i]? = some n := by
    have hmap := congrArg (·[g.placeOf i]?) hg.map_order
    simpa [hplace, hi, eq_comm] using hmap
  obtain ⟨hk, hget⟩ := List.getElem?_eq_some_iff.1 hn
  have hk' : g.placeOf i < h.nodes.toList.length := r.nodes.length_eq ▸ hk
  refine ⟨_, Array.getElem?_eq_getElem hk', ?_⟩
  have hR := r.nodes.get hk hk'
  simpa [hget] using hR

/-- Every node of `h` is one that a node of `g` has become. -/
theorem Relists.node_back (r : Relists R g h) (hg : g.Listed) {k : Nat} {m : Node}
    (hk : h.nodes[k]? = some m) : ∃ i n, k = g.placeOf i ∧ g.nodes[i]? = some n := by
  have hlt : k < g.order.length := by
    rw [hg.length_order, ← r.size hg]
    exact (Array.getElem?_eq_some_iff.1 hk).1
  have hi : g.order[k] < g.nodes.size := hg.mem_order.1 (List.getElem_mem hlt)
  refine ⟨g.order[k], g.nodes[g.order[k]], ?_, Array.getElem?_eq_getElem hi⟩
  rw [placeOf, if_pos hi, hg.nodup_order.idxOf_getElem k hlt]

theorem Relists.missing (r : Relists R g h) (hg : g.Listed) {i : Nat}
    (hi : g.nodes[i]? = none) : h.nodes[g.placeOf i]? = none := by
  rw [Array.getElem?_eq_none_iff] at hi ⊢
  rwa [placeOf, if_neg (by omega), r.size hg]

/-- At the place of node `i` there is what that node has become. -/
theorem Relists.node_at (r : Relists R g h) (hg : g.Listed) {i : Nat} {m : Node}
    (hm : h.nodes[g.placeOf i]? = some m) : ∃ n, g.nodes[i]? = some n ∧ R n m := by
  cases hi : g.nodes[i]? with
  | none => simp [r.missing hg hi] at hm
  | some n =>
    obtain ⟨m', hm', hR⟩ := r.node hg hi
    obtain rfl : m' = m := Option.some.inj (hm'.symm.trans hm)
    exact ⟨n, rfl, hR⟩

theorem Listed.instances_eq_filter (hg : g.Listed) (w : String) :
    g.instances w = g.order.filter fun i => g.nodes[i]?.map Node.word = some w := by
  rw [hg.order_eq, filter_flatMap_filter _ _ (hg.nodup_words.map (Option.some_injective _))]
  by_cases hw : w ∈ g.words
  · rw [if_pos (List.mem_map_of_mem hw), hg.instances]
  · have hnone : g.lookup? w = none := by
      rwa [← Option.not_isSome_iff_eq_none, ← mem_words_iff]
    rw [if_neg (by simpa using hw), Grammar.instances, hnone]
    rfl

theorem Relists.instances (r : Relists R g h) (hg : g.Listed) (hh : h.Listed)
    (hword : ∀ n m, R n m → m.word = n.word) (w : String) :
    h.instances w = (g.instances w).map g.placeOf := by
  have hwords : ∀ k : Nat, g.order[k]?.map (fun i => g.nodes[i]?.map Node.word) =
      h.nodes[k]?.map fun m => some m.word := by
    intro k
    have hmap : (g.words.flatMap g.ofWord).map Node.word = h.nodes.toList.map Node.word := by
      rw [← List.forall₂_eq_eq_eq, List.forall₂_map_left_iff, List.forall₂_map_right_iff]
      exact r.nodes.imp fun n m hnm => (hword n m hnm).symm
    have hk := congrArg (fun ns => (ns.map (Option.map Node.word))[k]?) hg.map_order
    have hk' := congrArg (fun ws => (ws.map some)[k]?) hmap
    simp only [List.map_map, List.getElem?_map, Array.getElem?_toList] at hk hk'
    exact hk.trans hk'
  have hplace : ∀ i ∈ g.instances w, g.placeOf i = g.order.idxOf i := by
    intro i hi
    rw [hg.instances_eq_filter] at hi
    exact if_pos (hg.mem_order.1 (List.mem_of_mem_filter hi))
  rw [List.map_congr_left hplace, hg.instances_eq_filter, map_idxOf_filter hg.nodup_order,
    hh.instances, r.size hg, hg.length_order]
  refine List.filter_congr fun k _ => ?_
  have hk := hwords k
  cases ho : g.order[k]? with
  | none =>
    cases hm : h.nodes[k]? with
    | none => rfl
    | some m => simp [ho, hm] at hk
  | some i =>
    cases hm : h.nodes[k]? with
    | none => simp [ho, hm] at hk
    | some m =>
      obtain hk : g.nodes[i]?.map Node.word = some m.word := by simpa [ho, hm] using hk
      simp only [Option.any_some, Option.map_some, hk]

/-- What a kind is, but for what links remember. -/
theorem kind_of_forget {n m : Node} (hkind : m.forget.kind = n.forget.kind) :
    (∀ type value, n.kind = .ends type value → m.kind = .ends type value) ∧
      ∀ links types, n.kind = .continues links types → ∃ links', m.kind = .continues links' types ∧
        List.Forall₂ (fun l l' => l'.word = l.word ∧ l'.id = l.id) links links' := by
  obtain ⟨word, id, kind⟩ := n
  obtain ⟨word', id', kind'⟩ := m
  cases kind with
  | ends type value =>
    cases kind' with
    | ends type' value' =>
      obtain ⟨rfl, rfl⟩ := Node.Kind.ends.inj hkind
      exact ⟨fun _ _ h => h, fun _ _ h => (nomatch h)⟩
    | continues links' types' => cases hkind
  | continues links types =>
    cases kind' with
    | ends type' value' => cases hkind
    | continues links' types' =>
      obtain ⟨hlinks, rfl⟩ := Node.Kind.continues.inj hkind
      refine ⟨fun _ _ h => (nomatch h), fun links₀ types₀ h => ?_⟩
      obtain ⟨rfl, rfl⟩ := Node.Kind.continues.inj h
      refine ⟨links', rfl, ?_⟩
      rw [← List.forall₂_eq_eq_eq, List.forall₂_map_left_iff, List.forall₂_map_right_iff] at hlinks
      exact hlinks.flip.imp fun l l' hl => ⟨(Link.mk.inj hl).1, (Link.mk.inj hl).2.1⟩

/-- The node `m` is as good as the node `n`: it can begin whatever is expected that the other one
can begin, and its kind is the same but for what links remember. -/
structure Replaces (g : Grammar) (n m : Node) : Prop where
  word : m.word = n.word
  id : m.id = n.id
  begins : ∀ expected, g.Expects expected → Parser.canBegin m expected = Parser.canBegin n expected
  kind : m.forget.kind = n.forget.kind

theorem Relists.find (r : Relists g.Replaces g h) (hg : g.Built) (hh : h.Built) (w id : String) :
    h.find? w id = (g.find? w id).map g.placeOf := by
  rw [find?, find?, r.instances hg.listed hh.listed fun n m hnm => hnm.word, List.find?_map]
  refine congrArg _ (List.find?_congr fun i hi => ?_)
  obtain ⟨n, hn, -⟩ := hg.sound.listed w i hi
  obtain ⟨m, hm, hnm⟩ := r.node hg.listed hn
  simp [hasId, hn, hm, hnm.id]

theorem Relists.target (r : Relists g.Replaces g h) (hg : g.Built) (hh : h.Built) {i : Nat}
    {n m : Node} (hn : g.nodes[i]? = some n) (hm : h.nodes[g.placeOf i]? = some m)
    {l l' : Link} (hl : l ∈ n.links) (hl' : l' ∈ m.links) (hword : l'.word = l.word)
    (hid : l'.id = l.id) : h.target? l' = (g.target? l).map g.placeOf := by
  rw [hg.sound.target_eq_find hn hl, hh.sound.target_eq_find hm hl', hword, hid, r.find hg hh]

theorem links_of_forget {n m : Node} (hkind : m.forget.kind = n.forget.kind) :
    List.Forall₂ (fun l l' => l'.word = l.word ∧ l'.id = l.id) n.links m.links := by
  obtain ⟨hends, hcontinues⟩ := kind_of_forget hkind
  cases hk : n.kind with
  | ends type value =>
    rw [Node.links, Node.links, hk, hends type value hk]
    exact .nil
  | continues links types =>
    obtain ⟨links', hk', hlinks⟩ := hcontinues links types hk
    rw [Node.links, Node.links, hk, hk']
    exact hlinks

/-- Some link leads to a node of `h` if and only if one leads to its counterpart in `g`. -/
theorem Relists.targets (r : Relists g.Replaces g h) (hg : g.Built) (hh : h.Built) (i : Nat) :
    g.placeOf i ∈ h.targets ↔ i ∈ g.targets := by
  rw [mem_targets, mem_targets]
  constructor
  · rintro ⟨j', m, hm, l', hl', ht⟩
    obtain ⟨j, -, rfl, -⟩ := r.node_back hg.listed hm
    obtain ⟨n, hn, hnm⟩ := r.node_at hg.listed hm
    obtain ⟨l, hl, hword, hid⟩ := exists_mem_of_forall₂ (links_of_forget hnm.kind) hl'
    rw [r.target hg hh hn hm hl hl' hword hid] at ht
    obtain ⟨i', hi', heq⟩ := Option.map_eq_some_iff.1 ht
    obtain rfl : i' = i := hg.listed.placeOf_injective heq
    exact ⟨j, n, hn, l, hl, hi'⟩
  · rintro ⟨j, n, hn, l, hl, ht⟩
    obtain ⟨m, hm, hnm⟩ := r.node hg.listed hn
    obtain ⟨l', hl', hword, hid⟩ := exists_mem_of_forall₂ (links_of_forget hnm.kind).flip hl
    exact ⟨_, m, hm, l', hl', by rw [r.target hg hh hn hm hl hl' hword hid, ht]; rfl⟩

/-- A marked grammar that relists another one renumbers it. -/
theorem Relists.renumbers (r : Relists g.Replaces g h) (hg : g.Built) (hh : h.Built)
    (hgm : g.marked = true) (hhm : h.marked = true) : Renumbers g.placeOf g h where
  injective := hg.listed.placeOf_injective
  lookup w := by
    have hwords : (h.lookup? w).isSome = (g.lookup? w).isSome := by
      rw [Bool.eq_iff_iff, ← mem_words_iff, ← mem_words_iff, r.words]
    have hinstances := r.instances hg.listed hh.listed (fun n m hnm => hnm.word) w
    unfold Grammar.instances at hinstances
    cases hgw : g.lookup? w with
    | none => simpa [hgw] using hwords
    | some ids =>
      cases hhw : h.lookup? w with
      | none => simp [hgw, hhw] at hwords
      | some ids' => simpa [hgw, hhw] using hinstances
  missing i hi := r.missing hg.listed hi
  node i n hn := by
    obtain ⟨m, hm, hnm⟩ := r.node hg.listed hn
    obtain ⟨hends, hcontinues⟩ := kind_of_forget hnm.kind
    refine ⟨m, hm, hnm.begins, ?_, hends, fun links types hk => ?_⟩
    · rw [Bool.eq_iff_iff, hg.sound.flagged hgm i n hn, hh.sound.flagged hhm _ m hm,
        r.targets hg hh]
    · obtain ⟨links', hk', hlinks⟩ := hcontinues links types hk
      refine ⟨links', hk', forall₂_imp hlinks fun l hl l' hl' hll' => ⟨hll'.1, ?_⟩⟩
      exact r.target hg hh hn hm (by simpa [Node.links, hk] using hl)
        (by simpa [Node.links, hk'] using hl') hll'.1 hll'.2

theorem Alike.replaces (g : Grammar) {n m : Node} (hnm : Alike n m) : g.Replaces n m where
  word := hnm.word
  id := hnm.id
  begins expected _ := by simp only [Parser.canBegin, hnm.initial, hnm.begins]
  kind := hnm.kind

/-- An optimized grammar knows the types that its nodes go on with. -/
theorem Expects.exists_types {expected : Option (List String)} (he : g.optimize.Expects expected) :
    ∃ types, expected = some types := by
  obtain hsome | ⟨i, n', links, hi, hk⟩ := he
  · exact Option.isSome_iff_exists.1 hsome
  · rw [optimize_nodes, Option.map_eq_some_iff] at hi
    obtain ⟨n, -, rfl⟩ := hi
    cases hkind : n.kind with
    | ends type value => simp [(kind_optimizedNode g i).1 type value hkind] at hk
    | continues links₀ types₀ =>
      rw [(kind_optimizedNode g i).2 links₀ types₀ hkind] at hk
      exact ⟨_, (Node.Kind.continues.inj hk).2.symm⟩

/-- Whoever can begin nothing is not missed where the types to begin are known. -/
theorem Restored.replaces (g : Grammar) {n m : Node} (hnm : Restored n m) :
    g.optimize.Replaces n m where
  word := hnm.word
  id := hnm.id
  begins expected he := by
    obtain ⟨types, rfl⟩ := he.exists_types
    simp only [Parser.canBegin, hnm.initial, hnm.begins]
    cases hbegins : n.begins with
    | none => simp
    | some begins =>
      cases begins with
      | nil => simp
      | cons b bs =>
        have hne : (some (b :: bs) != some []) = true := rfl
        simp [hne]
  kind := hnm.kind

end StateDiagram.Grammar
