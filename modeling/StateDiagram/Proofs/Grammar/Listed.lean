import StateDiagram.Proofs.Grammar.Built
import Mathlib.Data.List.Induction
import Mathlib.Data.List.Nodup
import Mathlib.Data.String.Basic

/-! The lexicon of a grammar that is built by the operations of a store. It has every word once,
and lists for each word exactly the nodes of that word in the order of their creation. So the
entries of such a grammar hold its nodes, and a grammar that is put together from entries has them
as its nodes, one entry after the other. -/
namespace StateDiagram.Grammar

/-- Words are listed once, and each with its nodes. -/
structure Listed (g : Grammar) : Prop where
  keys : (g.lexicon.map (·.1)).Nodup
  instances : ∀ w, g.instances w =
    (List.range g.nodes.size).filter fun i => (g.nodes[i]?.map Node.word) = some w

theorem Reworks.listed {g h : Grammar} (r : Reworks g h) (hg : g.Listed) : h.Listed where
  keys := by
    rw [r.lexicon]
    exact hg.keys
  instances w := by
    rw [r.instances, hg.instances, r.size]
    refine List.filter_congr fun i _ => ?_
    cases hi : g.nodes[i]? with
    | some n =>
      obtain ⟨n', hn', hw, -⟩ := r.node_back hi
      simp [hn', hw]
    | none =>
      have hnone : h.nodes[i]? = none := by
        rw [Array.getElem?_eq_none_iff] at hi ⊢
        rwa [r.size]
      simp [hnone]

theorem keys_addEntry (w : String) (ids : List Nat) (es : List (String × List Nat)) :
    (addEntry w ids es).map (·.1) =
      es.map (·.1) ++ if w ∈ es.map (·.1) then [] else [w] := by
  induction es with
  | nil => simp [addEntry]
  | cons e es ih =>
    obtain ⟨v, old⟩ := e
    by_cases hv : v = w
    · subst hv
      simp [addEntry]
    · have hv' : w ≠ v := Ne.symm hv
      simp only [addEntry, if_neg hv, List.map_cons, ih, List.cons_append, List.mem_cons, hv',
        false_or]

theorem nodup_addEntry {w : String} {ids : List Nat} {es : List (String × List Nat)}
    (h : (es.map (·.1)).Nodup) : ((addEntry w ids es).map (·.1)).Nodup := by
  rw [keys_addEntry]
  split
  · simpa using h
  · rename_i hw
    exact h.append (List.nodup_singleton w) (by simpa using hw)

theorem Listed.addWord {g : Grammar} (hg : g.Listed) (w : String) : (g.addWord w).Listed where
  keys := nodup_addEntry hg.keys
  instances v := by
    rw [instances_addWord]
    exact hg.instances v

theorem Listed.addNode {g : Grammar} (hg : g.Listed) (n : Node) : (g.addNode n).Listed where
  keys := nodup_addEntry hg.keys
  instances w := by
    have hold : (List.range g.nodes.size).filter
        (fun i => ((g.addNode n).nodes[i]?.map Node.word) = some w) =
          (List.range g.nodes.size).filter (fun i => (g.nodes[i]?.map Node.word) = some w) := by
      refine List.filter_congr fun i hi => ?_
      have hne : i ≠ g.nodes.size := Nat.ne_of_lt (List.mem_range.1 hi)
      simp [Grammar.addNode, Array.getElem?_push, hne]
    have hsize : (g.addNode n).nodes.size = g.nodes.size + 1 := Array.size_push ..
    have hnew : (g.addNode n).nodes[g.nodes.size]? = some n := by simp [Grammar.addNode]
    rw [instances_addNode, hg.instances, hsize, List.range_succ, List.filter_append, hold]
    simp only [List.filter_cons, List.filter_nil, hnew, Option.map_some, Option.some.injEq,
      decide_eq_true_eq]

theorem Listed.addWords {g : Grammar} (hg : g.Listed) (es : List (String × List Nat)) :
    (es.foldl (fun g e => g.addWord e.1) g).Listed :=
  List.foldlRecOn es _ hg fun _ hg e _ => hg.addWord e.1

theorem Listed.addNodes {g : Grammar} (hg : g.Listed) (ns : List Node) :
    (ns.foldl (fun g n => g.addNode n) g).Listed :=
  List.foldlRecOn ns _ hg fun _ hg n _ => hg.addNode n

theorem Listed.merge {g other h : Grammar} (hg : g.Listed) (hm : g.merge other = .ok h) :
    h.Listed := by
  obtain ⟨ns, -, rfl⟩ := merge_eq_ok hm
  have hs := (hg.addWords other.lexicon).addNodes ns
  exact ⟨hs.keys, hs.instances⟩

theorem Built.listed {g : Grammar} (hg : Built g) : g.Listed := by
  induction hg with
  | new => exact ⟨List.nodup_nil, fun w => rfl⟩
  | addWord word _ ih => exact ih.addWord word
  | addNode _ _ ih => exact ih.addNode _
  | merge _ _ hm ih _ => exact ih.merge hm
  | mark _ ih => exact (mark_reworks _).listed ih
  | settleLink n l _ ih => exact (settleLink_reworks _ n l).listed ih
  | settleAll _ ih => exact (settleAll_reworks _).listed ih
  | expandBegins _ ih => exact (expandBegins_reworks _).listed ih
  | computeTypes _ ih => exact (computeTypes_reworks _).listed ih

theorem map_getElem?_range {α : Type} (xs : List α) :
    (List.range xs.length).map (xs[·]?) = xs.map some := by
  refine List.ext_getElem? fun i => ?_
  rw [List.getElem?_map, List.getElem?_map]
  by_cases hi : i < xs.length
  · rw [List.getElem?_range hi, List.getElem?_eq_getElem hi]
    simp [hi]
  · rw [List.getElem?_eq_none (by simpa using hi), List.getElem?_eq_none (by simpa using hi)]
    rfl

/-- The nodes of a word. -/
def ofWord (g : Grammar) (w : String) : List Node :=
  g.nodes.toList.filter fun n => n.word = w

theorem Listed.map_instances {g : Grammar} (hg : g.Listed) (w : String) :
    (g.instances w).map (g.nodes[·]?) = (g.ofWord w).map some := by
  have hrange : (List.range g.nodes.size).map (g.nodes[·]?) = g.nodes.toList.map some := by
    rw [← map_getElem?_range, Array.length_toList]
    exact List.map_congr_left fun i _ => by simp
  have hnode : ∀ i : Nat, (decide (g.nodes[i]?.map Node.word = some w)) =
      (g.nodes[i]?.any fun n => n.word = w) := fun i => by
    cases g.nodes[i]? <;> simp
  calc
    (g.instances w).map (g.nodes[·]?) =
        ((List.range g.nodes.size).map (g.nodes[·]?)).filter (·.any fun n => n.word = w) := by
      rw [hg.instances, List.filter_map]
      exact congrArg _ (List.filter_congr fun i _ => hnode i)
    _ = (g.ofWord w).map some := by
      rw [hrange, List.filter_map, ofWord]
      rfl

theorem Listed.entries_eq {g : Grammar} (hg : g.Listed) :
    g.entries = g.words.map fun w => ⟨w, g.ofWord w⟩ := by
  refine List.map_congr_left fun w _ => congrArg (Entry.mk w) ?_
  calc
    (g.instances w).filterMap (g.nodes[·]?) =
        ((g.instances w).map (g.nodes[·]?)).filterMap id := by rw [List.filterMap_map]; rfl
    _ = g.ofWord w := by
      rw [hg.map_instances, List.filterMap_map]
      exact List.filterMap_some ..

theorem mem_words {g : Grammar} {w : String} : w ∈ g.words ↔ w ∈ g.lexicon.map (·.1) :=
  List.mem_mergeSort

theorem lookupIn_isSome {w : String} {es : List (String × List Nat)} :
    (lookupIn w es).isSome = true ↔ w ∈ es.map (·.1) := by
  induction es with
  | nil => simp [lookupIn]
  | cons e es ih =>
    obtain ⟨v, ids⟩ := e
    by_cases hv : v = w
    · simp [lookupIn, hv]
    · have hv' : w ≠ v := Ne.symm hv
      simp [lookupIn, hv, hv', ih]

theorem mem_words_iff {g : Grammar} {w : String} : w ∈ g.words ↔ (g.lookup? w).isSome = true :=
  mem_words.trans lookupIn_isSome.symm

theorem Listed.nodup_words {g : Grammar} (hg : g.Listed) : g.words.Nodup :=
  (List.mergeSort_perm ..).nodup_iff.2 hg.keys

/-- The word of every node has its place in the lexicon. -/
theorem Listed.word_mem {g : Grammar} (hg : g.Listed) {n : Node} (hn : n ∈ g.nodes.toList) :
    n.word ∈ g.words := by
  rw [mem_words_iff]
  obtain ⟨i, hi⟩ := List.mem_iff_getElem?.1 hn
  have hi' : g.nodes[i]? = some n := by simpa using hi
  have hmem : i ∈ g.instances n.word := by
    rw [hg.instances, List.mem_filter]
    exact ⟨List.mem_range.2 (Array.getElem?_eq_some_iff.1 hi').1, by simp [hi']⟩
  cases hl : g.lookup? n.word with
  | some ids => rfl
  | none => simp [Grammar.instances, hl] at hmem

/-- To go through a list key by key is to go through those of its items that have one of the
keys. -/
theorem perm_flatMap_filter {α β : Type} [DecidableEq β] (key : α → β) (xs : List α) {ws : List β}
    (hws : ws.Nodup) : (ws.flatMap fun w => xs.filter fun a => key a = w).Perm
      (xs.filter fun a => key a ∈ ws) := by
  induction ws with
  | nil => simp
  | cons w ws ih =>
    obtain ⟨hw, hws⟩ := List.nodup_cons.1 hws
    have hsplit := List.filter_append_perm (fun a => key a = w)
      (xs.filter fun a => key a ∈ w :: ws)
    rw [List.filter_filter, List.filter_filter] at hsplit
    refine List.Perm.trans ?_ hsplit
    refine List.Perm.append (.of_eq (List.filter_congr fun a _ => ?_)) ((ih hws).trans
      (.of_eq (List.filter_congr fun a _ => ?_)))
    · by_cases h : key a = w <;> simp [h]
    · by_cases h : key a = w <;> simp [h, hw]

theorem filter_flatMap_filter {α β : Type} [DecidableEq β] (key : α → β) (xs : List α)
    {ws : List β} (hws : ws.Nodup) (w : β) :
    (ws.flatMap fun w => xs.filter fun a => key a = w).filter (fun a => key a = w) =
      if w ∈ ws then xs.filter fun a => key a = w else [] := by
  induction ws with
  | nil => rfl
  | cons v ws ih =>
    obtain ⟨hv, hws⟩ := List.nodup_cons.1 hws
    have hhead : (xs.filter fun a => key a = v).filter (fun a => key a = w) =
        if v = w then xs.filter fun a => key a = w else [] := by
      rw [List.filter_filter]
      by_cases hvw : v = w
      · subst hvw
        simp
      · rw [if_neg hvw, List.filter_eq_nil_iff]
        intro a _
        by_cases ha : key a = w
        · simp [ha, Ne.symm hvw]
        · simp [ha]
    rw [List.flatMap_cons, List.filter_append, hhead, ih hws]
    by_cases hvw : v = w
    · subst hvw
      simp [hv]
    · simp [hvw, Ne.symm hvw]

/-- Word by word, all nodes of a grammar are found. -/
theorem Listed.perm {g : Grammar} (hg : g.Listed) :
    (g.words.flatMap g.ofWord).Perm g.nodes.toList :=
  (perm_flatMap_filter Node.word g.nodes.toList hg.nodup_words).trans
    (.of_eq (List.filter_eq_self.2 fun _ hn => decide_eq_true (hg.word_mem hn)))

/-- The nodes that an entry stands for. -/
def Entry.named (e : Entry) : List Node :=
  e.nodes.map fun n => { n with word := e.word }

theorem addEntryNodes_frame (e : Entry) (g : Grammar) :
    (g.addEntryNodes e).nodes.toList = g.nodes.toList ++ e.named ∧
      (g.addEntryNodes e).lexicon.map (·.1) =
        g.lexicon.map (·.1) ++ if e.word ∈ g.lexicon.map (·.1) then [] else [e.word] := by
  have hfold : ∀ (ns : List Node) (h : Grammar), e.word ∈ h.lexicon.map (·.1) →
      (ns.foldl (fun g n => g.addNode { n with word := e.word }) h).nodes.toList =
          h.nodes.toList ++ ns.map (fun n => { n with word := e.word }) ∧
        (ns.foldl (fun g n => g.addNode { n with word := e.word }) h).lexicon.map (·.1) =
          h.lexicon.map (·.1) := by
    intro ns
    induction ns with
    | nil => intro h _; simp
    | cons n ns ih =>
      intro h hmem
      have hkeys : (h.addNode { n with word := e.word }).lexicon.map (·.1) =
          h.lexicon.map (·.1) := by
        rw [addNode, keys_addEntry, if_pos hmem, List.append_nil]
      obtain ⟨hnodes, hlexicon⟩ := ih (h.addNode { n with word := e.word }) (by rwa [hkeys])
      rw [hkeys] at hlexicon
      refine ⟨?_, hlexicon⟩
      rw [List.foldl_cons, hnodes]
      simp [addNode]
  have hword : e.word ∈ (g.addWord e.word).lexicon.map (·.1) := by
    rw [addWord, keys_addEntry]
    split
    · rename_i hmem
      rwa [List.append_nil]
    · exact List.mem_append_right _ (List.mem_singleton_self _)
  obtain ⟨hnodes, hlexicon⟩ := hfold e.nodes (g.addWord e.word) hword
  exact ⟨hnodes, hlexicon.trans (keys_addEntry ..)⟩

/-- A grammar that is put together from entries has their nodes, one entry after the other. -/
theorem nodes_ofEntries (es : List Entry) :
    (ofEntries es).nodes.toList = es.flatMap Entry.named := by
  have hfold : ∀ g : Grammar, (es.foldl (fun g e => g.addEntryNodes e) g).nodes.toList =
      g.nodes.toList ++ es.flatMap Entry.named := by
    induction es with
    | nil => simp
    | cons e es ih =>
      intro g
      rw [List.foldl_cons, ih, (addEntryNodes_frame e g).1, List.flatMap_cons, List.append_assoc]
  exact (hfold {}).trans (List.nil_append _)

/-- It has the words of the entries. -/
theorem mem_words_ofEntries {es : List Entry} {w : String} :
    w ∈ (ofEntries es).words ↔ w ∈ es.map Entry.word := by
  have hfold : ∀ g : Grammar, w ∈ (es.foldl (fun g e => g.addEntryNodes e) g).lexicon.map (·.1) ↔
      w ∈ g.lexicon.map (·.1) ∨ w ∈ es.map Entry.word := by
    induction es with
    | nil => simp
    | cons e es ih =>
      intro g
      rw [List.foldl_cons, ih, (addEntryNodes_frame e g).2, List.mem_append, List.map_cons,
        List.mem_cons, or_assoc]
      split
      · rename_i hmem
        by_cases hw : w = e.word
        · simp only [hw, hmem, true_or]
        · simp only [List.not_mem_nil, hw, false_or]
      · rw [List.mem_singleton]
  exact mem_words.trans ((hfold {}).trans (by simp))

/-- Entries of different words are listed in their order. -/
theorem keys_ofEntries {es : List Entry} (h : (es.map Entry.word).Nodup) :
    (ofEntries es).lexicon.map (·.1) = es.map Entry.word := by
  have hfold : ∀ g : Grammar, (g.lexicon.map (·.1) ++ es.map Entry.word).Nodup →
      (es.foldl (fun g e => g.addEntryNodes e) g).lexicon.map (·.1) =
        g.lexicon.map (·.1) ++ es.map Entry.word := by
    clear h
    induction es with
    | nil => simp
    | cons e es ih =>
      intro g hnodup
      have hnew : e.word ∉ g.lexicon.map (·.1) := fun hmem =>
        (List.nodup_append.1 hnodup).2.2 e.word hmem e.word (List.mem_cons_self ..) rfl
      have hkeys := (addEntryNodes_frame e g).2
      rw [if_neg hnew] at hkeys
      have happend : g.lexicon.map (·.1) ++ (e :: es).map Entry.word =
          (g.addEntryNodes e).lexicon.map (·.1) ++ es.map Entry.word := by
        rw [hkeys, List.append_assoc]
        rfl
      rw [happend] at hnodup ⊢
      exact ih _ hnodup
  exact (hfold {} (by simpa using h)).trans (List.nil_append _)

theorem marked_ofEntries (es : List Entry) : (ofEntries es).marked = false := by
  refine List.foldlRecOn (motive := fun g : Grammar => g.marked = false) es _ rfl fun g hg e _ => ?_
  exact List.foldlRecOn (motive := fun g : Grammar => g.marked = false) e.nodes _ hg
    fun _ _ _ _ => rfl

theorem wordLe_total (v w : String) : (wordLe v w || wordLe w v) = true := by
  unfold wordLe
  by_cases hv : v = dummyWord
  · simp [hv]
  · by_cases hw : w = dummyWord
    · simp [hw]
    · simp only [hv, hw, if_false, Bool.or_eq_true, decide_eq_true_eq, Bool.and_eq_true,
        beq_iff_eq]
      obtain hlt | heq | hgt := lt_trichotomy (Text.lowercase v) (Text.lowercase w)
      · exact .inl (.inl hlt)
      · obtain hle | hle := le_total v w
        · exact .inl (.inr ⟨heq, hle⟩)
        · exact .inr (.inr ⟨heq.symm, hle⟩)
      · exact .inr (.inl hgt)

theorem wordLe_trans (u v w : String) (huv : wordLe u v = true) (hvw : wordLe v w = true) :
    wordLe u w = true := by
  unfold wordLe at huv hvw ⊢
  by_cases hu : u = dummyWord
  · simp [hu]
  · by_cases hv : v = dummyWord
    · simp [hu, hv] at huv
    · by_cases hw : w = dummyWord
      · simp [hv, hw] at hvw
      · simp only [hu, hv, hw, if_false, Bool.or_eq_true, decide_eq_true_eq, Bool.and_eq_true,
          beq_iff_eq] at huv hvw ⊢
        obtain huv | ⟨huv, huv'⟩ := huv
        · obtain hvw | ⟨hvw, -⟩ := hvw
          · exact .inl (lt_trans huv hvw)
          · exact .inl (hvw ▸ huv)
        · obtain hvw | ⟨hvw, hvw'⟩ := hvw
          · exact .inl (huv ▸ hvw)
          · exact .inr ⟨huv.trans hvw, le_trans huv' hvw'⟩

/-- A grammar that is put together from the entries of another one has its words in order. -/
theorem words_ofEntries {g : Grammar} (hg : g.Listed) {es : List Entry}
    (h : es.map Entry.word = g.words) : (ofEntries es).words = g.words := by
  have hkeys := keys_ofEntries (h ▸ hg.nodup_words)
  have hsorted : g.words.Pairwise fun v w => wordLe v w :=
    List.pairwise_mergeSort wordLe_trans wordLe_total _
  rw [words, hkeys, h, List.mergeSort_of_pairwise hsorted]

end StateDiagram.Grammar
