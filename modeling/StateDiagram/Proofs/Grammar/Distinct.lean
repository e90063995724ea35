import StateDiagram.Proofs.Grammar.Merged

/-! Names of nodes after a merge. A node is found by its word and its id, so no two nodes should
have both in common. A merge adds to the number of each newcomer how many nodes its word has
already, whatever the numbers of those nodes are. So two names come together when the sum is the id
of one of them, or when two newcomers spell the same number differently, and not otherwise. -/
namespace StateDiagram

/-- What a node is found by. -/
def Node.name (n : Node) : String × String :=
  (n.word, n.id)

namespace Grammar

variable {g other h : Grammar}

/-- No two nodes have the same word and the same id. -/
def Distinct (g : Grammar) : Prop :=
  (g.nodes.toList.map Node.name).Nodup

instance (g : Grammar) : Decidable g.Distinct :=
  inferInstanceAs (Decidable (List.Nodup _))

/-- The number that an id is read as. -/
def number? (id : String) : Option Int :=
  (Text.readInt64? (Text.trim id.toList)).map Int64.toInt

/-- The number of the newcomer `m`, shifted past the nodes of its word, is the id of `n`. -/
def Meets (g : Grammar) (n m : Node) : Prop :=
  m.word = n.word ∧ ∃ k, number? m.id = some k ∧ n.id = toString (k + (g.ofWord n.word).length)

/-- Two newcomers of a word that has nodes already are read as the same number. -/
def Coincide (g : Grammar) (m m' : Node) : Prop :=
  m.word = m'.word ∧ g.ofWord m.word ≠ [] ∧ number? m.id = number? m'.id

/-- The nodes of a grammar have different names if and only if each of them is found by its own. -/
theorem Listed.distinct_iff (hg : g.Listed) : g.Distinct ↔
    ∀ (i : Nat) (n : Node), g.nodes[i]? = some n → g.find? n.word n.id = some i := by
  have hname : ∀ m n : Node, (m.word = n.word ∧ m.id = n.id) ↔ m.name = n.name := fun m n => by
    rw [Node.name, Node.name, Prod.mk.injEq]
  have hget : ∀ {i : Nat} {n : Node}, g.nodes[i]? = some n ↔ g.nodes.toList[i]? = some n := by simp
  simp only [hg.find_eq, hget, hname, Distinct]
  generalize g.nodes.toList = ns
  rw [List.nodup_iff_injective_getElem]
  constructor
  · intro hinj i n hi
    obtain ⟨hlt, rfl⟩ := List.getElem?_eq_some_iff.1 hi
    rw [List.findIdx?_eq_some_iff_getElem]
    refine ⟨hlt, decide_eq_true rfl, fun j hj => ?_⟩
    have hne : (⟨j, by simp; omega⟩ : Fin (ns.map Node.name).length) ≠ ⟨i, by simpa⟩ :=
      fun heq => Nat.ne_of_lt hj (Fin.mk.inj heq)
    simpa using hinj.ne hne
  · rintro hfind ⟨i, hi⟩ ⟨j, hj⟩ hij
    simp only [List.getElem_map, List.length_map] at hij hi hj
    have hfi := hfind i ns[i] (List.getElem?_eq_getElem hi)
    have hfj := hfind j ns[j] (List.getElem?_eq_getElem hj)
    rw [hij] at hfi
    exact Fin.ext (Option.some.inj (hfi.symm.trans hfj))

/-! ### What a merge makes of the ids -/

theorem number?_toString {k : Nat} (h : k ≤ 9223372036854775807) :
    number? (toString k) = some (k : Int) := by
  rw [number?, Text.readInt64?_trim h, Option.map_some,
    Int64.toInt_ofInt_of_le (by omega) (by omega)]

theorem shiftId_eq_ok {word id id' : String} {offset : Nat}
    (h : shiftId word id offset = .ok id') :
    if offset = 0 then id' = id else ∃ k, number? id = some k ∧ id' = toString (k + offset) := by
  unfold shiftId at h
  split at h
  · rename_i h0
    rw [if_pos h0]
    exact (Except.ok.inj h).symm
  · rename_i h0
    rw [if_neg h0]
    split at h
    · rename_i k hk
      exact ⟨k.toInt, by simp [number?, hk], (Except.ok.inj h).symm⟩
    · cases h

/-- The node `m` is the newcomer `n` under the id that it gets. -/
structure Renamed (g : Grammar) (n m : Node) : Prop where
  word : m.word = n.word
  kept : g.ofWord n.word = [] → m.id = n.id
  shifted : g.ofWord n.word ≠ [] →
    ∃ k, number? n.id = some k ∧ m.id = toString (k + (g.ofWord n.word).length)

theorem shiftNode_renamed (hg : g.Listed) {n m : Node} (h : g.shiftNode n = .ok m) :
    g.Renamed n m := by
  obtain ⟨id, hid, h⟩ := bind_eq_ok h
  have hm : m.word = n.word ∧ m.id = id := by
    obtain ⟨word, old, kind⟩ := n
    cases kind with
    | ends type value =>
      cases h
      exact ⟨rfl, rfl⟩
    | continues links types =>
      obtain ⟨links', -, h⟩ := bind_eq_ok h
      cases h
      exact ⟨rfl, rfl⟩
  obtain ⟨hword, rfl⟩ := hm
  rw [hg.length_instances] at hid
  have hcases := shiftId_eq_ok hid
  refine ⟨hword, fun hnil => ?_, fun hne => ?_⟩
  · rwa [if_pos (List.length_eq_zero_iff.2 hnil)] at hcases
  · rwa [if_neg (List.length_eq_zero_iff.not.2 hne)] at hcases

/-- A merge that succeeds puts the newcomers behind the nodes of the grammar. -/
theorem merge_renamed (hg : g.Listed) (hm : g.merge other = .ok h) :
    ∃ ns, h.nodes.toList = g.nodes.toList ++ ns ∧
      List.Forall₂ g.Renamed other.nodes.toList ns := by
  obtain ⟨ns, hns, rfl⟩ := merge_eq_ok hm
  refine ⟨ns, ?_, (forall₂_of_mapM_eq_ok hns).imp fun n m => shiftNode_renamed hg⟩
  rw [nodes_addNodes, nodes_addWords]

/-- A newcomer gets the name of a node of the grammar only where its shifted number is the id of
that node. -/
theorem Renamed.name_iff {n m m' : Node} (hn : n ∈ g.nodes.toList) (hm : g.Renamed m m') :
    n.name = m'.name ↔ g.Meets n m := by
  rw [Node.name, Node.name, Prod.mk.injEq, hm.word, Meets, eq_comm]
  refine and_congr_right fun hword => ?_
  have hne : g.ofWord m.word ≠ [] :=
    List.ne_nil_of_mem (List.mem_filter.2 ⟨hn, decide_eq_true hword.symm⟩)
  obtain ⟨k, hk, hid⟩ := hm.shifted hne
  rw [hid, hk, hword]
  simp

/-- Two newcomers with different names get the same one only where they are read as the same
number. -/
theorem Renamed.name_inj {m m' n n' : Node} (hm : g.Renamed m n) (hm' : g.Renamed m' n')
    (hne : m.name ≠ m'.name) : n.name = n'.name ↔ g.Coincide m m' := by
  rw [Node.name, Node.name, Prod.mk.injEq, hm.word, hm'.word, Coincide]
  refine and_congr_right fun hword => ?_
  by_cases hnil : g.ofWord m.word = []
  · rw [hm.kept hnil, hm'.kept (hword ▸ hnil)]
    refine iff_of_false (fun hid => hne ?_) fun hboth => hboth.1 hnil
    rw [Node.name, Node.name, hword, hid]
  · obtain ⟨k, hk, hid⟩ := hm.shifted hnil
    obtain ⟨k', hk', hid'⟩ := hm'.shifted (hword ▸ hnil)
    rw [hid, hid', hk, hk', hword, Text.toString_int_inj, Option.some.injEq]
    have hboth : g.ofWord m'.word ≠ [] := hword ▸ hnil
    simp [hboth]

/-- Names come together in a merge exactly where a shifted number is the id of a node that was
there, or where two newcomers are read as the same number. -/
theorem distinct_of_merge_iff (hg : g.Listed) (hdistinct : g.Distinct) (hother : other.Distinct)
    (hm : g.merge other = .ok h) : h.Distinct ↔
      (∀ n ∈ g.nodes.toList, ∀ m ∈ other.nodes.toList, ¬ g.Meets n m) ∧
        other.nodes.toList.Pairwise fun m m' => ¬ g.Coincide m m' := by
  obtain ⟨ns, hnodes, hrenamed⟩ := merge_renamed hg hm
  have hnew : other.nodes.toList.Pairwise (fun m m' => ¬ g.Coincide m m') ↔
      ns.Pairwise fun n n' => n.name ≠ n'.name :=
    pairwise_iff_of_forall₂ hrenamed (List.pairwise_map.1 hother)
      fun m m' n n' hn hn' hne => not_congr (hn.name_inj hn' hne).symm
  have hold : (∀ n ∈ g.nodes.toList, ∀ m ∈ other.nodes.toList, ¬ g.Meets n m) ↔
      ∀ n ∈ g.nodes.toList, ∀ m' ∈ ns, n.name ≠ m'.name := by
    constructor
    · intro hnot n hn m' hm'
      obtain ⟨m, hmem, hmm'⟩ := exists_mem_of_forall₂ hrenamed hm'
      exact mt (hmm'.name_iff hn).1 (hnot n hn m hmem)
    · intro hne n hn m hmem
      obtain ⟨m', hm', hmm'⟩ := exists_mem_of_forall₂ hrenamed.flip hmem
      exact mt (hmm'.name_iff hn).2 (hne n hn m' hm')
  rw [Distinct, List.Nodup, List.pairwise_map] at hdistinct
  rw [Distinct, hnodes, List.Nodup, List.pairwise_map, List.pairwise_append, hold, hnew]
  exact ⟨fun hall => ⟨hall.2.2, hall.2.1⟩, fun hall => ⟨hdistinct, hall.2, hall.1⟩⟩

/-- Where the nodes of each word are numbered from 1 on and the newcomers have numerals as their
ids, a merge keeps all names apart. -/
theorem Numbered.distinct_merge (hg : g.Listed) (hnumbered : g.Numbered) (hdistinct : g.Distinct)
    (hother : other.Distinct) (hids : ∀ m ∈ other.nodes.toList, g.Shiftable m.word m.id)
    (hm : g.merge other = .ok h) : h.Distinct := by
  have hnumber : ∀ m ∈ other.nodes.toList, g.ofWord m.word ≠ [] →
      ∃ k : Nat, m.id = toString k ∧ number? m.id = some (k : Int) := by
    intro m hmem hne
    obtain ⟨k, -, hid, hbig⟩ := hids m hmem
    have hle := hbig hne
    exact ⟨k, hid, hid ▸ number?_toString (by omega)⟩
  refine (distinct_of_merge_iff hg hdistinct hother hm).2 ⟨fun n hn m hmem hmeets => ?_, ?_⟩
  · obtain ⟨hword, k, hk, hid⟩ := hmeets
    have hne : g.ofWord m.word ≠ [] :=
      List.ne_nil_of_mem (List.mem_filter.2 ⟨hn, decide_eq_true hword.symm⟩)
    obtain ⟨j, hj, hnum⟩ := hnumber m hmem hne
    obtain rfl : (j : Int) = k := Option.some.inj (hnum.symm.trans hk)
    refine hnumbered.ne_shifted hn (hword ▸ hids m hmem) ?_
    rw [hid, hj, shifted_toString, ← Int.natCast_add]
    rfl
  · refine (List.pairwise_map.1 hother).imp_of_mem fun {m m'} hmem hmem' hname hboth => ?_
    obtain ⟨hword, hne, hsame⟩ := hboth
    obtain ⟨k, hk, hnum⟩ := hnumber m hmem hne
    obtain ⟨k', hk', hnum'⟩ := hnumber m' hmem' (hword ▸ hne)
    rw [hnum, hnum', Option.some.injEq, Int.natCast_inj] at hsame
    refine hname ?_
    rw [Node.name, Node.name, hword, hk, hk', hsame]

/-- Let the nodes of two grammars have different names in each, and let one be merged into the
other. Then the nodes of the outcome have different names, and each of them is found by its own, if
and only if no shifted number is the id of a node that was there and no two newcomers of a word
that is renumbered are read as the same number. -/
theorem merge_distinct (hg : g.Built) (ho : other.Built) (hdistinct : g.Distinct)
    (hother : other.Distinct) (hm : g.merge other = .ok h) :
    (h.Distinct ↔ (∀ n ∈ g.nodes.toList, ∀ m ∈ other.nodes.toList, ¬ g.Meets n m) ∧
      other.nodes.toList.Pairwise fun m m' => ¬ g.Coincide m m') ∧
    (h.Distinct ↔
      ∀ (i : Nat) (n : Node), h.nodes[i]? = some n → h.find? n.word n.id = some i) :=
  ⟨distinct_of_merge_iff hg.listed hdistinct hother hm, (hg.merge ho hm).listed.distinct_iff⟩

/-- The word `a` is numbered anew, and `b`, which the grammar lacks, keeps any id. -/
theorem merge_distinct_two :
    let g := Grammar.addNode { word := "a", id := "7", kind := .ends "T" none } {}
    let other := (Grammar.addNode { word := "a", id := " 1 ", kind := .ends "T" none }
      {}).addNode { word := "b", id := "x", kind := .ends "T" none }
    g.Distinct ∧ other.Distinct ∧ ∃ h, g.merge other = .ok h ∧
      h.nodes.toList.map Node.name = [("a", "7"), ("a", "2"), ("b", "x")] ∧ h.Distinct ∧
      ∀ (i : Nat) (n : Node), h.nodes[i]? = some n → h.find? n.word n.id = some i := by
  intro g other
  have hg : g.Built := .addNode .new (by simp [Node.Fresh, Node.links])
  have ho : other.Built := .addNode (.addNode .new (by simp [Node.Fresh, Node.links]))
    (by simp [Node.Fresh, Node.links])
  have hgd : g.Distinct := by decide +kernel
  have hod : other.Distinct := by decide +kernel
  cases hm : g.merge other with
  | error e =>
    have hok : (g.merge other).toBool = true := by decide +kernel
    rw [hm] at hok
    cases hok
  | ok h =>
    have hnames : (g.merge other).map (fun h => h.nodes.toList.map Node.name) =
        .ok [("a", "7"), ("a", "2"), ("b", "x")] := by decide +kernel
    rw [hm] at hnames
    have hnames : h.nodes.toList.map Node.name = _ := Except.ok.inj hnames
    obtain ⟨-, hfound⟩ := merge_distinct hg ho hgd hod hm
    have hd : h.Distinct := by
      rw [Distinct, hnames]
      decide
    exact ⟨hgd, hod, h, rfl, hnames, hd, hfound.1 hd⟩

/-- The node of the grammar has the number 2 already, and that of the newcomer is shifted by one
onto it, so that it cannot be found any more. -/
theorem merge_distinct_clash :
    let g := Grammar.addNode { word := "a", id := "2", kind := .ends "S" none } {}
    let other := Grammar.addNode { word := "a", id := "1", kind := .ends "T" none } {}
    g.Built ∧ other.Built ∧ g.Distinct ∧ other.Distinct ∧ ∃ h, g.merge other = .ok h ∧
      ¬ h.Distinct ∧ h.nodes.toList.map Node.name = [("a", "2"), ("a", "2")] ∧
      h.find? "a" "2" = some 0 := by
  intro g other
  have hg : g.Built := .addNode .new (by simp [Node.Fresh, Node.links])
  have ho : other.Built := .addNode .new (by simp [Node.Fresh, Node.links])
  cases hm : g.merge other with
  | error e =>
    have hok : (g.merge other).toBool = true := by decide +kernel
    rw [hm] at hok
    cases hok
  | ok h =>
    have hrun : (g.merge other).map (fun h =>
        (h.nodes.toList.map Node.name, h.find? "a" "2")) =
          .ok ([("a", "2"), ("a", "2")], some 0) := by decide +kernel
    rw [hm] at hrun
    obtain ⟨hnames, hfind⟩ := Prod.mk.inj (Except.ok.inj hrun)
    refine ⟨hg, ho, by decide +kernel, by decide +kernel, h, rfl, ?_, hnames, hfind⟩
    rw [Distinct, hnames]
    decide

end Grammar

end StateDiagram
