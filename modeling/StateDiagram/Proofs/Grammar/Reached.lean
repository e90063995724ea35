import StateDiagram.Grammar.Draft
import StateDiagram.Proofs.Grammar.Readable
import StateDiagram.Proofs.Grammar.Renumbered
import StateDiagram.Proofs.Grammar.Stored

/-! Grammars that a host can come by: new ones, those that are read from text or JSON or finished
from drafts, and whatever they become as words, nodes and other grammars are added, links are
looked up, flags are set and types are computed. In each of them the lexicon lists every node once,
no link remembers a target that it would not find now, and flags that are said to be up to date
are. -/
namespace StateDiagram.Grammar

/-- What is held after a merge: a merge that fails adds nothing. -/
def mergeOr (g other : Grammar) : Grammar :=
  match g.merge other with
  | .ok h => h
  | .error _ => g

/-- A grammar that a host can come by. Nodes are added with links that have not been looked up
elsewhere. A parse looks up links of a marked grammar, one after the other. -/
inductive Reached : Grammar → Prop where
  | new : Reached {}
  | ofJson {text : String} {g : Grammar} : ofJsonText? text = some g → Reached g
  | read {text : String} {g : Grammar} : read text = .ok g → Reached g
  | drafts (ds : List Draft) (words : List String) : (∀ d ∈ ds, ∀ l ∈ d.links, l.target = none) →
    Reached (ofNodes (ds.map Draft.finish) words)
  | addWord {g : Grammar} (word : String) : Reached g → Reached (g.addWord word)
  | addNode {g : Grammar} {n : Node} : Reached g → n.Fresh → Reached (g.addNode n)
  | merge {g other : Grammar} : Reached g → Reached other → Reached (g.mergeOr other)
  | mark {g : Grammar} : Reached g → Reached g.mark
  | lookUp {g : Grammar} (n l : Nat) : Reached g → Reached (g.settleLink n l)
  /-- Sizes, warnings and digraphs are made by looking up every link. -/
  | survey {g : Grammar} : Reached g → Reached g.settleAll
  | expandBegins {g : Grammar} : Reached g → Reached g.expandBegins
  | computeTypes {g : Grammar} : Reached g → Reached g.computeTypes
  | optimize {g : Grammar} : Reached g → Reached g.optimize
  | toText {g : Grammar} (full : Bool) : Reached g → Reached (g.toText full).2

/-- The lexicon, what links remember and the flags of a grammar agree with its nodes. -/
structure Consistent (g : Grammar) : Prop where
  keys : (g.lexicon.map (·.1)).Nodup
  once : (g.lexicon.flatMap (·.2)).Perm (List.range g.nodes.size)
  listed : ∀ w, g.instances w =
    (List.range g.nodes.size).filter fun i => (g.nodes[i]?.map Node.word) = some w
  remembered : ∀ (i : Nat) (n : Node), g.nodes[i]? = some n → ∀ l ∈ n.links,
    (∀ t, l.target = some t → g.find? l.word l.id = some t) ∧ g.target? l = g.find? l.word l.id
  flagged : g.marked = true → ∀ (i : Nat) (n : Node), g.nodes[i]? = some n →
    (n.incoming = true ↔ ∃ (j : Nat) (m : Node), g.nodes[j]? = some m ∧
      ∃ l ∈ m.links, g.find? l.word l.id = some i)

theorem fresh_finish {d : Draft} (h : ∀ l ∈ d.links, l.target = none) : d.finish.Fresh := by
  obtain ⟨word, id, initial, begins, type, value, links⟩ := d
  cases type with
  | none => exact h
  | some type => exact fun l hl => nomatch hl

theorem Built.mergeOr {g other : Grammar} (hg : g.Built) (ho : other.Built) :
    (g.mergeOr other).Built := by
  unfold Grammar.mergeOr
  split
  · rename_i h hm
    exact hg.merge ho hm
  · exact hg

theorem Reached.built {g : Grammar} (hg : g.Reached) : g.Built := by
  induction hg with
  | new => exact .new
  | ofJson h => exact built_of_ofJsonText? h
  | read h => exact (of_read h).1
  | drafts ds words h =>
    refine built_ofNodes (fun n hn => ?_) words
    obtain ⟨d, hd, rfl⟩ := List.mem_map.1 hn
    exact fresh_finish (h d hd)
  | addWord word _ ih => exact ih.addWord word
  | addNode _ hn ih => exact ih.addNode hn
  | merge _ _ ih iho => exact ih.mergeOr iho
  | mark _ ih => exact ih.mark
  | lookUp n l _ ih => exact ih.settleLink n l
  | survey _ ih => exact ih.settleAll
  | expandBegins _ ih => exact ih.expandBegins
  | computeTypes _ ih => exact ih.computeTypes
  | optimize _ ih => exact .computeTypes ih.expandBegins
  | toText full _ ih =>
    cases full with
    | false => exact ih.computeTypes
    | true => exact .computeTypes ih.expandBegins

/-- What stands in the lexicon, entry by entry, is what is found word by word. -/
theorem flatMap_lexicon {es : List (String × List Nat)} (h : (es.map (·.1)).Nodup) :
    es.flatMap (·.2) = (es.map (·.1)).flatMap fun w => (lookupIn w es).getD [] := by
  induction es with
  | nil => rfl
  | cons e es ih =>
    obtain ⟨w, ids⟩ := e
    obtain ⟨hw, hes⟩ := List.nodup_cons.1 h
    have hrest : ∀ v ∈ es.map (·.1), (lookupIn v ((w, ids) :: es)).getD [] =
        (lookupIn v es).getD [] := by
      intro v hv
      have hne : w ≠ v := fun heq => hw (heq ▸ hv)
      simp [lookupIn, hne]
    rw [List.map_cons, List.flatMap_cons, List.flatMap_cons, List.flatMap_congr hrest, ← ih hes]
    simp [lookupIn]

theorem Listed.once {g : Grammar} (hg : g.Listed) :
    (g.lexicon.flatMap (·.2)).Perm (List.range g.nodes.size) := by
  rw [flatMap_lexicon hg.keys]
  exact ((List.mergeSort_perm _ _).symm.flatMap_right _).trans hg.order_perm

/-- Every grammar that a host can come by is consistent. -/
theorem Reached.consistent {g : Grammar} (hg : g.Reached) : g.Consistent := by
  have hlisted := hg.built.listed
  have hsound := hg.built.sound
  refine ⟨hlisted.keys, hlisted.once, hlisted.instances, fun i n hi l hl =>
    ⟨hsound.remembered i n hi l hl, hsound.target_eq_find hi hl⟩, fun hm i n hi => ?_⟩
  rw [hsound.flagged hm i n hi, mem_targets]
  constructor
  · rintro ⟨j, m, hj, l, hl, ht⟩
    exact ⟨j, m, hj, l, hl, hsound.target_eq_find hj hl ▸ ht⟩
  · rintro ⟨j, m, hj, l, hl, ht⟩
    exact ⟨j, m, hj, l, hl, (hsound.target_eq_find hj hl).trans ht⟩

/-- The second merge fails, as the id of its node is not a number. -/
theorem Reached.consistent_merged :
    let n : Node :=
      { word := "a", id := "1", initial := true,
        kind := .continues [{ word := "b", id := "1" }, { word := "a", id := "2" }] none }
    let a := (Grammar.addNode n {}).addNode { word := "b", id := "1", kind := .ends "T" none }
    let c := Grammar.addNode { word := "a", id := "x", kind := .ends "T" none } {}
    let g := (a.mark.mergeOr a).mark.mergeOr c
    g.Reached ∧ g.marked = true ∧ g.nodes.size = 4 ∧ g.Consistent := by
  intro n a c g
  have ha : a.Reached := .addNode (.addNode .new (by simp [n, Node.Fresh, Node.links]))
    (by simp [Node.Fresh, Node.links])
  have hc : c.Reached := .addNode .new (by simp [Node.Fresh, Node.links])
  have hg : g.Reached := .merge (.mark (.merge (.mark ha) ha)) hc
  exact ⟨hg, by decide +kernel, by decide +kernel, hg.consistent⟩

end StateDiagram.Grammar
