import StateDiagram.Proofs.Phrase.Changes
import StateDiagram.Proofs.Phrase.Forms
import Mathlib.Algebra.GroupWithZero.Nat
import Mathlib.Algebra.Order.BigOperators.Group.List
import Mathlib.Algebra.Order.Group.Nat

/-! The line for a phrase. Every level of two or more units is put in parentheses, dummy leaves
being left out, unless such a leaf comes first: then a space stands in place of the opening
parenthesis, and the parentheses do not balance. -/
namespace StateDiagram

/-- Every parenthesis has its counterpart. -/
inductive Balanced : List Char → Prop where
  | nil : Balanced []
  | char {c : Char} {cs : List Char} : c ≠ '(' → c ≠ ')' → Balanced cs → Balanced (c :: cs)
  | nested {cs ds : List Char} : Balanced cs → Balanced ds → Balanced ('(' :: (cs ++ ')' :: ds))

theorem Balanced.append {cs ds : List Char} (h : Balanced cs) (h' : Balanced ds) :
    Balanced (cs ++ ds) := by
  induction h with
  | nil => exact h'
  | char hopen hclose _ ih => exact .char hopen hclose ih
  | nested hcs _ _ ih =>
    rw [List.cons_append, List.append_assoc, List.cons_append]
    exact .nested hcs ih

theorem Balanced.count_eq {cs : List Char} (h : Balanced cs) : cs.count '(' = cs.count ')' := by
  induction h with
  | nil => rfl
  | char hopen hclose _ ih => simpa [List.count_cons, hopen, hclose] using ih
  | nested _ _ ih ih' =>
    simp only [List.count_cons, List.count_append]
    simp
    omega

theorem balanced_of_notMem {cs : List Char} (h : '(' ∉ cs ∧ ')' ∉ cs) : Balanced cs := by
  induction cs with
  | nil => exact .nil
  | cons c cs ih =>
    simp only [List.mem_cons, not_or] at h
    exact .char (Ne.symm h.1.1) (Ne.symm h.2.1) (ih ⟨h.1.2, h.2.2⟩)

namespace Bracket

/-- A leaf with the dummy word. -/
def skipped (dummy : String) (t : Tree) : Bool :=
  t.word == dummy && t.parts.isEmpty

/-- A single text stands for itself, others are put in parentheses behind `opening`. -/
def joined (opening : String) : List String → String
  | [s] => s
  | ss => opening ++ " ".intercalate ss ++ ")"

mutual

/-- How a unit is to be shown. -/
def shown (dummy : String) : Tree → String
  | .node _ w _ _ [] => w
  | .node _ _ _ _ (p :: ps) => joined "(" (remaining dummy (p :: ps))

/-- How the units of a level other than dummy leaves are to be shown. -/
def remaining (dummy : String) : List Tree → List String
  | [] => []
  | t :: ts => if skipped dummy t then remaining dummy ts else shown dummy t :: remaining dummy ts

end

/-- How a level is to be shown. -/
def rendered (dummy : String) (ts : List Tree) : String :=
  joined "(" (remaining dummy ts)

/-- Levels with a word other than the dummy word, which only leaves have, and with no parentheses in
the words of leaves. -/
inductive Worded (dummy : String) : List Tree → Prop where
  | level {ts : List Tree} : (∃ t ∈ ts, t.word ≠ dummy) →
    (∀ t ∈ ts, t.parts = [] → '(' ∉ t.word.toList ∧ ')' ∉ t.word.toList) →
    (∀ t ∈ ts, t.parts ≠ [] → t.word ≠ dummy) →
    (∀ t ∈ ts, t.parts ≠ [] → Worded dummy t.parts) → Worded dummy ts

/-- No level that is put in parentheses starts with a dummy leaf. -/
inductive Led (dummy : String) : List Tree → Prop where
  | level {ts : List Tree} :
    (2 ≤ (remaining dummy ts).length → ∀ t ∈ ts.head?, skipped dummy t = false) →
    (∀ t ∈ ts, t.parts ≠ [] → Led dummy t.parts) → Led dummy ts

/-- What comes before the first unit that is shown. -/
def opening (dummy : String) (ts : List Tree) : String :=
  if ts.head?.any (skipped dummy) then " " else "("

/-- The units of a level other than dummy leaves. -/
def visible (dummy : String) (ts : List Tree) : List Tree :=
  ts.filter fun t => !skipped dummy t

/-- The lines for the units that are shown. -/
def texts (dummy : String) (ts : List Tree) : List String :=
  (visible dummy ts).map fun t => (item dummy t).text

theorem visible_cons (dummy : String) (t : Tree) (ts : List Tree) : visible dummy (t :: ts) =
    if skipped dummy t then visible dummy ts else t :: visible dummy ts := by
  rw [visible, List.filter_cons]
  cases skipped dummy t <;> rfl

theorem remaining_eq (dummy : String) (ts : List Tree) :
    remaining dummy ts = (visible dummy ts).map (shown dummy) := by
  induction ts with
  | nil => rfl
  | cons t ts ih =>
    rw [remaining, visible_cons]
    cases skipped dummy t <;> simp [ih]

theorem shown_leaf {dummy : String} {t : Tree} (h : t.parts = []) : shown dummy t = t.word := by
  cases t with
  | node i w n v ps =>
    obtain rfl : ps = [] := h
    rfl

theorem shown_parts {dummy : String} {t : Tree} (h : t.parts ≠ []) :
    shown dummy t = rendered dummy t.parts := by
  cases t with
  | node i w n v ps =>
    obtain ⟨p, ps, rfl⟩ := List.exists_cons_of_ne_nil h
    rfl

theorem items_eq_map (dummy : String) (ts : List Tree) : items dummy ts = ts.map (item dummy) := by
  induction ts with
  | nil => rfl
  | cons t ts ih => rw [items, ih, List.map_cons]

theorem item_leaf {dummy : String} {t : Tree} (h : t.parts = []) :
    item dummy t = ⟨t.word != dummy, true, t.word⟩ := by
  cases t with
  | node i w n v ps =>
    obtain rfl : ps = [] := h
    rfl

theorem item_parts {dummy : String} {t : Tree} (h : t.parts ≠ []) :
    item dummy t = ⟨t.word != dummy, false, text dummy t.parts⟩ := by
  cases t with
  | node i w n v ps =>
    obtain ⟨p, ps, rfl⟩ := List.exists_cons_of_ne_nil h
    rfl

/-- A unit is shown unless it is a dummy leaf. -/
theorem shows_item (dummy : String) (t : Tree) :
    ((item dummy t).real || !(item dummy t).leaf) = !skipped dummy t := by
  by_cases h : t.parts = []
  · rw [item_leaf h, skipped, h]
    simp [bne]
  · rw [item_parts h, skipped]
    simp [h]

theorem real_item {dummy : String} {t : Tree} (h : t.parts ≠ [] → t.word ≠ dummy) :
    (item dummy t).real = !skipped dummy t := by
  by_cases hparts : t.parts = []
  · rw [item_leaf hparts, skipped, hparts]
    simp [bne]
  · have hword : (t.word == dummy) = false := by simpa using h hparts
    rw [item_parts hparts, skipped, bne, hword]
    rfl

/-- Behind the first unit all that are shown have a space before them. -/
theorem row_space (dummy : String) (ts : List Tree) :
    row " " (items dummy ts) = String.join ((texts dummy ts).map (" " ++ ·)) := by
  induction ts with
  | nil => rfl
  | cons t ts ih =>
    rw [items, row, shows_item, ih, texts, texts, visible_cons]
    cases skipped dummy t <;> simp

theorem join_spaced (s : String) (ss : List String) :
    s ++ String.join (ss.map (" " ++ ·)) = " ".intercalate (s :: ss) := by
  induction ss generalizing s with
  | nil => simp
  | cons r ss ih => simp [String.intercalate_cons_cons, ← ih, String.append_assoc]

theorem row_opening {dummy : String} {ts : List Tree} (h : visible dummy ts ≠ []) :
    row "(" (items dummy ts) = opening dummy ts ++ " ".intercalate (texts dummy ts) := by
  cases ts with
  | nil => exact absurd rfl h
  | cons t ts =>
    rw [visible_cons] at h
    rw [items, row, shows_item, row_space, opening, texts, texts, visible_cons]
    cases ht : skipped dummy t with
    | false => simp [ht, ← join_spaced, String.append_assoc]
    | true =>
      obtain ⟨u, us, hus⟩ := List.exists_cons_of_ne_nil (by simpa [ht] using h)
      simp [ht, hus, ← join_spaced, String.append_assoc]

/-- A level with something to show is the text of its only unit, or in parentheses. -/
theorem level_of_real {is : List Item} (h : ∃ i ∈ is, i.real = true) : level is =
    match is.filter (·.real) with
    | [i] => i.text
    | _ => row "(" is ++ ")" := by
  obtain ⟨i, hi, hreal⟩ := h
  match is, hi with
  | [j], hi =>
    obtain rfl := List.mem_singleton.1 hi
    simp [level, hreal]
  | j :: k :: is, _ => rfl

/-- The line for a level, from the lines for its units. -/
theorem text_eq {dummy : String} {ts : List Tree} (hword : ∃ t ∈ ts, t.word ≠ dummy)
    (hleaf : ∀ t ∈ ts, t.parts ≠ [] → t.word ≠ dummy) :
    text dummy ts = joined (opening dummy ts) (texts dummy ts) := by
  obtain ⟨t, ht, hne⟩ := hword
  have hvisible : t ∈ visible dummy ts := List.mem_filter.2 ⟨ht, by simp [skipped, hne]⟩
  have hreal : (items dummy ts).filter (·.real) = (visible dummy ts).map (item dummy) := by
    rw [items_eq_map, List.filter_map, visible]
    exact congrArg _ (List.filter_congr fun u hu => real_item (hleaf u hu))
  have hsome : ∃ i ∈ items dummy ts, i.real = true := by
    have hmem : item dummy t ∈ (items dummy ts).filter (·.real) :=
      hreal ▸ List.mem_map_of_mem hvisible
    exact ⟨_, List.mem_filter.1 hmem⟩
  rw [text, level_of_real hsome, hreal, texts]
  have hne : visible dummy ts ≠ [] := List.ne_nil_of_mem hvisible
  have hrow := row_opening hne
  rw [texts] at hrow
  match hv : visible dummy ts, hne with
  | [u], _ => rfl
  | u :: u' :: us, _ =>
    rw [hv] at hrow
    simp only [List.map_cons, joined] at hrow ⊢
    rw [hrow]

theorem Worded.visible_ne_nil {dummy : String} {ts : List Tree} (h : Worded dummy ts) :
    visible dummy ts ≠ [] := by
  cases h with
  | level hword _ _ _ =>
    obtain ⟨t, ht, hne⟩ := hword
    exact List.ne_nil_of_mem (List.mem_filter.2 ⟨ht, by simp [skipped, hne]⟩)

theorem mem_visible {dummy : String} {t : Tree} {ts : List Tree} (ht : t ∈ ts)
    (hparts : t.parts ≠ []) : t ∈ visible dummy ts :=
  List.mem_filter.2 ⟨ht, by simp [skipped, hparts]⟩

theorem opening_of_not_skipped {dummy : String} {ts : List Tree}
    (h : ∀ t ∈ ts.head?, skipped dummy t = false) : opening dummy ts = "(" := by
  rw [opening, if_neg]
  cases ts with
  | nil => simp
  | cons t ts => simp [h t rfl]

/-- Where no dummy leaf leads, a phrase is shown as it is to be. -/
theorem Led.text_eq {dummy : String} {ts : List Tree} (h : Led dummy ts) (hword : Worded dummy ts) :
    text dummy ts = rendered dummy ts := by
  induction hword with
  | @level ts hword hplain hleaf hbelow ih =>
    obtain ⟨hhead, hparts⟩ := h
    have hne := (Worded.level hword hplain hleaf hbelow).visible_ne_nil
    have htexts : texts dummy ts = remaining dummy ts := by
      rw [texts, remaining_eq]
      refine List.map_congr_left fun t ht => ?_
      have ht := (List.mem_filter.1 ht).1
      by_cases hp : t.parts = []
      · rw [item_leaf hp, shown_leaf hp]
      · rw [item_parts hp, shown_parts hp]
        exact ih t ht hp (hparts t ht hp)
    rw [Bracket.text_eq hword hleaf, htexts, rendered]
    match hr : remaining dummy ts with
    | [s] => rfl
    | [] =>
      rw [remaining_eq, List.map_eq_nil_iff] at hr
      exact absurd hr hne
    | s :: s' :: ss => rw [opening_of_not_skipped (hhead (by simp [hr]))]

theorem balanced_intercalate {ss : List String} (h : ∀ s ∈ ss, Balanced s.toList) :
    Balanced (" ".intercalate ss).toList := by
  induction ss with
  | nil => exact .nil
  | cons s ss ih =>
    obtain ⟨hs, hss⟩ := List.forall_mem_cons.1 h
    cases ss with
    | nil => simpa using hs
    | cons r rs =>
      rw [String.intercalate_cons_cons, String.toList_append, String.toList_append]
      exact (hs.append (.char (by decide) (by decide) .nil)).append (ih hss)

theorem balanced_joined {ss : List String} (h : ∀ s ∈ ss, Balanced s.toList) :
    Balanced (joined "(" ss).toList := by
  have hparens : Balanced ("(" ++ " ".intercalate ss ++ ")").toList := by
    rw [String.append_assoc, String.toList_append, String.toList_append]
    exact .nested (balanced_intercalate h) .nil
  match ss with
  | [s] => exact h s (List.mem_singleton_self s)
  | [] => exact hparens
  | _ :: _ :: _ => exact hparens

theorem Worded.balanced {dummy : String} {ts : List Tree} (h : Worded dummy ts) :
    Balanced (rendered dummy ts).toList := by
  induction h with
  | @level ts _ hplain _ _ ih =>
    refine balanced_joined fun s hs => ?_
    rw [remaining_eq] at hs
    obtain ⟨t, ht, rfl⟩ := List.mem_map.1 hs
    have ht := (List.mem_filter.1 ht).1
    by_cases hp : t.parts = []
    · rw [shown_leaf hp]
      exact balanced_of_notMem (hplain t ht hp)
    · rw [shown_parts hp]
      exact ih t ht hp

theorem count_intercalate {c : Char} (hc : c ≠ ' ') (ss : List String) :
    (" ".intercalate ss).toList.count c = (ss.map fun s => s.toList.count c).sum := by
  induction ss with
  | nil => rfl
  | cons s ss ih =>
    cases ss with
    | nil => simp
    | cons r rs =>
      have hspace : " ".toList.count c = 0 := List.count_eq_zero_of_not_mem (by simpa using hc)
      rw [String.intercalate_cons_cons, String.toList_append, String.toList_append,
        List.count_append, List.count_append, ih, hspace]
      simp

theorem count_joined {c : Char} (hc : c ≠ ' ') (opening : String) (ss : List String) :
    (joined opening ss).toList.count c = (ss.map fun s => s.toList.count c).sum +
      if ss.length = 1 then 0 else opening.toList.count c + ")".toList.count c := by
  have hparens : (opening ++ " ".intercalate ss ++ ")").toList.count c =
      (ss.map fun s => s.toList.count c).sum + (opening.toList.count c + ")".toList.count c) := by
    rw [String.toList_append, String.toList_append, List.count_append, List.count_append,
      count_intercalate hc]
    omega
  match ss with
  | [s] => simp [joined]
  | [] => exact hparens
  | _ :: _ :: _ => exact hparens.trans (by simp)

/-- A dummy leaf that leads leaves a closing parenthesis without an opening one. -/
theorem Worded.count_le {dummy : String} {ts : List Tree} (h : Worded dummy ts) :
    (text dummy ts).toList.count '(' ≤ (text dummy ts).toList.count ')' ∧
      ((text dummy ts).toList.count '(' = (text dummy ts).toList.count ')' → Led dummy ts) := by
  induction h with
  | @level ts hword hplain hleaf hbelow ih =>
    have hunit : ∀ t ∈ visible dummy ts,
        (item dummy t).text.toList.count '(' ≤ (item dummy t).text.toList.count ')' := by
      intro t ht
      have ht := (List.mem_filter.1 ht).1
      by_cases hp : t.parts = []
      · rw [item_leaf hp, List.count_eq_zero_of_not_mem (hplain t ht hp).1]
        exact Nat.zero_le _
      · rw [item_parts hp]
        exact (ih t ht hp).1
    have hsum := List.sum_le_sum hunit
    have hopen : ")".toList.count '(' = 0 ∧ (opening dummy ts).toList.count '(' ≤ 1 ∧
        ((opening dummy ts).toList.count '(' = 1 → ∀ t ∈ ts.head?, skipped dummy t = false) := by
      rw [opening]
      split
      · exact ⟨by decide, by decide, fun h => absurd h (by decide)⟩
      · rename_i hhead
        exact ⟨by decide, by decide, fun _ t ht => by simpa [Option.mem_def.1 ht] using hhead⟩
    have hclose : ")".toList.count ')' = 1 := by decide
    rw [Bracket.text_eq hword hleaf, count_joined (by decide), count_joined (by decide), texts,
      List.map_map, List.map_map, List.length_map]
    simp only [Function.comp_def, hopen.1, hclose]
    constructor
    · split <;> omega
    · intro heq
      -- No unit makes up for another one, so that equal counts are equal here and in each unit.
      refine .level (fun hlength => ?_) fun t ht hp => ?_
      · rw [remaining_eq, List.length_map] at hlength
        rw [if_neg (by omega), if_neg (by omega)] at heq
        exact hopen.2.2 (by omega)
      · refine (ih t ht hp).2 (le_antisymm (ih t ht hp).1 (Nat.not_lt.1 fun hlt => ?_))
        have hless := List.sum_lt_sum _ _ hunit
          ⟨t, mem_visible ht hp, by rwa [item_parts hp]⟩
        split at heq <;> omega

end Bracket

namespace Arena

open StateDiagram.Bracket

/-- Of a phrase whose chains end, and whose levels have words and no parentheses in them, the line
is what it is to be exactly if no level in parentheses starts with a dummy leaf. Then its
parentheses balance, and otherwise they do not. -/
theorem bracket_rendered {a : Arena} {dummy : String} {i : Nat} {ts : List Tree}
    (hspan : a.Spans (some i) ts none) (hword : Worded dummy ts) :
    (a.bracket dummy i = rendered dummy ts ↔ Led dummy ts) ∧
      (Balanced (a.bracket dummy i).toList ↔ Led dummy ts) := by
  rw [bracket, hspan.trees]
  have hled : Balanced (text dummy ts).toList → Led dummy ts := fun h =>
    hword.count_le.2 h.count_eq
  refine ⟨⟨fun h => hled (h ▸ hword.balanced), fun h => h.text_eq hword⟩, hled, fun h => ?_⟩
  rw [h.text_eq hword]
  exact hword.balanced

theorem spans_token {a : Arena} {i : Nat} {w : String} {o : Option Nat} {ts : List Tree}
    (h : a.get? i = some ⟨w, none, o, none, none⟩) (hts : a.Spans o ts none) :
    a.Spans (some i) (.node i w none none [] :: ts) none :=
  .cons h (.nil none) hts

theorem bracket_rendered_nested :
    let x : Phrase := ⟨"X", none, some 2, some 3, none⟩
    let a : Arena := ⟨#[⟨"a", none, some 1, none, none⟩, x, ⟨"$$", none, none, none, none⟩,
      ⟨"$$", none, some 4, none, none⟩, ⟨"b", none, none, none, none⟩]⟩
    let ts := [.node 0 "a" none none [], .node 1 "X" none none
      [.node 3 "$$" none none [], .node 4 "b" none none []], .node 2 "$$" none none []]
    a.Spans (some 0) ts none ∧ Worded "$$" ts ∧ Led "$$" ts ∧ a.bracket "$$" 0 = "(a b)" ∧
      a.bracket "$$" 0 = rendered "$$" ts ∧ Balanced (a.bracket "$$" 0).toList := by
  intro x a ts
  have hspan : a.Spans (some 0) ts none := by
    refine spans_token (o := some 1) rfl (.cons (u := x) rfl ?_ ?_)
    · exact spans_token (o := some 4) rfl (spans_token (o := none) rfl (.nil none))
    · exact spans_token (o := none) rfl (.nil none)
  have hword : Worded "$$" ts :=
    .level (by simp [ts]) (by simp [ts]) (by simp [ts]) (by
      simp only [ts, List.forall_mem_cons, Tree.parts_node]
      exact ⟨by simp, fun _ => .level (by simp) (by simp) (by simp) (by simp), by simp⟩)
  have hled : Led "$$" ts :=
    .level (by simp [ts, skipped]) (by
      simp only [ts, List.forall_mem_cons, Tree.parts_node]
      exact ⟨by simp, fun _ => .level (by simp [remaining, skipped]) (by simp), by simp⟩)
  have h := bracket_rendered hspan hword
  exact ⟨hspan, hword, hled, by decide +kernel, h.1.2 hled, h.2.2 hled⟩

/-- A dummy leaf comes before two words. -/
theorem bracket_unbalanced :
    let a := Arena.addChain "nil" ["$$", "a", "b"] {}
    let ts := [.node 1 "$$" none none [], .node 2 "a" none none [], .node 3 "b" none none []]
    a.Spans (some 1) ts none ∧ Worded "$$" ts ∧ rendered "$$" ts = "(a b)" ∧
      a.bracket "$$" 1 = " a b)" ∧ ¬Balanced (a.bracket "$$" 1).toList := by
  intro a ts
  have hline : a.bracket "$$" 1 = " a b)" := by decide +kernel
  refine ⟨?_, ?_, by decide +kernel, hline, fun h => ?_⟩
  · exact spans_token (o := some 2) rfl
      (spans_token (o := some 3) rfl (spans_token (o := none) rfl (.nil none)))
  · exact .level (by simp [ts]) (by simp [ts]) (by simp [ts]) (by simp [ts])
  · rw [hline] at h
    exact absurd h.count_eq (by decide)

end Arena

end StateDiagram
