import StateDiagram.Phrase.Bracket
import StateDiagram.Proofs.Phrase.Reductions

/-! Trees without their slots. Two phrase structures with the same forms have the same words, the
same nodes, the same values and the same nesting, wherever their units stand in the arena. -/
namespace StateDiagram

/-- A unit with all that is below it, but not where it stands. -/
inductive Form where
  | unit (word : String) (matched : Option Nat) (value : Option Value) (parts : List Form)

namespace Form

def word : Form → String
  | unit w _ _ _ => w

def matched : Form → Option Nat
  | unit _ n _ _ => n

/-- The unit matched to node `n`. -/
def mark (n : Nat) : Form → Form
  | unit w _ v ps => unit w (some n) v ps

/-- The unit matched to no node. -/
def clear : Form → Form
  | unit w _ v ps => unit w none v ps

@[simp] theorem word_unit (w : String) (n : Option Nat) (v : Option Value) (ps : List Form) :
    (unit w n v ps).word = w := rfl

@[simp] theorem matched_unit (w : String) (n : Option Nat) (v : Option Value) (ps : List Form) :
    (unit w n v ps).matched = n := rfl

@[simp] theorem word_mark (n : Nat) (f : Form) : (f.mark n).word = f.word := by
  cases f
  rfl

@[simp] theorem matched_mark (n : Nat) (f : Form) : (f.mark n).matched = some n := by
  cases f
  rfl

@[simp] theorem word_clear (f : Form) : f.clear.word = f.word := by
  cases f
  rfl

@[simp] theorem clear_mark (n : Nat) (f : Form) : (f.mark n).clear = f.clear := by
  cases f
  rfl

@[simp] theorem mark_clear (n : Nat) (f : Form) : f.clear.mark n = f.mark n := by
  cases f
  rfl

end Form

namespace Tree

mutual

def form : Tree → Form
  | node _ w n v ps => .unit w n v (forms ps)

def forms : List Tree → List Form
  | [] => []
  | t :: ts => form t :: forms ts

end

@[simp] theorem forms_eq_map (ts : List Tree) : forms ts = ts.map form := by
  induction ts with
  | nil => rfl
  | cons t ts ih => simp [forms, ih]

theorem form_eq (t : Tree) : t.form = .unit t.word t.matched t.value (t.parts.map form) := by
  cases t
  simp [form]

@[simp] theorem form_node (i : Nat) (w : String) (n : Option Nat) (v : Option Value)
    (ps : List Tree) : (node i w n v ps).form = .unit w n v (ps.map form) := by
  simp [form]

@[simp] theorem word_form (t : Tree) : t.form.word = t.word := by
  rw [form_eq, Form.word_unit]

@[simp] theorem matched_form (t : Tree) : t.form.matched = t.matched := by
  rw [form_eq, Form.matched_unit]

@[simp] theorem form_put (i : Nat) (t : Tree) : (t.put i).form = t.form := by
  cases t
  simp [put]

@[simp] theorem form_mark (n : Nat) (t : Tree) : (t.mark n).form = t.form.mark n := by
  cases t
  simp [mark, Form.mark]

@[simp] theorem form_renumber (k : Nat) (ts : List Tree) :
    (renumber k ts).map form = ts.map form := by
  induction ts generalizing k with
  | nil => rfl
  | cons t ts ih => simp [renumber, ih]

@[simp] theorem form_lowered (held : Bool) (k : Nat) (f : Tree) (us : List Tree) :
    (Arena.lowered held k f us).map form = (f :: us).map form := by
  cases held <;> simp [Arena.lowered]

/-- The form of a unit that is still to come, whose node is of no account. -/
def bare (t : Tree) : Form :=
  t.form.clear

@[simp] theorem word_bare (t : Tree) : t.bare.word = t.word := by
  simp [bare]

@[simp] theorem bare_mark (n : Nat) (t : Tree) : (t.mark n).bare = t.bare := by
  simp [bare]

@[simp] theorem bare_remark (i n : Nat) (t : Tree) : (t.remark i n).bare = t.bare := by
  unfold remark
  split <;> simp

end Tree

namespace Bracket

/-- The line for a unit depends on its word and on the lines for its parts. -/
theorem item_node (dummy : String) (i : Nat) (w : String) (n : Option Nat) (v : Option Value)
    (ts : List Tree) : item dummy (.node i w n v ts) =
      ⟨w != dummy, (items dummy ts).isEmpty,
        if (items dummy ts).isEmpty then w else level (items dummy ts)⟩ := by
  cases ts <;> simp [item, items]

mutual

theorem item_congr (dummy : String) : ∀ {t t' : Tree}, t.form = t'.form →
    item dummy t = item dummy t'
  | .node _ _ _ _ ps, .node _ _ _ _ ps', h => by
    simp only [Tree.form_node, Form.unit.injEq] at h
    rw [item_node, item_node, h.1, items_congr dummy h.2.2.2]

/-- Lines depend on forms alone. -/
theorem items_congr (dummy : String) : ∀ {ts ts' : List Tree},
    ts.map Tree.form = ts'.map Tree.form → items dummy ts = items dummy ts'
  | [], [], _ => rfl
  | t :: ts, t' :: ts', h => by
    obtain ⟨ht, hts⟩ := List.cons.inj h
    rw [items, items, item_congr dummy ht, items_congr dummy hts]

end

end Bracket

end StateDiagram
