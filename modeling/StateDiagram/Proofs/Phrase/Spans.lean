import StateDiagram.Phrase.Chain
import StateDiagram.Phrase.Tree
import Mathlib.Data.List.Nodup
import Mathlib.Data.List.Perm.Subperm

/-! Links of an arena read as trees. `Spans a o ts o'` says that the chain that starts at `o` runs
through the units `ts`, subphrases and all, and then goes on at `o'`. A chain that is spanned ends,
and so do all the chains below it. -/
namespace StateDiagram

namespace Tree

def slot : Tree → Nat
  | node i _ _ _ _ => i

def matched : Tree → Option Nat
  | node _ _ n _ _ => n

def value : Tree → Option Value
  | node _ _ _ v _ => v

@[simp] theorem slot_node (i : Nat) (w : String) (n : Option Nat) (v : Option Value)
    (ps : List Tree) : (node i w n v ps).slot = i := rfl

@[simp] theorem word_node (i : Nat) (w : String) (n : Option Nat) (v : Option Value)
    (ps : List Tree) : (node i w n v ps).word = w := rfl

@[simp] theorem matched_node (i : Nat) (w : String) (n : Option Nat) (v : Option Value)
    (ps : List Tree) : (node i w n v ps).matched = n := rfl

@[simp] theorem value_node (i : Nat) (w : String) (n : Option Nat) (v : Option Value)
    (ps : List Tree) : (node i w n v ps).value = v := rfl

@[simp] theorem parts_node (i : Nat) (w : String) (n : Option Nat) (v : Option Value)
    (ps : List Tree) : (node i w n v ps).parts = ps := rfl

mutual

def slots : Tree → List Nat
  | node i _ _ _ ps => i :: slotsOf ps

/-- The slots of units and of all that is below them. -/
def slotsOf : List Tree → List Nat
  | [] => []
  | t :: ts => slots t ++ slotsOf ts

end

/-- The slots below the units of a chain. -/
def inner (ts : List Tree) : List Nat :=
  ts.flatMap fun t => slotsOf t.parts

@[simp] theorem slotsOf_nil : slotsOf [] = [] := rfl

@[simp] theorem slotsOf_cons (t : Tree) (ts : List Tree) :
    slotsOf (t :: ts) = t.slot :: slotsOf t.parts ++ slotsOf ts := by
  cases t
  rfl

@[simp] theorem slotsOf_append (ts us : List Tree) :
    slotsOf (ts ++ us) = slotsOf ts ++ slotsOf us := by
  induction ts with
  | nil => rfl
  | cons t ts ih => simp [ih]

theorem mem_slotsOf {i : Nat} {ts : List Tree} :
    i ∈ slotsOf ts ↔ i ∈ ts.map slot ∨ i ∈ inner ts := by
  induction ts with
  | nil => simp [inner]
  | cons t ts ih =>
    simp only [slotsOf_cons, List.cons_append, List.mem_cons, List.mem_append, ih, List.map_cons,
      inner, List.flatMap_cons]
    tauto

@[simp] theorem inner_append (ts us : List Tree) : inner (ts ++ us) = inner ts ++ inner us := by
  simp [inner]

end Tree

namespace Arena

open StateDiagram.Tree

@[simp] theorem get?_alloc (p : Phrase) (a : Arena) (i : Nat) :
    (a.alloc p).get? i = if i = a.size then some p else a.get? i := by
  rw [alloc, get?, Array.getElem?_push]
  rfl

theorem get?_modify (a : Arena) (i j : Nat) (f : Phrase → Phrase) :
    (a.modify i f).get? j = if i = j then (a.get? j).map f else a.get? j := by
  simp [modify, get?, Array.getElem?_modify]

@[simp] theorem get?_modify_self (a : Arena) (i : Nat) (f : Phrase → Phrase) :
    (a.modify i f).get? i = (a.get? i).map f := by
  simp [get?_modify]

theorem get?_modify_ne {a : Arena} {i j : Nat} (f : Phrase → Phrase) (h : j ≠ i) :
    (a.modify i f).get? j = a.get? j := by
  simp [get?_modify, h.symm]

theorem lt_of_get? {a : Arena} {i : Nat} {u : Phrase} (h : a.get? i = some u) : i < a.size :=
  (Array.getElem?_eq_some_iff.1 h).1

theorem fetch_of_get? {a : Arena} {i : Nat} {u : Phrase} (h : a.get? i = some u) :
    a.fetch i = .ok u := by
  simp [fetch, h]

inductive Spans (a : Arena) : Option Nat → List Tree → Option Nat → Prop where
  | nil (o : Option Nat) : Spans a o [] o
  | cons {i : Nat} {u : Phrase} {ps ts : List Tree} {o : Option Nat} :
    a.get? i = some u → Spans a u.sub ps none → Spans a u.next ts o →
      Spans a (some i) (.node i u.word u.node u.value ps :: ts) o

variable {a b : Arena}

theorem Spans.cons_inv {o o' : Option Nat} {t : Tree} {ts : List Tree}
    (h : Spans a o (t :: ts) o') : ∃ u, o = some t.slot ∧ a.get? t.slot = some u ∧
      t = .node t.slot u.word u.node u.value t.parts ∧ Spans a u.sub t.parts none ∧
      Spans a u.next ts o' := by
  cases h with
  | cons hu hps hts => exact ⟨_, rfl, hu, rfl, hps, hts⟩

theorem Spans.of_cons {i : Nat} {u : Phrase} {t : Tree} {ts : List Tree} {o : Option Nat}
    (hu : a.get? i = some u) (ht : t = .node i u.word u.node u.value t.parts)
    (hps : Spans a u.sub t.parts none) (hts : Spans a u.next ts o) :
    Spans a (some i) (t :: ts) o := by
  rw [ht]
  exact .cons hu hps hts

theorem Spans.append {o m o' : Option Nat} {ts us : List Tree} (h : Spans a o ts m)
    (h' : Spans a m us o') : Spans a o (ts ++ us) o' := by
  induction h with
  | nil => exact h'
  | cons hu hps _ _ ih => exact .cons hu hps (ih h')

theorem Spans.split {o o' : Option Nat} {ts us : List Tree} (h : Spans a o (ts ++ us) o') :
    ∃ m, Spans a o ts m ∧ Spans a m us o' := by
  induction ts generalizing o with
  | nil => exact ⟨o, .nil o, h⟩
  | cons t ts ih =>
    obtain ⟨u, rfl, hu, ht, hps, hts⟩ := h.cons_inv
    obtain ⟨m, hm, hus⟩ := ih hts
    exact ⟨m, .of_cons hu ht hps hm, hus⟩

theorem Spans.lt {o o' : Option Nat} {ts : List Tree} (h : Spans a o ts o') :
    ∀ i ∈ slotsOf ts, i < a.size := by
  induction h with
  | nil => simp
  | cons hu _ _ ihp iht =>
    intro i hi
    simp only [slotsOf_cons, slot_node, parts_node, List.cons_append, List.mem_cons,
      List.mem_append] at hi
    obtain rfl | hi | hi := hi
    · exact lt_of_get? hu
    · exact ihp i hi
    · exact iht i hi

/-- What is read depends on no other slots than those that are read. -/
theorem Spans.congr {o o' : Option Nat} {ts : List Tree} (h : Spans a o ts o')
    (hb : ∀ i ∈ slotsOf ts, b.get? i = a.get? i) : Spans b o ts o' := by
  induction h with
  | nil o => exact .nil o
  | @cons i u ps ts o hu _ _ ihp iht =>
    simp only [slotsOf_cons, slot_node, parts_node, List.cons_append, List.mem_cons,
      List.mem_append] at hb
    exact .cons ((hb i (.inl rfl)).trans hu) (ihp fun j hj => hb j (.inr (.inl hj)))
      (iht fun j hj => hb j (.inr (.inr hj)))

theorem Spans.unique {o : Option Nat} {ts us : List Tree} (h : Spans a o ts none)
    (h' : Spans a o us none) : ts = us := by
  suffices ∀ {o o' : Option Nat} {ts : List Tree}, Spans a o ts o' → o' = none →
      ∀ us, Spans a o us none → ts = us from this h rfl us h'
  intro o o' ts h
  induction h with
  | nil o =>
    rintro rfl us h'
    cases h'
    rfl
  | cons hu _ _ ihp iht =>
    intro ho us h'
    cases h' with
    | cons hu' hps' hts' =>
      obtain rfl := Option.some.inj (hu.symm.trans hu')
      rw [ihp rfl _ hps', iht ho _ hts']

/-- Each slot that is read heads a chain that is no larger. -/
theorem Spans.of_mem {o o' : Option Nat} {ts : List Tree} (h : Spans a o ts o') (ho : o' = none) :
    ∀ i ∈ slotsOf ts, ∃ us, Spans a (some i) us none ∧
      (slotsOf us).length ≤ (slotsOf ts).length := by
  induction h with
  | nil => simp
  | @cons i u ps ts o hu hps hts ihp iht =>
    subst ho
    intro j hj
    simp only [slotsOf_cons, slot_node, parts_node, List.cons_append, List.mem_cons,
      List.mem_append, List.length_cons, List.length_append] at hj ⊢
    obtain rfl | hj | hj := hj
    · exact ⟨_, .cons hu hps hts, by simp⟩
    · obtain ⟨us, hus, hle⟩ := ihp rfl j hj
      exact ⟨us, hus, by omega⟩
    · obtain ⟨us, hus, hle⟩ := iht rfl j hj
      exact ⟨us, hus, by omega⟩

/-- A smaller chain does not come to the first unit of a chain that ends. -/
theorem Spans.slot_notMem_of_lt {o m : Option Nat} {t : Tree} {ts us : List Tree}
    (h : Spans a o (t :: ts) none) (hus : Spans a m us none)
    (hlt : (slotsOf us).length < (slotsOf (t :: ts)).length) : t.slot ∉ slotsOf us := by
  intro hi
  obtain ⟨vs, hvs, hle⟩ := hus.of_mem rfl _ hi
  obtain ⟨u, rfl, -⟩ := h.cons_inv
  rw [← h.unique hvs] at hle
  omega

/-- A chain that ends does not come back to its first unit, neither below nor after it. -/
theorem Spans.slot_notMem {o : Option Nat} {t : Tree} {ts : List Tree}
    (h : Spans a o (t :: ts) none) : t.slot ∉ slotsOf t.parts ∧ t.slot ∉ slotsOf ts := by
  obtain ⟨u, -, -, -, hps, hts⟩ := h.cons_inv
  have hlen : (slotsOf (t :: ts)).length =
      (slotsOf t.parts).length + (slotsOf ts).length + 1 := by simp
  exact ⟨h.slot_notMem_of_lt hps (by omega), h.slot_notMem_of_lt hts (by omega)⟩

theorem Spans.nodup {o : Option Nat} {ts : List Tree} (h : Spans a o ts none) :
    (ts.map slot).Nodup := by
  induction ts generalizing o with
  | nil => simp
  | cons t ts ih =>
    obtain ⟨u, rfl, -, -, -, hts⟩ := h.cons_inv
    rw [List.map_cons, List.nodup_cons]
    exact ⟨fun hi => h.slot_notMem.2 (mem_slotsOf.2 (.inl hi)), ih hts⟩

end Arena

end StateDiagram
