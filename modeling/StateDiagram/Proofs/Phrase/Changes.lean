import StateDiagram.Proofs.Phrase.Copies

/-! What a change of a single unit makes of the chains that are read. A chain that does not hold
the unit is left as it was; one that holds it on its top level alone changes there and nowhere
else. -/
namespace StateDiagram

namespace Tree

/-- The unit matched to node `n`. -/
def mark (n : Nat) : Tree → Tree
  | node i w _ v ps => node i w (some n) v ps

@[simp] theorem slot_mark (n : Nat) (t : Tree) : (t.mark n).slot = t.slot := by
  cases t
  rfl

@[simp] theorem word_mark (n : Nat) (t : Tree) : (t.mark n).word = t.word := by
  cases t
  rfl

@[simp] theorem matched_mark (n : Nat) (t : Tree) : (t.mark n).matched = some n := by
  cases t
  rfl

@[simp] theorem value_mark (n : Nat) (t : Tree) : (t.mark n).value = t.value := by
  cases t
  rfl

@[simp] theorem parts_mark (n : Nat) (t : Tree) : (t.mark n).parts = t.parts := by
  cases t
  rfl

/-- The unit matched to node `n` if it stands in slot `i`. -/
def remark (i n : Nat) (t : Tree) : Tree :=
  if t.slot = i then t.mark n else t

@[simp] theorem slot_remark (i n : Nat) (t : Tree) : (t.remark i n).slot = t.slot := by
  unfold remark
  split <;> simp

@[simp] theorem word_remark (i n : Nat) (t : Tree) : (t.remark i n).word = t.word := by
  unfold remark
  split <;> simp

@[simp] theorem value_remark (i n : Nat) (t : Tree) : (t.remark i n).value = t.value := by
  unfold remark
  split <;> simp

@[simp] theorem parts_remark (i n : Nat) (t : Tree) : (t.remark i n).parts = t.parts := by
  unfold remark
  split <;> simp

theorem map_remark_of_notMem {i : Nat} {ts : List Tree} (n : Nat) (h : i ∉ ts.map slot) :
    ts.map (remark i n) = ts := by
  induction ts with
  | nil => rfl
  | cons t ts ih =>
    rw [List.map_cons, List.mem_cons, not_or] at h
    rw [List.map_cons, ih h.2, remark, if_neg (Ne.symm h.1)]

@[simp] theorem map_slot_remark (i n : Nat) (ts : List Tree) :
    (ts.map (remark i n)).map slot = ts.map slot := by
  simp [Function.comp_def]

@[simp] theorem inner_remark (i n : Nat) (ts : List Tree) :
    inner (ts.map (remark i n)) = inner ts := by
  simp [inner, List.flatMap_map]

theorem inner_cons (t : Tree) (ts : List Tree) : inner (t :: ts) = slotsOf t.parts ++ inner ts :=
  rfl

theorem mem_inner_of_mem {i : Nat} {t : Tree} {ts : List Tree} (ht : t ∈ ts)
    (hi : i ∈ slotsOf t.parts) : i ∈ inner ts :=
  List.mem_flatMap.2 ⟨t, ht, hi⟩

end Tree

namespace Arena

open StateDiagram.Tree

variable {a b : Arena}

/-- The last unit of a chain that is spanned, and where the chain goes on. -/
theorem Spans.last {o m : Option Nat} {ts : List Tree} {t : Tree}
    (h : Spans a o (ts ++ [t]) m) : ∃ u, a.get? t.slot = some u ∧ u.next = m ∧
      u.word = t.word ∧ u.node = t.matched ∧ u.value = t.value ∧ Spans a u.sub t.parts none := by
  obtain ⟨o', -, ht⟩ := h.split
  obtain ⟨u, -, hu, heq, hps, hend⟩ := ht.cons_inv
  refine ⟨u, hu, hend.start, ?_, ?_, ?_, hps⟩
  · rw [heq, word_node]
  · rw [heq, matched_node]
  · rw [heq, value_node]

/-- A chain that goes on as before up to a place and from there with other units. -/
theorem Spans.splice {o m : Option Nat} {ts us vs : List Tree} {i : Nat}
    (h : Spans a o (ts ++ us) none) (hstart : some i = Arena.start us none)
    (hnew : Spans b (some i) vs m) (hb : ∀ j ∈ slotsOf ts, b.get? j = a.get? j) :
    Spans b o (ts ++ vs) m := by
  obtain ⟨k, hts, hus⟩ := h.split
  obtain rfl : k = some i := hus.start.trans hstart.symm
  exact (hts.congr hb).append hnew

/-- A chain whose last unit is given another place to go on at. -/
theorem Spans.relink {o m : Option Nat} {t : Tree} {ts : List Tree} (m' : Option Nat)
    (h : Spans a o (t :: ts) m) (hn : ((t :: ts).map slot).Nodup)
    (hi : ∀ j ∈ (t :: ts).map slot, j ∉ inner (t :: ts)) :
    Spans (a.setNext (lastSlot t.slot ts) m') o (t :: ts) m' := by
  induction ts generalizing o t with
  | nil =>
    obtain ⟨u, rfl, hu, ht, hps, -⟩ := h.cons_inv
    refine .of_cons (u := { u with next := m' }) ?_ ht ?_ (.nil m')
    · simp [setNext, lastSlot, hu]
    · refine hps.congr fun j hj => get?_modify_ne _ fun hjt => ?_
      obtain rfl : j = t.slot := hjt
      exact hi t.slot (by simp) (mem_inner_of_mem (List.mem_cons_self ..) hj)
  | cons t' ts ih =>
    obtain ⟨u, rfl, hu, ht, hps, hts⟩ := h.cons_inv
    have hend : lastSlot t.slot (t' :: ts) ∈ (t' :: ts).map slot := lastSlot_mem t'.slot ts
    rw [List.map_cons, List.nodup_cons] at hn
    have hne : t.slot ≠ lastSlot t.slot (t' :: ts) := fun heq => hn.1 (heq ▸ hend)
    refine .of_cons ((get?_modify_ne _ hne).trans hu) ht ?_ ?_
    · refine hps.congr fun j hj => get?_modify_ne _ fun hjt => ?_
      exact hi _ (List.mem_cons_of_mem _ hend)
        (mem_inner_of_mem (List.mem_cons_self ..) (hjt ▸ hj))
    · refine ih hts hn.2 fun j hj hin => hi j (List.mem_cons_of_mem _ hj) ?_
      rw [inner_cons]
      exact List.mem_append_right _ hin

/-- A change to the node of a unit that no subphrase of the chain holds. -/
theorem Spans.setNode {o m : Option Nat} {ts : List Tree} (h : Spans a o ts m) {i : Nat} (n : Nat)
    (hi : i ∉ inner ts) : Spans (a.setNode i (some n)) o (ts.map (remark i n)) m := by
  induction ts generalizing o with
  | nil =>
    obtain rfl := h.start
    exact .nil _
  | cons t ts ih =>
    obtain ⟨u, rfl, hu, ht, hps, hts⟩ := h.cons_inv
    rw [inner_cons, List.mem_append, not_or] at hi
    have hps' : Spans (a.setNode i (some n)) u.sub t.parts none :=
      hps.congr fun j hj => get?_modify_ne _ fun hji => hi.1 (hji ▸ hj)
    rw [List.map_cons, remark]
    by_cases his : t.slot = i
    · rw [if_pos his]
      have hu' : (a.setNode i (some n)).get? (t.mark n).slot = some { u with node := some n } := by
        rw [slot_mark, Arena.setNode, get?_modify, if_pos his.symm, hu]
        rfl
      rw [← slot_mark n t]
      refine .of_cons hu' ?_ (by simpa using hps') (ih hts hi.2)
      conv_lhs => rw [ht, mark]
      simp
    · rw [if_neg his]
      exact .of_cons ((get?_modify_ne _ his).trans hu) ht hps' (ih hts hi.2)

/-- A chain that ends is read off by growing it as a tree. -/
theorem Spans.grow {o m : Option Nat} {ts : List Tree} (h : Spans a o ts m) (hm : m = none) :
    ∀ (path : List Nat) (fuel : Nat), path.Nodup → (∀ j ∈ path, j < a.size) →
      (∀ j ∈ path, j ∉ slotsOf ts) → path.length + fuel = a.size → a.grow fuel o = ts := by
  induction h with
  | nil o =>
    intro path fuel _ _ _ _
    subst hm
    cases fuel <;> rfl
  | @cons i u ps ts o hu hps hts ihp iht =>
    subst hm
    intro path fuel hn hlt hout hlen
    have hi : i ∉ path := fun hip => hout i hip (by simp)
    have hpath : (i :: path).Nodup := List.nodup_cons.2 ⟨hi, hn⟩
    have hlt' : ∀ j ∈ i :: path, j < a.size := by
      rintro j (_ | ⟨_, hj⟩)
      · exact lt_of_get? hu
      · exact hlt j hj
    obtain ⟨fuel, rfl⟩ : ∃ k, fuel = k + 1 := by
      have hle : (i :: path).length ≤ a.size := by
        have hsub : (i :: path).Subperm (List.range a.size) := hpath.subperm fun j hj =>
          List.mem_range.2 (hlt' j hj)
        simpa using hsub.length_le
      exact ⟨fuel - 1, by simp at hle; omega⟩
    have hself := (Spans.cons hu hps hts).slot_notMem
    have hlen' : (i :: path).length + fuel = a.size := by
      rw [List.length_cons]
      omega
    have hbelow : a.grow fuel u.sub = ps := by
      refine ihp rfl (i :: path) fuel hpath hlt' ?_ hlen'
      rintro j (_ | ⟨_, hj⟩) hmem
      · exact hself.1 hmem
      · exact hout j hj (by simp [hmem])
    have hafter : a.grow fuel u.next = ts := by
      refine iht rfl (i :: path) fuel hpath hlt' ?_ hlen'
      rintro j (_ | ⟨_, hj⟩) hmem
      · exact hself.2 hmem
      · exact hout j hj (by simp [hmem])
    rw [Arena.grow, hu]
    change Tree.node i u.word u.node u.value (a.grow fuel u.sub) :: a.grow fuel u.next = _
    rw [hbelow, hafter]

theorem Spans.trees {i : Nat} {ts : List Tree} (h : Spans a (some i) ts none) : a.trees i = ts :=
  h.grow rfl [] a.size List.nodup_nil (by simp) (by simp) (by simp)

end Arena

end StateDiagram
