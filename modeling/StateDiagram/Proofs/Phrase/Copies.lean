import StateDiagram.Proofs.Phrase.Spans

/-! Walks along a chain that is spanned, and copies of a part of it. A copy stands in fresh slots,
has the units and the subphrases of the old part, and goes on where the old part does. -/
namespace StateDiagram

namespace Tree

/-- The unit in another slot. -/
def put (i : Nat) : Tree → Tree
  | node _ w n v ps => node i w n v ps

@[simp] theorem slot_put (i : Nat) (t : Tree) : (t.put i).slot = i := by
  cases t
  rfl

@[simp] theorem word_put (i : Nat) (t : Tree) : (t.put i).word = t.word := by
  cases t
  rfl

@[simp] theorem matched_put (i : Nat) (t : Tree) : (t.put i).matched = t.matched := by
  cases t
  rfl

@[simp] theorem value_put (i : Nat) (t : Tree) : (t.put i).value = t.value := by
  cases t
  rfl

@[simp] theorem parts_put (i : Nat) (t : Tree) : (t.put i).parts = t.parts := by
  cases t
  rfl

/-- The units in the slots from `k` on. -/
def renumber : Nat → List Tree → List Tree
  | _, [] => []
  | k, t :: ts => t.put k :: renumber (k + 1) ts

@[simp] theorem length_renumber (k : Nat) (ts : List Tree) :
    (renumber k ts).length = ts.length := by
  induction ts generalizing k with
  | nil => rfl
  | cons t ts ih => simp [renumber, ih]

theorem slots_renumber (k : Nat) (ts : List Tree) :
    (renumber k ts).map slot = List.range' k ts.length := by
  induction ts generalizing k with
  | nil => rfl
  | cons t ts ih => simp [renumber, ih, List.range'_succ]

@[simp] theorem inner_renumber (k : Nat) (ts : List Tree) :
    inner (renumber k ts) = inner ts := by
  induction ts generalizing k with
  | nil => rfl
  | cons t ts ih =>
    have := ih (k + 1)
    simp only [inner] at this ⊢
    simp [renumber, this]

theorem renumber_append (k : Nat) (ts us : List Tree) :
    renumber k (ts ++ us) = renumber k ts ++ renumber (k + ts.length) us := by
  induction ts generalizing k with
  | nil => rfl
  | cons t ts ih =>
    have hk : k + 1 + ts.length = k + (ts.length + 1) := by omega
    simp [renumber, ih, hk]

/-- The slot of the last of the units `ts` that follow slot `i`. -/
def lastSlot : Nat → List Tree → Nat
  | i, [] => i
  | _, t :: ts => lastSlot t.slot ts

@[simp] theorem lastSlot_append (i : Nat) (ts us : List Tree) :
    lastSlot i (ts ++ us) = lastSlot (lastSlot i ts) us := by
  induction ts generalizing i with
  | nil => rfl
  | cons t ts ih => exact ih t.slot

theorem lastSlot_mem (i : Nat) (ts : List Tree) : lastSlot i ts ∈ i :: ts.map slot := by
  induction ts generalizing i with
  | nil => simp [lastSlot]
  | cons t ts ih => exact List.mem_cons_of_mem i (ih t.slot)

theorem lastSlot_renumber_cons (i k : Nat) (t : Tree) (ts : List Tree) :
    lastSlot i (renumber k (t :: ts)) = lastSlot k (renumber (k + 1) ts) := by
  cases t
  rfl

end Tree

namespace Arena

open StateDiagram.Tree

variable {a b c : Arena}

/-- Every slot of `a` is in `b` what it was. -/
structure Keeps (a b : Arena) : Prop where
  size : a.size ≤ b.size
  same : ∀ i < a.size, b.get? i = a.get? i

theorem Keeps.trans (h : Keeps a b) (h' : Keeps b c) : Keeps a c :=
  ⟨Nat.le_trans h.size h'.size, fun i hi =>
    (h'.same i (Nat.lt_of_lt_of_le hi h.size)).trans (h.same i hi)⟩

theorem keeps_alloc (p : Phrase) (a : Arena) : Keeps a (a.alloc p) :=
  ⟨by simp, fun i hi => by simp [Nat.ne_of_lt hi]⟩

theorem Keeps.modify (h : Keeps a b) {i : Nat} (hi : a.size ≤ i) (f : Phrase → Phrase) :
    Keeps a (b.modify i f) where
  size := by simpa using h.size
  same j hj := by rw [get?_modify_ne f (by omega), h.same j hj]

theorem Spans.keep {o o' : Option Nat} {ts : List Tree} (h : Spans a o ts o') (hk : Keeps a b) :
    Spans b o ts o' :=
  h.congr fun i hi => hk.same i (h.lt i hi)

/-- Where a chain goes that runs through `ts` and then on at `o`. -/
def start : List Tree → Option Nat → Option Nat
  | [], o => o
  | t :: _, _ => some t.slot

theorem Spans.start {m o : Option Nat} {ts : List Tree} (h : Spans a m ts o) :
    m = start ts o := by
  cases h <;> rfl

theorem nextOf_of_next {i j : Nat} {u : Phrase} (hu : a.get? i = some u) (hnext : u.next = some j) :
    a.nextOf i = .ok j := by
  simp [nextOf, fetch_of_get? hu, hnext, bind, Except.bind]

theorem Spans.nextOf {i j : Nat} {t : Tree} {ts : List Tree} {o : Option Nat}
    (h : Spans a (some i) (t :: ts) o) (hj : Arena.start ts o = some j) : a.nextOf i = .ok j := by
  obtain ⟨u, hi, hu, -, -, hts⟩ := h.cons_inv
  obtain rfl := Option.some.inj hi
  exact nextOf_of_next hu (hts.start.trans hj)

theorem Spans.ahead {i j : Nat} {ts : List Tree} (h : Spans a (some i) ts (some j)) :
    a.ahead ts.length i = .ok j := by
  induction ts generalizing i with
  | nil => cases h; rfl
  | cons t ts ih =>
    obtain ⟨u, -, -, -, -, hts⟩ := h.cons_inv
    obtain ⟨k, hk⟩ : ∃ k, Arena.start ts (some j) = some k := by
      cases ts with
      | nil => exact ⟨j, rfl⟩
      | cons t' ts => exact ⟨t'.slot, rfl⟩
    rw [List.length_cons, Arena.ahead, h.nextOf hk]
    rw [hts.start, hk] at hts
    exact ih hts

theorem Spans.length_le {o : Option Nat} {ts : List Tree} (h : Spans a o ts none) :
    ts.length ≤ a.size := by
  have hsub : (ts.map slot).Subperm (List.range a.size) := h.nodup.subperm fun i hi =>
    List.mem_range.2 (h.lt i (mem_slotsOf.2 (.inl hi)))
  simpa using hsub.length_le

theorem Spans.follow {o : Option Nat} {ts : List Tree} (h : Spans a o ts none) {fuel : Nat}
    (hf : ts.length ≤ fuel) : a.follow fuel o = ts.map slot := by
  induction ts generalizing o fuel with
  | nil =>
    rw [h.start]
    cases fuel <;> rfl
  | cons t ts ih =>
    obtain ⟨u, rfl, hu, -, -, hts⟩ := h.cons_inv
    obtain ⟨fuel, rfl⟩ : ∃ n, fuel = n + 1 := ⟨fuel - 1, by simp at hf; omega⟩
    rw [Arena.follow, hu, List.map_cons, ← ih hts (Nat.le_of_succ_le_succ hf)]

theorem Spans.chain {i : Nat} {ts : List Tree} (h : Spans a (some i) ts none) :
    a.chain i = ts.map slot :=
  h.follow h.length_le

theorem Spans.position {i : Nat} {ts us : List Tree} {t : Tree}
    (h : Spans a (some i) (ts ++ t :: us) none) : a.position i t.slot = ts.length := by
  have hn := h.nodup
  rw [Arena.position, h.chain, List.map_append, List.map_cons, List.takeWhile_append_of_pos]
  · simp
  · intro j hj
    rw [List.map_append, List.map_cons, List.nodup_append] at hn
    exact decide_eq_true (hn.2.2 j hj t.slot (by simp))

theorem Spans.beforeFrom {i first fuel : Nat} {ts : List Tree} {t : Tree}
    (h : Spans a (some i) (ts ++ [t]) (some first)) (hf : first ∉ (ts ++ [t]).map slot)
    (hfuel : ts.length < fuel) : a.beforeFrom first fuel i = .ok t.slot := by
  induction ts generalizing i fuel with
  | nil =>
    obtain ⟨fuel, rfl⟩ : ∃ n, fuel = n + 1 := ⟨fuel - 1, by omega⟩
    have hi : i = t.slot := Option.some.inj h.start
    rw [Arena.beforeFrom, h.nextOf rfl, hi]
    change (if first = first then _ else _) = _
    rw [if_pos rfl]
    rfl
  | cons t' ts ih =>
    obtain ⟨fuel, rfl⟩ : ∃ n, fuel = n + 1 := ⟨fuel - 1, by omega⟩
    rw [List.cons_append] at h
    obtain ⟨u, -, -, -, -, hts⟩ := h.cons_inv
    obtain ⟨k, hk, hmem⟩ : ∃ k, Arena.start (ts ++ [t]) (some first) = some k ∧
        k ∈ (ts ++ [t]).map slot := by
      cases ts with
      | nil => exact ⟨t.slot, rfl, by simp⟩
      | cons t'' ts => exact ⟨t''.slot, rfl, by simp⟩
    rw [hts.start, hk] at hts
    rw [List.cons_append, List.map_cons, List.mem_cons, not_or] at hf
    rw [Arena.beforeFrom, h.nextOf hk]
    have hkf : k ≠ first := fun e => hf.2 (e ▸ hmem)
    change (if k = first then _ else _) = _
    rw [if_neg hkf]
    exact ih hts hf.2 (by simpa using hfuel)

/-- A step of a copy: the next unit, with contents `u`, is copied to a new slot, to which the copy
that was made last goes on. -/
def copyNext (u : Phrase) (copy : Nat) (a : Arena) : Arena :=
  (a.alloc u).setNext copy (some a.size)

@[simp] theorem size_copyNext (u : Phrase) (copy : Nat) :
    (copyNext u copy a).size = a.size + 1 := by
  simp [copyNext, setNext]

theorem get?_copyNext_size {u : Phrase} {copy : Nat} (hcopy : copy < a.size) :
    (copyNext u copy a).get? a.size = some u := by
  simp [copyNext, setNext, get?_modify_ne _ (Nat.ne_of_gt hcopy)]

theorem get?_copyNext_self {u v : Phrase} {copy : Nat} (hcopy : a.get? copy = some v) :
    (copyNext u copy a).get? copy = some { v with next := some a.size } := by
  simp [copyNext, setNext, Nat.ne_of_lt (lt_of_get? hcopy), hcopy]

theorem get?_copyNext_ne {u : Phrase} {copy i : Nat} (hi : i < a.size) (hne : i ≠ copy) :
    (copyNext u copy a).get? i = a.get? i := by
  simp [copyNext, setNext, get?_modify_ne _ hne, Nat.ne_of_lt hi]

/-- The loop of a copy. The copy of the first unit is there already, with the contents of the old
unit; all that is read stands before it. -/
theorem Spans.copyFrom {old copy fuel : Nat} {t : Tree} {ts : List Tree} {o : Option Nat}
    (h : Spans a (some old) (t :: ts) o) (hn : ((t :: ts).map slot).Nodup)
    (hcopy : a.get? copy = a.get? old) (hfresh : ∀ i ∈ slotsOf (t :: ts), i < copy)
    (hfuel : ts.length < fuel) :
    ∃ b, Arena.copyFrom (lastSlot old ts) fuel old copy a =
        .ok (lastSlot copy (renumber a.size ts), b) ∧
      b.size = a.size + ts.length ∧ (∀ i < a.size, i ≠ copy → b.get? i = a.get? i) ∧
      Spans b (some copy) (t.put copy :: renumber a.size ts) o := by
  induction ts generalizing a old copy t fuel with
  | nil =>
    obtain ⟨fuel, rfl⟩ : ∃ n, fuel = n + 1 := ⟨fuel - 1, by omega⟩
    obtain ⟨u, ho, hu, ht, hps, hts⟩ := h.cons_inv
    obtain rfl := Option.some.inj ho
    refine ⟨a, by simp [Arena.copyFrom, lastSlot, renumber], rfl, fun _ _ _ => rfl, ?_⟩
    refine .of_cons (hcopy.trans hu) ?_ (by simpa using hps) hts
    rw [ht]
    rfl
  | cons t' ts ih =>
    obtain ⟨fuel, rfl⟩ : ∃ n, fuel = n + 1 := ⟨fuel - 1, by omega⟩
    obtain ⟨u, ho, hu, ht, hps, hts⟩ := h.cons_inv
    obtain rfl := Option.some.inj ho
    have hcopied : a.get? copy = some u := hcopy.trans hu
    have hsize : copy < a.size := lt_of_get? hcopied
    have hnext : u.next = some t'.slot := hts.start
    rw [hnext] at hts
    obtain ⟨u', -, hu', -⟩ := hts.cons_inv
    have hne : t.slot ≠ lastSlot t.slot (t' :: ts) := by
      intro heq
      rw [List.map_cons, List.nodup_cons] at hn
      exact hn.1 (heq ▸ lastSlot_mem t'.slot ts)
    let b₀ := copyNext u' copy a
    have hread : ∀ i ∈ slotsOf (t :: t' :: ts), b₀.get? i = a.get? i := fun i hi =>
      have hic := hfresh i hi
      get?_copyNext_ne (Nat.lt_trans hic hsize) (Nat.ne_of_lt hic)
    have hrest : ∀ i ∈ slotsOf (t' :: ts), i ∈ slotsOf (t :: t' :: ts) := fun i hi => by
      rw [slotsOf_cons]
      exact List.mem_append_right _ hi
    obtain ⟨b, hrun, hbsize, hbold, hspan⟩ := @ih b₀ t'.slot a.size fuel t'
      (hts.congr fun i hi => hread i (hrest i hi)) (List.nodup_cons.1 hn).2
      (by rw [get?_copyNext_size hsize, hread t'.slot (hrest _ (by simp)), hu'])
      (fun i hi => hts.lt i hi) (Nat.lt_of_succ_lt_succ hfuel)
    have hb₀ : b₀.size = a.size + 1 := size_copyNext u' copy
    rw [hb₀] at hrun hbsize hbold hspan
    refine ⟨b, ?_, by rw [hbsize, List.length_cons]; omega, fun i hi hic => ?_, ?_⟩
    · rw [Arena.copyFrom, if_neg hne, h.nextOf (j := t'.slot) rfl]
      change (do let b ← a.duplicate t'.slot; _) = _
      rw [duplicate, fetch_of_get? hu', lastSlot_renumber_cons]
      exact hrun
    · rw [hbold i (by omega) (by omega), get?_copyNext_ne hi hic]
    · refine .of_cons ((hbold copy (by omega) (by omega)).trans (get?_copyNext_self hcopied))
        (by rw [ht]; rfl) ?_ hspan
      rw [parts_put]
      refine hps.congr fun i hi => ?_
      have hmem : i ∈ slotsOf (t :: t' :: ts) := by simp [hi]
      have hic := hfresh i hmem
      rw [hbold i (by omega) (by omega), hread i hmem]

theorem Spans.copyChain {first : Nat} {t : Tree} {ts : List Tree} {o : Option Nat}
    (h : Spans a (some first) (t :: ts) o) (hn : ((t :: ts).map slot).Nodup) :
    ∃ b, Arena.copyChain first (lastSlot first ts) a =
        .ok (lastSlot a.size (renumber (a.size + 1) ts), b) ∧
      Keeps a b ∧ b.size = a.size + (ts.length + 1) ∧
      Spans b (some a.size) (renumber a.size (t :: ts)) o := by
  obtain ⟨u, ho, hu, -, -, -⟩ := h.cons_inv
  obtain rfl := Option.some.inj ho
  have hlen : ts.length < a.size := by
    have hsub : ((t :: ts).map slot).Subperm (List.range a.size) := hn.subperm fun i hi =>
      List.mem_range.2 (h.lt i (mem_slotsOf.2 (.inl hi)))
    simpa [Nat.succ_le_iff] using hsub.length_le
  have hcopy : (a.alloc u).get? a.size = (a.alloc u).get? t.slot := by
    simp [Nat.ne_of_lt (lt_of_get? hu), hu]
  obtain ⟨b, hrun, hsize, hold, hspan⟩ := (h.keep (keeps_alloc u a)).copyFrom hn hcopy h.lt hlen
  rw [size_alloc] at hrun hsize hold hspan
  refine ⟨b, ?_, ⟨by omega, fun i hi => ?_⟩, by omega, hspan⟩
  · rw [Arena.copyChain, duplicate, fetch_of_get? hu]
    exact hrun
  · rw [hold i (by omega) (by omega)]
    exact (keeps_alloc u a).same i hi

end Arena

end StateDiagram
