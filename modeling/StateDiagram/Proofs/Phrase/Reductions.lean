import StateDiagram.Phrase.Reduce
import StateDiagram.Proofs.Phrase.Changes

/-! Reductions of a part of a chain. On a copy, every old slot stays what it was and a fresh chain
has the reduced unit in place of the part. In place, the first unit of the part becomes the
reduced unit, and unless the part is held by nobody else only that slot changes. -/
namespace StateDiagram

namespace Tree

/-- No unit of the chain is below another. -/
def Layered (ts : List Tree) : Prop :=
  ∀ j ∈ ts.map slot, j ∉ inner ts

theorem Layered.sublist {ts us : List Tree} (h : Layered us) (hs : ts.Sublist us) :
    Layered ts := by
  intro j hj hin
  obtain ⟨t, ht, hj'⟩ := List.mem_flatMap.1 hin
  exact h j ((hs.map slot).subset hj) (mem_inner_of_mem (hs.subset ht) hj')

theorem exists_concat (t : Tree) (ts : List Tree) : ∃ us u, t :: ts = us ++ [u] ∧
    lastSlot t.slot ts = u.slot := by
  obtain ⟨us, u, h⟩ : ∃ us u, t :: ts = us ++ [u] :=
    ⟨_, _, (List.dropLast_append_getLast (List.cons_ne_nil t ts)).symm⟩
  refine ⟨us, u, h, ?_⟩
  calc
    lastSlot t.slot ts = lastSlot 0 (t :: ts) := rfl
    _ = lastSlot 0 (us ++ [u]) := by rw [h]
    _ = u.slot := by rw [lastSlot_append]; rfl

theorem fresh_renumber {k i : Nat} {ts : List Tree} (h : i ∈ (renumber k ts).map slot) :
    k ≤ i ∧ i < k + ts.length := by
  rw [slots_renumber, List.mem_range'_1] at h
  exact h

theorem le_lastSlot_renumber (k : Nat) (ts : List Tree) : k ≤ lastSlot k (renumber (k + 1) ts) := by
  have hmem := lastSlot_mem k (renumber (k + 1) ts)
  obtain heq | hmem := List.mem_cons.1 hmem
  · exact Nat.le_of_eq heq.symm
  · have := (fresh_renumber hmem).1
    omega

theorem lastSlot_mem_append (f : Tree) (us rest : List Tree) :
    lastSlot f.slot us ∈ (f :: us ++ rest).map slot := by
  rw [List.map_append]
  exact List.mem_append_left _ (lastSlot_mem f.slot us)

theorem nodup_renumber (k : Nat) (ts : List Tree) : ((renumber k ts).map slot).Nodup := by
  rw [slots_renumber]
  exact List.nodup_range' ..

/-- Copies in fresh slots are not below each other. -/
theorem layered_renumber {k : Nat} {ts : List Tree} (h : ∀ j ∈ inner ts, j < k) :
    Layered (renumber k ts) := by
  intro j hj hin
  rw [inner_renumber] at hin
  have hk := (fresh_renumber hj).1
  have hlt := h j hin
  omega

/-- Neither copies in the slots behind `k` nor what is below them stand in slot `k`. -/
theorem notMem_slotsOf_renumber {k : Nat} {ts : List Tree} (h : ∀ j ∈ inner ts, j < k) :
    k ∉ slotsOf (renumber (k + 1) ts) := by
  intro hk
  rw [mem_slotsOf, inner_renumber] at hk
  obtain hk | hk := hk
  · have := (fresh_renumber hk).1
    omega
  · exact Nat.lt_irrefl k (h k hk)

end Tree

namespace Arena

open StateDiagram.Tree

variable {a b : Arena} {head : Nat} {H f : Tree} {pre us rest : List Tree}

theorem Spans.inner_lt {o m : Option Nat} {ts : List Tree} (h : Spans a o ts m) :
    ∀ j ∈ inner ts, j < a.size :=
  fun j hj => h.lt j (mem_slotsOf.2 (.inr hj))

/-- The copy of a part of a chain, cut off behind the last unit or joined to another place. -/
theorem Spans.copyRelinked {first : Nat} {t : Tree} {ts : List Tree} {o : Option Nat}
    (h : Spans a (some first) (t :: ts) o) (hn : ((t :: ts).map slot).Nodup) (o' : Option Nat) :
    ∃ b, Arena.copyChain first (lastSlot first ts) a =
        .ok (lastSlot a.size (renumber (a.size + 1) ts), b) ∧
      Keeps a b ∧ b.size = a.size + (ts.length + 1) ∧
      Spans (b.setNext (lastSlot a.size (renumber (a.size + 1) ts)) o') (some a.size)
        (renumber a.size (t :: ts)) o' := by
  obtain ⟨b, hrun, hkeeps, hsize, hspan⟩ := h.copyChain hn
  refine ⟨b, hrun, hkeeps, hsize, ?_⟩
  have hfresh := layered_renumber h.inner_lt
  have hnodup := nodup_renumber a.size (t :: ts)
  rw [renumber] at hspan hfresh hnodup ⊢
  have hrelinked := hspan.relink o' hnodup hfresh
  rwa [slot_put] at hrelinked

/-- A part of a chain goes on a copy below a new unit, and the chain goes on there. -/
theorem Spans.copyBelow (type : String) (value : Option Value)
    (h : Spans a (some f.slot) (f :: us ++ rest) none) :
    ∃ u b stop, a.fetch (lastSlot f.slot us) = .ok u ∧
      (a.alloc { word := type, next := u.next, value }).copyChain f.slot (lastSlot f.slot us) =
        .ok (stop, b) ∧
      Keeps a ((b.setSub a.size (some (a.size + 1))).setNext stop none) ∧
      ((b.setSub a.size (some (a.size + 1))).setNext stop none).size = a.size + (us.length + 2) ∧
      Spans ((b.setSub a.size (some (a.size + 1))).setNext stop none) (some a.size)
        (.node a.size type none value (renumber (a.size + 1) (f :: us)) :: rest) none := by
  have hnodup := h.nodup
  rw [List.map_append] at hnodup
  obtain ⟨m, hus, hrest⟩ := h.split
  obtain ⟨ts, t, hts, hlast⟩ := exists_concat f us
  obtain ⟨u, hu, hnext, -⟩ := (hts ▸ hus).last
  rw [← hlast] at hu
  let unit : Phrase := { word := type, next := u.next, value }
  have hkeep₁ : Keeps a (a.alloc unit) := keeps_alloc _ a
  have hsize₁ : (a.alloc unit).size = a.size + 1 := size_alloc _ a
  obtain ⟨b, hrun, hkeep₂, hsize₂, hspan⟩ :=
    (hus.keep hkeep₁).copyRelinked (List.nodup_append.1 hnodup).1 none
  rw [hsize₁] at hrun hsize₂ hspan
  let stop := lastSlot (a.size + 1) (renumber (a.size + 1 + 1) us)
  have hstop : a.size + 1 ≤ stop := le_lastSlot_renumber ..
  let c := (b.setSub a.size (some (a.size + 1))).setNext stop none
  have hkeep : Keeps a c :=
    ((hkeep₁.trans hkeep₂).modify (Nat.le_refl _) _).modify (by omega) _
  have hsize : c.size = a.size + (us.length + 2) := by
    simp [c, setNext, setSub, hsize₂]
    omega
  have hunit : c.get? a.size = some { unit with sub := some (a.size + 1) } := by
    have hnew : b.get? a.size = some unit := by
      rw [hkeep₂.same _ (by omega)]
      simp
    simp [c, setNext, setSub, get?_modify_ne _ (show a.size ≠ stop by omega), hnew]
  have hbelow : Spans c (some (a.size + 1)) (renumber (a.size + 1) (f :: us)) none := by
    refine hspan.congr fun i hi => ?_
    have hne : i ≠ a.size := fun heq => notMem_slotsOf_renumber hus.inner_lt (heq ▸ hi)
    simp only [c, setNext, setSub, get?_modify]
    by_cases hstopi : stop = i
    · rw [if_pos hstopi, if_neg hne.symm, if_pos hstopi]
    · rw [if_neg hstopi, if_neg hne.symm, if_neg hstopi]
  refine ⟨u, b, stop, fetch_of_get? hu, hrun, hkeep, hsize, .cons hunit hbelow ?_⟩
  rw [show unit.next = m from hnext]
  exact hrest.keep hkeep

/-- The last unit of the chain up to a part is found from the header. -/
theorem Spans.before (h : Spans a (some head) (H :: pre ++ f :: rest) none) :
    a.before head f.slot = .ok (lastSlot head pre) := by
  have hnodup := h.nodup
  rw [List.map_append, List.nodup_append] at hnodup
  have hle := h.length_le
  obtain ⟨m, hpre, hpart⟩ := h.split
  obtain rfl : m = some f.slot := hpart.start
  have hH : head = H.slot := Option.some.inj hpre.start
  obtain ⟨ts, t, hts, hlast⟩ := exists_concat H pre
  have hlen : ts.length < a.size := by
    rw [hts] at hle
    simp at hle
    omega
  rw [hts] at hpre hnodup
  rw [hH, hlast, ← hH]
  exact hpre.beforeFrom (fun hmem => hnodup.2.2 _ hmem f.slot (by simp) rfl) hlen

theorem Spans.reduceByCopy (type : String) (value : Option Value)
    (h : Spans a (some head) (H :: pre ++ (f :: us ++ rest)) none) :
    ∃ b, a.reduceByCopy type value head f.slot (lastSlot f.slot us) =
        .ok (a.size + (us.length + 2),
          lastSlot (a.size + (us.length + 2)) (renumber (a.size + (us.length + 2) + 1) pre), b) ∧
      Keeps a b ∧ Spans b (some (a.size + (us.length + 2)))
        (renumber (a.size + (us.length + 2)) (H :: pre) ++
          .node a.size type none value (renumber (a.size + 1) (f :: us)) :: rest) none := by
  have hnpre : ((H :: pre).map slot).Nodup := by
    have hnodup := h.nodup
    rw [List.map_append, List.nodup_append] at hnodup
    exact hnodup.1
  obtain ⟨m, hpre, hpart⟩ := h.split
  obtain rfl : m = some f.slot := hpart.start
  -- the reduced unit, then the copies of the part below it
  obtain ⟨u, a₂, stop, hu, hrun₂, hkeep₃, hsize₃, hspan₃⟩ := hpart.copyBelow type value
  let a₃ := (a₂.setSub a.size (some (a.size + 1))).setNext stop none
  have hbefore : a₃.before head f.slot = .ok (lastSlot head pre) := (h.keep hkeep₃).before
  -- the chain up to the part, copied and joined to the reduced unit
  obtain ⟨a₄, hrun₄, hkeep₄, -, hspan₄⟩ :=
    (hpre.keep hkeep₃).copyRelinked hnpre (some a.size)
  rw [hsize₃] at hrun₄ hspan₄
  let stop' := lastSlot (a.size + (us.length + 2)) (renumber (a.size + (us.length + 2) + 1) pre)
  have hstop' : a₃.size ≤ stop' := hsize₃ ▸ le_lastSlot_renumber ..
  have hkeep₅ : Keeps a₃ (a₄.setNext stop' (some a.size)) := hkeep₄.modify hstop' _
  refine ⟨a₄.setNext stop' (some a.size), ?_, hkeep₃.trans hkeep₅,
    hspan₄.append (hspan₃.keep hkeep₅)⟩
  simp only [a₃] at hbefore
  simp only [Arena.reduceByCopy, hu, hrun₂, size_alloc, hbefore, hrun₄, hsize₃, bind, Except.bind,
    pure, Except.pure, stop']

/-- The subphrase that a part of a chain becomes in place: its first unit moves to slot `k`. The
others are copied if somebody else may hold them. -/
def lowered (held : Bool) (k : Nat) (f : Tree) (us : List Tree) : List Tree :=
  f.put k :: if held then renumber (k + 1) us else us

theorem slots_lowered {held : Bool} {k i : Nat} {f : Tree} {us : List Tree}
    (h : i ∈ slotsOf (lowered held k f us)) :
    k ≤ i ∨ i ∈ inner (f :: us) ∨ held = false ∧ i ∈ us.map slot := by
  rw [lowered, slotsOf_cons, parts_put, slot_put, List.cons_append, List.mem_cons,
    List.mem_append] at h
  obtain rfl | h | h := h
  · exact .inl (Nat.le_refl _)
  · exact .inr (.inl (by simp [inner_cons, h]))
  · cases held with
    | false =>
      rw [if_neg Bool.false_ne_true, mem_slotsOf] at h
      obtain h | h := h
      · exact .inr (.inr ⟨rfl, h⟩)
      · exact .inr (.inl (by simp [inner_cons, h]))
    | true =>
      rw [if_pos rfl, mem_slotsOf, inner_renumber] at h
      obtain h | h := h
      · have := (fresh_renumber h).1
        exact .inl (by omega)
      · exact .inr (.inl (by simp [inner_cons, h]))

/-- The part behind the first unit, cut off behind its last unit. -/
theorem Spans.cutBehind {k : Nat} {g : Tree} {u : Phrase} {m : Option Nat} (held : Bool)
    (hk : a.get? k = some u) (hnext : u.next = some g.slot) (h : Spans a (some g.slot) (g :: us) m)
    (hn : ((g :: us).map slot).Nodup) (hl : Layered (g :: us))
    (hlt : ∀ i ∈ slotsOf (g :: us), i < k) (hend : k + 1 = a.size) :
    ∃ b, a.cutBehind held k (lastSlot g.slot us) = .ok b ∧ a.size ≤ b.size ∧
      (∀ i < k, held = true ∨ i ≠ lastSlot g.slot us → b.get? i = a.get? i) ∧
      b.get? k = some { u with next := some (if held then k + 1 else g.slot) } ∧
      Spans b (some (if held then k + 1 else g.slot))
        (if held then renumber (k + 1) (g :: us) else g :: us) none := by
  cases held with
  | false =>
    refine ⟨a.setNext (lastSlot g.slot us) none, rfl, by simp [setNext], fun i _ hi => ?_, ?_,
      h.relink none hn hl⟩
    · obtain hi | hi := hi
      · cases hi
      · exact get?_modify_ne _ hi
    · have hmem : lastSlot g.slot us ∈ slotsOf (g :: us) := by
        rw [mem_slotsOf]
        exact .inl (lastSlot_mem g.slot us)
      rw [setNext, get?_modify_ne _ (Nat.ne_of_gt (hlt _ hmem)), hk]
      simp [← hnext]
  | true =>
    obtain ⟨b, hrun, hkeep, hsize, hspan⟩ := h.copyRelinked hn none
    rw [← hend] at hrun hsize hspan
    let stop := lastSlot (k + 1) (renumber (k + 1 + 1) us)
    have hstop : k + 1 ≤ stop := le_lastSlot_renumber ..
    refine ⟨(b.setNext k (some (k + 1))).setNext stop none, ?_, by simp [setNext]; omega,
      fun i hi _ => ?_, ?_, ?_⟩
    · have hstep : a.nextOf k = .ok g.slot := nextOf_of_next hk hnext
      simp [Arena.cutBehind, hstep, hrun, ← hend, bind, Except.bind, pure, Except.pure, stop]
    · rw [setNext, get?_modify_ne _ (by omega), setNext, get?_modify_ne _ (by omega),
        hkeep.same i (by omega)]
    · rw [setNext, get?_modify_ne _ (by omega), setNext, get?_modify_self,
        hkeep.same k (by omega), hk]
      rfl
    · refine hspan.congr fun i hi => ?_
      have hne : i ≠ k := fun heq => notMem_slotsOf_renumber
        (fun j hj => hlt j (mem_slotsOf.2 (.inr hj))) (heq ▸ hi)
      by_cases hi' : i = stop
      · rw [hi'] at hne
        rw [hi']
        simp only [setNext, stop, get?_modify_self, get?_modify_ne _ hne]
      · simp only [setNext, get?_modify_ne _ hne, get?_modify_ne _ hi']
        rw [get?_modify_ne _ hi']

/-- The slots of a part of a chain hold nothing that is below its first unit, or that comes after
the part. -/
theorem Spans.notMem_part (h : Spans a (some f.slot) (f :: us ++ rest) none)
    (hl : Layered (f :: us ++ rest)) {i : Nat} (hi : i ∈ slotsOf f.parts ∨ i ∈ slotsOf rest) :
    i < a.size ∧ i ∉ (f :: us).map slot := by
  have hnodup := h.nodup
  rw [List.map_append, List.nodup_append] at hnodup
  have hbelow : i ∈ inner (f :: us ++ rest) → i ∉ (f :: us).map slot := fun hin hmem => by
    refine hl i ?_ hin
    rw [List.map_append]
    exact List.mem_append_left _ hmem
  obtain hi | hi := hi
  · have hin : i ∈ inner (f :: us ++ rest) := mem_inner_of_mem (List.mem_cons_self ..) hi
    exact ⟨h.inner_lt i hin, hbelow hin⟩
  · have hmem : i ∈ slotsOf (f :: us ++ rest) := by
      rw [slotsOf_append]
      exact List.mem_append_right _ hi
    refine ⟨h.lt i hmem, ?_⟩
    obtain hi | hi := mem_slotsOf.1 hi
    · exact fun hpart => hnodup.2.2 i hpart i hi rfl
    · refine hbelow ?_
      rw [inner_append]
      exact List.mem_append_right _ hi

/-- A unit in the slot of the first one of a part, over a chain that starts with the old contents
of that slot. -/
theorem Spans.lower {k : Nat} {u v : Phrase} {o : Option Nat} {type : String}
    {value : Option Value} {held : Bool} (h : Spans a (some f.slot) (f :: us ++ rest) none)
    (hl : Layered (f :: us ++ rest)) (hu : a.get? f.slot = some u)
    (hv : a.get? (lastSlot f.slot us) = some v)
    (hsame : ∀ i < a.size, i ∉ (f :: us).map slot → b.get? i = a.get? i)
    (hreduced : b.get? f.slot =
      some { word := type, next := v.next, sub := some k, value := value })
    (hdown : b.get? k = some { u with next := o })
    (hbehind : Spans b o (if held then renumber (k + 1) us else us) none) :
    Spans b (some f.slot) (.node f.slot type none value (lowered held k f us) :: rest) none := by
  have hkept : ∀ i, i ∈ slotsOf f.parts ∨ i ∈ slotsOf rest → b.get? i = a.get? i := fun i hi =>
    have ⟨hlt, hmem⟩ := h.notMem_part hl hi
    hsame i hlt hmem
  obtain ⟨m, hus, hrest⟩ := h.split
  obtain ⟨ts, t, hts, hlast⟩ := exists_concat f us
  obtain ⟨v', hv', hnext, -⟩ := (hts ▸ hus).last
  obtain rfl : v' = v := Option.some.inj (hv'.symm.trans (hlast ▸ hv))
  obtain ⟨u', -, hu', hf, hparts, -⟩ := hus.cons_inv
  obtain rfl : u' = u := Option.some.inj (hu'.symm.trans hu)
  refine .of_cons hreduced rfl (.of_cons hdown ?_ ?_ hbehind) ?_
  · conv_lhs => rw [hf, put]
    simp
  · rw [parts_put]
    exact hparts.congr fun i hi => hkept i (.inl hi)
  · rw [hnext]
    exact hrest.congr fun i hi => hkept i (.inr hi)

/-- The first unit of a part has gone to slot `k`, and what comes after the part is cut off. -/
theorem Spans.cutLowered {k : Nat} {u : Phrase} {m : Option Nat} (held : Bool)
    (hk : a.get? k = some u) (h : Spans a u.next us m) (hn : ((f :: us).map slot).Nodup)
    (hl : Layered us) (hlt : ∀ i ∈ slotsOf us, i < k) (hend : k + 1 = a.size) :
    ∃ b o, (if lastSlot f.slot us = f.slot then .ok (a.setNext k none)
        else a.cutBehind held k (lastSlot f.slot us)) = .ok b ∧ a.size ≤ b.size ∧
      (∀ i < k, i = f.slot ∨ held = true ∨ i ≠ lastSlot f.slot us → b.get? i = a.get? i) ∧
      b.get? k = some { u with next := o } ∧
      Spans b o (if held then renumber (k + 1) us else us) none := by
  cases us with
  | nil =>
    refine ⟨_, none, if_pos rfl, by simp [setNext], fun i hi _ => ?_, by simp [setNext, hk], ?_⟩
    · exact get?_modify_ne _ (Nat.ne_of_lt hi)
    · cases held <;> exact .nil none
  | cons g us =>
    rw [List.map_cons, List.nodup_cons] at hn
    have hne : lastSlot f.slot (g :: us) ≠ f.slot := fun heq => hn.1 (heq ▸ lastSlot_mem g.slot us)
    have hnext : u.next = some g.slot := h.start
    rw [hnext] at h
    obtain ⟨b, hrun, hsize, hsame, hdown, hspan⟩ := h.cutBehind held hk hnext hn.2 hl hlt hend
    refine ⟨b, _, (if_neg hne).trans hrun, hsize, fun i hi hor => hsame i hi ?_, hdown, hspan⟩
    exact hor.elim (fun heq => .inr (heq ▸ hne.symm)) id

theorem Spans.reduceInPlace (type : String) (value : Option Value) (held : Bool)
    (h : Spans a (some f.slot) (f :: us ++ rest) none) (hl : Layered (f :: us ++ rest)) :
    ∃ b, a.reduceInPlace type value held f.slot (lastSlot f.slot us) = .ok b ∧ a.size ≤ b.size ∧
      (∀ i < a.size, i ≠ f.slot → held = true ∨ i ≠ lastSlot f.slot us → b.get? i = a.get? i) ∧
      Spans b (some f.slot) (.node f.slot type none value (lowered held a.size f us) :: rest)
        none := by
  have hnodup := h.nodup
  rw [List.map_append, List.nodup_append] at hnodup
  obtain ⟨m, hus, -⟩ := h.split
  obtain ⟨ts, t, hts, hlast⟩ := exists_concat f us
  obtain ⟨v, hv, -⟩ := (hts ▸ hus).last
  rw [← hlast] at hv
  obtain ⟨u, -, hu, -, -, htail⟩ := hus.cons_inv
  have hfsize := lt_of_get? hu
  -- the first unit's contents go to the first free slot and the reduced unit takes its place
  let reduced : Phrase := { word := type, next := v.next, sub := some a.size, value := value }
  let a₂ := (a.alloc u).modify f.slot fun _ => reduced
  have hsize₂ : a.size + 1 = a₂.size := by simp [a₂]
  have hold : ∀ i < a.size, i ≠ f.slot → a₂.get? i = a.get? i := fun i hi hne => by
    simp [a₂, get?_modify_ne _ hne, Nat.ne_of_lt hi]
  have hfirst : a₂.get? f.slot = some reduced := by
    simp [a₂, Nat.ne_of_lt hfsize, hu]
  have hdown : a₂.get? a.size = some u := by
    simp [a₂, get?_modify_ne _ (Nat.ne_of_gt hfsize)]
  have hstart : a.reduceInPlace type value held f.slot (lastSlot f.slot us) =
      if lastSlot f.slot us = f.slot then .ok (a₂.setNext a.size none)
      else a₂.cutBehind held a.size (lastSlot f.slot us) := by
    simp only [Arena.reduceInPlace, fetch_of_get? hv, Arena.duplicate, fetch_of_get? hu, bind,
      Except.bind, pure, Except.pure, a₂, reduced]
  have htail₂ : Spans a₂ u.next us m := htail.congr fun i hi => by
    refine hold i (htail.lt i hi) fun heq => h.slot_notMem.2 ?_
    rw [← heq]
    exact slotsOf_append us rest ▸ List.mem_append_left _ hi
  have hlus : Layered us := hl.sublist ((List.sublist_append_left us rest).cons f)
  obtain ⟨b, o, hrun, hsize, hsame, hmoved, hbehind⟩ :=
    htail₂.cutLowered held hdown hnodup.1 hlus (fun i hi => htail.lt i hi) hsize₂
  refine ⟨b, hstart.trans hrun, by omega, fun i hi hne hor => ?_, ?_⟩
  · rw [hsame i hi (.inr hor), hold i hi hne]
  · refine h.lower hl hu hv (fun i hi hmem => ?_) ?_ hmoved hbehind
    · have hne : i ≠ f.slot := fun heq => hmem (heq ▸ List.mem_cons_self ..)
      have hlast : i ≠ lastSlot f.slot us := fun heq => hmem (heq ▸ lastSlot_mem f.slot us)
      rw [hsame i hi (.inr (.inr hlast)), hold i hi hne]
    · rw [hsame _ hfsize (.inl rfl), hfirst]

end Arena

end StateDiagram
