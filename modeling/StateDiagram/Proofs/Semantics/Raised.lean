import StateDiagram.Semantics.Basic
import Mathlib.Data.List.Nodup
import Mathlib.Data.String.Basic

/-! What raising makes of the features. The order in which the entries of a map are visited is of
account only where raising gives up half-way: at the first entry whose feature has another value,
and then those visited before it have been raised. -/
namespace StateDiagram

namespace Features

/-- Entries put in, one after the other. -/
def insertAll (entries : List (String × Value)) (fs : Features) : Features :=
  entries.foldl (fun fs e => fs.insert e.1 e.2) fs

/-- A feature of this name is there and has another value. -/
def conflicts (fs : Features) (e : String × Value) : Bool :=
  (fs.get? e.1).any fun w => !w.same e.2

theorem insert_before {j k : String} (h : j < k) (v w : Value) (fs : Features) :
    insert j v ((k, w) :: fs) = (j, v) :: (k, w) :: fs := by
  rw [insert, if_neg h.ne', if_pos h]

theorem insert_behind {j k : String} (h : k < j) (v w : Value) (fs : Features) :
    insert j v ((k, w) :: fs) = (k, w) :: fs.insert j v := by
  rw [insert, if_neg h.ne, if_neg h.not_gt]

theorem insert_same (k : String) (v w : Value) (fs : Features) :
    insert k v ((k, w) :: fs) = (k, v) :: fs := by
  rw [insert, if_pos rfl]

theorem insert_comm_of_lt {j k : String} (h : j < k) (v w : Value) (fs : Features) :
    (fs.insert j v).insert k w = (fs.insert k w).insert j v := by
  induction fs with
  | nil =>
    rw [insert, insert, insert_behind h, insert_before h]
    rfl
  | cons f fs ih =>
    obtain ⟨n, u⟩ := f
    obtain hj | rfl | hj := lt_trichotomy j n
    · rw [insert_before hj, insert_behind h]
      obtain hk | rfl | hk := lt_trichotomy k n
      · rw [insert_before hk, insert_before h]
      · rw [insert_same, insert_before h]
      · rw [insert_behind hk, insert_before hj]
    · rw [insert_same, insert_behind h, insert_behind h, insert_same]
    · rw [insert_behind hj, insert_behind (hj.trans h), insert_behind (hj.trans h),
        insert_behind hj, ih]

theorem insert_comm {j k : String} (h : j ≠ k) (v w : Value) (fs : Features) :
    (fs.insert j v).insert k w = (fs.insert k w).insert j v :=
  h.lt_or_gt.elim (insert_comm_of_lt · v w fs) fun h => (insert_comm_of_lt h w v fs).symm

/-- Entries with names of their own may be put in in any order. -/
theorem insertAll_perm {es es' : List (String × Value)} (h : es.Perm es')
    (hn : (es.map (·.1)).Nodup) (fs : Features) : fs.insertAll es = fs.insertAll es' := by
  refine h.foldl_eq' (fun x hx y hy fs => ?_) fs
  by_cases hxy : x = y
  · rw [hxy]
  · exact insert_comm (fun heq => hxy (List.inj_on_of_nodup_map hn hx hy heq)) _ _ fs

theorem name_ne_of_nodup {e : String × Value} {es : List (String × Value)}
    (h : ((e :: es).map (·.1)).Nodup) : ∀ f ∈ es, f.1 ≠ e.1 := fun f hf heq =>
  (List.nodup_cons.1 h).1 (List.mem_map.2 ⟨f, hf, heq⟩)

theorem conflicts_insert {e f : String × Value} (h : f.1 ≠ e.1) (fs : Features) :
    (fs.insert e.1 e.2).conflicts f = fs.conflicts f := by
  rw [conflicts, conflicts, get?_insert_of_ne h]

theorem get?_insertAll_of_ne {es : List (String × Value)} {name : String}
    (h : ∀ e ∈ es, name ≠ e.1) (fs : Features) : (fs.insertAll es).get? name = fs.get? name := by
  induction es generalizing fs with
  | nil => rfl
  | cons e es ih =>
    obtain ⟨he, hes⟩ := List.forall_mem_cons.1 h
    exact (ih hes _).trans (get?_insert_of_ne he e.2 fs)

/-- Entries that do not conflict change no feature that is there. -/
theorem get?_insertAll_of_free {es : List (String × Value)} {fs : Features}
    (hn : (es.map (·.1)).Nodup) (h : ∀ e ∈ es, fs.conflicts e = false) {name : String} {w : Value}
    (hw : fs.get? name = some w) :
    ∃ v, (fs.insertAll es).get? name = some v ∧ (v = w ∨ w.same v = true) := by
  induction es generalizing fs with
  | nil => exact ⟨w, hw, .inl rfl⟩
  | cons e es ih =>
    obtain ⟨he, hes⟩ := List.forall_mem_cons.1 h
    have hne := name_ne_of_nodup hn
    by_cases hname : name = e.1
    · refine ⟨e.2, ?_, .inr ?_⟩
      · rw [hname]
        exact (get?_insertAll_of_ne (fun f hf => (hne f hf).symm) _).trans (get?_insert_self ..)
      · rw [conflicts, ← hname, hw] at he
        simpa using he
    · exact ih (List.nodup_cons.1 hn).2
        (fun f hf => (conflicts_insert (hne f hf) fs).trans (hes f hf))
        ((get?_insert_of_ne hname e.2 fs).trans hw)

end Features

namespace Context

open Features

theorem raiseEntries_cons (e : String × Value) (es : List (String × Value)) (fs : Features) :
    raiseEntries (e :: es) fs =
      if fs.conflicts e then (.noAdvance, fs) else raiseEntries es (fs.insert e.1 e.2) := by
  obtain ⟨k, v⟩ := e
  rw [raiseEntries, conflicts]
  split
  · rename_i w hw
    cases hsame : w.same v <;> simp [hw, hsame]
  · rename_i hnone
    simp [hnone]

/-- Entries without a conflict are raised, and then come those behind them. -/
theorem raiseEntries_append {es : List (String × Value)} {fs : Features}
    (hn : (es.map (·.1)).Nodup) (h : ∀ e ∈ es, fs.conflicts e = false)
    (rest : List (String × Value)) :
    raiseEntries (es ++ rest) fs = raiseEntries rest (fs.insertAll es) := by
  induction es generalizing fs with
  | nil => rfl
  | cons e es ih =>
    obtain ⟨he, hes⟩ := List.forall_mem_cons.1 h
    have hne := name_ne_of_nodup hn
    rw [List.cons_append, raiseEntries_cons, he, if_neg Bool.false_ne_true,
      ih (List.nodup_cons.1 hn).2 fun f hf => (conflicts_insert (hne f hf) fs).trans (hes f hf)]
    rfl

/-- Where there is no conflict all entries are raised. -/
theorem raiseEntries_of_free {es : List (String × Value)} {fs : Features}
    (hn : (es.map (·.1)).Nodup) (h : ∀ e ∈ es, fs.conflicts e = false) :
    raiseEntries es fs = (.succeed, fs.insertAll es) := by
  simpa [raiseEntries] using raiseEntries_append hn h []

/-- The first conflict ends it. -/
theorem raiseEntries_of_conflict {before after : List (String × Value)} {e : String × Value}
    {fs : Features} (hn : ((before ++ e :: after).map (·.1)).Nodup)
    (h : ∀ f ∈ before, fs.conflicts f = false) (he : fs.conflicts e = true) :
    raiseEntries (before ++ e :: after) fs = (.noAdvance, fs.insertAll before) := by
  rw [List.map_append] at hn
  obtain ⟨hbefore, -, hapart⟩ := List.nodup_append.1 hn
  have hne : ∀ f ∈ before, e.1 ≠ f.1 := fun f hf heq =>
    hapart f.1 (List.mem_map_of_mem hf) e.1 (by simp) heq.symm
  rw [raiseEntries_append hbefore h, raiseEntries_cons, conflicts, get?_insertAll_of_ne hne,
    ← conflicts, he, if_pos rfl]

/-- Either nothing conflicts and all is raised, or what comes before the first conflict is. -/
theorem raiseEntries_cases {es : List (String × Value)} (fs : Features)
    (hn : (es.map (·.1)).Nodup) :
    ((∀ e ∈ es, fs.conflicts e = false) ∧ raiseEntries es fs = (.succeed, fs.insertAll es)) ∨
      ∃ before e after, es = before ++ e :: after ∧ (∀ f ∈ before, fs.conflicts f = false) ∧
        fs.conflicts e = true ∧ raiseEntries es fs = (.noAdvance, fs.insertAll before) := by
  cases hfind : es.find? fs.conflicts with
  | none =>
    have hfree : ∀ e ∈ es, fs.conflicts e = false := by simpa using hfind
    exact .inl ⟨hfree, raiseEntries_of_free hn hfree⟩
  | some e =>
    obtain ⟨he, before, after, rfl, hbefore⟩ := List.find?_eq_some_iff_append.1 hfind
    have hbefore : ∀ f ∈ before, fs.conflicts f = false := by simpa using hbefore
    exact .inr ⟨before, e, after, rfl, hbefore, he, raiseEntries_of_conflict hn hbefore he⟩

theorem raiseEntries_ne_quit (es : List (String × Value)) (fs : Features) :
    (raiseEntries es fs).1 ≠ .quit := by
  induction es generalizing fs with
  | nil => exact Signal.noConfusion
  | cons e es ih =>
    rw [raiseEntries_cons]
    split
    · exact Signal.noConfusion
    · exact ih _

/-- What raising with checks comes to if the entries are visited in this order. -/
structure Checked (c : Context) (order : List (String × Value)) (r : Signal × Features) : Prop where
  succeeds : r.1 = .succeed ↔ ∀ e ∈ order, c.features.conflicts e = false
  refuses : r.1 = .noAdvance ↔ ∃ e ∈ order, c.features.conflicts e = true
  raised : r.1 = .succeed → r.2 = c.raise.features
  /-- What was visited before the first conflict has been raised. -/
  stopped : r.1 = .noAdvance → ∃ before e after, order = before ++ e :: after ∧
    (∀ f ∈ before, c.features.conflicts f = false) ∧ c.features.conflicts e = true ∧
    r.2 = c.features.insertAll before
  /-- No feature that was there is changed. -/
  kept : ∀ name w, c.features.get? name = some w →
    ∃ v, r.2.get? name = some v ∧ (v = w ∨ w.same v = true)

theorem checked_raiseEntries {c : Context} {entries order : List (String × Value)}
    (hvalue : c.value? = some (.map entries)) (hn : (entries.map (·.1)).Nodup)
    (horder : order.Perm entries) : c.Checked order (raiseEntries order c.features) := by
  have hn' : (order.map (·.1)).Nodup := (horder.map _).nodup_iff.2 hn
  have hraise : c.raise.features = c.features.insertAll order := by
    rw [insertAll_perm horder hn', raise, hvalue]
    rfl
  obtain ⟨hfree, hr⟩ | ⟨before, e, after, heq, hbefore, he, hr⟩ := raiseEntries_cases c.features hn'
  · rw [hr]
    exact {
      succeeds := by simpa using hfree
      refuses := by simpa using hfree
      raised := fun _ => hraise.symm
      stopped := fun h => by cases h
      kept := fun _ _ => get?_insertAll_of_free hn' hfree }
  · have hmem : e ∈ order := by simp [heq]
    have hbefore' : (before.map (·.1)).Nodup := by
      rw [heq, List.map_append] at hn'
      exact (List.nodup_append.1 hn').1
    rw [hr]
    exact {
      succeeds := ⟨fun h => (by cases h), fun h => by simp [h e hmem] at he⟩
      refuses := ⟨fun _ => ⟨e, hmem, he⟩, fun _ => rfl⟩
      raised := fun h => by cases h
      stopped := fun _ => ⟨before, e, after, heq, hbefore, he, rfl⟩
      kept := fun _ _ => get?_insertAll_of_free hbefore' hbefore }

/-- Raising with checks gives up exactly if the value is no map, and then leaves all as it was. A
map whose names differ may be visited in any order: it is refused exactly if a feature has another
value, what was visited before such a feature being raised, and else all is as if it were raised
without checks. -/
theorem raiseChecking_exact (c : Context) :
    (c.raiseChecking.1 = .quit ↔ ∀ entries, c.value? ≠ some (.map entries)) ∧
      (c.raiseChecking.1 = .quit → c.raiseChecking.2 = c) ∧
      ∀ entries, c.value? = some (.map entries) → (entries.map (·.1)).Nodup →
        c.raiseChecking = ((raiseEntries entries c.features).1,
          { c with features := (raiseEntries entries c.features).2 }) ∧
        ∀ order, order.Perm entries → c.Checked order (raiseEntries order c.features) := by
  by_cases h : ∃ entries, c.value? = some (.map entries)
  · obtain ⟨entries, hvalue⟩ := h
    have hraise : c.raiseChecking = ((raiseEntries entries c.features).1,
        { c with features := (raiseEntries entries c.features).2 }) := by
      rw [raiseChecking, hvalue]
    have hquit : c.raiseChecking.1 ≠ .quit := by
      rw [hraise]
      exact raiseEntries_ne_quit entries c.features
    refine ⟨⟨fun h => absurd h hquit, fun h => absurd hvalue (h entries)⟩,
      fun h => absurd h hquit, fun es hes hn => ?_⟩
    obtain rfl : es = entries := by simpa [hvalue] using hes.symm
    exact ⟨hraise, fun order horder => checked_raiseEntries hvalue hn horder⟩
  · have hnone : ∀ entries, c.value? ≠ some (.map entries) := by simpa using h
    have hraise : c.raiseChecking = (.quit, c) := by
      unfold raiseChecking
      split
      · rename_i entries hvalue
        exact absurd hvalue (hnone entries)
      · rfl
    exact ⟨⟨fun _ => hnone, fun _ => by rw [hraise]⟩, fun _ => by rw [hraise],
      fun entries hvalue _ => absurd hvalue (hnone entries)⟩

/-- A map of which one entry agrees with a feature and two others are new, in either order. -/
theorem raiseChecking_exact_three :
    let entries := [("case", .string "dative"), ("number", .string "plural"), ("person", .int 3)]
    let c : Context := ⟨{}, ⟨#[{ word := "NP", value := some (.map entries) }]⟩, 0,
      [("number", .string "plural")]⟩
    c.value? = some (.map entries) ∧ (entries.map (·.1)).Nodup ∧ entries.reverse.Perm entries ∧
      c.raiseChecking.2.features = entries ∧
      c.Checked entries.reverse (raiseEntries entries.reverse c.features) := by
  intro entries c
  have hn : (entries.map (·.1)).Nodup := by decide
  have hperm := entries.reverse_perm
  exact ⟨rfl, hn, hperm, rfl, ((raiseChecking_exact c).2.2 entries rfl hn).2 _ hperm⟩

/-- The first entry is raised although the second one conflicts. -/
theorem raiseChecking_partial :
    let entries := [("case", .string "dative"), ("number", .string "plural")]
    let c : Context := ⟨{}, ⟨#[{ word := "NP", value := some (.map entries) }]⟩, 0,
      [("number", .string "singular")]⟩
    c.value? = some (.map entries) ∧ c.raiseChecking.1 = .noAdvance ∧
      c.features.get? "case" = none ∧
      c.raiseChecking.2.features.get? "case" = some (.string "dative") ∧
      c.raiseChecking.2.features ≠ c.features := by
  intro entries c
  refine ⟨rfl, by decide, rfl, rfl, fun h => ?_⟩
  have hget := congrArg (Features.get? "case") h
  cases hget

end Context

end StateDiagram
