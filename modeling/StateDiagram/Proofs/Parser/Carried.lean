import StateDiagram.Proofs.Parser.Standing
import Mathlib.Data.List.TakeWhile

/-! What the moves of the active state make of the saved states. A unit that is matched gets
another node, and a phrase that is collapsed takes the place of its parts, in every chain that
still has them ahead. Nothing else changes. -/
namespace StateDiagram

open StateDiagram.Tree Arena

/-- The unit as it is when it is matched to no node. -/
def Phrase.unmarked (u : Phrase) : Phrase :=
  { u with node := none }

/-- The slot in which the innermost open phrase begins. -/
def Post.first? (e : Post) : Option Nat :=
  e.place.opened.head?.bind fun o => o.getLast?.map slot

/-- The arena `a` becomes `b`, where the unit `t` stands in the place of the part `f :: us` of a
chain that goes on with `rest`. Of the old slots only that of `f` changes, and what was below the
part is below `t`, whose own subphrase is new. -/
structure Collapsed (a b : Arena) (f : Tree) (us rest : List Tree) (t : Tree) : Prop where
  slot : t.slot = f.slot
  before : a.Spans (some f.slot) (f :: us ++ rest) none
  after : b.Spans (some f.slot) (t :: rest) none
  size : a.size ≤ b.size
  same : ∀ j < a.size, j ≠ f.slot → b.get? j = a.get? j
  down : t.parts.head?.map Tree.slot = some a.size
  below : ∀ i ∈ inner (f :: us), i ∈ slotsOf t.parts

/-- What becomes of the units ahead of a saved state `f` by a move of the active state `e` to the
place `x`, if `f` becomes `g`: if the move completes a phrase that was parsed in a single way, and
`f` has that phrase ahead, they go on as those of `x` do. The choices of `f` were made for another
unit if the phrase comes next. -/
inductive Regrouped {σ : Type} (p : Parser σ) (e : Post) (x : Place Tree) (f g : Post) : Prop where
  | same : g.place.view.ahead = f.place.view.ahead → g.subAhead = f.subAhead → Regrouped p e x f g
  | collapsed {o pre : List Form} {os : List (List Form)} {i : Nat} {type : String}
    {v : Option Value} : p.config.saveUnique = true → e.state.unique = true →
      e.place.view.opened = o :: os → e.first? = some i → i ∈ f.awaited →
        x.view.ahead = .unit type none v o.reverse :: e.place.view.ahead →
          f.place.view.ahead = pre ++ (o.reverse.map Form.clear ++ e.place.view.ahead) →
            g.place.view.ahead = pre ++ x.view.ahead → (pre = [] → ¬g.Settled) →
              (pre ≠ [] → g.subAhead = f.subAhead) → Regrouped p e x f g

/-- What a move of the active state `e` to the place `x` makes of the saved state `f`, if the arena
`a` becomes `b`. -/
structure Carried {σ : Type} (p : Parser σ) (e : Post) (a b : Arena) (x : Place Tree) (f g : Post) :
    Prop where
  state : g.state = f.state
  opened : g.place.opened = f.place.opened
  ahead : Regrouped p e x f g
  awaited : ∀ i ∈ g.awaited, i ∈ f.awaited
  below : ∀ i ∈ inner g.units, i ∈ inner f.units ∨ i ∈ inner x.spine ++ inner x.ahead
  heldSame : ∀ i ∈ f.held, b.get? i = a.get? i
  innerSame : ∀ i ∈ inner f.units, b.get? i = a.get? i ∧ i ∈ inner g.units
  aheadSame : p.config.saveUnique = false → g.awaited = f.awaited ∧
    ∀ i ∈ f.awaited, (b.get? i).map Phrase.unmarked = (a.get? i).map Phrase.unmarked
  lays : g.Lays b
  proper : p.Proper g.place.view
  waiting : Waiting p b g

namespace Post

variable {a b : Arena} {e : Post} {i n : Nat}

@[simp] theorem state_remark : (e.remark i n).state = e.state := rfl

@[simp] theorem opened_remark : (e.remark i n).place.opened = e.place.opened := rfl

@[simp] theorem awaited_remark : (e.remark i n).awaited = e.awaited := by
  simp [awaited, remark, Function.comp_def]

@[simp] theorem inner_units_remark : inner (e.remark i n).units = inner e.units := by
  rw [inner_units, inner_units]
  simp [remark, Place.spine]

@[simp] theorem view_remark : (e.remark i n).place.view = e.place.view := by
  simp [remark, Place.view, Function.comp_def]

@[simp] theorem subAhead_remark : (e.remark i n).subAhead = e.subAhead := by
  unfold subAhead remark
  cases e.place.ahead <;> simp

@[simp] theorem settled_remark : (e.remark i n).Settled ↔ e.Settled := by
  rw [Settled, Settled, subAhead_remark]
  simp [remark]

theorem Lays.remark (h : e.Lays a) (hheld : i ∉ e.held) (hin : i ∉ inner e.units) :
    (e.remark i n).Lays (a.setNode i (some n)) := by
  refine ⟨?_, h.current, h.nested⟩
  have hspans := h.spans.setNode n hin
  have hfix : (header e.state.head :: e.place.spine).map (Tree.remark i n) =
      header e.state.head :: e.place.spine := map_remark_of_notMem n (by simpa [held] using hheld)
  have hunits : e.units.map (Tree.remark i n) = (e.remark i n).units := by
    calc
      e.units.map (Tree.remark i n) = ((header e.state.head :: e.place.spine) ++
          e.place.ahead).map (Tree.remark i n) := rfl
      _ = (header e.state.head :: e.place.spine) ++ e.place.ahead.map (Tree.remark i n) := by
          rw [List.map_append, hfix]
      _ = (e.remark i n).units := rfl
  rwa [hunits] at hspans

variable {f t : Tree} {us rest : List Tree}

@[simp] theorem state_collapse : (e.collapse t rest).state = e.state := by
  unfold collapse
  split <;> rfl

@[simp] theorem opened_collapse : (e.collapse t rest).place.opened = e.place.opened := by
  unfold collapse
  split <;> rfl

theorem collapse_of_notMem (h : t.slot ∉ e.awaited) : e.collapse t rest = e :=
  if_neg h

/-- A chain that comes to the first unit of a part runs through the part and on with the rest. -/
theorem Lays.ahead_eq (h : e.Lays a) (hspan : a.Spans (some f.slot) (f :: us ++ rest) none)
    (hmem : f.slot ∈ e.awaited) : e.place.ahead =
      e.place.ahead.takeWhile (fun u => u.slot ≠ f.slot) ++ (f :: us ++ rest) := by
  obtain ⟨-, hahead⟩ := h.split
  have htake := (List.takeWhile_append_dropWhile (p := fun u : Tree => decide (u.slot ≠ f.slot))
    (l := e.place.ahead)).symm
  cases hd : e.place.ahead.dropWhile fun u => u.slot ≠ f.slot with
  | nil =>
    obtain ⟨u, hu, hslot⟩ := List.mem_map.1 hmem
    have hall :=
      (List.dropWhile_eq_nil_iff (p := fun u : Tree => decide (u.slot ≠ f.slot))).1 hd u hu
    simp [hslot] at hall
  | cons v vs =>
    have hv : v.slot = f.slot := by
      have := List.head?_dropWhile_not (fun u : Tree => decide (u.slot ≠ f.slot)) e.place.ahead
      rw [hd] at this
      simpa using this
    rw [hd] at htake
    rw [htake] at hahead
    obtain ⟨m, -, hvs⟩ := hahead.split
    have hm : m = some f.slot := hv ▸ hvs.start
    rw [hm] at hvs
    rw [← hvs.unique hspan]
    exact htake

theorem ahead_collapse (ht : t.slot = f.slot) (hmem : f.slot ∈ e.awaited) :
    (e.collapse t rest).place.ahead =
      e.place.ahead.takeWhile (fun u => u.slot ≠ f.slot) ++ t :: rest := by
  unfold collapse
  rw [if_pos (ht ▸ hmem), ht]

theorem Lays.ahead_collapsed (h : e.Lays a) (hc : Collapsed a b f us rest t)
    (hmem : f.slot ∈ e.awaited) : ∃ pre : List Tree, e.place.ahead = pre ++ (f :: us ++ rest) ∧
      (e.collapse t rest).place.ahead = pre ++ t :: rest :=
  ⟨_, h.ahead_eq hc.before hmem, ahead_collapse hc.slot hmem⟩

theorem Lays.awaited_collapse_subset (h : e.Lays a) (hc : Collapsed a b f us rest t) :
    ∀ j ∈ (e.collapse t rest).awaited, j ∈ e.awaited := by
  intro j hj
  by_cases hmem : f.slot ∈ e.awaited
  · obtain ⟨pre, hbefore, hafter⟩ := h.ahead_collapsed hc hmem
    rw [awaited, hafter, List.map_append, List.map_cons, List.mem_append, List.mem_cons,
      hc.slot] at hj
    rw [awaited, hbefore]
    simp only [List.map_append, List.map_cons, List.mem_append, List.mem_cons, List.cons_append]
    tauto
  · rwa [collapse_of_notMem (hc.slot ▸ hmem)] at hj

theorem Lays.inner_collapse_subset (h : e.Lays a) (hc : Collapsed a b f us rest t) :
    ∀ j ∈ inner (e.collapse t rest).units, j ∈ inner e.units ∨ j ∈ slotsOf t.parts := by
  intro j hj
  by_cases hmem : f.slot ∈ e.awaited
  · obtain ⟨pre, hbefore, hafter⟩ := h.ahead_collapsed hc hmem
    rw [inner_units, hafter, inner_append, inner_cons, Place.spine, opened_collapse] at hj
    rw [inner_units, hbefore]
    simp only [inner_append, inner_cons, List.mem_append, List.cons_append, Place.spine] at hj ⊢
    tauto
  · rw [collapse_of_notMem (hc.slot ▸ hmem)] at hj
    exact .inl hj

theorem Lays.subset_inner_collapse (h : e.Lays a) (hc : Collapsed a b f us rest t) :
    ∀ j ∈ inner e.units, j ∈ inner (e.collapse t rest).units := by
  intro j hj
  by_cases hmem : f.slot ∈ e.awaited
  · obtain ⟨pre, hbefore, hafter⟩ := h.ahead_collapsed hc hmem
    rw [inner_units, hbefore, inner_append, inner_append, List.mem_append, List.mem_append,
      List.mem_append] at hj
    rw [inner_units, hafter, inner_append, inner_cons, Place.spine, opened_collapse,
      List.mem_append, List.mem_append, List.mem_append]
    exact hj.imp_right fun hj => hj.imp_right fun hj => hj.imp_left (hc.below j)
  · rwa [collapse_of_notMem (hc.slot ▸ hmem)]

/-- The collapsed unit is new, so no state has been saved before it. -/
theorem not_settled_collapse (hc : Collapsed a b f us rest t)
    (hsub : ∀ j, e.state.nextSub = some j → j < a.size)
    (hahead : (e.collapse t rest).place.ahead = t :: rest) : ¬(e.collapse t rest).Settled := by
  intro hset
  obtain hset | hset := hset
  · simp [hahead] at hset
  · rw [subAhead, hahead] at hset
    simp only [List.head?_cons, Option.bind_some, hc.down, state_collapse] at hset
    exact absurd (hsub _ hset) (Nat.lt_irrefl _)

/-- The arena changes in the slot of the collapsed unit alone, as far as old slots go. -/
theorem Lays.collapse (h : e.Lays a) (hc : Collapsed a b f us rest t) (hheld : f.slot ∉ e.held)
    (hin : f.slot ∉ inner e.units) : (e.collapse t rest).Lays b := by
  refine ⟨?_, by simpa [Place.spine] using h.current, by simpa using h.nested⟩
  by_cases hmem : f.slot ∈ e.awaited
  · obtain ⟨pre, hbefore, hafter⟩ := h.ahead_collapsed hc hmem
    let front := e.place.spine ++ pre
    have hunits : e.units = (header e.state.head :: front) ++ (f :: us ++ rest) := by
      simp [units, hbefore, front]
    have hunits' : (e.collapse t rest).units = (header e.state.head :: front) ++ t :: rest := by
      rw [units, hafter, state_collapse, Place.spine, opened_collapse]
      simp [front, Place.spine]
    have hspans := h.spans
    have hnodup := hspans.nodup
    rw [hunits] at hspans hnodup hin
    rw [hunits', state_collapse]
    refine hspans.splice hc.before.start hc.after fun j hj => hc.same j ?_ ?_
    · exact hspans.lt j (by rw [slotsOf_append]; exact List.mem_append_left _ hj)
    · rintro rfl
      obtain hj | hj := mem_slotsOf.1 hj
      · rw [List.map_append, List.nodup_append] at hnodup
        exact hnodup.2.2 f.slot hj f.slot (by simp) rfl
      · rw [inner_append, List.mem_append, not_or] at hin
        exact hin.1 hj
  · rw [collapse_of_notMem (hc.slot ▸ hmem)]
    refine h.spans.congr fun j hj => hc.same j (h.spans.lt j hj) ?_
    rintro rfl
    rw [mem_slotsOf, map_slot_units, List.mem_append] at hj
    obtain (hj | hj) | hj := hj
    · exact hheld hj
    · exact hmem hj
    · exact hin hj

end Post

variable {σ : Type} {p : Parser σ} {a b : Arena} {e e₀ e' : Post} {x : Place Tree}
  {saved : List Post}

theorem Carried.keep (h : e.Lays a) (hproper : p.Proper e.place.view) (hwaiting : Waiting p a e)
    (hk : Keeps a b) : Carried p e₀ a b x e e where
  state := rfl
  opened := rfl
  ahead := .same rfl rfl
  awaited _ hi := hi
  below _ hi := .inl hi
  heldSame i hi := hk.same i (h.lt (List.mem_append_left _ hi))
  innerSame i hi := ⟨hk.same i (h.inner_lt hi), hi⟩
  aheadSame _ := ⟨rfl, fun i hi => by rw [hk.same i (h.lt (List.mem_append_right _ hi))]⟩
  lays := h.keep hk
  proper := hproper
  waiting := ⟨hwaiting.unique, hwaiting.choices, fun j hj =>
    Nat.lt_of_lt_of_le (hwaiting.nextSub j hj) hk.size⟩

theorem Carried.remark {i n : Nat} (h : e.Lays a) (hproper : p.Proper e.place.view)
    (hwaiting : Waiting p a e) (hheld : i ∉ e.held) (hin : i ∉ inner e.units) :
    Carried p e₀ a (a.setNode i (some n)) x e (e.remark i n) where
  state := rfl
  opened := rfl
  ahead := .same (by rw [Post.view_remark]) Post.subAhead_remark
  awaited j hj := by simpa using hj
  below j hj := by simpa using Or.inl hj
  heldSame j hj := get?_modify_ne _ fun hji => hheld (hji ▸ hj)
  innerSame j hj := ⟨get?_modify_ne _ fun hji => hin (hji ▸ hj), by simpa using hj⟩
  aheadSame _ := by
    refine ⟨Post.awaited_remark, fun j _ => ?_⟩
    rw [Arena.setNode, get?_modify]
    split
    · rw [Option.map_map]
      rfl
    · rfl
  lays := h.remark hheld hin
  proper := by rwa [Post.view_remark]
  waiting := by
    refine ⟨hwaiting.unique, ?_, fun j hj => ?_⟩
    · obtain ⟨cs, hcs, hlegal⟩ := hwaiting.choices
      refine ⟨cs, hcs, fun c hc hset => ?_⟩
      rw [Post.view_remark]
      exact hlegal c hc (hset.imp_right Post.settled_remark.1)
    · simpa [Arena.setNode] using hwaiting.nextSub j hj

section Collapse

variable {f t : Tree} {us rest : List Tree} {o : List Form} {os : List (List Form)}
  {ws : List String} {type : String} {v : Option Value}

/-- The choices of a saved state stay legal if the collapsed unit does not come next for it; only
dummy moves are left to it otherwise. -/
theorem Waiting.collapse (h : Waiting p a e) (hlays : e.Lays a)
    (hc : Collapsed a b f us rest t) : Waiting p b (e.collapse t rest) := by
  have hstate : (e.collapse t rest).state = e.state := Post.state_collapse
  refine ⟨hstate ▸ h.unique, ?_, fun j hj =>
    Nat.lt_of_lt_of_le (h.nextSub j (hstate ▸ hj)) hc.size⟩
  obtain ⟨cs, hcs, hlegal⟩ := h.choices
  refine ⟨cs, hstate ▸ hcs, fun c hmemc hset => ?_⟩
  have hopened : e.place.view.opened = (e.collapse t rest).place.view.opened := by
    simp [Place.view]
  by_cases hmem : f.slot ∈ e.awaited
  · obtain ⟨pre, hbefore, hafter⟩ := hlays.ahead_collapsed hc hmem
    cases pre with
    | nil =>
      have hdummy : c.isDummy = true :=
        hset.resolve_right (Post.not_settled_collapse hc h.nextSub hafter)
      exact (hlegal c hmemc (.inl hdummy)).congr hopened (.inl hdummy)
    | cons t' pre =>
      have hset' : c.isDummy = true ∨ e.Settled := by
        refine hset.imp_right fun hset => ?_
        simpa [Post.Settled, Post.subAhead, hbefore, hafter] using hset
      refine (hlegal c hmemc hset').congr hopened (.inr ?_)
      simp [Place.view, hbefore, hafter]
  · rw [Post.collapse_of_notMem (hc.slot ▸ hmem)] at hset ⊢
    exact hlegal c hmemc hset

/-- The units ahead of a chain that has the part ahead, as the rules see them. -/
theorem Post.Lays.view_collapsed (h : e.Lays a) (hc : Collapsed a b f us rest t)
    (hparts : o.reverse = (f :: us).map form) (hbare : t.bare = .unit type none v o.reverse)
    (hmem : f.slot ∈ e.awaited) : ∃ pre : List Tree,
      e.place.ahead = pre ++ (f :: us ++ rest) ∧
        (e.collapse t rest).place.ahead = pre ++ t :: rest ∧
        e.place.view.ahead = pre.map bare ++ (o.reverse.map Form.clear ++ rest.map bare) ∧
        (e.collapse t rest).place.view.ahead =
          pre.map bare ++ .unit type none v o.reverse :: rest.map bare := by
  obtain ⟨pre, hbefore, hafter⟩ := h.ahead_collapsed hc hmem
  refine ⟨pre, hbefore, hafter, ?_, ?_⟩
  · conv_lhs => rw [Place.view, hbefore]
    rw [hparts]
    simp [bare, Function.comp_def]
  · rw [Place.view, hafter, ← hbare]
    simp

theorem Regrouped.collapse (h : e.Lays a) (hwaiting : Waiting p a e)
    (hc : Collapsed a b f us rest t) (hsave : p.config.saveUnique = true)
    (hunique : e₀.state.unique = true) (hopened : e₀.place.view.opened = o :: os)
    (hparts : o.reverse = (f :: us).map form) (hbare : t.bare = .unit type none v o.reverse)
    (hfirst : e₀.first? = some f.slot) (hrest : e₀.place.ahead = rest) (hx : x.ahead = t :: rest) :
    Regrouped p e₀ x e (e.collapse t rest) := by
  by_cases hmem : f.slot ∈ e.awaited
  · obtain ⟨pre, hbefore, hafter, hview, hview'⟩ := h.view_collapsed hc hparts hbare hmem
    subst hrest
    have hxview : x.view.ahead = .unit type none v o.reverse :: e₀.place.view.ahead := by
      rw [Place.view, hx, ← hbare, Place.view]
      rfl
    refine .collapsed hsave hunique hopened hfirst hmem hxview hview (hxview ▸ hview')
      (fun hpre => ?_) fun hpre => ?_
    · obtain rfl := List.map_eq_nil_iff.1 hpre
      exact Post.not_settled_collapse hc hwaiting.nextSub hafter
    · cases pre with
      | nil => exact absurd rfl hpre
      | cons t' pre => simp [Post.subAhead, hbefore, hafter]
  · rw [Post.collapse_of_notMem (hc.slot ▸ hmem)]
    exact .same rfl rfl

theorem Parser.Proper.collapse (hproper : p.Proper e.place.view) (h : e.Lays a)
    (hc : Collapsed a b f us rest t) (hparts : o.reverse = (f :: us).map form)
    (hbare : t.bare = .unit type none v o.reverse)
    (hwhole : p.Whole (fun _ _ => True) (.unit type none v o.reverse) ws) :
    p.Proper (e.collapse t rest).place.view := by
  by_cases hmem : f.slot ∈ e.awaited
  · obtain ⟨pre, -, -, hview, hview'⟩ := h.view_collapsed hc hparts hbare hmem
    refine ⟨fun r hr => hproper.opened r ?_, fun u hu => ?_⟩
    · simpa [Place.view] using hr
    · rw [hview', List.mem_append, List.mem_cons] at hu
      obtain hu | rfl | hu := hu
      · exact hproper.ahead u (by rw [hview]; simp [hu])
      · exact ⟨ws, hwhole⟩
      · exact hproper.ahead u (by rw [hview]; simp [hu])
  · rwa [Post.collapse_of_notMem (hc.slot ▸ hmem)]

/-- A phrase that is collapsed into its first unit, which no saved state holds. -/
theorem Carried.collapse (h : e.Lays a) (hproper : p.Proper e.place.view)
    (hwaiting : Waiting p a e) (hc : Collapsed a b f us rest t) (hheld : f.slot ∉ e.held)
    (hin : f.slot ∉ inner e.units) (hsave : p.config.saveUnique = true)
    (hunique : e₀.state.unique = true) (hopened : e₀.place.view.opened = o :: os)
    (hparts : o.reverse = (f :: us).map form) (hbare : t.bare = .unit type none v o.reverse)
    (hwhole : p.Whole (fun _ _ => True) (.unit type none v o.reverse) ws)
    (hfirst : e₀.first? = some f.slot) (hrest : e₀.place.ahead = rest) (hx : x.ahead = t :: rest) :
    Carried p e₀ a b x e (e.collapse t rest) where
  state := Post.state_collapse
  opened := Post.opened_collapse
  ahead := .collapse h hwaiting hc hsave hunique hopened hparts hbare hfirst hrest hx
  awaited := h.awaited_collapse_subset hc
  below i hi := by
    refine (h.inner_collapse_subset hc i hi).imp_right fun hi => ?_
    rw [hx, inner_cons]
    exact List.mem_append_right _ (List.mem_append_left _ hi)
  heldSame i hi := hc.same i (h.lt (List.mem_append_left _ hi)) fun heq => hheld (heq ▸ hi)
  innerSame i hi := ⟨hc.same i (h.inner_lt hi) fun heq => hin (heq ▸ hi),
    h.subset_inner_collapse hc i hi⟩
  aheadSame hcopy := by
    rw [hsave] at hcopy
    cases hcopy
  lays := h.collapse hc hheld hin
  proper := hproper.collapse h hc hparts hbare hwhole
  waiting := hwaiting.collapse h hc

end Collapse

theorem Carried.held_eq {f g : Post} (h : Carried p e₀ a b x f g) : g.held = f.held := by
  rw [Post.held, Post.held, Place.spine, Place.spine, h.state, h.opened]

theorem Carried.slots_subset {f g : Post} (h : Carried p e₀ a b x f g) :
    ∀ i ∈ g.units.map slot, i ∈ f.units.map slot := by
  intro i hi
  rw [Post.map_slot_units, h.held_eq, List.mem_append] at hi
  rw [Post.map_slot_units, List.mem_append]
  exact hi.imp_right (h.awaited i)

/-- No unit of the new chain, nor of a chain that is carried over, is below another of them. -/
theorem Standing.layered_shift (h : Standing p a e saved) {g : Post → Post}
    (hg : ∀ f ∈ saved, Carried p e₀ a b e'.place f (g f))
    (htop' : ∀ i ∈ e'.units.map slot, i ∈ e.units.map slot ∨ a.size ≤ i)
    (hlayered' : Layered e'.units)
    (hinner' : saved ≠ [] → ∀ i ∈ inner e'.units, i ∈ inner e.units ∨ a.size ≤ i) :
    ∀ f ∈ e' :: saved.map g, ∀ k ∈ e' :: saved.map g, ∀ i ∈ f.units.map slot,
      i ∉ inner k.units := by
  have hmem : ∀ {f : Post}, f ∈ saved → f ∈ e :: saved := List.mem_cons_of_mem e
  -- old units against what is below the new chain
  have hold : ∀ f ∈ saved, ∀ i ∈ f.units.map slot, i ∉ inner e'.units := by
    intro f hf i hi hin
    obtain hin | hin := hinner' (List.ne_nil_of_mem hf) i hin
    · exact h.layered f (hmem hf) e (List.mem_cons_self ..) i hi hin
    · have := (h.lays f (hmem hf)).lt (Post.map_slot_units f ▸ hi)
      omega
  -- what is below a chain that is carried over was below it before, or is below the new chain
  have hnew : ∀ f ∈ saved, ∀ i ∈ e'.units.map slot, i ∉ inner (g f).units := by
    intro f hf i hi hin
    obtain hin | hin := (hg f hf).below i hin
    · obtain hi | hi := htop' i hi
      · exact h.layered e (List.mem_cons_self ..) f (hmem hf) i hi hin
      · have := (h.lays f (hmem hf)).inner_lt hin
        omega
    · rw [← Post.inner_units] at hin
      exact hlayered' i hi hin
  have hboth : ∀ f ∈ saved, ∀ k ∈ saved, ∀ i ∈ f.units.map slot, i ∉ inner (g k).units := by
    intro f hf k hk i hi hin
    obtain hin | hin := (hg k hk).below i hin
    · exact h.layered f (hmem hf) k (hmem hk) i hi hin
    · rw [← Post.inner_units] at hin
      exact hold f hf i hi hin
  intro f' hf' k' hk' i hi
  obtain rfl | hf' := List.mem_cons.1 hf'
  · obtain rfl | hk' := List.mem_cons.1 hk'
    · exact hlayered' i hi
    · obtain ⟨k, hk, rfl⟩ := List.mem_map.1 hk'
      exact hnew k hk i hi
  · obtain ⟨f, hf, rfl⟩ := List.mem_map.1 hf'
    have hi' := (hg f hf).slots_subset i hi
    obtain rfl | hk' := List.mem_cons.1 hk'
    · exact hold f hf i hi'
    · obtain ⟨k, hk, rfl⟩ := List.mem_map.1 hk'
      exact hboth f hf k hk i hi'

/-- The active state is replaced and the saved states are carried over into another arena. The
new units are old ones or fresh, and what is new below units is fresh as long as states are
saved. -/
theorem Standing.shift (h : Standing p a e saved) (g : Post → Post)
    (hg : ∀ f ∈ saved, Carried p e₀ a b e'.place f (g f))
    (hlays' : e'.Lays b) (hproper' : p.Proper e'.place.view)
    (hapart' : ∀ f ∈ saved, ∀ i ∈ e'.awaited, i ∉ f.held)
    (htop' : ∀ i ∈ e'.units.map slot, i ∈ e.units.map slot ∨ a.size ≤ i)
    (hlayered' : Layered e'.units)
    (hinner' : saved ≠ [] → ∀ i ∈ inner e'.units, i ∈ inner e.units ∨ a.size ≤ i)
    (hfree' : Free saved e'.state.unique e'.state.frames e'.place.opened)
    (hchoices' : ∀ cs, e'.state.choices = some cs → ∀ c ∈ cs, Parser.Legal p e'.place.view c) :
    Standing p b e' (saved.map g) where
  lays := List.forall_mem_cons.2 ⟨hlays', List.forall_mem_map.2 fun f hf => (hg f hf).lays⟩
  proper := List.forall_mem_cons.2 ⟨hproper', List.forall_mem_map.2 fun f hf => (hg f hf).proper⟩
  apart := by
    refine List.pairwise_cons.2 ⟨List.forall_mem_map.2 fun f hf i hi => ?_, ?_⟩
    · rw [(hg f hf).held_eq]
      exact hapart' f hf i hi
    · refine List.pairwise_map.2 ((List.pairwise_cons.1 h.apart).2.imp_of_mem ?_)
      intro f k hf hk hfk i hi
      rw [(hg k hk).held_eq]
      exact hfk i ((hg f hf).awaited i hi)
  layered := h.layered_shift hg htop' hlayered' hinner'
  free := by
    refine hfree'.of_held fun xs hxs => ?_
    rw [List.map_map] at hxs
    obtain ⟨f, hf, rfl⟩ := List.mem_map.1 hxs
    rw [Function.comp_apply, (hg f hf).held_eq]
    exact List.mem_map_of_mem hf
  choices := hchoices'
  waiting := List.forall_mem_map.2 fun f hf => (hg f hf).waiting

end StateDiagram
