import StateDiagram.Proofs.Parser.Entered
import StateDiagram.Proofs.Phrase.Reductions

/-! Moves that take up no unit: a dummy unit is put behind the current one. While states are saved
this is done on a copy of the chain up to the current unit, so that what they hold stays as it is. -/
namespace StateDiagram

open StateDiagram.Tree Arena

/-- The units of a phrase, the latest first, in the slots from `k` on. -/
def recopy (k : Nat) (o : List Tree) : List Tree :=
  (renumber k o.reverse).reverse

/-- The units of all open phrases in the slots from `k` on, the outermost phrase first. -/
def recopyAll (k : Nat) : List (List Tree) → List (List Tree)
  | [] => []
  | o :: os => recopy (k + os.flatten.length) o :: recopyAll k os

@[simp] theorem form_recopy (k : Nat) (o : List Tree) : (recopy k o).map form = o.map form := by
  simp [recopy]

@[simp] theorem form_recopyAll (k : Nat) (os : List (List Tree)) :
    (recopyAll k os).map (·.map form) = os.map (·.map form) := by
  induction os with
  | nil => rfl
  | cons o os ih => simp [recopyAll, ih]

theorem flatten_recopyAll (k : Nat) (os : List (List Tree)) :
    (recopyAll k os).flatten.reverse = renumber k os.flatten.reverse := by
  induction os with
  | nil => rfl
  | cons o os ih =>
    rw [recopyAll, List.flatten_cons, List.reverse_append, ih, List.flatten_cons,
      List.reverse_append, renumber_append, List.length_reverse]
    simp [recopy]

theorem spine_recopyAll (k : Nat) (os : List (List Tree)) (us : List Tree) :
    Place.spine ⟨recopyAll k os, us⟩ = renumber k (Place.spine ⟨os, us⟩) :=
  flatten_recopyAll k os

theorem mem_recopyAll {k : Nat} {os : List (List Tree)} {t : Tree}
    (h : t ∈ (recopyAll k os).flatten) : k ≤ t.slot := by
  have hmem : t.slot ∈ (renumber k os.flatten.reverse).map slot := by
    rw [← flatten_recopyAll]
    exact List.mem_map_of_mem (List.mem_reverse.2 h)
  exact (fresh_renumber hmem).1

/-- The phrases of a copied chain whose innermost one has another unit. -/
theorem spine_push_recopy (k : Nat) (t : Tree) (o us : List Tree) (os : List (List Tree)) :
    Place.spine ⟨(t :: recopy (k + os.flatten.length) o) :: recopyAll k os, us⟩ =
      renumber k (Place.spine ⟨o :: os, us⟩) ++ [t] := by
  rw [← spine_recopyAll]
  simp [Place.spine, recopyAll]

theorem mem_push_recopy {k : Nat} {t u : Tree} {o : List Tree} {os : List (List Tree)}
    (h : u ∈ ((t :: recopy (k + os.flatten.length) o) :: recopyAll k os).flatten) :
    u = t ∨ k ≤ u.slot := by
  rw [List.flatten_cons, List.cons_append, List.mem_cons] at h
  refine h.imp_right fun hu => ?_
  have hcopied : u ∈ (recopyAll k (o :: os)).flatten := hu
  exact mem_recopyAll hcopied

/-- The units of a chain that is copied to the slots from `k` on and goes on with a new unit. -/
theorem slot_copied {k i : Nat} {t : Tree} {ts us : List Tree}
    (hi : i ∈ (renumber k ts ++ t :: us).map slot) : i ∈ us.map slot ∨ i = t.slot ∨ k ≤ i := by
  rw [List.map_append, List.mem_append, List.map_cons, List.mem_cons] at hi
  obtain hi | rfl | hi := hi
  · exact .inr (.inr (fresh_renumber hi).1)
  · exact .inr (.inl rfl)
  · exact .inl hi

variable {σ : Type} {p : Parser σ}

/-- The unit that a dummy move puts into the chain. -/
def dummyUnit (p : Parser σ) (n i : Nat) : Tree :=
  .node i p.config.dummyWord (some n) none []

theorem view_dummyUnit {x : Place Tree} {o o' : List Tree} {os os' : List (List Tree)} {n i : Nat}
    (hopened : x.opened = o :: os) (ho : o'.map form = o.map form)
    (hos : os'.map (·.map form) = os.map (·.map form)) :
    Place.view ⟨(dummyUnit p n i :: o') :: os', x.ahead⟩ =
      x.view.after p.config.dummyWord none (.dummy n) := by
  simp only [Place.view, hopened, Place.after, List.map_cons, ho, hos]
  simp [dummyUnit]

/-- The units of a chain with a new unit behind the current one. -/
theorem Post.slot_inserted {e : Post} {t : Tree} {i : Nat}
    (hi : i ∈ (header e.state.head :: e.place.spine ++ t :: e.place.ahead).map slot) :
    i ∈ e.units.map slot ∨ i = t.slot := by
  rw [List.map_append, List.mem_append] at hi
  rw [map_slot_units, List.mem_append]
  cases hi with
  | inl hi => exact .inl (.inl hi)
  | inr hi => exact (List.mem_cons.1 hi).symm.imp_left .inr

/-- Nothing is below a dummy unit. -/
theorem inner_dummyUnit (n i : Nat) (ts us : List Tree) :
    inner (ts ++ dummyUnit p n i :: us) = inner ts ++ inner us := by
  rw [inner_append, inner_cons]
  rfl

namespace Post.Lays

variable {a : Arena} {e : Post}

/-- The chain with a new unit behind the current one. -/
theorem insert (h : e.Lays a) (hlayered : Layered e.units) (word : String) (n : Nat) :
    let unit : Phrase := { word, node := some n, next := start e.place.ahead none }
    ((a.alloc unit).setNext e.state.current (some a.size)).Spans (some e.state.head)
      (header e.state.head :: e.place.spine ++ .node a.size word (some n) none [] :: e.place.ahead)
      none := by
  intro unit
  obtain ⟨hspine, hahead⟩ := h.split
  have hcur : e.state.current < a.size := h.lt (List.mem_append_left _ h.current_mem)
  have hnodup := List.nodup_append.1 h.nodup
  have hnew : ((a.alloc unit).setNext e.state.current (some a.size)).get? a.size = some unit := by
    simp [setNext, get?_modify_ne _ (Nat.ne_of_gt hcur)]
  have hback : ((a.alloc unit).setNext e.state.current (some a.size)).Spans (some e.state.head)
      (header e.state.head :: e.place.spine) (some a.size) := by
    have hrelinked := (hspine.keep (keeps_alloc unit a)).relink (some a.size)
      (by simpa [held] using hnodup.1) (hlayered.sublist (by simp [units]))
    rwa [show lastSlot (header e.state.head).slot e.place.spine = e.state.current from
      h.current.symm] at hrelinked
  -- the current unit is neither ahead nor below a unit that is
  have hrest : ((a.alloc unit).setNext e.state.current (some a.size)).Spans unit.next e.place.ahead
      none := by
    refine hahead.congr fun i hi => ?_
    have hne : i ≠ e.state.current := by
      rintro rfl
      rw [mem_slotsOf] at hi
      cases hi with
      | inl htop => exact hnodup.2.2 _ h.current_mem _ htop rfl
      | inr hin =>
        refine hlayered _ (held_subset _ _ h.current_mem) ?_
        rw [inner_units]
        exact List.mem_append_right _ hin
    simp [setNext, get?_modify_ne _ hne, Nat.ne_of_lt (hahead.lt i hi)]
  exact hback.append (.cons hnew (.nil none) hrest)

/-- A copy of the chain up to the current unit with a new unit behind it. -/
theorem insertOnCopy (h : e.Lays a) (word : String) (n : Nat) :
    let unit : Phrase := { word, node := some n, next := start e.place.ahead none }
    ∃ b stop, (a.alloc unit).copyChain e.state.head e.state.current = .ok (stop, b) ∧
      Keeps a (b.setNext stop (some a.size)) ∧
      (b.setNext stop (some a.size)).Spans (some (a.size + 1))
        (renumber (a.size + 1) (header e.state.head :: e.place.spine) ++
          .node a.size word (some n) none [] :: e.place.ahead) none := by
  intro unit
  obtain ⟨hspine, hahead⟩ := h.split
  have hnodup : ((header e.state.head :: e.place.spine).map slot).Nodup := by
    simpa [held] using (List.nodup_append.1 h.nodup).1
  obtain ⟨b, hcopy, hkeep, -, hspan⟩ :=
    (hspine.keep (keeps_alloc unit a)).copyRelinked hnodup (some a.size)
  rw [size_alloc] at hcopy hspan
  let stop := lastSlot (a.size + 1) (renumber (a.size + 1 + 1) e.place.spine)
  have hstop : a.size + 1 ≤ stop := le_lastSlot_renumber ..
  have hkeep' : Keeps a (b.setNext stop (some a.size)) :=
    ((keeps_alloc unit a).trans hkeep).modify (by omega) _
  have hnew : (b.setNext stop (some a.size)).get? a.size = some unit := by
    rw [setNext, get?_modify_ne _ (by omega), hkeep.same a.size (by simp)]
    simp
  rw [show lastSlot e.state.head e.place.spine = e.state.current from h.current.symm] at hcopy
  exact ⟨b, stop, hcopy, hkeep', hspan.append (.cons hnew (.nil none) (hahead.keep hkeep'))⟩

end Post.Lays

namespace Stands

variable {s : Session σ} {x : Place Tree} {saved : List Post}

/-- The active state goes on in an arena that keeps all old slots: the saved states stay as they
are, since the new chain has no unit of theirs but those that were ahead. -/
theorem onward (h : Stands p s x saved) (s' : Session σ) (x' : Place Tree)
    (hkeep : Keeps s.arena s'.arena)
    (hframe : s'.saved = s.saved ∧ s'.goals = s.goals ∧ s'.steps = s.steps ∧
      s'.state.path = s.state.path)
    (hlays' : Post.Lays s'.arena ⟨s'.state, x'⟩) (hproper' : p.Proper x'.view)
    (hawaited' : ∀ i ∈ Post.awaited ⟨s'.state, x'⟩,
      i ∈ Post.awaited ⟨s.state, x⟩ ∨ s.arena.size ≤ i)
    (htop' : ∀ i ∈ (Post.units ⟨s'.state, x'⟩).map slot,
      i ∈ (Post.units ⟨s.state, x⟩).map slot ∨ s.arena.size ≤ i)
    (hlayered' : Layered (Post.units ⟨s'.state, x'⟩))
    (hinner' : ∀ i ∈ inner (Post.units ⟨s'.state, x'⟩),
      i ∈ inner (Post.units ⟨s.state, x⟩) ∨ s.arena.size ≤ i)
    (hfree' : Free saved s'.state.unique s'.state.frames x'.opened)
    (hchoices' : ∀ cs, s'.state.choices = some cs → ∀ c ∈ cs, Parser.Legal p x'.view c) :
    Moved p s s' x x' saved saved := by
  have hcarried : ∀ f ∈ saved, Carried p ⟨s.state, x⟩ s.arena s'.arena x' f f := by
    intro f hf
    have hf' := List.mem_cons_of_mem (⟨s.state, x⟩ : Post) hf
    exact .keep (h.standing.lays f hf') (h.standing.proper f hf') (h.standing.waiting f hf) hkeep
  have hapart' : ∀ f ∈ saved, ∀ i ∈ Post.awaited ⟨s'.state, x'⟩, i ∉ f.held := by
    intro f hf i hi hheld
    cases hawaited' i hi with
    | inl hold => exact h.apart hf i hold hheld
    | inr hnew =>
      have hlt := (h.standing.lays f (List.mem_cons_of_mem _ hf)).lt (List.mem_append_left _ hheld)
      omega
  have hmoved := h.shift s' x' id hcarried hframe hlays' hproper' hapart' htop' hlayered'
    (fun _ => hinner') hfree' hchoices'
  rwa [List.map_id] at hmoved

theorem moveDummy_inPlace (h : Stands p s x []) (n : Nat) :
    p.moveDummy n s = .ok { s with
      arena := (s.arena.alloc { word := p.config.dummyWord, node := some n
                                next := start x.ahead none }).setNext
        s.state.current (some s.arena.size)
      state := { s.state with current := s.arena.size, choices := none } } := by
  obtain ⟨u, hu, hnext, -⟩ := h.lays.unit
  have hempty : s.saved = [] := h.stack
  rw [← hnext]
  simp only [Parser.moveDummy, fetch_of_get? hu, hempty, bind, Except.bind, pure, Except.pure,
    List.isEmpty_nil, if_true]

theorem moveDummy_onCopy (h : Stands p s x saved) (hsaved : saved ≠ []) {n stop : Nat} {b : Arena}
    (hcopy : (s.arena.alloc { word := p.config.dummyWord, node := some n
                              next := start x.ahead none }).copyChain
      s.state.head s.state.current = .ok (stop, b)) :
    p.moveDummy n s = .ok { s with
      arena := b.setNext stop (some s.arena.size)
      state := { s.state with
        head := s.arena.size + 1, current := s.arena.size, choices := none } } := by
  obtain ⟨u, hu, hnext, -⟩ := h.lays.unit
  have hempty : s.saved.isEmpty = false :=
    h.isEmpty_eq.trans (List.isEmpty_eq_false_iff.2 hsaved)
  rw [← hnext] at hcopy
  simp only [Parser.moveDummy, fetch_of_get? hu, hempty, bind, Except.bind, pure, Except.pure,
    Bool.false_eq_true, if_false, size_alloc, hcopy]

/-- A dummy unit behind the current one, when no state is saved. -/
theorem skip {o : List Tree} {os : List (List Tree)} {n : Nat} (h : Stands p s x [])
    (hopened : x.opened = o :: os)
    (hproper : p.Proper (x.view.after p.config.dummyWord none (.dummy n))) :
    ∃ s' x', p.moveDummy n s = .ok s' ∧ Moved p s s' x x' [] [] ∧
      x'.view = x.view.after p.config.dummyWord none (.dummy n) ∧
      s'.state = { s.state with current := s.arena.size, choices := none } ∧ s'.host = s.host := by
  let d := s.arena.size
  let a := (s.arena.alloc { word := p.config.dummyWord, node := some n
                            next := start x.ahead none }).setNext s.state.current (some d)
  let st : State := { s.state with current := d, choices := none }
  have hspan := h.lays.insert h.layered p.config.dummyWord n
  let x' : Place Tree := ⟨(dummyUnit p n d :: o) :: os, x.ahead⟩
  have hspine' : x'.spine = x.spine ++ [dummyUnit p n d] := by
    simp [x', Place.spine, hopened]
  have hunits' : Post.units ⟨st, x'⟩ =
      header s.state.head :: x.spine ++ dummyUnit p n d :: x.ahead := by
    simp [Post.units, hspine', st, x']
  have hlays' : Post.Lays a ⟨st, x'⟩ := by
    refine ⟨?_, ?_, ?_⟩
    · rw [hunits']
      exact hspan
    · change d = lastSlot s.state.head x'.spine
      rw [hspine', lastSlot_append]
      rfl
    · exact (hopened ▸ h.lays.nested : Nested _ _ (o :: os)).push slot slot _ o rfl
  have hinner' : inner (Post.units ⟨st, x'⟩) = inner (Post.units ⟨s.state, x⟩) := by
    rw [hunits', inner_dummyUnit, Post.inner_units]
    rfl
  have htop' : ∀ i ∈ (Post.units ⟨st, x'⟩).map slot,
      i ∈ (Post.units ⟨s.state, x⟩).map slot ∨ s.arena.size ≤ i := by
    intro i hi
    rw [hunits'] at hi
    exact (Post.slot_inserted (e := ⟨s.state, x⟩) hi).imp_right fun heq => Nat.le_of_eq heq.symm
  have hlayered' : Layered (Post.units ⟨st, x'⟩) :=
    h.layered_of htop' fun i hi => .inl (hinner' ▸ hi)
  have hview : x'.view = x.view.after p.config.dummyWord none (.dummy n) :=
    view_dummyUnit hopened rfl rfl
  refine ⟨_, x', h.moveDummy_inPlace n, ?_, hview, rfl, rfl⟩
  refine h.shift _ x' id (by simp) ⟨rfl, rfl, rfl, rfl⟩ hlays' (hview ▸ hproper) (by simp) htop'
    hlayered' (fun hne => absurd rfl hne) (free_of_forall (by simp)) (by simp)

/-- A dummy unit behind a copy of the chain up to the current unit. -/
theorem skipOnCopy {o : List Tree} {os : List (List Tree)} {n : Nat} (h : Stands p s x saved)
    (hsaved : saved ≠ []) (hopened : x.opened = o :: os)
    (hproper : p.Proper (x.view.after p.config.dummyWord none (.dummy n))) :
    ∃ s' x', p.moveDummy n s = .ok s' ∧ Moved p s s' x x' saved saved ∧
      x'.view = x.view.after p.config.dummyWord none (.dummy n) ∧
      (∀ t ∈ x'.opened.flatten, s.arena.size ≤ t.slot) ∧
      s'.state = { s.state with
        head := s.arena.size + 1, current := s.arena.size, choices := none } ∧
      s'.host = s.host := by
  let d := s.arena.size
  obtain ⟨b, stop, hcopy, hkeep, hspan⟩ := h.lays.insertOnCopy p.config.dummyWord n
  let a := b.setNext stop (some d)
  let st : State := { s.state with head := d + 1, current := d, choices := none }
  let os' := recopyAll (d + 2) os
  let o' := recopy (d + 2 + os.flatten.length) o
  let x' : Place Tree := ⟨(dummyUnit p n d :: o') :: os', x.ahead⟩
  have hspine' : x'.spine = renumber (d + 2) x.spine ++ [dummyUnit p n d] := by
    rw [spine_push_recopy, ← hopened]
  have hunits' : Post.units ⟨st, x'⟩ =
      renumber (d + 1) (header s.state.head :: x.spine) ++ dummyUnit p n d :: x.ahead := by
    simp only [Post.units, hspine', st, x', Tree.renumber, header, put, List.append_assoc,
      List.cons_append, List.nil_append]
  have hlays' : Post.Lays a ⟨st, x'⟩ := by
    refine ⟨?_, ?_, ?_⟩
    · rw [hunits']
      exact hspan
    · change d = lastSlot (d + 1) x'.spine
      rw [hspine', lastSlot_append]
      rfl
    · exact (hopened ▸ h.lays.nested : Nested _ _ (o :: os)).push form form _ o'
        (form_recopyAll _ _)
  have hinner' : inner (Post.units ⟨st, x'⟩) = inner (Post.units ⟨s.state, x⟩) := by
    rw [hunits', inner_dummyUnit, inner_renumber, Post.inner_units]
    rfl
  have htop : ∀ i ∈ (Post.units ⟨st, x'⟩).map slot,
      i ∈ (Post.units ⟨s.state, x⟩).map slot ∨ s.arena.size ≤ i := by
    intro i hi
    obtain hi | rfl | hi := slot_copied (hunits' ▸ hi)
    · exact .inl (Post.awaited_subset _ _ hi)
    · exact .inr (Nat.le_refl _)
    · exact .inr (by omega)
  have hlayered' : Layered (Post.units ⟨st, x'⟩) :=
    h.layered_of htop fun i hi => .inl (hinner' ▸ hi)
  have hfresh : ∀ t ∈ ((dummyUnit p n d :: o') :: os').flatten, d ≤ t.slot := by
    intro t ht
    obtain rfl | hle := mem_push_recopy ht
    · exact Nat.le_refl d
    · omega
  have hview : x'.view = x.view.after p.config.dummyWord none (.dummy n) :=
    view_dummyUnit hopened (form_recopy _ _) (form_recopyAll _ _)
  refine ⟨_, x', h.moveDummy_onCopy hsaved hcopy, ?_, hview, hfresh, rfl, rfl⟩
  exact h.onward _ x' hkeep ⟨rfl, rfl, rfl, rfl⟩ hlays' (hview ▸ hproper) (fun i hi => .inl hi) htop
    hlayered' (fun i hi => .inl (hinner' ▸ hi)) (h.free_of_fresh hfresh) (by simp)

end Stands

end StateDiagram
