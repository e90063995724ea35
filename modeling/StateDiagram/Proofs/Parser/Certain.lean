import StateDiagram.Proofs.Parser.Lands

/-! Phrases that count as parsed in a single way. From where such a phrase was begun there has been
no other choice up to here, whatever phrases are open around it. So when it is collapsed in place, a
saved state that still has its units to come loses nothing by it. -/
namespace StateDiagram

open StateDiagram.Tree Arena

variable {σ : Type} {p : Parser σ}

/-- Whether the open phrases, the innermost one first, count as parsed in a single way. -/
def State.flags (st : State) : List Bool :=
  st.unique :: st.frames.map Frame.unique

/-- The `k` innermost phrases and the one around them count as parsed in a single way. -/
def State.Sure (st : State) (k : Nat) : Prop :=
  ∀ b ∈ st.flags.take (k + 1), b = true

theorem State.sure_iff {st : State} {k : Nat} {b : Bool} {bs : List Bool} (h : st.flags = b :: bs) :
    st.Sure k ↔ b = true ∧ ∀ c ∈ bs.take k, c = true := by
  rw [Sure, h, List.take_succ_cons, List.forall_mem_cons]

/-- The units from the beginning of the outermost of the phrases `rs` on. -/
def Place.since (rs : List (List Tree)) (x : Place Tree) : List Form :=
  rs.flatten.reverse.map bare ++ x.view.ahead

theorem Place.since_cons (r : List Tree) (rs : List (List Tree)) (x : Place Tree) :
    x.since (r :: rs) = rs.flatten.reverse.map bare ++ x.since [r] := by
  simp [since]

/-- Let the open phrase `o` and those inside of it count as parsed in a single way, and let a saved
state have the first unit of `o` to come. Then this unit can only begin a phrase, and whatever comes
of that comes of the choices that are left here. -/
def Certain (p : Parser σ) (s : Session σ) (x : Place Tree) (saved : List Post) : Prop :=
  ∀ rs o outer, x.opened = rs ++ o :: outer → s.state.Sure rs.length → ∀ t, o.getLast? = some t →
    (∃ e ∈ saved, t.slot ∈ e.awaited) → ∃ n, p.Only t.word n ∧ ∀ os y,
      p.Lands s.goals ⟨os, x.since (rs ++ [o])⟩ (.initial n) y ↔
        ∃ c ∈ s.untried p x,
          p.Lands s.goals ⟨(rs ++ [o]).map (·.map form) ++ os, x.view.ahead⟩ c y

variable {s s' : Session σ} {x x' : Place Tree} {saved saved' : List Post}

/-- A saved state that has a unit of the active chain to come has all the later ones to come. -/
theorem Stands.awaited_later (h : Stands p s x saved) {e : Post} (he : e ∈ saved)
    {us vs : List Tree} {t u : Tree} (hsplit : x.spine = us ++ t :: vs) (ht : t.slot ∈ e.awaited)
    (hu : u ∈ vs) : u.slot ∈ e.awaited := by
  have hspans := h.lays.spans
  have hunits : Post.units ⟨s.state, x⟩ =
      (header s.state.head :: us) ++ (t :: (vs ++ x.ahead)) := by
    simp [Post.units, hsplit]
  rw [hunits] at hspans
  obtain ⟨m, -, hrest⟩ := hspans.split
  obtain rfl := hrest.start
  have hrest' : s.arena.Spans (some t.slot) (t :: (vs ++ x.ahead) ++ []) none := by
    rw [List.append_nil]
    exact hrest
  have hahead := (h.standing.lays e (List.mem_cons_of_mem _ he)).ahead_eq hrest' ht
  rw [Post.awaited, hahead]
  exact List.mem_map_of_mem (by simp [hu])

/-- Whoever has the first unit of an open phrase to come has those of the phrases inside of it to
come as well. -/
theorem Stands.awaited_inside (h : Stands p s x saved) {e : Post} (he : e ∈ saved)
    {o o₀ : List Tree} {rs outer : List (List Tree)} (hopened : x.opened = o₀ :: rs ++ o :: outer)
    {t t₀ : Tree} (ht : o.getLast? = some t) (ht₀ : t₀ ∈ o₀) (hmem : t.slot ∈ e.awaited) :
    t₀.slot ∈ e.awaited := by
  obtain ⟨us, rfl⟩ : ∃ us, o = us ++ [t] := ⟨_, (List.dropLast_append_getLast? t ht).symm⟩
  have hspine : x.spine = outer.flatten.reverse ++ t :: (us.reverse ++ rs.flatten.reverse ++
      o₀.reverse) := by
    simp [Place.spine, hopened]
  exact h.awaited_later he hspine hmem (by simp [ht₀])

namespace Advanced

variable {c : Choice} {others : List Choice}

/-- No state gets units to come that it did not have to come before. -/
theorem awaited (h : Advanced p c others s x saved s' x' saved') {g : Post} (hg : g ∈ saved')
    {i : Nat} (hi : i ∈ g.awaited) : ∃ f ∈ pushed c others ⟨s.state, x⟩ saved, i ∈ f.awaited := by
  obtain ⟨f, hf, hcarried⟩ := exists_mem_of_forall₂ h.carried hg
  exact ⟨f, hf, hcarried.awaited i hi⟩

/-- No saved state has a unit to come that is new. -/
theorem not_awaited (h : Advanced p c others s x saved s' x' saved') (hs : Stands p s x saved)
    {g : Post} (hg : g ∈ saved') {i : Nat} (hi : s.arena.size ≤ i) : i ∉ g.awaited := by
  intro hmem
  obtain ⟨f, hf, hf'⟩ := h.awaited hg hmem
  have hlays : ∃ e ∈ (⟨s.state, x⟩ : Post) :: saved, e.place = f.place := by
    cases mem_pushed hf with
    | inl heq => exact ⟨_, List.mem_cons_self .., heq.symm⟩
    | inr hf => exact ⟨f, List.mem_cons_of_mem _ hf, rfl⟩
  obtain ⟨e, he, heq⟩ := hlays
  have hlt := (hs.standing.lays e he).lt (i := i) (List.mem_append_right _ (by
    rw [Post.awaited, heq]
    exact hf'))
  omega

end Advanced

namespace Parser

/-- A single choice that leaves phrases open, seen from the beginning of these phrases. -/
theorem lands_single {goals : List String} {c : Choice} {path : List Choice}
    {rs rs' os outer : List (List Form)} {us us' : List Form} {y : Place Form} (hne : rs' ≠ [])
    (hmoved : p.moved c ⟨rs ++ os, us⟩ = ⟨rs' ++ os, us'⟩) :
    (∃ d ∈ [c], p.Lands goals ⟨rs ++ os, us⟩ d y) ↔
      ∃ d ∈ p.fresh goals (c :: path) ⟨rs' ++ outer, us'⟩, p.Lands goals ⟨rs' ++ os, us'⟩ d y := by
  obtain ⟨r, rs', rfl⟩ := List.exists_cons_of_ne_nil hne
  have hfresh : p.fresh goals (c :: path) ⟨r :: rs' ++ outer, us'⟩ =
      p.fresh goals [c] ⟨r :: rs' ++ os, us'⟩ := by
    cases c <;> rfl
  simp only [List.mem_singleton, exists_eq_left]
  rw [lands_iff, hmoved, reaches_open (by simp), hfresh]

end Parser

namespace Certain

variable {c : Choice}

/-- A phrase that goes on by a single choice stays certain, seen from the units that it had to come
before. -/
theorem onward (h : Certain p s x saved) (ha : Advanced p c [] s x saved s' x' saved')
    (heq : s.untried p x = [c]) {rs rs' outer : List (List Tree)} {o o' : List Tree}
    (hopened : x.opened = rs ++ o :: outer) (hsure : s.state.Sure rs.length) {t : Tree}
    (ht : o.getLast? = some t) (hawaited : ∃ g ∈ saved', t.slot ∈ g.awaited)
    (hopened' : x'.opened = rs' ++ o' :: outer)
    (hmoved : ∀ os, p.moved c ⟨(rs ++ [o]).map (·.map form) ++ os, x.view.ahead⟩ =
      ⟨(rs' ++ [o']).map (·.map form) ++ os, x'.view.ahead⟩) :
    ∃ n, p.Only t.word n ∧ ∀ os y, p.Lands s'.goals ⟨os, x.since (rs ++ [o])⟩ (.initial n) y ↔
      ∃ d ∈ s'.untried p x',
        p.Lands s'.goals ⟨(rs' ++ [o']).map (·.map form) ++ os, x'.view.ahead⟩ d y := by
  obtain ⟨g, hg, hg'⟩ := hawaited
  obtain ⟨n, honly, hiff⟩ := h rs o outer hopened hsure t ht (ha.awaited hg hg')
  refine ⟨n, honly, fun os y => ?_⟩
  have hview : x'.view = ⟨(rs' ++ [o']).map (·.map form) ++ outer.map (·.map form),
      x'.view.ahead⟩ := by
    simp [Place.view, hopened']
  rw [ha.goals, ha.untried, hiff, heq, hview]
  exact Parser.lands_single (by simp) (hmoved os)

/-- A certain phrase that is about to be completed. -/
theorem folds (h : Certain p s x saved) {type : String} (heq : s.untried p x = [.final type])
    {o : List Tree} {outer : List (List Tree)} (hopened : x.opened = o :: outer)
    (hunique : s.state.unique = true) {t : Tree} (ht : o.getLast? = some t)
    (hawaited : ∃ e ∈ saved, t.slot ∈ e.awaited) : p.Folds s.goals (x.since [o])
      (.unit type none (p.plainValue (o.map form)) (o.map form).reverse :: x.view.ahead) := by
  obtain ⟨n, honly, hiff⟩ :=
    h [] o outer hopened (by simpa [State.Sure, State.flags] using hunique) t ht hawaited
  refine ⟨?_, List.cons_ne_nil _ _⟩
  obtain ⟨us, rfl⟩ : ∃ us, o = us ++ [t] := ⟨_, (List.dropLast_append_getLast? t ht).symm⟩
  refine ⟨t.bare, us.reverse.map bare ++ x.view.ahead, n, type, by simp [Place.since, Place.view],
    by rwa [word_bare], fun os y => ?_⟩
  have hsingle := hiff os y
  rw [heq] at hsingle
  simp only [List.mem_singleton, exists_eq_left, Parser.lands_iff (c := .final type)] at hsingle
  rw [← Parser.moved_final]
  exact hsingle

/-- A phrase that a move begins is certain if its first unit can do nothing but begin it. -/
theorem begun {others : List Choice} {u : Tree} {n : Nat} {node : Node} (h : Certain p s x saved)
    (hreg : p.Regular) (heq : s.untried p x = .initial n :: others)
    (hlegal : p.Legal x.view (.initial n))
    (ha : Advanced p (.initial n) others s x saved s' x' saved')
    (hahead : x.view.ahead = u.bare :: x'.view.ahead) (hnode : p.grammar.nodes[n]? = some node)
    (hopened : x'.opened = [u.mark n] :: x.opened)
    (hflags : s'.state.flags = (!node.incoming && p.grammar.isUnique u.word) ::
      (others.isEmpty && s.state.unique) :: s.state.flags.tail) :
    Certain p s' x' saved' := by
  intro rs o outer hopened' hsure t ht hawaited
  rw [hopened] at hopened'
  have hmoved : ∀ os, p.moved (.initial n) ⟨os, x.view.ahead⟩ =
      ⟨[(u.mark n).form] :: os, x'.view.ahead⟩ := fun os => by
    simp [hahead, bare]
  cases rs with
  | nil =>
    obtain ⟨rfl, rfl⟩ := List.cons.inj hopened'
    obtain rfl : u.mark n = t := Option.some.inj ht
    have hnew : node.incoming = false ∧ p.grammar.isUnique u.word = true := by
      simpa using ((State.sure_iff hflags).1 hsure).1
    obtain ⟨v, vs, hv, hn⟩ := hlegal.initial_inv
    obtain ⟨rfl, -⟩ := List.cons.inj (hahead.symm.trans hv)
    rw [word_bare] at hn
    refine ⟨n, by rw [word_mark]; exact hreg.only hn hnode hnew.1 hnew.2, fun os y => ?_⟩
    have hsince : x'.since [[u.mark n]] = x.view.ahead := by
      simp [Place.since, hahead]
    have hview : x'.view = ⟨[[(u.mark n).form]] ++ x.opened.map (·.map form),
        x'.view.ahead⟩ := by
      simp [Place.view, hopened]
    have hsingle := @Parser.lands_single _ p s.goals (.initial n) s.state.path []
      [[(u.mark n).form]] os (x.opened.map (·.map form)) x.view.ahead x'.view.ahead y (by simp) (hmoved os)
    rw [List.nil_append, hsince, ha.goals, ha.untried, hview]
    simpa using hsingle
  | cons r rs =>
    obtain ⟨rfl, hrest⟩ := List.cons.inj hopened'
    have hsure' := ((State.sure_iff hflags).1 hsure).2
    rw [List.length_cons, List.take_succ_cons, List.forall_mem_cons, Bool.and_eq_true,
      List.isEmpty_iff] at hsure'
    obtain ⟨⟨rfl, hu⟩, hframes⟩ := hsure'
    have hsince : x'.since ([u.mark n] :: rs ++ [o]) = x.since (rs ++ [o]) := by
      simp [Place.since, hahead]
    rw [hsince]
    exact h.onward ha heq hrest ((State.sure_iff rfl).2 ⟨hu, hframes⟩) ht hawaited
      (hopened.trans hopened') fun os => hmoved _

/-- A phrase that goes on by a single move is as certain as it was. -/
theorem extended {others : List Choice} {u : Tree} {o₀ : List Tree} {os : List (List Tree)}
    {n : Nat} (h : Certain p s x saved) (heq : s.untried p x = .nonDummy n :: others)
    (hlegal : p.Legal x.view (.nonDummy n))
    (ha : Advanced p (.nonDummy n) others s x saved s' x' saved')
    (hahead : x.view.ahead = u.bare :: x'.view.ahead) (hopened : x.opened = o₀ :: os)
    (hopened₁ : x'.opened = (u.mark n :: o₀) :: os)
    (hflags : s'.state.flags = ((others.isEmpty && s.state.unique) && p.grammar.isUnique u.word) ::
      s.state.flags.tail) : Certain p s' x' saved' := by
  intro rs o outer hopened' hsure t ht hawaited
  rw [hopened₁] at hopened'
  have hmoved : ∀ os, p.moved (.nonDummy n) ⟨o₀.map form :: os, x.view.ahead⟩ =
      ⟨(u.mark n :: o₀).map form :: os, x'.view.ahead⟩ := fun os => by
    simp [hahead, bare]
  obtain ⟨hall, hframes⟩ := (State.sure_iff hflags).1 hsure
  rw [Bool.and_eq_true, Bool.and_eq_true, List.isEmpty_iff] at hall
  obtain ⟨⟨rfl, hu⟩, -⟩ := hall
  have hsure' : s.state.Sure rs.length := (State.sure_iff rfl).2 ⟨hu, hframes⟩
  cases rs with
  | nil =>
    obtain ⟨rfl, rfl⟩ := List.cons.inj hopened'
    have hne : o₀ ≠ [] := by
      rintro rfl
      obtain ⟨o, os, u, us, node, l, hview, -, hat, -⟩ := hlegal.nonDummy_inv
      rw [Place.view, hopened] at hview
      obtain ⟨rfl, -⟩ := List.cons.inj hview
      cases hat
    have ht' : o₀.getLast? = some t := by rwa [List.getLast?_cons_of_ne_nil hne] at ht
    have hsince : x'.since ([] ++ [u.mark n :: o₀]) = x.since ([] ++ [o₀]) := by
      simp [Place.since, hahead]
    rw [hsince]
    exact h.onward ha heq hopened hsure' ht' hawaited hopened₁ fun os => hmoved _
  | cons r rs =>
    obtain ⟨rfl, hrest⟩ := List.cons.inj hopened'
    have hsince : x'.since ((u.mark n :: o₀) :: rs ++ [o]) = x.since (o₀ :: rs ++ [o]) := by
      simp [Place.since, hahead]
    have hlen : s.state.Sure (o₀ :: rs).length := hsure'
    rw [hsince]
    exact h.onward ha heq (hopened.trans (by rw [hrest]; rfl)) hlen ht hawaited
      (hopened₁.trans hopened') fun os => hmoved _

/-- When an inner phrase has been completed, those around it are as certain as they were: it makes
no difference whether the units of the completed phrase are to come or the phrase itself. -/
theorem completed {others : List Choice} {o₀ : List Tree} {os : List (List Tree)} {type : String}
    {b : Bool} {bs : List Bool} (h : Certain p s x saved) (hreg : p.Regular)
    (hs : Stands p s x saved) (heq : s.untried p x = .final type :: others)
    (ha : Advanced p (.final type) others s x saved s' x' saved')
    (hopened : x.opened = o₀ :: os) (hopened₁ : x'.opened = os)
    (hflags : s'.state.flags = (b && (others.isEmpty && s.state.unique)) :: bs)
    (hflags₀ : s.state.flags = s.state.unique :: b :: bs) : Certain p s' x' saved' := by
  intro rs o outer hopened' hsure t ht hawaited
  obtain ⟨hall, hframes⟩ := (State.sure_iff hflags).1 hsure
  rw [Bool.and_eq_true, Bool.and_eq_true, List.isEmpty_iff] at hall
  obtain ⟨hb, rfl, hu⟩ := hall
  have hsure' : s.state.Sure (o₀ :: rs).length :=
    (State.sure_iff hflags₀).2 ⟨hu, List.forall_mem_cons.2 ⟨hb, hframes⟩⟩
  have hopened₀ : x.opened = o₀ :: rs ++ o :: outer := by rw [hopened, ← hopened₁, hopened']; rfl
  have hlegal : p.Legal x.view (.final type) := hs.legal_untried _ (by simp [heq])
  obtain ⟨g, hg, hg'⟩ := hawaited
  obtain ⟨e, he, he'⟩ := ha.awaited hg hg'
  obtain ⟨t₀, ht₀⟩ : ∃ t₀, o₀.getLast? = some t₀ := by
    obtain ⟨o, os, node, hview, hat, -⟩ := hlegal.final_inv
    rw [Place.view, hopened] at hview
    obtain ⟨rfl, -⟩ := List.cons.inj hview
    cases o₀ with
    | nil => cases hat
    | cons r rs => exact ⟨_, List.getLast?_cons⟩
  have hlater := hs.awaited_inside he hopened₀ ht (List.mem_of_getLast? ht₀) he'
  have hfolds := h.folds heq hopened hu ht₀ ⟨e, he, hlater⟩
  have hahead : x'.view.ahead = .unit type none (p.plainValue (o₀.map form))
      (o₀.map form).reverse :: x.view.ahead := by
    rw [ha.view]
    simp [Place.view, hopened]
  obtain ⟨n, honly, hiff⟩ := h.onward ha heq hopened₀ hsure' ht ⟨g, hg, hg'⟩ hopened' fun os => by
    rw [hahead]
    exact Parser.moved_final ..
  obtain ⟨us, rfl⟩ : ∃ us, o = us ++ [t] := ⟨_, (List.dropLast_append_getLast? t ht).symm⟩
  refine ⟨n, honly, fun ps y => ?_⟩
  rw [← hiff ps y, List.cons_append, Place.since_cons, Place.since, hahead, ha.goals]
  obtain ⟨pre, hpre⟩ : ∃ pre, (rs ++ [us ++ [t]]).flatten.reverse.map bare = t.bare :: pre := by
    simp
  rw [hpre]
  have hbegins : ∀ us, p.Legal ⟨ps, t.bare :: pre ++ us⟩ (.initial n) := fun us =>
    .initial (by simp [honly.openings])
  exact ⟨fun hl => hfolds.lands_back hreg.unlimited hl (.inr (List.cons_ne_nil _ _)) (hbegins _),
    fun hl => hfolds.lands hreg.unlimited hl (.inr (List.cons_ne_nil _ _)) (hbegins _)⟩

/-- What was certain before a move stays so unless other choices remain, and a phrase that the move
begins is certain if its first unit can do nothing but begin it. -/
theorem advanced {others : List Choice} (h : Certain p s x saved) (hreg : p.Regular)
    (hs : Stands p s x saved) (heq : s.untried p x = c :: others)
    (ha : Advanced p c others s x saved s' x' saved') : Certain p s' x' saved' := by
  have hlegal : p.Legal x.view c := hs.legal_untried c (by simp [heq])
  obtain ⟨-, -, -, hframes, -⟩ := Post.setOut_frame c others ⟨s.state, x⟩
  have hunique := Post.unique_setOut c others ⟨s.state, x⟩
  have hnext : ∀ {u : Tree} {us : List Tree}, x.ahead = u :: us →
      x'.view.ahead = x.view.ahead.tail → x.view.ahead = u.bare :: x'.view.ahead := by
    intro u us hahead htail
    rw [htail, Place.view, hahead]
    rfl
  -- a phrase that has been copied is new, and so nobody has it to come
  have hnew : (∀ t ∈ x'.opened.flatten, s.arena.size ≤ t.slot) → Certain p s' x' saved' := by
    intro hfresh rs o outer hopened' _ t ht hawaited
    obtain ⟨g, hg, hg'⟩ := hawaited
    exact absurd hg' (ha.not_awaited hs hg (hfresh t (by simp [hopened', List.mem_of_getLast? ht])))
  cases ha.grown with
  | dummy hfresh =>
    obtain hnil | hfresh := hfresh
    · have hcarried := ha.carried
      rw [hnil] at hcarried
      cases hcarried
      rintro rs o outer - - t - ⟨g, hg, -⟩
      cases hg
    · exact hnew hfresh
  | @initial u us n node hahead hnode hopened hframes' hunique' =>
    refine h.begun hreg heq hlegal ha (hnext hahead ?_) hnode hopened ?_
    · rw [ha.view]
      simp [Place.view, hahead]
    · simp [State.flags, hframes', hunique', hunique, hframes]
  | @nonDummy u us o₀ os n hahead hopened hopened₁ hframes' hunique' =>
    refine h.extended heq hlegal ha (hnext hahead ?_) hopened hopened₁ ?_
    · rw [ha.view]
      simp [Place.view, hahead, hopened]
    · simp [State.flags, hframes', hunique', hunique, hframes]
  | @final o₀ os fr fs type hopened hfr hframes' hunique' hplace htop =>
    have hfs : s.state.frames = fr :: fs := hframes.symm.trans hfr
    obtain hopened₁ | hfresh := hplace
    · refine @completed _ _ _ _ _ _ _ _ _ _ _ _ fr.unique (fs.map Frame.unique) h hreg hs heq ha
        hopened hopened₁ ?_ ?_
      · simp [State.flags, hframes', hunique', hunique]
      · simp [State.flags, hfs]
    · exact hnew hfresh

/-- Nothing is certain at a state with choices that others were tried before. -/
theorem of_unique (h : s.state.unique = false) (x : Place Tree) (saved : List Post) :
    Certain p s x saved := by
  intro rs o outer _ hsure
  have hall := ((State.sure_iff rfl).1 hsure).1
  rw [h] at hall
  cases hall

theorem start (p : Parser σ) (tokens goals : List String) (host : σ) (x : Place Tree) :
    Certain p (.start tokens goals host) x [] := by
  rintro rs o outer - - t - ⟨e, he, -⟩
  cases he

end Certain

end StateDiagram
