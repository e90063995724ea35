import StateDiagram.Grammar.Reader
import StateDiagram.Proofs.Grammar.Format
import StateDiagram.Proofs.Grammar.Listed
import StateDiagram.Proofs.Grammar.Spelled
import StateDiagram.Proofs.Related

/-! What the reader takes for what. Every reading takes exactly the tokens of one form, and
nothing else; a text is read if and only if it has the form of some entries, and the grammar is
put together from these. -/
namespace StateDiagram.Grammar

/-- The reading takes the tokens of each form for what the form stands for, and takes nothing
else. -/
structure Reads {α β : Type} (read : (s : Tokens) → Except Malformed (Parsed s β))
    (tokens : α → List Token) (value : α → β) : Prop where
  accepts : ∀ a {s rest : Tokens}, rest.Begins s (tokens a) →
    ∃ r, read s = .ok r ∧ r.value = value a ∧ r.rest = rest
  derives : ∀ {s : Tokens} {r : Parsed s β}, s.Proper → read s = .ok r →
    ∃ a, r.rest.Begins s (tokens a) ∧ r.value = value a

open Wire

/-- Items in parentheses are read if their reading is, up to a closing parenthesis. -/
theorem Reads.block {α β : Type} {read : (s : Tokens) → Except Malformed (Parsed s β)}
    {tokens : α → List Token} {value : α → β} (hitem : Reads read tokens value)
    {loop : (s : Tokens) → Except Malformed (Parsed s (List β))}
    (hclosing : ∀ line rest, loop (.token .closing line rest) = .ok (.head _ _ _ []))
    (hopening : ∀ line rest, loop (.token .opening line rest) = do
      let x ← read rest
      let xs ← loop x.rest
      return (x.followed xs).after.map (x.value :: ·))
    (hother : ∀ s r, loop s = .ok r →
      ∃ line rest, s = .token .closing line rest ∨ s = .token .opening line rest) :
    Reads loop (blockTokens tokens) (List.map value) where
  accepts xs := by
    induction xs with
    | nil =>
      intro s rest h
      obtain ⟨line, rfl⟩ := h.singleton_inv
      exact ⟨_, hclosing line rest, rfl, rfl⟩
    | cons x xs ih =>
      intro s rest h
      rw [blockTokens_cons] at h
      obtain ⟨line, s', rfl, h'⟩ := h.cons_inv
      obtain ⟨mid, hx, hxs⟩ := h'.append_inv
      obtain ⟨r, hread, hvalue, rfl⟩ := hitem.accepts x hx
      obtain ⟨r', hread', hvalue', rfl⟩ := ih hxs
      simp only [hopening, hread, hread', bind, Except.bind, pure, Except.pure]
      exact ⟨_, rfl, congrArg₂ List.cons hvalue hvalue', rfl⟩
  derives {s r} hs h := by
    -- On the number of tokens: the loop goes on where an item ends, which may be far behind `s`.
    induction hsize : s.size using Nat.strong_induction_on generalizing s with
    | _ size ih =>
      subst hsize
      obtain ⟨line, rest, rfl | rfl⟩ := hother s r h
      · obtain rfl := Except.ok.inj ((hclosing line rest).symm.trans h)
        exact ⟨[], .cons _ .nil, rfl⟩
      · rw [hopening] at h
        obtain ⟨x, hx, h⟩ := bind_eq_ok h
        obtain ⟨xs, hxs, h⟩ := bind_eq_ok h
        cases h
        obtain ⟨a, hb, hvalue⟩ := hitem.derives hs.2 hx
        obtain ⟨as, hb', hvalue'⟩ :=
          ih _ (Nat.lt_succ_of_lt x.shorter) (hb.proper hs.2).2 hxs rfl
        refine ⟨a :: as, ?_, congrArg₂ List.cons hvalue hvalue'⟩
        rw [blockTokens_cons]
        exact .cons _ (hb.append hb')

theorem readWord_eq_ok {flaw : Flaw} {s : Tokens} {r : Parsed s (String × Nat)}
    (h : readWord flaw s = .ok r) : ∃ w line, r.value = (w, line) ∧ r.rest.Begins s [.word w] := by
  unfold readWord at h
  split at h
  · cases h
  · cases h
  · cases h
    exact ⟨_, _, rfl, .cons _ .nil⟩
  · cases h

theorem readClose_eq_ok {flaw : Flaw} {s : Tokens} {r : Parsed s Unit}
    (h : readClose flaw s = .ok r) : r.rest.Begins s [.closing] := by
  unfold readClose at h
  split at h
  · cases h
  · cases h
  · cases h
    exact .cons _ .nil
  · cases h

theorem readOpen_eq_ok {flaw : Flaw} {s : Tokens} {r : Parsed s Unit}
    (h : readOpen flaw s = .ok r) : r.rest.Begins s [.opening] := by
  unfold readOpen at h
  split at h
  · cases h
  · cases h
  · cases h
    exact .cons _ .nil
  · cases h

theorem readCoordinate_eq_ok {p : Place} {w : String} {line : Nat} {n : Int32}
    (h : readCoordinate p (w, line) = .ok n) : ∃ x : Coordinate, x.text = w ∧ x.value = n := by
  unfold readCoordinate at h
  split at h
  · rename_i m hm
    obtain rfl := Except.ok.inj h
    exact ⟨⟨w, m, hm⟩, rfl, rfl⟩
  · cases h

theorem readCoordinate_text (p : Place) (x : Coordinate) (line : Nat) :
    readCoordinate p (x.text, line) = .ok x.value := by
  simp only [readCoordinate, x.reads]

theorem isNil_iff {t : Token} :
    t.isNil = true ↔ ∃ k : Keyword ["nil", "null"], t = .word k.text := by
  simpa [Token.isNil] using @any_isKeyword ["nil", "null"] t

theorem isKeyword_iff {name : String} {t : Token} :
    t.isKeyword name = true ↔ ∃ k : Keyword [name], t = .word k.text := by
  simpa using @any_isKeyword [name] t

/-- What says that a node begins no phrase. -/
theorem isNever_iff {t : Token} : (t.isNil || t.isKeyword "false") = true ↔
    ∃ k : Keyword ["nil", "null", "false"], t = .word k.text := by
  simpa [Token.isNil, or_assoc] using @any_isKeyword ["nil", "null", "false"] t

/-- What says that a node begins whatever phrase. -/
theorem isAlways_iff {t : Token} : (t.isKeyword "t" || t.isKeyword "true") = true ↔
    ∃ k : Keyword ["t", "true"], t = .word k.text := by
  simpa using @any_isKeyword ["t", "true"] t

section Readings

variable (p : Place)

theorem reads_types (field : TypeField) :
    Reads (readTypes p field) typeTokens fun ts => ts.map (·.text) where
  accepts ts := by
    induction ts with
    | nil =>
      intro s rest h
      obtain ⟨line, rfl⟩ := h.singleton_inv
      exact ⟨_, rfl, rfl, rfl⟩
    | cons t ts ih =>
      intro s rest h
      obtain ⟨line, s', rfl, h'⟩ := h.cons_inv
      obtain ⟨r, hread, hvalue, rfl⟩ := ih h'
      simp only [readTypes, t.plain, hread, Bool.false_eq_true, if_false]
      exact ⟨_, rfl, congrArg (t.text :: ·) hvalue, rfl⟩
  derives {s r} hs h := by
    induction s with
    | done line => cases h
    | failed flaw line => cases h
    | token t line rest ih =>
      cases t with
      | opening => cases h
      | quoted w => cases h
      | closing =>
        cases h
        exact ⟨[], .cons _ .nil, rfl⟩
      | word w =>
        simp only [readTypes] at h
        cases hdigit : startsWithDigit w with
        | true => simp [hdigit] at h
        | false =>
          rw [hdigit, if_neg Bool.false_ne_true] at h
          obtain ⟨r', hr', h⟩ := bind_eq_ok h
          cases h
          obtain ⟨ts, hbegins, hvalue⟩ := ih hs.2 hr'
          exact ⟨⟨w, hdigit⟩ :: ts, .cons _ hbegins, congrArg (w :: ·) hvalue⟩

theorem reads_begins : Reads (readBegins p) Begins.tokens Begins.value where
  accepts b := by
    intro s rest h
    cases b with
    | never k =>
      obtain ⟨line, rfl⟩ := h.singleton_inv
      simp only [readBegins, isNever_iff.2 ⟨k, rfl⟩, if_true]
      exact ⟨_, rfl, rfl, rfl⟩
    | always k =>
      obtain ⟨line, rfl⟩ := h.singleton_inv
      have hnever :
          ((Token.word k.text).isNil || (Token.word k.text).isKeyword "false") = false := by
        have hnone : ["nil", "null", "false"].any (fun name => (Token.word k.text).isKeyword name) =
          false := k.any_eq_false (by decide)
        simpa [Token.isNil, and_assoc] using hnone
      simp only [readBegins, hnever, isAlways_iff.2 ⟨k, rfl⟩, Bool.false_eq_true, if_true, if_false]
      exact ⟨_, rfl, rfl, rfl⟩
    | types ts =>
      obtain ⟨line, s', rfl, h'⟩ := h.cons_inv
      obtain ⟨r, hread, hvalue, rfl⟩ := (reads_types p .begins).accepts ts h'
      simp only [readBegins, hread]
      refine ⟨_, rfl, ?_, rfl⟩
      cases ts <;> simp [Parsed.map, Parsed.after, hvalue, Begins.value]
  derives {s r} hs h := by
    unfold readBegins at h
    split at h
    · cases h
    · cases h
    · obtain ⟨r', hr', h⟩ := bind_eq_ok h
      cases h
      obtain ⟨ts, hbegins, hvalue⟩ := (reads_types p .begins).derives hs.2 hr'
      refine ⟨.types ts, .cons _ hbegins, ?_⟩
      cases ts <;> simp [Parsed.map, Parsed.after, hvalue, Begins.value]
    · rename_i t line rest _
      split at h
      · rename_i hnever
        cases h
        obtain ⟨k, rfl⟩ := isNever_iff.1 hnever
        exact ⟨.never k, .cons _ .nil, rfl⟩
      · split at h
        · rename_i halways
          cases h
          obtain ⟨k, rfl⟩ := isAlways_iff.1 halways
          exact ⟨.always k, .cons _ .nil, rfl⟩
        · cases h

/-- What follows the word of the first coordinate. -/
theorem reads_coords (x : Coordinate) (line : Nat) (noSecond unclosed : InstanceFlaw) :
    Reads (readCoords p (x.text, line) noSecond unclosed)
      (fun y : Coordinate => [.word y.text, .closing]) fun y => ⟨x.value, y.value⟩ where
  accepts y := by
    intro s rest h
    obtain ⟨line', s', rfl, h'⟩ := h.cons_inv
    obtain ⟨line'', rfl⟩ := h'.singleton_inv
    simp only [readCoords, readCoordinate_text, readWord, Parsed.head, bind, Except.bind]
    exact ⟨_, rfl, rfl, rfl⟩
  derives {s r} hs h := by
    obtain ⟨x', hx, h⟩ := bind_eq_ok h
    obtain ⟨w, hw, h⟩ := bind_eq_ok h
    obtain ⟨y, hy, h⟩ := bind_eq_ok h
    obtain ⟨c, hc, h⟩ := bind_eq_ok h
    cases h
    rw [readCoordinate_text, Except.ok.injEq] at hx
    obtain ⟨text, line', hvalue, hword⟩ := readWord_eq_ok hw
    rw [hvalue] at hy
    obtain ⟨y, rfl, rfl⟩ := readCoordinate_eq_ok hy
    exact ⟨y, hword.append (readClose_eq_ok hc), by simp [Parsed.map, hx]⟩

theorem exists_coordinate {w : String} {line : Nat} {noSecond unclosed : InstanceFlaw} {s : Tokens}
    {r : Parsed s Coords} (h : readCoords p (w, line) noSecond unclosed s = .ok r) :
    ∃ x : Coordinate, x.text = w := by
  obtain ⟨x', hx, -⟩ := bind_eq_ok h
  obtain ⟨x, hx, -⟩ := readCoordinate_eq_ok hx
  exact ⟨x, hx⟩

/-- Coordinates may be left out before a closing parenthesis. -/
theorem reads_place {β : Type} {read : (s : Tokens) → Except Malformed (Parsed s β)}
    {value : Coords → β} {noSecond unclosed : InstanceFlaw}
    (hclosing : ∀ line rest, read (.token .closing line rest) = .ok (.head _ _ _ (value {})))
    (hword : ∀ w line rest, read (.token (.word w) line rest) = do
      let c ← readCoords p (w, line) noSecond unclosed rest
      return c.after.map value)
    (hother : ∀ s r, read s = .ok r →
      ∃ line rest, s = .token .closing line rest ∨ ∃ w, s = .token (.word w) line rest) :
    Reads read placeTokens fun place => value (Wire.coords place) where
  accepts place := by
    intro s rest h
    cases place with
    | none =>
      obtain ⟨line, rfl⟩ := h.singleton_inv
      exact ⟨_, hclosing line rest, rfl, rfl⟩
    | some xy =>
      obtain ⟨x, y⟩ := xy
      obtain ⟨line, s', rfl, h'⟩ := h.cons_inv
      obtain ⟨r, hread, hvalue, rfl⟩ := (reads_coords p x line noSecond unclosed).accepts y h'
      simp only [hword, hread, bind, Except.bind]
      exact ⟨_, rfl, congrArg value hvalue, rfl⟩
  derives {s r} hs h := by
    obtain ⟨line, rest, rfl | ⟨w, rfl⟩⟩ := hother s r h
    · obtain rfl := Except.ok.inj ((hclosing line rest).symm.trans h)
      exact ⟨none, .cons _ .nil, rfl⟩
    · rw [hword] at h
      obtain ⟨c, hc, h⟩ := bind_eq_ok h
      cases h
      obtain ⟨x, rfl⟩ := exists_coordinate p hc
      obtain ⟨y, hbegins, hvalue⟩ := (reads_coords p x _ _ _).derives hs.2 hc
      exact ⟨some (x, y), .cons _ hbegins, congrArg value hvalue⟩

theorem reads_linkEnd : Reads (readLinkEnd p) placeTokens Wire.coords := by
  refine @reads_place p _ (readLinkEnd p) id _ _ (fun _ _ => rfl) (fun _ _ _ => rfl) ?_
  intro s r h
  unfold readLinkEnd at h
  split at h
  · cases h
  · cases h
  · exact ⟨_, _, .inl rfl⟩
  · exact ⟨_, _, .inr ⟨_, rfl⟩⟩
  · cases h

theorem reads_link : Reads (readLink p) Successor.tokens Successor.link where
  accepts l := by
    intro s rest h
    obtain ⟨line, s₁, rfl, h₁⟩ := h.cons_inv
    obtain ⟨line', s₂, rfl, h₂⟩ := h₁.cons_inv
    obtain ⟨r, hread, hvalue, rfl⟩ := (reads_linkEnd p).accepts l.place h₂
    simp only [readLink, readWord, Parsed.head, bind, Except.bind, hread]
    exact ⟨_, rfl, by simp [Parsed.map, Parsed.followed, hvalue, Successor.link], rfl⟩
  derives {s r} hs h := by
    obtain ⟨w, hw, h⟩ := bind_eq_ok h
    obtain ⟨id, hid, h⟩ := bind_eq_ok h
    obtain ⟨c, hc, h⟩ := bind_eq_ok h
    cases h
    obtain ⟨word, line, hword, hb⟩ := readWord_eq_ok hw
    obtain ⟨name, line', hname, hb'⟩ := readWord_eq_ok hid
    obtain ⟨place, hb'', hvalue⟩ :=
      (reads_linkEnd p).derives (hb'.proper (hb.proper hs).2).2 hc
    refine ⟨⟨word, name, place⟩, hb.append (hb'.append hb''), ?_⟩
    simp [Parsed.map, Parsed.followed, hword, hname, hvalue, Successor.link]

theorem reads_links :
    Reads (readLinks p) (blockTokens Successor.tokens) fun ls => ls.map Successor.link := by
  refine (reads_link p).block (fun _ _ => by rw [readLinks]) (fun _ _ => by rw [readLinks]) ?_
  intro s r h
  unfold readLinks at h
  split at h
  · cases h
  · cases h
  · exact ⟨_, _, .inl rfl⟩
  · exact ⟨_, _, .inr rfl⟩
  · cases h

theorem reads_name : Reads readEntryWord (fun n : Name => [n.token]) Name.text where
  accepts n := by
    intro s rest h
    obtain ⟨line, rfl⟩ := h.singleton_inv
    cases n <;> exact ⟨_, rfl, rfl, rfl⟩
  derives {s r} hs h := by
    unfold readEntryWord at h
    split at h
    · cases h
    · cases h
    · cases h
      exact ⟨.word _, .cons _ .nil, rfl⟩
    · cases h
      exact ⟨.quoted _, .cons _ .nil, rfl⟩
    · cases h

/-- A node's kind as it is known before its value or its types are read. -/
def Wire.Kind.start : Kind → Node.Kind
  | .ends type => .ends type.text none
  | .continues ls => .continues (ls.map Successor.link) none

theorem reads_kind : Reads (readKind p) Kind.tokens Kind.start where
  accepts k := by
    intro s rest h
    cases k with
    | ends type =>
      obtain ⟨line, rfl⟩ := h.singleton_inv
      cases type <;> exact ⟨_, rfl, rfl, rfl⟩
    | continues ls =>
      obtain ⟨line, s', rfl, h'⟩ := h.cons_inv
      obtain ⟨r, hread, hvalue, rfl⟩ := (reads_links p).accepts ls h'
      simp only [readKind, hread, bind, Except.bind]
      exact ⟨_, rfl, by simp [Parsed.map, Parsed.after, hvalue, Kind.start], rfl⟩
  derives {s r} hs h := by
    unfold readKind at h
    split at h
    · cases h
    · cases h
    · cases h
    · obtain ⟨ls, hls, h⟩ := bind_eq_ok h
      cases h
      obtain ⟨ls', hb, hvalue⟩ := (reads_links p).derives hs.2 hls
      exact ⟨.continues ls', .cons _ hb, by simp [Parsed.map, Parsed.after, hvalue, Kind.start]⟩
    · cases h
      exact ⟨.ends (.word _), .cons _ .nil, rfl⟩
    · cases h
      exact ⟨.ends (.quoted _), .cons _ .nil, rfl⟩

theorem Wire.exists_quote {w : String} (h : IsQuoted w) : ∃ q : Quote, q.text = w := by
  obtain ⟨quote, inner, -, -, hw⟩ := h
  exact ⟨⟨w, quote, inner, hw⟩, rfl⟩

theorem reads_placement {n : Node} (hn : n.coords = {}) :
    Reads (readPlacement p n) placeTokens fun place => { n with coords := Wire.coords place } := by
  refine @reads_place p _ (readPlacement p n) (fun c => { n with coords := c }) _ _
    (fun _ _ => ?_) (fun _ _ _ => rfl) ?_
  · rw [← hn]
    rfl
  · intro s r h
    unfold readPlacement at h
    split at h
    · cases h
    · cases h
    · exact ⟨_, _, .inl rfl⟩
    · exact ⟨_, _, .inr ⟨_, rfl⟩⟩
    · cases h

theorem reads_action {n : Node} (hn : n.action = none) (hn' : n.coords = {}) :
    Reads (readAction p n) AfterFourth.tokens fun rest =>
      { n with action := rest.actionText, coords := rest.coords } where
  accepts rest := by
    intro s after h
    cases rest with
    | closed =>
      obtain ⟨line, rfl⟩ := h.singleton_inv
      refine ⟨_, rfl, ?_, rfl⟩
      rw [AfterFourth.actionText, AfterFourth.coords, ← hn, ← hn']
      rfl
    | action a place =>
      obtain ⟨line, s', rfl, h'⟩ := h.cons_inv
      cases a with
      | nothing k =>
        obtain ⟨r, hread, hvalue, rfl⟩ := (reads_placement p hn').accepts place h'
        simp only [Action.token, readAction, isNil_iff.2 ⟨k, rfl⟩, if_true, hread, bind,
          Except.bind]
        refine ⟨_, rfl, hvalue.trans ?_, rfl⟩
        rw [AfterFourth.actionText, AfterFourth.coords, ← hn]
      | quoted q =>
        obtain ⟨r, hread, hvalue, rfl⟩ :=
          (@reads_placement p { n with action := q.value } hn').accepts place h'
        simp only [Action.token, readAction, q.unquote, hread, bind, Except.bind]
        exact ⟨_, rfl, hvalue, rfl⟩
  derives {s r} hs h := by
    unfold readAction at h
    split at h
    · cases h
    · cases h
    · cases h
      refine ⟨.closed, .cons _ .nil, ?_⟩
      rw [AfterFourth.actionText, AfterFourth.coords, ← hn, ← hn']
      rfl
    · obtain ⟨m, hm, h⟩ := bind_eq_ok h
      cases h
      obtain ⟨q, rfl⟩ := exists_quote hs.1
      rw [q.unquote] at hm
      obtain ⟨place, hb, hvalue⟩ :=
        (@reads_placement p { n with action := q.value } hn').derives hs.2 hm
      exact ⟨.action (.quoted q) place, .cons _ hb, hvalue⟩
    · split at h
      · rename_i t line rest _ _ hnil
        obtain ⟨m, hm, h⟩ := bind_eq_ok h
        cases h
        obtain ⟨k, rfl⟩ := isNil_iff.1 hnil
        obtain ⟨place, hb, hvalue⟩ := (reads_placement p hn').derives hs.2 hm
        refine ⟨.action (.nothing k) place, .cons _ hb, hvalue.trans ?_⟩
        rw [AfterFourth.actionText, AfterFourth.coords, ← hn]
      · cases h

/-- A node of which nothing is known yet but its kind and what it begins. -/
structure Begun (n : Node) : Prop where
  value : n.value? = none
  action : n.action = none
  coords : n.coords = {}

/-- The kind of a node, once its value or its types have been read. -/
def Wire.AfterKind.onto (rest : AfterKind) : Node.Kind → Node.Kind
  | .ends type _ => .ends type rest.value
  | .continues links _ => .continues links rest.types

/-- The fourth field of a node. -/
def Wire.Fourth.set (n : Node) : Fourth → Node
  | .unknown _ => n.setTypes none
  | .nothing _ => n.setTypes (some [])
  | .types ts => n.setTypes (some (ts.map (·.text)))
  | .value q => (n.setTypes (some [])).setValue q.value

theorem Begun.set {n : Node} (hn : Begun n) (f : Fourth) (rest : AfterFourth) :
    f.set n = { n with kind := (AfterKind.fourth f rest).onto n.kind } := by
  obtain ⟨word, id, kind⟩ := n
  cases kind with
  | continues links types => cases f <;> rfl
  | ends type value =>
    obtain rfl : value = none := hn.value
    cases f <;> rfl

theorem Begun.setTypes_nil {n : Node} (hn : Begun n) : n.setTypes (some []) =
    { n with kind := AfterKind.closed.onto n.kind, action := none, coords := {} } := by
  obtain ⟨word, id, kind, initial, begins, action, coords, incoming⟩ := n
  obtain ⟨hvalue, rfl, rfl⟩ := hn
  cases kind with
  | continues links types => rfl
  | ends type value =>
    obtain rfl : value = none := hvalue
    rfl

/-- After a fourth field the action is read. -/
theorem readTypesOrValue_fourth {n : Node} {f : Fourth} {s mid : Tokens} {r : Parsed mid Node}
    (h : mid.Begins s f.tokens) (hr : readAction p (f.set n) mid = .ok r) :
    ∃ r', readTypesOrValue p n s = .ok r' ∧ r'.value = r.value ∧ r'.rest = r.rest := by
  cases f with
  | unknown k =>
    obtain ⟨line, rfl⟩ := h.singleton_inv
    rw [Fourth.set] at hr
    simp only [readTypesOrValue, isKeyword_iff.2 ⟨k, rfl⟩, if_true, hr]
    exact ⟨_, rfl, rfl, rfl⟩
  | nothing k =>
    obtain ⟨line, rfl⟩ := h.singleton_inv
    have hunknown : (Token.word k.text).isKeyword "t" = false := by
      have hnone : ["t"].any (fun name => (Token.word k.text).isKeyword name) = false :=
        k.any_eq_false (by decide)
      simpa using hnone
    rw [Fourth.set] at hr
    simp only [readTypesOrValue, hunknown, isNil_iff.2 ⟨k, rfl⟩, Bool.false_eq_true, if_false,
      if_true, hr]
    exact ⟨_, rfl, rfl, rfl⟩
  | types ts =>
    obtain ⟨line, s', rfl, h'⟩ := h.cons_inv
    obtain ⟨r', hread, hvalue, rfl⟩ := (reads_types p .successorTypes).accepts ts h'
    rw [Fourth.set] at hr
    simp only [readTypesOrValue, hread, bind, Except.bind, hvalue, hr]
    exact ⟨_, rfl, rfl, rfl⟩
  | value q =>
    obtain ⟨line, rfl⟩ := h.singleton_inv
    rw [Fourth.set, ← q.unquote] at hr
    simp only [readTypesOrValue, hr]
    exact ⟨_, rfl, rfl, rfl⟩

theorem readTypesOrValue_eq_ok {n : Node} {s : Tokens} {r : Parsed s Node} (hs : s.Proper)
    (h : readTypesOrValue p n s = .ok r) :
    (r.rest.Begins s [.closing] ∧ r.value = n.setTypes (some [])) ∨
      ∃ (f : Fourth) (mid : Tokens) (r' : Parsed mid Node), mid.Begins s f.tokens ∧
        readAction p (f.set n) mid = .ok r' ∧ r.value = r'.value ∧ r.rest = r'.rest := by
  unfold readTypesOrValue at h
  split at h
  · cases h
  · cases h
  · cases h
    exact .inl ⟨.cons _ .nil, rfl⟩
  · obtain ⟨ts, hts, h⟩ := bind_eq_ok h
    obtain ⟨m, hm, h⟩ := bind_eq_ok h
    cases h
    obtain ⟨ts', hb, hvalue⟩ := (reads_types p _).derives hs.2 hts
    rw [hvalue] at hm
    exact .inr ⟨.types ts', _, m, .cons _ hb, hm, rfl, rfl⟩
  · obtain ⟨m, hm, h⟩ := bind_eq_ok h
    cases h
    obtain ⟨q, rfl⟩ := exists_quote hs.1
    rw [q.unquote] at hm
    exact .inr ⟨.value q, _, m, .cons _ .nil, hm, rfl, rfl⟩
  · rename_i w line rest
    split at h
    · rename_i hunknown
      obtain ⟨m, hm, h⟩ := bind_eq_ok h
      cases h
      obtain ⟨k, hk⟩ := isKeyword_iff.1 hunknown
      rw [hk]
      exact .inr ⟨.unknown k, _, m, .cons _ .nil, hm, rfl, rfl⟩
    · split at h
      · rename_i hnothing
        obtain ⟨m, hm, h⟩ := bind_eq_ok h
        cases h
        obtain ⟨k, hk⟩ := isNil_iff.1 hnothing
        exact .inr ⟨.nothing k, _, m, hk ▸ .cons _ .nil, hm, rfl, rfl⟩
      · cases h

theorem Begun.reads_action {n : Node} (hn : Begun n) (f : Fourth) :
    Reads (readAction p (f.set n)) AfterFourth.tokens fun rest =>
      { n with
        kind := (AfterKind.fourth f rest).onto n.kind
        action := rest.actionText
        coords := rest.coords } := by
  have hread := Grammar.reads_action p (n := f.set n)
    (by rw [hn.set f .closed]; exact hn.action) (by rw [hn.set f .closed]; exact hn.coords)
  refine ⟨fun rest _ _ h => ?_, fun hs h => ?_⟩
  · obtain ⟨r, hr, hvalue, hafter⟩ := hread.accepts rest h
    rw [hn.set f rest] at hvalue
    exact ⟨r, hr, hvalue, hafter⟩
  · obtain ⟨rest, hb, hvalue⟩ := hread.derives hs h
    rw [hn.set f rest] at hvalue
    exact ⟨rest, hb, hvalue⟩

theorem reads_typesOrValue {n : Node} (hn : Begun n) :
    Reads (readTypesOrValue p n) AfterKind.tokens fun rest =>
      { n with kind := rest.onto n.kind, action := rest.action, coords := rest.coords } where
  accepts rest := by
    intro s after h
    cases rest with
    | closed =>
      obtain ⟨line, rfl⟩ := h.singleton_inv
      exact ⟨_, rfl, hn.setTypes_nil, rfl⟩
    | fourth f rest =>
      obtain ⟨mid, hf, hrest⟩ := h.append_inv
      obtain ⟨r, hread, hvalue, rfl⟩ := (hn.reads_action p f).accepts rest hrest
      obtain ⟨r', hread', hvalue', hafter⟩ := readTypesOrValue_fourth p hf hread
      exact ⟨r', hread', hvalue'.trans hvalue, hafter⟩
  derives {s r} hs h := by
    obtain ⟨hb, hvalue⟩ | ⟨f, mid, r', hb, hread, hvalue, hafter⟩ := readTypesOrValue_eq_ok p hs h
    · exact ⟨.closed, hb, hvalue.trans hn.setTypes_nil⟩
    · obtain ⟨rest, hb', hvalue'⟩ := (hn.reads_action p f).derives (hb.proper hs).2 hread
      exact ⟨.fourth f rest, hafter ▸ hb.append hb', hvalue.trans hvalue'⟩

end Readings

/-- A node before its value or its types are read. -/
def Wire.start (word id : String) (k : Kind) (b : Begins) : Node :=
  ({ word, id, kind := k.start } : Node).setInitial b.value.1 b.value.2

theorem Wire.begun_start (word id : String) (k : Kind) (b : Begins) :
    Begun (Wire.start word id k b) := by
  cases k <;> exact ⟨rfl, rfl, rfl⟩

theorem Wire.Instance.node_eq (word : String) (i : Instance) :
    { Wire.start word i.id i.kind i.begins with
      kind := i.rest.onto i.kind.start
      action := i.rest.action
      coords := i.rest.coords } = i.node word := by
  have hkind : i.rest.onto i.kind.start = i.kindRead := by
    unfold Instance.kindRead
    cases i.kind <;> rfl
  simp only [Wire.start, Node.setInitial, i.begins.set, hkind]
  rfl

theorem reads_instance (word : String) :
    Reads (readInstance word) Instance.tokens (Instance.node word) where
  accepts i := by
    intro s rest h
    obtain ⟨line, s₁, rfl, h₁⟩ := h.cons_inv
    obtain ⟨mid, hbegins, h₂⟩ := Tokens.Begins.append_inv h₁
    obtain ⟨mid', hkind, hrest⟩ := h₂.append_inv
    obtain ⟨b, hb, hbvalue, rfl⟩ := (reads_begins ⟨word, i.id⟩).accepts i.begins hbegins
    obtain ⟨k, hk, hkvalue, rfl⟩ := (reads_kind ⟨word, i.id⟩).accepts i.kind hkind
    obtain ⟨m, hm, hmvalue, rfl⟩ := (reads_typesOrValue ⟨word, i.id⟩
      (begun_start word i.id i.kind i.begins)).accepts i.rest hrest
    simp only [readInstance, readWord, Parsed.head, bind, Except.bind, hb, hk, hbvalue, hkvalue]
    rw [Wire.start] at hm
    simp only [hm]
    exact ⟨_, rfl, hmvalue.trans (i.node_eq word), rfl⟩
  derives {s r} hs h := by
    obtain ⟨id, hid, h⟩ := bind_eq_ok h
    obtain ⟨b, hb, h⟩ := bind_eq_ok h
    obtain ⟨k, hk, h⟩ := bind_eq_ok h
    obtain ⟨m, hm, h⟩ := bind_eq_ok h
    cases h
    obtain ⟨name, line, hname, h₁⟩ := readWord_eq_ok hid
    obtain ⟨b', h₂, hbvalue⟩ := (reads_begins _).derives (h₁.proper hs).2 hb
    obtain ⟨k', h₃, hkvalue⟩ := (reads_kind _).derives (h₂.proper (h₁.proper hs).2).2 hk
    rw [hname, hbvalue, hkvalue] at hm
    obtain ⟨rest, h₄, hmvalue⟩ := (reads_typesOrValue _ (begun_start word name k' b')).derives
      (h₃.proper (h₂.proper (h₁.proper hs).2).2).2 hm
    refine ⟨⟨name, b', k', rest⟩, h₁.append (h₂.append (h₃.append h₄)), ?_⟩
    exact hmvalue.trans (Instance.node_eq word ⟨name, b', k', rest⟩)

theorem reads_instances (word : String) : Reads (readInstances word)
    (blockTokens Instance.tokens) fun is => is.map (Instance.node word) := by
  refine (reads_instance word).block (fun _ _ => by rw [readInstances])
    (fun _ _ => by rw [readInstances]) ?_
  intro s r h
  unfold readInstances at h
  split at h
  · cases h
  · cases h
  · exact ⟨_, _, .inl rfl⟩
  · exact ⟨_, _, .inr rfl⟩
  · cases h

theorem reads_entry : Reads readEntry Wire.Entry.tokens Wire.Entry.read where
  accepts e := by
    intro s rest h
    obtain ⟨mid, hword, h₁⟩ := @Tokens.Begins.append_inv _ _ [e.word.token] _ h
    obtain ⟨line, s', rfl, h₂⟩ := h₁.cons_inv
    obtain ⟨mid', hnodes, hclose⟩ := h₂.append_inv
    obtain ⟨line', rfl⟩ := hclose.singleton_inv
    obtain ⟨w, hw, hwvalue, hafter⟩ := reads_name.accepts e.word hword
    obtain ⟨ns, hns, hnsvalue, hafter'⟩ :=
      (reads_instances e.word.text).accepts e.instances hnodes
    obtain ⟨_, _, hw'⟩ := w
    obtain ⟨_, _, hns'⟩ := ns
    subst hwvalue hafter hnsvalue hafter'
    simp only [readEntry, hw, readOpen, Parsed.head, hns, readClose, bind, Except.bind]
    exact ⟨_, rfl, rfl, rfl⟩
  derives {s r} hs h := by
    obtain ⟨w, hw, h⟩ := bind_eq_ok h
    obtain ⟨start, hstart, h⟩ := bind_eq_ok h
    obtain ⟨ns, hns, h⟩ := bind_eq_ok h
    obtain ⟨stop, hstop, h⟩ := bind_eq_ok h
    cases h
    obtain ⟨word, h₁, hword⟩ := reads_name.derives hs hw
    have h₂ := readOpen_eq_ok hstart
    obtain ⟨is, h₃, hnodes⟩ :=
      (reads_instances w.value).derives (h₂.proper (h₁.proper hs).2).2 hns
    refine ⟨⟨word, is⟩, ?_, ?_⟩
    · exact h₁.append (h₂.append (h₃.append (readClose_eq_ok hstop)))
    · simp [Parsed.map, Parsed.followed, hword, hnodes, Wire.Entry.read, Wire.Entry.nodes]

/-- The entries of a text are read if and only if the whole text has their form. -/
theorem readEntries_iff {s : Tokens} (hs : s.Proper) {es : List Grammar.Entry} :
    readEntries s = .ok es ↔
      ∃ (fs : List Wire.Entry) (line : Nat), (Tokens.done line).Begins s (Wire.tokens fs) ∧
        es = fs.map Wire.Entry.read := by
  constructor
  · intro h
    fun_induction readEntries s generalizing es with
    | case1 line =>
      cases h
      exact ⟨[], line, .nil, rfl⟩
    | case2 flaw line => cases h
    | case3 line rest ih =>
      obtain ⟨e, he, h⟩ := bind_eq_ok h
      obtain ⟨es', hes, h⟩ := bind_eq_ok h
      cases h
      obtain ⟨f, hb, hvalue⟩ := reads_entry.derives hs.2 he
      obtain ⟨fs, last, hb', rfl⟩ := ih e (hb.proper hs.2).2 hes
      exact ⟨f :: fs, last, .cons _ (hb.append hb'), by rw [hvalue]; rfl⟩
    | case4 => cases h
  · rintro ⟨fs, line, hb, rfl⟩
    induction fs generalizing s with
    | nil =>
      obtain rfl := hb.nil_inv
      rw [readEntries]
      rfl
    | cons f fs ih =>
      obtain ⟨line', s', rfl, hb'⟩ := @Tokens.Begins.cons_inv _ _ _ (f.tokens ++ tokens fs) hb
      obtain ⟨mid, hf, hrest⟩ := hb'.append_inv
      obtain ⟨r, hread, hvalue, rfl⟩ := reads_entry.accepts f hf
      have hread' := ih (hf.proper hs.2).2 hrest
      rw [readEntries]
      simp only [hread, hread', hvalue, bind, Except.bind, pure, Except.pure, List.map_cons]

/-- A text is read if and only if its tokens have the form of some entries, and what it is read as
is put together from them. -/
theorem read_iff {text : String} {g : Grammar} :
    read text = .ok g ↔ ∃ es : List Wire.Entry, (Tokens.ofText text).flaw? = none ∧
      (Tokens.ofText text).toList.map Prod.fst = Wire.tokens es ∧
        ofEntries (es.map Wire.Entry.read) = g := by
  have hentries : read text = .ok g ↔
      ∃ es, readEntries (.ofText text) = .ok es ∧ ofEntries es = g := by
    rw [read]
    constructor
    · exact map_eq_ok
    · rintro ⟨es, hes, rfl⟩
      rw [hes]
      rfl
  rw [hentries]
  constructor
  · rintro ⟨es, hes, hg⟩
    obtain ⟨fs, line, hb, rfl⟩ := (readEntries_iff (Tokens.proper_scan _)).1 hes
    obtain ⟨hflaw, htokens⟩ := Tokens.begins_done.1 ⟨line, hb⟩
    exact ⟨fs, hflaw, htokens, hg⟩
  · rintro ⟨fs, hflaw, htokens, hg⟩
    obtain ⟨line, hb⟩ := Tokens.begins_done.2 ⟨hflaw, htokens⟩
    exact ⟨_, (readEntries_iff (Tokens.proper_scan _)).2 ⟨fs, line, hb, rfl⟩, hg⟩

theorem Wire.Instance.fresh (i : Instance) (word : String) : (i.node word).Fresh := by
  obtain ⟨id, b, kind, rest⟩ := i
  intro l hl
  cases kind with
  | ends type => cases hl
  | continues ls =>
    obtain ⟨l', -, rfl⟩ := List.mem_map.1 hl
    rfl

/-- A text is read if and only if it is cut into tokens without a flaw and they have the form of some
entries. Then, whatever entries they have the form of, the grammar has their words, its nodes are
those of the entries in the order of the text, and each word has those of all its entries. -/
theorem read_exact (text : String) :
    ((∃ g, read text = .ok g) ↔ (Tokens.ofText text).flaw? = none ∧
      ∃ es, (Tokens.ofText text).toList.map Prod.fst = Wire.tokens es) ∧
    ∀ es, (Tokens.ofText text).flaw? = none →
      (Tokens.ofText text).toList.map Prod.fst = Wire.tokens es →
      ∃ g, read text = .ok g ∧ g.marked = false ∧ g.nodes.toList = es.flatMap Wire.Entry.nodes ∧
        (∀ w, w ∈ g.words ↔ ∃ e ∈ es, e.word.text = w) ∧
        ∀ w, (g.instances w).map (g.nodes[·]?) =
          ((es.filter fun e => e.word.text = w).flatMap Wire.Entry.nodes).map some := by
  constructor
  · simp only [read_iff]
    constructor
    · rintro ⟨-, es, hflaw, htokens, -⟩
      exact ⟨hflaw, es, htokens⟩
    · rintro ⟨hflaw, es, htokens⟩
      exact ⟨_, es, hflaw, htokens, rfl⟩
  · intro es hflaw htokens
    let g := ofEntries (es.map Wire.Entry.read)
    have hread : read text = .ok g := read_iff.2 ⟨es, hflaw, htokens, rfl⟩
    have hnodes : g.nodes.toList = es.flatMap Wire.Entry.nodes := by
      rw [nodes_ofEntries, List.flatMap_map]
      exact List.flatMap_congr fun e _ => e.named_read
    have hbuilt : g.Built := by
      refine built_ofEntries fun e he n hn => ?_
      obtain ⟨f, -, rfl⟩ := List.mem_map.1 he
      obtain ⟨i, -, rfl⟩ := List.mem_map.1 hn
      exact i.fresh _
    refine ⟨g, hread, marked_ofEntries _, hnodes, fun w => ?_, fun w => ?_⟩
    · rw [mem_words_ofEntries]
      simp [Wire.Entry.read]
    · rw [hbuilt.listed.map_instances, ofWord, hnodes, Wire.filter_nodes]

/-- The word `a` has two entries, and its nodes stand before and behind that of `b`. -/
theorem read_exact_twice :
    let text := "(a ((1 NULL ((b x 2 -3)) t nil)))\n(\"b\" ((x (X) X \"v\" '' 4 5)))\n(a ((2 () Y)))"
    (Tokens.ofText text).flaw? = none ∧ ∃ g, read text = .ok g ∧ g.nodes.toList = [
      { word := "a", id := "1",
        kind := .continues [{ word := "b", id := "x", coords := ⟨2, -3⟩ }] none },
      { word := "\"b\"", id := "x", initial := true, begins := some ["X"],
        kind := .ends "X" (some "v"), coords := ⟨4, 5⟩ },
      { word := "a", id := "2", kind := .ends "Y" none }] ∧
      (g.instances "a").map (fun i => g.nodes[i]?.map Node.id) = [some "1", some "2"] := by
  intro text
  let es : List Wire.Entry := [
    ⟨.word "a", [⟨"1", .never ⟨"NULL", "null", by simp, by decide⟩,
      .continues [⟨"b", "x", some (⟨"2", 2, by decide⟩, ⟨"-3", -3, by decide⟩)⟩],
      .fourth (.unknown ⟨"t", "t", by simp, by decide⟩)
        (.action (.nothing ⟨"nil", "nil", by simp, by decide⟩) none)⟩]⟩,
    ⟨.quoted "\"b\"", [⟨"x", .types [⟨"X", by decide⟩], .ends (.word "X"),
      .fourth (.value ⟨"\"v\"", '"', ['v'], by decide⟩)
        (.action (.quoted ⟨"''", '\'', [], by decide⟩)
          (some (⟨"4", 4, by decide⟩, ⟨"5", 5, by decide⟩)))⟩]⟩,
    ⟨.word "a", [⟨"2", .types [], .ends (.word "Y"), .closed⟩]⟩]
  have hflaw : (Tokens.ofText text).flaw? = none := by decide +kernel
  have htokens : (Tokens.ofText text).toList.map Prod.fst = Wire.tokens es := by decide +kernel
  obtain ⟨g, hread, -, hnodes, -, hinstances⟩ := (read_exact text).2 es hflaw htokens
  refine ⟨hflaw, g, hread, hnodes.trans (by decide +kernel), ?_⟩
  have hids := congrArg (List.map (Option.map Node.id)) (hinstances "a")
  rw [List.map_map] at hids
  exact hids.trans (by decide +kernel)

end StateDiagram.Grammar
