import StateDiagram.Grammar.Token
import Mathlib.Data.List.TakeWhile

/-! Texts and their tokens. A text that is put together from tokens, with blanks or parentheses
behind its words, is cut into these tokens again; and all tokens that a text is cut into can be put
into a text. -/
namespace StateDiagram.Grammar

open Text

/-- A text that is one word token. -/
def IsWord (w : String) : Prop :=
  w.toList ≠ [] ∧ (∀ c ∈ w.toList, endsWord c = false) ∧ w.toList.head? ≠ some '\''

instance (w : String) : Decidable (IsWord w) :=
  haveI : Decidable (∀ c ∈ w.toList, endsWord c = false) := List.decidableBAll _ _
  inferInstanceAs (Decidable (_ ∧ _ ∧ _))

/-- Whether a text can stand between quotes: read from left to right, where a backslash takes the
next character along, it has no quote and does not end in a lone backslash. -/
def quotable (quote : Char) : List Char → Bool
  | [] => true
  | ['\\'] => false
  | '\\' :: _ :: cs => quotable quote cs
  | c :: cs => c != quote && quotable quote cs

/-- A text that is one quoted token. -/
def IsQuoted (w : String) : Prop :=
  ∃ quote cs, (quote = '\'' ∨ quote = '"') ∧ quotable quote cs = true ∧
    w.toList = quote :: (cs ++ [quote])

/-- A text that is one token other than a parenthesis. -/
def IsName (w : String) : Prop :=
  IsWord w ∨ IsQuoted w

namespace Token

/-- A token as it is found in a text. -/
def Proper : Token → Prop
  | opening => True
  | closing => True
  | quoted w => IsQuoted w
  | word w => IsWord w

end Token

/-- The text is at its end, or a word ends before it. -/
def Delimited (cs : List Char) : Prop :=
  ∀ c ∈ cs.head?, endsWord c = true

/-- Blanks and tokens, one after the other. -/
inductive Spelled : List Char → List Token → Prop where
  | nil : Spelled [] []
  | blank {c : Char} {cs : List Char} {ts : List Token} : isBlank c = true → Spelled cs ts →
    Spelled (c :: cs) ts
  | opening {cs : List Char} {ts : List Token} : Spelled cs ts →
    Spelled ('(' :: cs) (.opening :: ts)
  | closing {cs : List Char} {ts : List Token} : Spelled cs ts →
    Spelled (')' :: cs) (.closing :: ts)
  | quoted {w : String} {cs : List Char} {ts : List Token} : IsQuoted w → Spelled cs ts →
    Spelled (w.toList ++ cs) (.quoted w :: ts)
  | word {w : String} {cs : List Char} {ts : List Token} : IsWord w → Delimited cs →
    Spelled cs ts → Spelled (w.toList ++ cs) (.word w :: ts)

/-- The tokens `ts` come first, whatever their lines are, and then those of `rest`. -/
inductive Tokens.Begins (rest : Tokens) : Tokens → List Token → Prop where
  | nil : Begins rest rest []
  | cons {t : Token} {s : Tokens} {ts : List Token} (line : Nat) : Begins rest s ts →
    Begins rest (.token t line s) (t :: ts)

/-- All tokens are such as are found in a text. -/
def Tokens.Proper : Tokens → Prop
  | .done _ => True
  | .failed _ _ => True
  | .token t _ rest => t.Proper ∧ rest.Proper

theorem Tokens.Begins.cons_inv {rest s : Tokens} {t : Token} {ts : List Token}
    (h : rest.Begins s (t :: ts)) : ∃ line s', s = .token t line s' ∧ rest.Begins s' ts := by
  cases h with
  | cons line h => exact ⟨line, _, rfl, h⟩

theorem Tokens.Begins.append_inv {rest s : Tokens} {ts us : List Token}
    (h : rest.Begins s (ts ++ us)) : ∃ mid : Tokens, mid.Begins s ts ∧ rest.Begins mid us := by
  induction ts generalizing s with
  | nil => exact ⟨s, .nil, h⟩
  | cons t ts ih =>
    obtain ⟨line, s', rfl, h'⟩ := h.cons_inv
    obtain ⟨mid, hmid, hrest⟩ := ih h'
    exact ⟨mid, .cons line hmid, hrest⟩

theorem Tokens.Begins.nil_inv {rest s : Tokens} (h : rest.Begins s []) : s = rest := by
  cases h with
  | nil => rfl

theorem Tokens.Begins.singleton_inv {rest s : Tokens} {t : Token} (h : rest.Begins s [t]) :
    ∃ line, s = .token t line rest := by
  obtain ⟨line, s', rfl, h'⟩ := h.cons_inv
  obtain rfl := h'.nil_inv
  exact ⟨line, rfl⟩

theorem Tokens.Begins.append {rest mid s : Tokens} {ts us : List Token} (h : mid.Begins s ts)
    (h' : rest.Begins mid us) : rest.Begins s (ts ++ us) := by
  induction h with
  | nil => exact h'
  | cons line _ ih => exact .cons line ih

theorem Tokens.Begins.proper {rest s : Tokens} {ts : List Token} (h : rest.Begins s ts)
    (hs : s.Proper) : (∀ t ∈ ts, t.Proper) ∧ rest.Proper := by
  induction h with
  | nil => exact ⟨by simp, hs⟩
  | cons line _ ih =>
    obtain ⟨hts, hrest⟩ := ih hs.2
    exact ⟨List.forall_mem_cons.2 ⟨hs.1, hts⟩, hrest⟩

theorem Tokens.begins_done {s : Tokens} {ts : List Token} :
    (∃ line, (Tokens.done line).Begins s ts) ↔ s.flaw? = none ∧ s.toList.map Prod.fst = ts := by
  constructor
  · rintro ⟨line, h⟩
    induction h with
    | nil => exact ⟨rfl, rfl⟩
    | cons line h ih => exact ⟨ih.1, by simp [Tokens.toList, ih.2]⟩
  · rintro ⟨hflaw, rfl⟩
    induction s with
    | done line => exact ⟨line, .nil⟩
    | failed flaw line => cases hflaw
    | token t line rest ih =>
      obtain ⟨last, hlast⟩ := ih hflaw
      exact ⟨last, .cons line hlast⟩

theorem quotable_cons {quote c : Char} {cs : List Char} (hc : c ≠ '\\') :
    quotable quote (c :: cs) = (c != quote && quotable quote cs) := by
  rw [quotable.eq_4]
  · exact fun h _ => hc h
  · exact fun _ _ h _ => hc h

theorem readQuoted_cons {quote c : Char} {cs : List Char} (hc : c ≠ '\\') :
    readQuoted quote (c :: cs) =
      if c = quote then .ok ([c], cs) else putFirst [c] (readQuoted quote cs) := by
  rw [readQuoted.eq_4]
  · exact fun h _ => hc h
  · exact fun _ _ h _ => hc h

/-- A quotable text is read up to the quote behind it. -/
theorem readQuoted_append {quote : Char} (hquote : quote ≠ '\\') {cs : List Char}
    (h : quotable quote cs = true) (rest : List Char) :
    readQuoted quote (cs ++ quote :: rest) = .ok (cs ++ [quote], rest) := by
  fun_induction quotable quote cs with
  | case1 =>
    rw [List.nil_append, readQuoted_cons hquote, if_pos rfl, List.nil_append]
  | case2 => cases h
  | case3 c cs ih =>
    rw [List.cons_append, List.cons_append, readQuoted, ih h]
    rfl
  | case4 c cs h₁ h₂ ih =>
    have hc : c ≠ '\\' := by
      rintro rfl
      cases cs with
      | nil => exact h₁ rfl rfl
      | cons d ds => exact h₂ d ds rfl rfl
    rw [Bool.and_eq_true, bne_iff_ne] at h
    rw [List.cons_append, readQuoted_cons hc, if_neg h.1, ih h.2]
    rfl

/-- What is read as a quoted text is quotable, up to the quote. -/
theorem quotable_of_readQuoted {quote : Char} {cs text rest : List Char}
    (h : readQuoted quote cs = .ok (text, rest)) :
    ∃ inner, text = inner ++ [quote] ∧ quotable quote inner = true := by
  fun_induction readQuoted quote cs generalizing text with
  | case1 => cases h
  | case2 => cases h
  | case3 c cs ih =>
    obtain ⟨tail, hr, rfl⟩ := putFirst_eq_ok h
    obtain ⟨inner, rfl, hinner⟩ := ih hr
    exact ⟨'\\' :: c :: inner, rfl, hinner⟩
  | case4 cs _ _ =>
    cases h
    exact ⟨[], rfl, rfl⟩
  | case5 c cs h₁ h₂ hne ih =>
    obtain ⟨tail, hr, rfl⟩ := putFirst_eq_ok h
    obtain ⟨inner, rfl, hinner⟩ := ih hr
    have hc : c ≠ '\\' := by
      rintro rfl
      cases cs with
      | nil => exact h₁ rfl rfl
      | cons d ds => exact h₂ d ds rfl rfl
    refine ⟨c :: inner, rfl, ?_⟩
    rw [quotable_cons hc, Bool.and_eq_true, bne_iff_ne]
    exact ⟨hne, hinner⟩

theorem IsWord.cons {w : String} (h : IsWord w) : ∃ c cs, w.toList = c :: cs ∧
    endsWord c = false ∧ c ≠ '\'' ∧ ∀ d ∈ cs, endsWord d = false := by
  obtain ⟨hne, hends, hquote⟩ := h
  cases hw : w.toList with
  | nil => exact absurd hw hne
  | cons c cs =>
    rw [hw] at hends hquote
    exact ⟨c, cs, rfl, hends c (List.mem_cons_self ..), by simpa using hquote,
      fun d hd => hends d (List.mem_cons_of_mem c hd)⟩

theorem not_endsWord {c : Char} (h : endsWord c = false) :
    isBlank c = false ∧ c ≠ '(' ∧ c ≠ ')' ∧ c ≠ '"' := by
  simpa [endsWord, and_assoc] using h

namespace Scanner

theorem next_of_not_blank {c : Char} {cs : List Char} {line : Nat} (h : isBlank c = false) :
    Scanner.next ⟨c :: cs, line⟩ = token line (c :: cs) := by
  simp [Scanner.next, skipBlanks, h, newlines]

theorem next_blank {c : Char} {cs : List Char} {line : Nat} (h : isBlank c = true) :
    Scanner.next ⟨c :: cs, line⟩ = Scanner.next ⟨cs, line + newlines [c]⟩ := by
  have hcount : newlines (c :: cs.takeWhile isBlank) =
      newlines [c] + newlines (cs.takeWhile isBlank) := @List.count_append _ _ _ [c] _
  simp [Scanner.next, skipBlanks, h, hcount, Nat.add_assoc]

theorem token_word {w : String} {cs : List Char} {line : Nat} (hw : IsWord w)
    (hcs : Delimited cs) : token line (w.toList ++ cs) = .token (.word w) ⟨cs, line⟩ := by
  obtain ⟨c, ds, hw', hc, hquote, hds⟩ := hw.cons
  obtain ⟨-, hopen, hclose, hdouble⟩ := not_endsWord hc
  have hnot : ∀ d ∈ ds, (!endsWord d) = true := fun d hd => by rw [hds d hd]; rfl
  have htake : (ds ++ cs).takeWhile (fun d => !endsWord d) = ds := by
    rw [List.takeWhile_append_of_pos hnot]
    cases cs with
    | nil => simp
    | cons e es => simp [hcs e (by simp)]
  have hdrop : (ds ++ cs).dropWhile (fun d => !endsWord d) = cs := by
    rw [List.dropWhile_append_of_pos hnot]
    cases cs with
    | nil => simp
    | cons e es => simp [hcs e (by simp)]
  have hof : String.ofList (c :: ds) = w := by rw [← hw', String.ofList_toList]
  rw [hw', List.cons_append, token.eq_4 _ _ _ hopen hclose, if_neg (not_or.2 ⟨hquote, hdouble⟩),
    htake, hdrop, hof]

theorem token_quoted {w : String} (cs : List Char) (line : Nat) (hw : IsQuoted w) :
    ∃ line', token line (w.toList ++ cs) = .token (.quoted w) ⟨cs, line'⟩ := by
  obtain ⟨quote, inner, hquote, hinner, hw'⟩ := hw
  have hof : String.ofList (quote :: (inner ++ [quote])) = w := by
    rw [← hw', String.ofList_toList]
  have hnot : quote ≠ '(' ∧ quote ≠ ')' ∧ quote ≠ '\\' := by
    obtain rfl | rfl := hquote <;> decide
  have hread := readQuoted_append hnot.2.2 hinner cs
  refine ⟨line + newlines (inner ++ [quote]), ?_⟩
  rw [hw', List.cons_append, List.append_assoc, List.singleton_append,
    token.eq_4 _ _ _ hnot.1 hnot.2.1, if_pos hquote, hread]
  simp only [hof]

/-- A token that is found is such as can be put into a text. -/
theorem proper_of_next {s s' : Scanner} {t : Token} (h : s.next = .token t s') : t.Proper := by
  have hhead : ∀ c ∈ s.skipBlanks.rest.head?, isBlank c = false := by
    intro c hc
    have hne : s.skipBlanks.rest ≠ [] := by
      intro hnil
      rw [hnil] at hc
      cases hc
    have hfirst := List.head_dropWhile_not isBlank (l := s.rest) hne
    rw [List.head?_eq_some_head hne, Option.mem_some_iff] at hc
    exact hc ▸ hfirst
  unfold Scanner.next token at h
  split at h
  · cases h
  · cases h
    trivial
  · cases h
    trivial
  · rename_i c cs hopen hclose heq
    split at h
    · rename_i hquote
      split at h
      · rename_i text rest hread
        cases h
        obtain ⟨inner, rfl, hinner⟩ := quotable_of_readQuoted hread
        exact ⟨c, inner, hquote, hinner, by simp⟩
      · cases h
    · rename_i hquote
      cases h
      rw [not_or] at hquote
      refine ⟨by simp, fun d hd => ?_, by simpa using hquote.1⟩
      rw [String.toList_ofList] at hd
      obtain rfl | hd := List.mem_cons.1 hd
      · have hblank := hhead d (by rw [heq]; rfl)
        simp only [endsWord, hblank, Bool.false_or, Bool.or_eq_false_iff, beq_eq_false_iff_ne]
        exact ⟨⟨hopen, hclose⟩, hquote.2⟩
      · simpa using List.mem_takeWhile_imp hd

end Scanner

namespace Tokens

theorem scan_of_next {s s' : Scanner} {t : Token} (h : s.next = .token t s') :
    scan s = .token t s'.line (scan s') := by
  rw [scan]
  split <;> simp_all

theorem scan_of_done {s s' : Scanner} (h : s.next = .done s') : scan s = .done s'.line := by
  rw [scan]
  split <;> simp_all

theorem scan_congr {s r : Scanner} (h : s.next = r.next) : scan s = scan r := by
  rw [scan, scan]
  split <;> split <;> simp_all

end Tokens

/-- A text that is put together from tokens is cut into them. -/
theorem Spelled.scan {cs : List Char} {ts : List Token} (h : Spelled cs ts) (line : Nat) :
    ∃ last, (Tokens.done last).Begins (Tokens.scan ⟨cs, line⟩) ts := by
  have hstep : ∀ {cs ds : List Char} {t : Token} {ts : List Token} {line line' : Nat},
      Scanner.next ⟨cs, line⟩ = .token t ⟨ds, line'⟩ →
      (∃ last, (Tokens.done last).Begins (Tokens.scan ⟨ds, line'⟩) ts) →
        ∃ last, (Tokens.done last).Begins (Tokens.scan ⟨cs, line⟩) (t :: ts) := by
    intro cs ds t ts line line' hnext ⟨last, hlast⟩
    rw [Tokens.scan_of_next hnext]
    exact ⟨last, .cons _ hlast⟩
  induction h generalizing line with
  | nil =>
    have hnext : Scanner.next ⟨[], line⟩ = .done ⟨[], line⟩ := by
      simp [Scanner.next, Scanner.skipBlanks, Scanner.token, newlines]
    rw [Tokens.scan_of_done hnext]
    exact ⟨line, .nil⟩
  | blank hc _ ih =>
    rw [Tokens.scan_congr (Scanner.next_blank hc)]
    exact ih _
  | opening _ ih => exact hstep (Scanner.next_of_not_blank (by decide)) (ih line)
  | closing _ ih => exact hstep (Scanner.next_of_not_blank (by decide)) (ih line)
  | @quoted w cs ts hw _ ih =>
    obtain ⟨line', hline⟩ := Scanner.token_quoted cs line hw
    refine hstep ?_ (ih line')
    obtain ⟨quote, inner, hquote, -, hw'⟩ := hw
    rw [← hline, hw', List.cons_append]
    refine Scanner.next_of_not_blank ?_
    obtain rfl | rfl := hquote <;> decide
  | @word w cs ts hw hcs _ ih =>
    refine hstep ?_ (ih line)
    rw [← Scanner.token_word hw hcs]
    obtain ⟨c, ds, hw', hc, -⟩ := hw.cons
    rw [hw', List.cons_append]
    exact Scanner.next_of_not_blank (not_endsWord hc).1

/-- The tokens of any text. -/
theorem Tokens.proper_scan (s : Scanner) : (Tokens.scan s).Proper := by
  fun_induction Tokens.scan s with
  | case1 s s' h => trivial
  | case2 s flaw s' h => trivial
  | case3 s t s' h ih => exact ⟨Scanner.proper_of_next h, ih⟩

end StateDiagram.Grammar
