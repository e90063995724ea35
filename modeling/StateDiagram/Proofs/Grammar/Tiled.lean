import StateDiagram.Proofs.Grammar.Spelled

/-! A text that is read token by token. Whatever number of calls has been made, what they have
consumed is their tokens with blanks before and between them, and the line counts the newlines in
it. A call fails exactly at a quote that has no counterpart, and takes all of the text then. -/
namespace StateDiagram.Grammar

open Text

/-- The text starts with a quote, and there is no such quote after it but those that a backslash
takes along. -/
def OpensQuote (cs : List Char) : Prop :=
  ∃ quote body, (quote = '\'' ∨ quote = '"') ∧ cs = quote :: body ∧
    ∀ inner rest, quotable quote inner = true → body ≠ inner ++ quote :: rest

namespace Scanner

/-- The scanner that a call leaves. -/
def Next.after : Next → Scanner
  | .token _ s => s
  | .done s => s
  | .failed _ s => s

/-- The scanner after `n` calls, whatever they returned. -/
def after : Nat → Scanner → Scanner
  | 0, s => s
  | n + 1, s => after n s.next.after

/-- The tokens that `n` calls return. -/
def tokens : Nat → Scanner → List Token
  | 0, _ => []
  | n + 1, s =>
    match s.next with
    | .token t s' => t :: tokens n s'
    | .done s' => tokens n s'
    | .failed _ s' => tokens n s'

/-- The next call fails. -/
def Fails (s : Scanner) : Prop :=
  ∃ flaw s', s.next = .failed flaw s'

instance (s : Scanner) : Decidable s.Fails :=
  match h : s.next with
  | .failed flaw s' => isTrue ⟨flaw, s', h⟩
  | .done _ => isFalse fun ⟨_, _, h'⟩ => Next.noConfusion (h.symm.trans h')
  | .token _ _ => isFalse fun ⟨_, _, h'⟩ => Next.noConfusion (h.symm.trans h')

theorem newlines_append (cs ds : List Char) : newlines (cs ++ ds) = newlines cs + newlines ds :=
  List.count_append

theorem newlines_cons {c : Char} (h : isBlank c = false) (cs : List Char) :
    newlines (c :: cs) = newlines cs := by
  refine List.count_cons_of_ne ?_
  rintro rfl
  cases h

theorem newlines_eq_zero {cs : List Char} (h : ∀ c ∈ cs, isBlank c = false) : newlines cs = 0 := by
  induction cs with
  | nil => rfl
  | cons c cs ih =>
    obtain ⟨hc, hcs⟩ := List.forall_mem_cons.1 h
    rw [newlines_cons hc, ih hcs]

/-- What follows a quote can be read exactly if the quote has a counterpart. -/
theorem opensQuote_iff {quote : Char} (hquote : quote = '\'' ∨ quote = '"') {body : List Char} :
    OpensQuote (quote :: body) ↔ ∃ flaw, readQuoted quote body = .error flaw := by
  constructor
  · rintro ⟨q, cs, -, heq, hnone⟩
    obtain ⟨rfl, rfl⟩ := List.cons.inj heq
    cases hread : readQuoted quote body with
    | error flaw => exact ⟨flaw, rfl⟩
    | ok r =>
      obtain ⟨inner, htext, hinner⟩ := quotable_of_readQuoted hread
      have happend := (append_of_readQuoted hread).1
      rw [htext, List.append_assoc] at happend
      exact absurd happend.symm (hnone inner r.2 hinner)
  · rintro ⟨flaw, hread⟩
    refine ⟨quote, body, hquote, rfl, fun inner rest hinner hbody => ?_⟩
    have hescape : quote ≠ '\\' := by obtain rfl | rfl := hquote <;> decide
    rw [hbody, readQuoted_append hescape hinner] at hread
    cases hread

/-- What a call does. A token is consumed with the blanks before it, and these are found again where
a part of the rest follows; without a token all is consumed. -/
inductive Called (s : Scanner) : Next → Prop where
  | done {s' : Scanner} : s'.rest = [] → s'.line = s.line + newlines s.rest →
    ¬OpensQuote (s.rest.dropWhile isBlank) → Spelled s.rest [] → Called s (.done s')
  | token {t : Token} {s' : Scanner} (read : List Char) : s.rest = read ++ s'.rest →
    s'.line = s.line + newlines read → ¬OpensQuote (s.rest.dropWhile isBlank) →
    (∀ us ts, us <+: s'.rest → Spelled us ts → Spelled (read ++ us) (t :: ts)) →
    Called s (.token t s')
  | failed {flaw : Flaw} {s' : Scanner} : s'.rest = [] → s'.line = s.line + newlines s.rest →
    OpensQuote (s.rest.dropWhile isBlank) → Called s (.failed flaw s')

theorem not_opensQuote {c : Char} (h : ¬(c = '\'' ∨ c = '"')) (cs : List Char) :
    ¬OpensQuote (c :: cs) := by
  rintro ⟨quote, body, hquote, heq, -⟩
  obtain ⟨rfl, -⟩ := List.cons.inj heq
  exact h hquote

theorem called_quote (line : Nat) {c : Char} (hc : c = '\'' ∨ c = '"') (cs : List Char) :
    Called ⟨c :: cs, line⟩ (token line (c :: cs)) := by
  have hnot : c ≠ '(' ∧ c ≠ ')' ∧ isBlank c = false := by obtain rfl | rfl := hc <;> decide
  have hdrop : (c :: cs).dropWhile isBlank = c :: cs := by simp [hnot.2.2]
  rw [token.eq_4 _ _ _ hnot.1 hnot.2.1, if_pos hc]
  cases hread : readQuoted c cs with
  | error flaw =>
    refine .failed rfl (congrArg (line + ·) (newlines_cons hnot.2.2 cs).symm) ?_
    rw [hdrop]
    exact (opensQuote_iff hc).2 ⟨flaw, hread⟩
  | ok r =>
    obtain ⟨text, rest⟩ := r
    obtain ⟨inner, rfl, hinner⟩ := quotable_of_readQuoted hread
    have hcs := (append_of_readQuoted hread).1
    have hquoted : IsQuoted (String.ofList (c :: (inner ++ [c]))) := ⟨c, inner, hc, hinner, by simp⟩
    refine .token (c :: (inner ++ [c])) (by rw [List.cons_append, hcs])
      (congrArg (line + ·) (newlines_cons hnot.2.2 _).symm) ?_ fun us ts _ hus => ?_
    · rw [hdrop, opensQuote_iff hc, hread]
      simp
    · simpa using Spelled.quoted hquoted hus

theorem called_word (line : Nat) {c : Char} (hc : endsWord c = false) (hquote : c ≠ '\'')
    (cs : List Char) : Called ⟨c :: cs, line⟩ (token line (c :: cs)) := by
  obtain ⟨hblank, hopen, hclose, hdouble⟩ := not_endsWord hc
  have hnot : ¬(c = '\'' ∨ c = '"') := not_or.2 ⟨hquote, hdouble⟩
  have hword : ∀ d ∈ c :: cs.takeWhile (fun d => !endsWord d), endsWord d = false :=
    List.forall_mem_cons.2 ⟨hc, fun d hd => by simpa using List.mem_takeWhile_imp hd⟩
  have hisWord : IsWord (String.ofList (c :: cs.takeWhile fun d => !endsWord d)) :=
    ⟨by simp, by simpa using hword, by simpa using hquote⟩
  rw [token.eq_4 _ _ _ hopen hclose, if_neg hnot]
  refine .token (c :: cs.takeWhile fun d => !endsWord d) ?_ ?_ ?_ fun us ts hus hspelled => ?_
  · rw [List.cons_append, List.takeWhile_append_dropWhile]
  · rw [newlines_eq_zero fun d hd => (not_endsWord (hword d hd)).1, Nat.add_zero]
  · rw [List.dropWhile_cons_of_neg (by simp [hblank])]
    exact not_opensQuote hnot cs
  · have hdelimited : Delimited us := fun d hd => by
      obtain ⟨vs, hvs⟩ : us <+: cs.dropWhile fun d => !endsWord d := hus
      have hstop := List.head?_dropWhile_not (fun d => !endsWord d) cs
      rw [← hvs, List.head?_append, Option.mem_def.1 hd] at hstop
      simpa using hstop
    simpa using Spelled.word hisWord hdelimited hspelled

/-- A parenthesis is a token of its own. -/
theorem called_single (line : Nat) {c : Char} {t : Token} (hc : endsWord c = true)
    (hblank : isBlank c = false) (hquote : c ≠ '"') (cs : List Char)
    (ht : ∀ us ts, Spelled us ts → Spelled (c :: us) (t :: ts)) :
    Called ⟨c :: cs, line⟩ (.token t ⟨cs, line⟩) := by
  refine .token [c] rfl ?_ ?_ fun us ts _ hus => ht us ts hus
  · rw [newlines_cons hblank]
    rfl
  · rw [List.dropWhile_cons_of_neg (by simp [hblank])]
    refine not_opensQuote (not_or.2 ⟨?_, hquote⟩) cs
    rintro rfl
    cases hc

theorem called_token (line : Nat) {c : Char} (h : isBlank c = false) (cs : List Char) :
    Called ⟨c :: cs, line⟩ (token line (c :: cs)) := by
  by_cases hquote : c = '\'' ∨ c = '"'
  · exact called_quote line hquote cs
  · obtain ⟨hsingle, hdouble⟩ := not_or.1 hquote
    by_cases hopen : c = '('
    · subst hopen
      exact called_single line rfl h hdouble cs fun _ _ => .opening
    · by_cases hclose : c = ')'
      · subst hclose
        exact called_single line rfl h hdouble cs fun _ _ => .closing
      · exact called_word line (by simp [endsWord, h, hopen, hclose, hdouble]) hsingle cs

/-- Blanks are consumed along with what comes after them. -/
theorem Called.blank {c : Char} {cs : List Char} {line : Nat} {r : Next} (hc : isBlank c = true)
    (h : Called ⟨cs, line + newlines [c]⟩ r) : Called ⟨c :: cs, line⟩ r := by
  have hdrop : (c :: cs).dropWhile isBlank = cs.dropWhile isBlank := by simp [hc]
  have hlines : ∀ ds, line + newlines [c] + newlines ds = line + newlines (c :: ds) := fun ds => by
    rw [Nat.add_assoc, ← newlines_append, List.singleton_append]
  cases h with
  | done hnil hline hclosed hspelled =>
    exact .done hnil (hline.trans (hlines cs)) (by rwa [hdrop]) (.blank hc hspelled)
  | token read hrest hline hclosed hspelled =>
    exact .token (c :: read) (congrArg (c :: ·) hrest) (hline.trans (hlines read)) (by rwa [hdrop])
      fun us ts hus hspells => .blank hc (hspelled us ts hus hspells)
  | failed hnil hline hopens => exact .failed hnil (hline.trans (hlines cs)) (by rwa [hdrop])

theorem called_next (s : Scanner) : Called s s.next := by
  obtain ⟨rest, line⟩ := s
  induction rest generalizing line with
  | nil =>
    refine .done rfl rfl ?_ .nil
    rintro ⟨quote, body, -, h, -⟩
    cases h
  | cons c cs ih =>
    by_cases hc : isBlank c = true
    · rw [next_blank hc]
      exact .blank hc (ih _)
    · rw [next_of_not_blank (by simpa using hc)]
      exact called_token line (by simpa using hc) cs

/-- A call fails exactly if a quote without a counterpart comes after the blanks. -/
theorem fails_iff (s : Scanner) : s.Fails ↔ OpensQuote (s.rest.dropWhile isBlank) := by
  have hcalled := s.called_next
  generalize hnext : s.next = r at hcalled
  cases hcalled with
  | done _ _ hclosed _ => exact iff_of_false (by simp [Fails, hnext]) hclosed
  | token _ _ _ hclosed _ => exact iff_of_false (by simp [Fails, hnext]) hclosed
  | failed _ _ hopens => exact iff_of_true ⟨_, _, hnext⟩ hopens

theorem next_of_nil {s : Scanner} (h : s.rest = []) : s.next = .done s := by
  obtain ⟨rest, line⟩ := s
  subst h
  rfl

theorem after_of_nil {s : Scanner} (h : s.rest = []) (n : Nat) : s.after n = s := by
  induction n with
  | zero => rfl
  | succ n ih =>
    rw [after, next_of_nil h]
    exact ih

theorem tokens_of_nil {s : Scanner} (h : s.rest = []) (n : Nat) : s.tokens n = [] := by
  induction n with
  | zero => rfl
  | succ n ih =>
    rw [tokens, next_of_nil h]
    exact ih

/-- What `n` calls consume. -/
theorem exists_read (n : Nat) (s : Scanner) : ∃ read, s.rest = read ++ (s.after n).rest ∧
    (s.after n).line = s.line + newlines read ∧
    ((∀ m < n, ¬(s.after m).Fails) → Spelled read (s.tokens n)) := by
  induction n generalizing s with
  | zero => exact ⟨[], rfl, rfl, fun _ => .nil⟩
  | succ n ih =>
    have hcalled := s.called_next
    rw [after]
    generalize hnext : s.next = r at hcalled
    cases hcalled with
    | done hnil hline _ hspelled =>
      refine ⟨s.rest, ?_, ?_, fun _ => ?_⟩
      · rw [Next.after, after_of_nil hnil, hnil, List.append_nil]
      · rw [Next.after, after_of_nil hnil, hline]
      · rw [tokens, hnext]
        simp only [tokens_of_nil hnil]
        exact hspelled
    | @token t s' read hrest hline _ hspelled =>
      obtain ⟨read', hrest', hline', hspelled'⟩ := ih s'
      refine ⟨read ++ read', ?_, ?_, fun h => ?_⟩
      · rw [Next.after, hrest, List.append_assoc, ← hrest']
      · rw [Next.after, hline', hline, newlines_append, Nat.add_assoc]
      · rw [tokens, hnext]
        refine hspelled read' _ ⟨_, hrest'.symm⟩ (hspelled' fun m hm => ?_)
        have hm := h (m + 1) (Nat.succ_lt_succ hm)
        rwa [after, hnext] at hm
    | @failed flaw s' hnil hline _ =>
      refine ⟨s.rest, ?_, ?_, fun h => absurd ⟨flaw, s', hnext⟩ (h 0 n.succ_pos)⟩
      · rw [Next.after, after_of_nil hnil, hnil, List.append_nil]
      · rw [Next.after, after_of_nil hnil, hline]

/-- A token is the last one for which there is a character. -/
theorem length_after {n : Nat} {s s' : Scanner} {t : Token} (h : (s.after n).next = .token t s') :
    n < s.rest.length := by
  induction n generalizing s with
  | zero => exact Nat.lt_of_le_of_lt (Nat.zero_le _) (length_rest_of_next h)
  | succ n ih =>
    rw [after] at h
    have hdone : ∀ {r : Scanner}, r.rest = [] → (r.after n).next ≠ .token t s' := fun hnil h => by
      rw [after_of_nil hnil, next_of_nil hnil] at h
      cases h
    have hcalled := s.called_next
    generalize hnext : s.next = r at h hcalled
    cases hcalled with
    | done hnil _ _ _ => exact absurd h (hdone hnil)
    | token _ _ _ _ _ => exact Nat.lt_of_le_of_lt (ih h) (length_rest_of_next hnext)
    | failed hnil _ _ => exact absurd h (hdone hnil)

end Scanner

open Scanner

/-- Whatever number of calls has been made on a text: what they have consumed ends between two
characters, its newlines are counted, and as long as no call has failed it is the tokens that were
returned with blanks around them. Each further token takes a character at least, so that there are
no more tokens than characters. The next call fails exactly if a quote without a counterpart comes
after the blanks. Where it fails, or finds no token, all of the text is consumed, and later calls
find the end. -/
theorem calls_tile (text : String) (n : Nat) :
    let s := (ofText text).after n
    (∃ read, text.toList = read ++ s.rest ∧ s.line = 1 + newlines read ∧
      (String.ofList read).rawEndPos.IsValid text ∧
      ((∀ m < n, ¬((ofText text).after m).Fails) → Spelled read ((ofText text).tokens n))) ∧
    (∀ t s', s.next = .token t s' → s'.rest.length < s.rest.length ∧ n < text.length) ∧
    (s.Fails ↔ OpensQuote (s.rest.dropWhile isBlank)) ∧
    ∀ s', (∃ flaw, s.next = .failed flaw s') ∨ s.next = .done s' →
      s'.rest = [] ∧ s'.line = 1 + newlines text.toList ∧ ∀ m, (s'.after m).next = .done s' := by
  intro s
  obtain ⟨read, hrest, hline, hspelled⟩ := exists_read n (ofText text)
  have hvalid : (String.ofList read).rawEndPos.IsValid text := by
    rw [String.Pos.Raw.isValid_iff_exists_append]
    refine ⟨String.ofList read, String.ofList s.rest, ?_, rfl⟩
    rw [← String.ofList_append, ← hrest, ofText, String.ofList_toList]
  refine ⟨⟨read, hrest, hline, hvalid, hspelled⟩, fun t s' h =>
    ⟨length_rest_of_next h, length_after h⟩, s.fails_iff, fun s' h => ?_⟩
  obtain ⟨hnil, hends⟩ : s'.rest = [] ∧ s'.line = s.line + newlines s.rest := by
    have hcalled := s.called_next
    obtain ⟨flaw, hnext⟩ | hnext := h
    · rw [hnext] at hcalled
      cases hcalled with
      | failed hnil hends _ => exact ⟨hnil, hends⟩
    · rw [hnext] at hcalled
      cases hcalled with
      | done hnil hends _ _ => exact ⟨hnil, hends⟩
  refine ⟨hnil, ?_, fun m => ?_⟩
  · have htext : text.toList = read ++ s.rest := hrest
    rw [hends, htext, newlines_append, ← Nat.add_assoc]
    exact congrArg (· + newlines s.rest) hline
  · rw [after_of_nil hnil, next_of_nil hnil]

/-- Three tokens, and then a quote that is still open at the end of the next line. -/
theorem calls_tile_open :
    let text := "(\n'é\\'' x'y \"z\n\\"
    let s := (ofText text).after 3
    (ofText text).tokens 3 = [.opening, .quoted "'é\\''", .word "x'y"] ∧
      (∀ m < 3, ¬((ofText text).after m).Fails) ∧ s.Fails ∧ s.line = 2 ∧ (s.after 1).line = 3 ∧
      (∃ read, text.toList = read ++ s.rest ∧ Spelled read ((ofText text).tokens 3)) ∧
      OpensQuote (s.rest.dropWhile isBlank) ∧
      ∀ m, ((s.after 1).after m).next = .done (s.after 1) := by
  intro text s
  have hfree : ∀ m < 3, ¬((ofText text).after m).Fails := by decide +kernel
  have hfails : s.Fails := by decide +kernel
  obtain ⟨⟨read, hread, -, -, hspelled⟩, -, hopens, hends⟩ := calls_tile text 3
  obtain ⟨flaw, s', hnext⟩ := id hfails
  have hafter : s.after 1 = s' := by rw [after, hnext, after, Next.after]
  refine ⟨by decide +kernel, hfree, hfails, by decide +kernel, by decide +kernel,
    ⟨read, hread, hspelled hfree⟩, hopens.1 hfails, ?_⟩
  rw [hafter]
  exact (hends s' (.inl ⟨flaw, hnext⟩)).2.2

end StateDiagram.Grammar
