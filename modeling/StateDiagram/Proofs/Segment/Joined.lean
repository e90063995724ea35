import StateDiagram.Proofs.Segment.Tokens

/-! Tokens that are read again. If spaces part words, then each token, and a quoted string with all
that is inside of it, is read as itself wherever a delimiter follows. -/
namespace StateDiagram.Segmenter

open Text

variable {g : Segmenter}

/-- A text that is a token wherever it stands before a delimiter. -/
def Stable (g : Segmenter) (t : List Char) : Prop :=
  ∀ cs ts, (∀ d ∈ cs.head?, g.isDelimiter d = true) → g.Reads (g.pieces cs) ts →
    g.Reads (g.pieces (t ++ cs)) (t :: ts)

/-- What trimming leaves of a piece is a piece. -/
theorem IsPiece.trim {p : List Char} (h : g.IsPiece p) (hne : trim p ≠ []) :
    g.IsPiece (Text.trim p) := by
  cases h with
  | delimiter hc => exact (trim_singleton_of_ne_nil hne).symm ▸ .delimiter hc
  | run _ hrun => exact .run hne fun c hc => hrun c (mem_of_mem_trim hc)

/-- A piece that is not blank and opens no quoted string is read as itself. -/
theorem stable_trim {p : List Char} (h : g.IsPiece p) (hne : trim p ≠ [])
    (hopen : trim p ≠ [g.openQuote]) : g.Stable (trim p) := by
  intro cs ts hcs hreads
  rw [(h.trim hne).pieces_append (.inr hcs)]
  have hplain := Reads.plain (p := trim p) (by simpa using hne) (by simpa using hopen) hreads
  rwa [trim_trim] at hplain

theorem settled_settled (blank : Bool) (ps : List (List Char)) :
    settled blank (settled blank ps) = settled blank ps := by
  have hspace : trim [' '] = [] := rfl
  induction ps generalizing blank with
  | nil => rfl
  | cons p ps ih =>
    by_cases hp : trim p = []
    · cases blank <;> simp [settled, hp, hspace, ih]
    · simp [settled, hp, ih]

theorem Unclosed.settled {ps : List (List Char)} (h : g.Unclosed ps) (blank : Bool) :
    g.Unclosed (settled blank ps) := by
  induction ps generalizing blank with
  | nil => exact h
  | cons p ps ih =>
    obtain ⟨hp, hps⟩ := List.forall_mem_cons.1 h
    have hspace : trim [' '] ≠ [g.closeQuote] := (List.cons_ne_nil _ _).symm
    rw [Segmenter.settled]
    split
    · split
      · exact ih hps true
      · exact List.forall_mem_cons.2 ⟨hspace, ih hps true⟩
    · exact List.forall_mem_cons.2 ⟨by simpa using hp, ih hps false⟩

theorem Parts.trim {p cs : List Char} (h : g.Parts p cs) (hne : trim p ≠ []) :
    g.Parts (Text.trim p) cs := by
  obtain ⟨c, rfl, hc⟩ | hcs := h
  · exact .inl ⟨c, trim_singleton_of_ne_nil hne, hc⟩
  · exact .inr hcs

/-- The first of the settled pieces is no run if the first piece was none. -/
theorem parts_settled {ps : List (List Char)} (hps : ∀ p ∈ ps, g.IsPiece p)
    (hspace : g.isDelimiter ' ' = true) {cs : List Char} (h : ∀ q ∈ ps.head?, g.Parts cs q) :
    ∀ q ∈ (settled false ps).head?, g.Parts cs q := by
  cases ps with
  | nil => exact h
  | cons p ps =>
    rw [settled]
    split
    · exact fun q hq => .inr (by simp [← Option.mem_some.1 hq, hspace])
    · rename_i hne
      obtain hcs | hp := h p rfl
      · exact fun q _ => .inl hcs
      · refine fun q hq => .inr ?_
        obtain rfl : Text.trim p = q := Option.some.inj hq
        cases hps p (by simp) with
        | delimiter hc => simpa [trim_singleton_of_ne_nil hne] using hc
        | run hne' hrun =>
          obtain ⟨c, cs, rfl⟩ := List.exists_cons_of_ne_nil hne'
          simp [hrun c (by simp)] at hp

/-- Settled pieces are pieces in a row if spaces are delimiters. -/
theorem IsCut.settled {ps : List (List Char)} (h : g.IsCut ps) (hspace : g.isDelimiter ' ' = true)
    (blank : Bool) : g.IsCut (settled blank ps) := by
  induction h generalizing blank with
  | nil => exact .nil
  | @cons p ps hp hparts hps ih =>
    rw [Segmenter.settled]
    split
    · split
      · exact ih true
      · exact .cons (.delimiter hspace) (fun q _ => .inl ⟨' ', rfl, hspace⟩) (ih true)
    · rename_i hne
      exact .cons (hp.trim hne)
        (parts_settled hps.isPiece hspace fun q hq => (hparts q hq).trim hne) (ih false)

/-- A quoted string is read as itself. -/
theorem stable_quoted {body : List (List Char)} (hspace : g.isDelimiter ' ' = true)
    (hopen : trim [g.openQuote] = [g.openQuote]) (hbody : g.Unclosed body) (hcut : g.IsCut body)
    (hclose : trim [g.closeQuote] = [g.closeQuote]) : g.Stable (g.quoted body) := by
  intro cs ts _ hreads
  have hpieces : g.pieces (g.quoted body ++ cs) =
      [g.openQuote] :: (settled false body ++ [g.closeQuote] :: g.pieces cs) := by
    have hrest : g.pieces ((settled false body).flatten ++ g.closeQuote :: cs) =
        settled false body ++ [g.closeQuote] :: g.pieces cs := by
      rw [(hcut.settled hspace false).pieces_append (by simp [isDelimiter_closeQuote]),
        pieces_delimiter g.isDelimiter_closeQuote]
    rw [quoted, List.cons_append, pieces_delimiter g.isDelimiter_openQuote, List.append_assoc,
      List.singleton_append, hrest]
  have hquoted := Reads.quoted hopen (hbody.settled false) hclose hreads
  rwa [hpieces, show g.quoted body = g.quoted (settled false body) by
    rw [quoted, quoted, settled_settled]]

/-- Every token is read as itself. -/
theorem Reads.stable {ps ts : List (List Char)} (h : g.Reads ps ts) (hps : g.IsCut ps)
    (hspace : g.isDelimiter ' ' = true) : ∀ t ∈ ts, g.Stable t := by
  have hkept : ∀ {p : List Char} {c : Char}, Text.trim p = [c] → Text.trim [c] = [c] :=
    fun {p c} hp => by rw [← hp, trim_trim]
  induction h with
  | nil => simp
  | blank _ _ ih =>
    cases hps with
    | cons _ _ hps => exact ih hps
  | plain hne hopen _ ih =>
    cases hps with
    | cons hp _ hps => exact List.forall_mem_cons.2 ⟨stable_trim hp hne hopen, ih hps⟩
  | quoted hopen hbody hq _ ih =>
    cases hps with
    | cons _ _ hps =>
      obtain ⟨hcut, hrest⟩ := hps.of_append
      cases hrest with
      | cons _ _ hps =>
        exact List.forall_mem_cons.2
          ⟨stable_quoted hspace (hkept hopen) hbody hcut (hkept hq), ih hps⟩
  | dropped _ _ => simp

/-- Tokens that are read as themselves are so when they are joined by spaces. -/
theorem reads_intercalate {ts : List (List Char)} (h : ∀ t ∈ ts, g.Stable t)
    (hspace : g.isDelimiter ' ' = true) : g.Reads (g.pieces ([' '].intercalate ts)) ts := by
  induction ts with
  | nil => exact .nil
  | cons t ts ih =>
    obtain ⟨ht, hts⟩ := List.forall_mem_cons.1 h
    cases ts with
    | nil => simpa using ht [] [] (by simp) .nil
    | cons u us =>
      rw [List.intercalate_cons_cons, List.append_assoc]
      refine ht _ _ (by simp [hspace]) ?_
      rw [List.singleton_append, pieces_delimiter hspace]
      exact .blank rfl (ih hts)

/-- If spaces part words, the tokens of a text are found again when they are joined by single
spaces. -/
theorem segment_joined (g : Segmenter) (hspace : ' ' ∈ g.spaceChars.toList) (input : String) :
    g.segment (" ".intercalate (g.segment input)) = g.segment input := by
  have hdelimiter : g.isDelimiter ' ' = true := by simp [isDelimiter, hspace]
  have hstable := (g.reads_outside (g.pieces input.toList)).stable (isCut_pieces _) hdelimiter
  have hjoined : (" ".intercalate (g.segment input)).toList =
      [' '].intercalate (g.outside (g.pieces input.toList)) := by
    simp [String.toList_intercalate, segment, Function.comp_def]
  rw [segment, hjoined, (reads_intercalate hstable hdelimiter).outside_eq, segment]

/-- The special characters and the quotes overlap with the spaces. -/
theorem segment_joined_overlap :
    let g : Segmenter :=
      { spaceChars := " ]_", specialChars := "-]", openQuote := '[', closeQuote := ']' }
    let input := "] x_[  a \u00a0-[\u00a0b_ ] c [z"
    ' ' ∈ g.spaceChars.toList ∧ g.segment input = ["]", "x", "_", "[ a -[b_ ]", "c"] ∧
      g.segment (" ".intercalate (g.segment input)) = g.segment input := by
  intro g input
  exact ⟨by decide, by decide +kernel, g.segment_joined (by decide) input⟩

end StateDiagram.Segmenter
