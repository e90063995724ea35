import StateDiagram.Proofs.Segment.Pieces
import StateDiagram.Proofs.Text.Trimmed

/-! The tokens of a text. A piece outside of quotes is blank, or it stands for itself, or it opens a
quoted string that goes on up to the next closing quote. So nothing is lost of a text but blanks and
a quoted string that is never closed. -/
namespace StateDiagram.Segmenter

open Text

variable {g : Segmenter}

/-- The pieces of a quoted string as they stand in its token: each is trimmed, and blank ones that
follow each other are a single space. `blank` says that a blank piece came last. -/
def settled (blank : Bool) : List (List Char) → List (List Char)
  | [] => []
  | p :: ps =>
    if trim p = [] then
      if blank then settled true ps else [' '] :: settled true ps
    else trim p :: settled false ps

/-- None of these pieces closes a quoted string. -/
def Unclosed (g : Segmenter) (ps : List (List Char)) : Prop :=
  ∀ p ∈ ps, trim p ≠ [g.closeQuote]

/-- The token of a quoted string that has these pieces between its quotes. -/
def quoted (g : Segmenter) (ps : List (List Char)) : List Char :=
  g.openQuote :: ((settled false ps).flatten ++ [g.closeQuote])

/-- Pieces and the tokens that they are read as. -/
inductive Reads (g : Segmenter) : List (List Char) → List (List Char) → Prop where
  | nil : Reads g [] []
  | blank {p : List Char} {ps ts : List (List Char)} :
    trim p = [] → Reads g ps ts → Reads g (p :: ps) ts
  | plain {p : List Char} {ps ts : List (List Char)} :
    trim p ≠ [] → trim p ≠ [g.openQuote] → Reads g ps ts → Reads g (p :: ps) (trim p :: ts)
  | quoted {p q : List Char} {body ps ts : List (List Char)} :
    trim p = [g.openQuote] → g.Unclosed body → trim q = [g.closeQuote] → Reads g ps ts →
    Reads g (p :: (body ++ q :: ps)) (g.quoted body :: ts)
  /-- A quoted string without an end is dropped. -/
  | dropped {p : List Char} {ps : List (List Char)} :
    trim p = [g.openQuote] → g.Unclosed ps → Reads g (p :: ps) []

theorem inside_unclosed {ps : List (List Char)} (h : g.Unclosed ps) (text : List Char)
    (blank : Bool) : g.inside text blank ps = [] := by
  induction ps generalizing text blank with
  | nil => rfl
  | cons p ps ih =>
    obtain ⟨hp, hps⟩ := List.forall_mem_cons.1 h
    rw [inside, if_neg hp, ih hps, ih hps, ite_self]

theorem inside_closed {body : List (List Char)} (h : g.Unclosed body) {q : List Char}
    (hq : trim q = [g.closeQuote]) (ps : List (List Char)) (text : List Char) (blank : Bool) :
    g.inside text blank (body ++ q :: ps) =
      (text ++ ((settled blank body).flatten ++ [g.closeQuote])) :: g.outside ps := by
  induction body generalizing text blank with
  | nil => simp [inside, hq, settled]
  | cons p body ih =>
    obtain ⟨hp, hbody⟩ := List.forall_mem_cons.1 h
    rw [List.cons_append, inside, if_neg hp, ih hbody, ih hbody, settled]
    by_cases hblank : trim p = []
    · cases blank <;> simp [hblank]
    · simp [hblank]

/-- Either no piece closes the quoted string, or there is a first one that does. -/
theorem unclosed_or_closed (ps : List (List Char)) : g.Unclosed ps ∨ ∃ body q rest,
    ps = body ++ q :: rest ∧ g.Unclosed body ∧ trim q = [g.closeQuote] := by
  induction ps with
  | nil => exact .inl (by simp [Unclosed])
  | cons p ps ih =>
    by_cases hp : trim p = [g.closeQuote]
    · exact .inr ⟨[], p, ps, rfl, by simp [Unclosed], hp⟩
    · obtain hps | ⟨body, q, rest, rfl, hbody, hq⟩ := ih
      · exact .inl (List.forall_mem_cons.2 ⟨hp, hps⟩)
      · exact .inr ⟨p :: body, q, rest, rfl, List.forall_mem_cons.2 ⟨hp, hbody⟩, hq⟩

theorem Reads.outside_eq {ps ts : List (List Char)} (h : g.Reads ps ts) : g.outside ps = ts := by
  induction h with
  | nil => rfl
  | blank hp _ ih => rw [outside, if_pos hp, ih]
  | plain hp hopen _ ih => rw [outside, if_neg hp, if_neg hopen, ih]
  | quoted hopen hbody hq _ ih =>
    rw [outside, if_neg (by simp [hopen]), if_pos hopen, inside_closed hbody hq, ih]
    rfl
  | dropped hopen hps =>
    rw [outside, if_neg (by simp [hopen]), if_pos hopen, inside_unclosed hps]

/-- The pieces are read as the tokens that are found for them. -/
theorem reads_outside : ∀ ps : List (List Char), g.Reads ps (g.outside ps)
  | [] => .nil
  | p :: ps => by
    by_cases hblank : trim p = []
    · rw [outside, if_pos hblank]
      exact .blank hblank (reads_outside ps)
    · by_cases hopen : trim p = [g.openQuote]
      · obtain hps | ⟨body, q, rest, rfl, hbody, hq⟩ := unclosed_or_closed (g := g) ps
        · rw [(Reads.dropped hopen hps).outside_eq]
          exact .dropped hopen hps
        · have hreads := Reads.quoted hopen hbody hq (reads_outside rest)
          rwa [hreads.outside_eq]
      · rw [outside, if_neg hblank, if_neg hopen]
        exact .plain hblank hopen (reads_outside ps)
termination_by ps => ps.length

theorem solid_settled (blank : Bool) (ps : List (List Char)) :
    solid (settled blank ps).flatten = solid ps.flatten := by
  induction ps generalizing blank with
  | nil => rfl
  | cons p ps ih =>
    have hspace : ∀ cs, solid (' ' :: cs) = solid cs := solid_cons_blank rfl
    rw [settled]
    by_cases hp : trim p = []
    · cases blank <;> simp [hp, ih, hspace, trim_eq_nil.1 hp]
    · simp [hp, ih]

/-- The quotes of a quoted string are pieces of their own. -/
theorem IsPiece.eq_quote {p : List Char} (h : g.IsPiece p) {c : Char} (hc : trim p = [c])
    (hdelimiter : g.isDelimiter c = true) : p = [c] :=
  h.eq_of_mem (mem_of_mem_trim (hc ▸ List.mem_singleton_self c)) hdelimiter

/-- A quoted string without an end has no closing quote. -/
theorem Unclosed.not_mem {ps : List (List Char)} (h : g.Unclosed ps) (hps : ∀ p ∈ ps, g.IsPiece p)
    (hclose : isBlank g.closeQuote = false) : g.closeQuote ∉ ps.flatten := by
  intro hmem
  obtain ⟨p, hp, hc⟩ := List.mem_flatten.1 hmem
  refine h p hp ?_
  rw [(hps p hp).eq_of_mem hc g.isDelimiter_closeQuote, trim_singleton, if_neg (by simp [hclose])]

/-- Blanks apart, the tokens are made of the pieces up to a quoted string without an end. -/
theorem Reads.conserves {ps ts : List (List Char)} (h : g.Reads ps ts) (hps : ∀ p ∈ ps, g.IsPiece p)
    (hclose : isBlank g.closeQuote = false) : ∃ kept lost, ps = kept ++ lost ∧
      solid ts.flatten = solid kept.flatten ∧
      (lost = [] ∨ ∃ rest, lost = [g.openQuote] :: rest ∧ g.closeQuote ∉ rest.flatten) := by
  induction h with
  | nil => exact ⟨[], [], rfl, rfl, .inl rfl⟩
  | @blank p ps ts hp _ ih =>
    obtain ⟨kept, lost, rfl, hsolid, hlost⟩ := ih (List.forall_mem_cons.1 hps).2
    exact ⟨p :: kept, lost, rfl, by simp [hsolid, trim_eq_nil.1 hp], hlost⟩
  | @plain p ps ts _ _ _ ih =>
    obtain ⟨kept, lost, rfl, hsolid, hlost⟩ := ih (List.forall_mem_cons.1 hps).2
    exact ⟨p :: kept, lost, rfl, by simp [hsolid], hlost⟩
  | @quoted p q body ps ts hopen _ hq _ ih =>
    obtain ⟨kept, lost, rfl, hsolid, hlost⟩ := ih fun r hr => hps r (by simp [hr])
    refine ⟨p :: (body ++ q :: kept), lost, by simp, ?_, hlost⟩
    have hp : solid p = solid [g.openQuote] := by rw [← solid_trim, hopen]
    have hq : solid q = solid [g.closeQuote] := by rw [← solid_trim, hq]
    calc
      solid (g.quoted body :: ts).flatten
        = solid [g.openQuote] ++ (solid body.flatten ++ solid [g.closeQuote]) ++
            solid ts.flatten := by
          rw [← solid_settled false body, ← solid_append, ← solid_append, ← solid_append]
          rfl
      _ = solid (p :: (body ++ q :: kept)).flatten := by simp [hp, hq, hsolid]
  | @dropped p ps hopen hbody =>
    obtain ⟨hp, hps⟩ := List.forall_mem_cons.1 hps
    have hp : p = [g.openQuote] := hp.eq_quote hopen g.isDelimiter_openQuote
    exact ⟨[], p :: ps, rfl, rfl, .inr ⟨ps, by rw [hp], hbody.not_mem hps hclose⟩⟩

/-- No token is empty, and none starts or ends with a blank. -/
theorem Reads.trimmed {ps ts : List (List Char)} (h : g.Reads ps ts) :
    ∀ t ∈ ts, t ≠ [] ∧ Trimmed t := by
  induction h with
  | nil => simp
  | blank _ _ ih => exact ih
  | @plain p _ _ hp _ _ ih => exact List.forall_mem_cons.2 ⟨⟨hp, trimmed_trim p⟩, ih⟩
  | @quoted p q body _ _ hopen _ hq _ ih =>
    refine List.forall_mem_cons.2 ⟨⟨by simp [Segmenter.quoted], ?_, ?_⟩, ih⟩
    · have hfirst := (trimmed_trim p).first
      simpa [Segmenter.quoted, hopen] using hfirst
    · have hlast := (trimmed_trim q).last
      simpa [Segmenter.quoted, hq, List.getLast?_cons] using hlast
  | dropped _ _ => simp

/-- Whatever the character classes, as long as the closing quote is no blank: blanks apart, the
tokens of a text, one after the other, are the text up to a quoted string that is never closed. No
token is empty, and none starts or ends with a blank. -/
theorem segment_conserves (g : Segmenter) (hclose : isBlank g.closeQuote = false) (input : String) :
    (∃ p q : String, input = p ++ q ∧
      solid (String.join (g.segment input)).toList = solid p.toList ∧
      (q = "" ∨ ∃ rest, q.toList = g.openQuote :: rest ∧ g.closeQuote ∉ rest)) ∧
    ∀ t ∈ g.segment input, t ≠ "" ∧ Trimmed t.toList := by
  have hreads := g.reads_outside (g.pieces input.toList)
  constructor
  · obtain ⟨kept, lost, hpieces, hsolid, hlost⟩ :=
      hreads.conserves (isCut_pieces _).isPiece hclose
    refine ⟨String.ofList kept.flatten, String.ofList lost.flatten, ?_, ?_, ?_⟩
    · rw [← String.ofList_append, ← List.flatten_append, ← hpieces, flatten_pieces,
        String.ofList_toList]
    · rw [String.toList_ofList, ← hsolid, segment, String.toList_join, List.flatMap_map]
      simp [List.flatMap_def]
    · obtain rfl | ⟨rest, rfl, hrest⟩ := hlost
      · exact .inl rfl
      · exact .inr ⟨rest.flatten, by simp, hrest⟩
  · intro t ht
    obtain ⟨cs, hcs, rfl⟩ := List.mem_map.1 ht
    obtain ⟨hne, htrimmed⟩ := hreads.trimmed cs hcs
    exact ⟨by simpa using hne, by simpa using htrimmed⟩

theorem segment_conserves_dropped :
    let g : Segmenter := { specialChars := "-", openQuote := '[', closeQuote := ']' }
    let input := "x-y [a \u00a0 [b ] [z"
    isBlank g.closeQuote = false ∧ g.segment input = ["x", "-", "y", "[a [b ]"] ∧
      (∃ p q : String, input = p ++ q ∧
        solid (String.join (g.segment input)).toList = solid p.toList ∧
        (q = "" ∨ ∃ rest, q.toList = g.openQuote :: rest ∧ g.closeQuote ∉ rest)) ∧
      ∀ t ∈ g.segment input, t ≠ "" ∧ Trimmed t.toList := by
  intro g input
  exact ⟨by decide, by decide +kernel, g.segment_conserves (by decide) input⟩

end StateDiagram.Segmenter
