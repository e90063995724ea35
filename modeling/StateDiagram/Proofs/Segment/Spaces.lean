import StateDiagram.Proofs.Related
import StateDiagram.Proofs.Segment.Tokens

/-! What becomes of a space character. If it is blank it only parts tokens: it stands in none of
them but inside of quotes, where it is read as a single space together with the blank pieces next to
it. A space character that is not blank is a token of its own. -/
namespace StateDiagram.Segmenter

open Text

variable {g : Segmenter}

/-- Listed among the spaces, and neither a special character nor a quote. -/
structure IsSpace (g : Segmenter) (c : Char) : Prop where
  mem : c ∈ g.spaceChars.toList
  not_special : c ∉ g.specialChars.toList
  ne_open : c ≠ g.openQuote
  ne_close : c ≠ g.closeQuote

/-- What a token is made of: a piece that stands outside of quotes, or the pieces between two
quotes. -/
inductive Source where
  | piece (p : List Char)
  | quoted (body : List (List Char))

/-- Pieces and what the tokens in them are made of. -/
inductive Drawn (g : Segmenter) : List (List Char) → List Source → Prop where
  | nil : Drawn g [] []
  | blank {p : List Char} {ps : List (List Char)} {ss : List Source} :
    trim p = [] → Drawn g ps ss → Drawn g (p :: ps) ss
  | piece {p : List Char} {ps : List (List Char)} {ss : List Source} :
    trim p ≠ [] → trim p ≠ [g.openQuote] → Drawn g ps ss → Drawn g (p :: ps) (.piece p :: ss)
  | quoted {p q : List Char} {body ps : List (List Char)} {ss : List Source} :
    trim p = [g.openQuote] → g.Unclosed body → trim q = [g.closeQuote] → Drawn g ps ss →
    Drawn g (p :: (body ++ q :: ps)) (.quoted body :: ss)
  | dropped {p : List Char} {ps : List (List Char)} :
    trim p = [g.openQuote] → g.Unclosed ps → Drawn g (p :: ps) []

/-- Pieces in one text: each longest run of gaps is a single space, all others are trimmed. -/
inductive Spaced (gap : List Char → Prop) : List (List Char) → List Char → Prop where
  | nil : Spaced gap [] []
  | piece {p cs : List Char} {ps : List (List Char)} :
    ¬gap p → Spaced gap ps cs → Spaced gap (p :: ps) (trim p ++ cs)
  | run {run ps : List (List Char)} {cs : List Char} :
    run ≠ [] → (∀ p ∈ run, gap p) → (∀ p ∈ ps.head?, ¬gap p) → Spaced gap ps cs →
    Spaced gap (run ++ ps) (' ' :: cs)

/-- A token in which `c` is treated as a blank. -/
inductive Shows (g : Segmenter) (c : Char) : Source → List Char → Prop where
  | piece {p : List Char} : c ∉ trim p → Shows g c (.piece p) (trim p)
  | quoted {body : List (List Char)} {inner : List Char} :
    Spaced (fun p => trim p = [] ∨ p = [c]) body inner →
    Shows g c (.quoted body) (g.openQuote :: (inner ++ [g.closeQuote]))

/-- In all tokens of the text `c` is treated as a blank. -/
def Separates (g : Segmenter) (c : Char) (input : String) : Prop :=
  ∃ ss, g.Drawn (g.pieces input.toList) ss ∧
    List.Forall₂ (g.Shows c) ss ((g.segment input).map String.toList)

theorem IsSpace.isDelimiter {c : Char} (h : g.IsSpace c) : g.isDelimiter c = true := by
  simp [Segmenter.isDelimiter, h.mem]

/-- Settled pieces, also those behind a gap, where the first run is left out. -/
theorem spaced_settled {gap : List Char → Prop} (hgap : ∀ p, gap p ↔ trim p = [])
    (ps : List (List Char)) : Spaced gap ps (settled false ps).flatten ∧
      ∃ run rest, ps = run ++ rest ∧ (∀ p ∈ run, gap p) ∧ (∀ p ∈ rest.head?, ¬gap p) ∧
        Spaced gap rest (settled true ps).flatten := by
  induction ps with
  | nil => exact ⟨.nil, [], [], rfl, by simp, by simp, .nil⟩
  | cons p ps ih =>
    obtain ⟨hspaced, run, rest, hps, hrun, hrest, hbehind⟩ := ih
    by_cases hp : trim p = []
    · have hall : ∀ q ∈ p :: run, gap q := List.forall_mem_cons.2 ⟨(hgap p).2 hp, hrun⟩
      have hsplit : p :: ps = (p :: run) ++ rest := by rw [hps, List.cons_append]
      constructor
      · rw [settled, if_pos hp, if_neg Bool.false_ne_true, hsplit]
        exact .run (List.cons_ne_nil p run) hall hrest hbehind
      · rw [settled, if_pos hp, if_pos rfl]
        exact ⟨p :: run, rest, hsplit, hall, hrest, hbehind⟩
    · have hnot : ¬gap p := fun h => hp ((hgap p).1 h)
      have hcons (blank : Bool) : Spaced gap (p :: ps) (settled blank (p :: ps)).flatten := by
        rw [settled, if_neg hp]
        exact .piece hnot hspaced
      exact ⟨hcons false, [], p :: ps, rfl, by simp, by simpa using hnot, hcons true⟩

/-- A blank character that delimits pieces is treated as a blank. -/
theorem Reads.drawn {ps ts : List (List Char)} (h : g.Reads ps ts) (hps : ∀ p ∈ ps, g.IsPiece p)
    {c : Char} (hc : g.isDelimiter c = true) (hblank : isBlank c = true) :
    ∃ ss, g.Drawn ps ss ∧ List.Forall₂ (g.Shows c) ss ts := by
  have htrim : trim [c] = [] := by rw [trim_singleton, if_pos hblank]
  have hgap : ∀ p, (trim p = [] ∨ p = [c]) ↔ trim p = [] := fun p =>
    ⟨fun h => h.elim id fun hp => hp ▸ htrim, .inl⟩
  induction h with
  | nil => exact ⟨[], .nil, .nil⟩
  | blank hp _ ih =>
    obtain ⟨ss, hdrawn, hshows⟩ := ih (List.forall_mem_cons.1 hps).2
    exact ⟨ss, .blank hp hdrawn, hshows⟩
  | @plain p _ _ hne hopen _ ih =>
    obtain ⟨hp, hps⟩ := List.forall_mem_cons.1 hps
    obtain ⟨ss, hdrawn, hshows⟩ := ih hps
    have hnot : c ∉ trim p := fun hmem => by
      rw [hp.eq_of_mem (mem_of_mem_trim hmem) hc] at hne
      exact hne htrim
    exact ⟨.piece p :: ss, .piece hne hopen hdrawn, .cons (.piece hnot) hshows⟩
  | @quoted p q body _ _ hopen hbody hq _ ih =>
    obtain ⟨ss, hdrawn, hshows⟩ := ih fun r hr => hps r (by simp [hr])
    exact ⟨.quoted body :: ss, .quoted hopen hbody hq hdrawn,
      .cons (.quoted (spaced_settled hgap body).1) hshows⟩
  | dropped hopen hbody => exact ⟨[], .dropped hopen hbody, .nil⟩

/-- A character that is treated as a blank is never a token. -/
theorem Separates.not_token {c : Char} {input : String} (h : g.Separates c input) :
    String.singleton c ∉ g.segment input := by
  intro hmem
  obtain ⟨ss, -, hshows⟩ := h
  have htoken : [c] ∈ (g.segment input).map String.toList := List.mem_map.2 ⟨_, hmem, by simp⟩
  obtain ⟨s, -, hs⟩ := exists_mem_of_forall₂ hshows htoken
  generalize ht : [c] = t at hs
  cases hs with
  | piece hnot => exact hnot (ht ▸ List.mem_singleton_self c)
  | quoted _ => simp at ht

/-- A space character that is not blank is a token. -/
theorem IsSpace.token {c : Char} (h : g.IsSpace c) (hblank : isBlank c = false) :
    g.segment (String.singleton c) = [String.singleton c] := by
  have hpieces : g.pieces [c] = [[c]] := pieces_delimiter h.isDelimiter []
  have htrim : trim [c] = [c] := by rw [trim_singleton, if_neg (by simp [hblank])]
  have hopen : ([c] : List Char) ≠ [g.openQuote] := by simpa using h.ne_open
  simp [segment, hpieces, outside, htrim, hopen]

/-- A space character is treated as a blank, whatever the text, exactly if it is one. -/
theorem segment_separates {c : Char} (h : g.IsSpace c) :
    (∀ input, g.Separates c input) ↔ isBlank c = true := by
  constructor
  · intro hall
    by_contra hblank
    refine (hall (String.singleton c)).not_token ?_
    rw [h.token (by simpa using hblank)]
    exact List.mem_singleton_self _
  · intro hblank input
    have hreads := g.reads_outside (g.pieces input.toList)
    obtain ⟨ss, hdrawn, hshows⟩ :=
      hreads.drawn (isCut_pieces _).isPiece h.isDelimiter hblank
    refine ⟨ss, hdrawn, ?_⟩
    simpa [segment, Function.comp_def] using hshows

theorem segment_separates_noBreak :
    let g : Segmenter := { spaceChars := " _\u00a0", openQuote := '[', closeQuote := ']' }
    g.IsSpace '\u00a0' ∧ g.segment "x\u00a0y[\u00a0 \u00a0z_]" = ["x", "y", "[ z_]"] ∧
      ∀ input, g.Separates '\u00a0' input := by
  intro g
  have h : g.IsSpace '\u00a0' := ⟨by decide, by decide, by decide, by decide⟩
  exact ⟨h, by decide +kernel, (segment_separates h).2 (by decide)⟩

/-- An underscore among the spaces does not separate: it is a token. -/
theorem not_separates_underscore :
    let g : Segmenter := { spaceChars := " _" }
    g.IsSpace '_' ∧ g.segment "a_b" = ["a", "_", "b"] ∧ ¬g.Separates '_' "a_b" := by
  intro g
  have h : g.segment "a_b" = ["a", "_", "b"] := by decide +kernel
  refine ⟨⟨by decide, by decide, by decide, by decide⟩, h, fun hseparates => ?_⟩
  refine hseparates.not_token ?_
  rw [h]
  decide

end StateDiagram.Segmenter
