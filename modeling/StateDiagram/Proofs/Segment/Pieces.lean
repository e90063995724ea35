import StateDiagram.Segment.Basic
import Mathlib.Data.List.TakeWhile

/-! How a text is cut. A piece is a single delimiter or a run of other characters, the longest that
there is, so that of two pieces that follow each other at least one is a delimiter. No text can be
cut in two such ways: what is put together from pieces is cut into the same pieces again. -/
namespace StateDiagram.Segmenter

variable {g : Segmenter}

/-- A single delimiter, or a run of other characters. -/
inductive IsPiece (g : Segmenter) : List Char → Prop where
  | delimiter {c : Char} : g.isDelimiter c = true → IsPiece g [c]
  | run {p : List Char} : p ≠ [] → (∀ c ∈ p, g.isDelimiter c = false) → IsPiece g p

/-- No run goes on from the first text into the second. -/
def Parts (g : Segmenter) (cs ds : List Char) : Prop :=
  (∃ c, cs = [c] ∧ g.isDelimiter c = true) ∨ ∀ d ∈ ds.head?, g.isDelimiter d = true

/-- Pieces in a row, none of which could be longer. -/
inductive IsCut (g : Segmenter) : List (List Char) → Prop where
  | nil : IsCut g []
  | cons {p : List Char} {ps : List (List Char)} :
    IsPiece g p → (∀ q ∈ ps.head?, g.Parts p q) → IsCut g ps → IsCut g (p :: ps)

theorem isDelimiter_openQuote (g : Segmenter) : g.isDelimiter g.openQuote = true := by
  simp [isDelimiter]

theorem isDelimiter_closeQuote (g : Segmenter) : g.isDelimiter g.closeQuote = true := by
  simp [isDelimiter]

theorem IsPiece.ne_nil {p : List Char} (h : g.IsPiece p) : p ≠ [] := by
  cases h with
  | delimiter _ => simp
  | run hne _ => exact hne

/-- The only piece that has a delimiter is that delimiter. -/
theorem IsPiece.eq_of_mem {p : List Char} (h : g.IsPiece p) {c : Char} (hc : c ∈ p)
    (hdelimiter : g.isDelimiter c = true) : p = [c] := by
  cases h with
  | delimiter _ => rw [List.mem_singleton.1 hc]
  | run _ hrun => simp [hrun c hc] at hdelimiter

theorem IsCut.isPiece {ps : List (List Char)} (h : g.IsCut ps) : ∀ p ∈ ps, g.IsPiece p := by
  induction h with
  | nil => simp
  | cons hp _ _ ih => exact List.forall_mem_cons.2 ⟨hp, ih⟩

theorem IsCut.of_append {ps qs : List (List Char)} (h : g.IsCut (ps ++ qs)) :
    g.IsCut ps ∧ g.IsCut qs := by
  induction ps with
  | nil => exact ⟨.nil, h⟩
  | cons p ps ih =>
    cases h with
    | cons hp hparts h =>
      obtain ⟨hps, hqs⟩ := ih h
      exact ⟨.cons hp (fun q hq => hparts q (by simp [Option.mem_def.1 hq])) hps, hqs⟩

theorem attach_delimiter {c : Char} (hc : g.isDelimiter c = true) (rest : List Char)
    (ps : List (List Char)) : g.attach c rest ps = [c] :: ps := by
  unfold attach
  split
  · exact if_pos (by simp [hc])
  · rfl

theorem pieces_delimiter {c : Char} (hc : g.isDelimiter c = true) (cs : List Char) :
    g.pieces (c :: cs) = [c] :: g.pieces cs :=
  attach_delimiter hc cs _

/-- A run goes on up to the next delimiter. -/
theorem pieces_run {c : Char} (hc : g.isDelimiter c = false) (cs : List Char) :
    g.pieces (c :: cs) = (c :: cs.takeWhile fun d => !g.isDelimiter d) ::
      g.pieces (cs.dropWhile fun d => !g.isDelimiter d) := by
  induction cs generalizing c with
  | nil => rfl
  | cons d ds ih =>
    cases hd : g.isDelimiter d with
    | true =>
      rw [pieces, pieces_delimiter hd, attach, if_pos (by simp [hd])]
      simp [hd, pieces_delimiter hd]
    | false =>
      rw [pieces, ih hd, attach, if_neg (by simp [hc, hd])]
      simp [hd]

theorem IsPiece.pieces_append {p : List Char} (h : g.IsPiece p) {cs : List Char}
    (hparts : g.Parts p cs) : g.pieces (p ++ cs) = p :: g.pieces cs := by
  cases h with
  | delimiter hc => exact pieces_delimiter hc cs
  | run hne hrun =>
    obtain ⟨c, ds, rfl⟩ := List.exists_cons_of_ne_nil hne
    obtain ⟨hc, hds⟩ := List.forall_mem_cons.1 hrun
    have hcs : ∀ d ∈ cs.head?, g.isDelimiter d = true := by
      obtain ⟨d, hd, hdelimiter⟩ | hcs := hparts
      · simp [hrun d (by simp [hd])] at hdelimiter
      · exact hcs
    have htake : cs.takeWhile (fun d => !g.isDelimiter d) = [] := by
      cases cs with
      | nil => rfl
      | cons d cs => simp [hcs d rfl]
    have hdrop : cs.dropWhile (fun d => !g.isDelimiter d) = cs := by
      cases cs with
      | nil => rfl
      | cons d cs => simp [hcs d rfl]
    have hds' : ∀ d ∈ ds, (!g.isDelimiter d) = true := fun d hd => by simp [hds d hd]
    rw [List.cons_append, pieces_run hc, List.takeWhile_append_of_pos hds', htake,
      List.dropWhile_append_of_pos hds', hdrop, List.append_nil]

/-- What is put together from pieces is cut into them again, also when more text follows. -/
theorem IsCut.pieces_append {ps : List (List Char)} (h : g.IsCut ps) {cs : List Char}
    (hcs : ∀ d ∈ cs.head?, g.isDelimiter d = true) :
    g.pieces (ps.flatten ++ cs) = ps ++ g.pieces cs := by
  induction h with
  | nil => rfl
  | @cons p ps hp hparts hps ih =>
    have hrest : g.Parts p (ps.flatten ++ cs) := by
      cases hps with
      | nil => exact .inr hcs
      | @cons q qs hq _ _ =>
        obtain ⟨d, ds, rfl⟩ := List.exists_cons_of_ne_nil hq.ne_nil
        exact hparts (d :: ds) rfl
    rw [List.flatten_cons, List.append_assoc, hp.pieces_append hrest, ih, List.cons_append]

/-- Every text is cut in that way. -/
theorem isCut_pieces : ∀ cs : List Char, g.IsCut (g.pieces cs)
  | [] => .nil
  | c :: cs => by
    cases hc : g.isDelimiter c with
    | true =>
      rw [pieces_delimiter hc]
      exact .cons (.delimiter hc) (fun q _ => .inl ⟨c, rfl, hc⟩) (isCut_pieces cs)
    | false =>
      have hrun : ∀ d ∈ c :: cs.takeWhile (fun d => !g.isDelimiter d), g.isDelimiter d = false :=
        List.forall_mem_cons.2 ⟨hc, fun d hd => by simpa using List.mem_takeWhile_imp hd⟩
      have hnext : ∀ q ∈ (g.pieces (cs.dropWhile fun d => !g.isDelimiter d)).head?,
          ∀ d ∈ q.head?, g.isDelimiter d = true := by
        have hstop := List.head?_dropWhile_not (fun d => !g.isDelimiter d) cs
        cases hrest : cs.dropWhile fun d => !g.isDelimiter d with
        | nil => simp [pieces]
        | cons d ds =>
          have hd : g.isDelimiter d = true := by simpa [hrest] using hstop
          simp [pieces_delimiter hd, hd]
      rw [pieces_run hc]
      exact .cons (.run (by simp) hrun) (fun q hq => .inr (hnext q hq)) (isCut_pieces _)
termination_by cs => cs.length
decreasing_by
  · exact Nat.lt_succ_of_le (List.dropWhile_sublist _).length_le
  · exact Nat.lt_succ_self _

end StateDiagram.Segmenter
