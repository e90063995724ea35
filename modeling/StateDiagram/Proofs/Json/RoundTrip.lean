import StateDiagram.Json.Reader
import StateDiagram.Json.Writer
import StateDiagram.Proofs.Text.Numeral

/-! Documents that are written and read back. Whatever the layout, a document without fractions is
read as it was written. -/
namespace StateDiagram.Json

open Text

/-- A document whose numbers are whole and fit into sixty-four bits, and whose strings are made of
characters. -/
inductive Exact : Json → Prop where
  | null : Exact .null
  | bool (b : Bool) : Exact (.bool b)
  | int {n : Int} : -9223372036854775808 ≤ n → n < 18446744073709551616 → Exact (.number (.int n))
  | string (s : String) : Exact (.string (some s))
  | array {items : List Json} : (∀ j ∈ items, Exact j) → Exact (.array items)
  | object {fields : List (Option String × Json)} :
    (∀ f ∈ fields, f.1.isSome = true) → (∀ f ∈ fields, Exact f.2) → Exact (.object fields)

theorem exact_ofFields {fields : List (String × Json)} (h : ∀ f ∈ fields, Exact f.2) :
    Exact (ofFields fields) := by
  refine .object (fun f hf => ?_) (fun f hf => ?_)
  all_goals obtain ⟨f, hmem, rfl⟩ := List.mem_map.1 hf
  · rfl
  · exact h f hmem

theorem exact_ofList {α : Type} {f : α → Json} {xs : List α} (h : ∀ x ∈ xs, Exact (f x)) :
    Exact (ofList f xs) := by
  refine .array fun j hj => ?_
  obtain ⟨x, hx, rfl⟩ := List.mem_map.1 hj
  exact h x hx

theorem exact_ofOption {α : Type} {f : α → Json} (h : ∀ a, Exact (f a)) (o : Option α) :
    Exact (ofOption f o) := by
  cases o with
  | none => exact .null
  | some a => exact h a

theorem exact_ofInt32 (n : Int32) : Exact (ofInt n.toInt) := by
  have hlow := n.le_toInt
  have hhigh := n.toInt_lt
  exact .int (by omega) (by omega)

/-! ### Blanks -/

def Blank (cs : List Char) : Prop :=
  ∀ c ∈ cs, isSpace c = true

/-- The parts of a document are set apart by blanks and colons alone. -/
structure Layout.Blank (l : Layout) : Prop where
  colon : ∃ bs, l.colon = ':' :: bs ∧ Json.Blank bs
  lineBreak : ∀ n, Json.Blank (l.lineBreak n)

theorem blank_lines : Layout.lines.Blank where
  colon := ⟨[' '], rfl, by simp [Blank, isSpace]⟩
  lineBreak n c hc := by
    cases List.mem_cons.1 hc with
    | inl h => rw [h]; rfl
    | inr h => rw [List.eq_of_mem_replicate h]; rfl

theorem blank_tight : Layout.tight.Blank where
  colon := ⟨[], rfl, fun _ h => nomatch h⟩
  lineBreak _ _ hc := nomatch hc

theorem skipSpace_append {bs : List Char} (h : Blank bs) (cs : List Char) :
    skipSpace (bs ++ cs) = skipSpace cs :=
  List.dropWhile_append_of_pos h

theorem skipSpace_cons {c : Char} (h : isSpace c = false) (cs : List Char) :
    skipSpace (c :: cs) = c :: cs := by
  simp [skipSpace, h]

/-! ### Strings -/

/-- No character is half of a surrogate pair. -/
theorem toNat_lt_of_char (c : Char) : c.toNat < 0xD800 ∨ 0xDFFF < c.toNat := by
  have h := c.valid
  simp only [UInt32.isValidChar, Nat.isValidChar] at h
  exact h.imp id And.left

theorem hexUnit?_hexChar : ∀ n < 0x20,
    hexUnit? '0' '0' (hexChar (n / 16)) (hexChar (n % 16)) = some n := by
  decide

theorem readUnits_plain {c : Char} (hquote : c ≠ '"') (hback : c ≠ '\\') (hc : 0x20 ≤ c.toNat)
    (cs : List Char) : readUnits (c :: cs) = addUnit c.toNat (readUnits cs) := by
  rw [readUnits.eq_def]
  split
  · rename_i h
    cases h
  · rename_i h
    exact absurd (List.cons.inj h).1 hquote
  · rename_i h
    exact absurd (List.cons.inj h).1 hback
  · rename_i h
    exact absurd (List.cons.inj h).1 hback
  · rename_i h
    obtain ⟨rfl, rfl⟩ := List.cons.inj h
    rw [if_neg (by omega)]

/-- Each character is read as it was written. -/
theorem readUnits_escaped (c : Char) (cs : List Char) :
    readUnits (escaped c ++ cs) = addUnit c.toNat (readUnits cs) := by
  unfold escaped
  iterate 7
    split
    next h => rw [h]; rfl
  rename_i hquote hback _ _ _ _ _
  split
  · rename_i h
    have hhex := hexUnit?_hexChar c.toNat h
    simp only [List.cons_append, List.nil_append]
    rw [readUnits.eq_def]
    simp [hhex]
  · rename_i h
    exact readUnits_plain hquote hback (by omega) cs

theorem joinUnits_toNat (cs : List Char) : joinUnits (cs.map Char.toNat) = some cs := by
  induction cs with
  | nil => rfl
  | cons c cs ih =>
    have hc := toNat_lt_of_char c
    have htrailing : isTrailing c.toNat = false := by
      simp only [isTrailing, Bool.and_eq_false_iff, decide_eq_false_iff_not]
      omega
    have hleading : isLeading c.toNat = false := by
      simp only [isLeading, Bool.and_eq_false_iff, decide_eq_false_iff_not]
      omega
    rw [List.map_cons, joinUnits.eq_def]
    simp [htrailing, hleading, ih, Char.ofNat_toNat]

theorem readString_written (s : String) (rest : List Char) :
    readString (s.toList.flatMap escaped ++ '"' :: rest) = some (some s, rest) := by
  have hunits : ∀ cs : List Char, readUnits (cs.flatMap escaped ++ '"' :: rest) =
      some (cs.map Char.toNat, rest) := by
    intro cs
    induction cs with
    | nil => rfl
    | cons c cs ih =>
      rw [List.flatMap_cons, List.append_assoc, readUnits_escaped, ih]
      rfl
  simp [readString, hunits, joinUnits_toNat]

/-! ### Numbers -/

/-- A numeral does not go on here. -/
def Ends (rest : List Char) : Prop :=
  ∀ c cs, rest = c :: cs → c.isDigit = false ∧ c ≠ '.' ∧ c ≠ 'e' ∧ c ≠ 'E'

theorem wholeDigits_eq {ds : List Char} : ∀ {sig : Nat},
    ds.foldl (fun n c => 10 * n + digitValue c) sig < 18446744073709551616 →
      wholeDigits sig ds = (ds.foldl (fun n c => 10 * n + digitValue c) sig, 0) := by
  induction ds with
  | nil => exact fun _ => rfl
  | cons d ds ih =>
    intro sig h
    have hle : ∀ (cs : List Char) (k : Nat), k ≤ cs.foldl (fun n c => 10 * n + digitValue c) k := by
      intro cs
      induction cs with
      | nil => exact fun k => Nat.le_refl k
      | cons c cs ih =>
        intro k
        have := ih (10 * k + digitValue c)
        simp only [List.foldl_cons]
        omega
    have hfits : fits (10 * sig + digitValue d) = true := by
      have := hle ds (10 * sig + digitValue d)
      simp only [List.foldl_cons] at h
      simp only [fits, decide_eq_true_eq]
      omega
    rw [wholeDigits, if_pos hfits, List.foldl_cons, ih (by simpa using h)]

/-- A numeral of several digits does not start with zero. -/
theorem head?_toDigits (n : Nat) (h : (Nat.toDigits 10 n).head? = some '0') :
    (Nat.toDigits 10 n).length = 1 := by
  have hpos : ∀ m, 0 < m → (Nat.toDigits 10 m).head? ≠ some '0' := by
    intro m
    induction m using Nat.strongRecOn with
    | ind m ih =>
      intro hm
      rw [Nat.toDigits_eq_if (by decide)]
      split
      · rename_i hlt
        have hall : ∀ k < 10, 0 < k → k.digitChar ≠ '0' := by decide
        simpa using hall m hlt hm
      · rename_i hlt
        have hne : Nat.toDigits 10 (m / 10) ≠ [] := Nat.toDigits_ne_nil
        rw [List.head?_append, List.head?_eq_some_head hne]
        intro heq
        refine ih (m / 10) (by omega) (by omega) ?_
        rw [List.head?_eq_some_head hne]
        simpa using heq
  cases n with
  | zero => rfl
  | succ n => exact absurd h (hpos (n + 1) (Nat.succ_pos n))

/-- A numeral is read as far as it goes. -/
theorem readNumber_natChars (n : Nat) {rest : List Char} (hrest : Ends rest) (negative : Bool) :
    readNumber negative (natChars n ++ rest) =
      some (numberOf negative (natChars n) [] none, rest) := by
  have hdigit : ∀ c ∈ natChars n, c.isDigit = true := fun c hc =>
    Nat.isDigit_of_mem_toDigits (by decide) (by decide) hc
  have hstop : rest.takeWhile Char.isDigit = [] ∧ rest.dropWhile Char.isDigit = rest := by
    cases rest with
    | nil => exact ⟨rfl, rfl⟩
    | cons c cs => simp [(hrest c cs rfl).1]
  have htake : (natChars n ++ rest).takeWhile Char.isDigit = natChars n := by
    rw [List.takeWhile_append_of_pos hdigit, hstop.1, List.append_nil]
  have hdrop : (natChars n ++ rest).dropWhile Char.isDigit = rest := by
    rw [List.dropWhile_append_of_pos hdigit, hstop.2]
  have hempty : (natChars n).isEmpty = false := by
    rw [List.isEmpty_eq_false_iff]
    exact Nat.toDigits_ne_nil
  have hzero : ((natChars n).head? == some '0' && (natChars n).length != 1) = false := by
    rw [Bool.and_eq_false_iff]
    by_cases hhead : (natChars n).head? = some '0'
    · exact .inr (by rw [show (natChars n).length = 1 from head?_toDigits n hhead]; rfl)
    · exact .inl (by simpa using hhead)
  have hplaces : readPlaces rest = some ([], rest) := by
    unfold readPlaces
    split
    · exact absurd rfl (hrest _ _ rfl).2.1
    · rfl
  have hexponent : readExponent rest = some (none, rest) := by
    cases rest with
    | nil => rfl
    | cons c cs =>
      obtain ⟨-, -, he, hE⟩ := hrest c cs rfl
      simp [readExponent, he, hE]
  simp [readNumber, htake, hdrop, hempty, hzero, hplaces, hexponent]

theorem wholeDigits_natChars {n : Nat} (h : n < 18446744073709551616) :
    wholeDigits 0 (natChars n) = (n, 0) := by
  have hvalue : (natChars n).foldl (fun n c => 10 * n + digitValue c) 0 = n :=
    ofDigits_toDigits n
  rw [wholeDigits_eq (by rwa [hvalue]), hvalue]

theorem readNumber_pos {n : Nat} (h : n < 18446744073709551616) {rest : List Char}
    (hrest : Ends rest) : readNumber false (natChars n ++ rest) = some (.int n, rest) := by
  rw [readNumber_natChars n hrest]
  simp [numberOf, wholeDigits_natChars h]

theorem readNumber_neg {n : Nat} (hpos : 0 < n) (h : n ≤ 9223372036854775808) {rest : List Char}
    (hrest : Ends rest) : readNumber true (natChars n ++ rest) = some (.int (-n), rest) := by
  rw [readNumber_natChars n hrest]
  simp [numberOf, wholeDigits_natChars (n := n) (by omega), hpos, h]

/-! ### Documents -/

theorem readValue_blank {bs : List Char} (h : Blank bs) (fuel : Nat) (cs : List Char) :
    readValue fuel (bs ++ cs) = readValue fuel cs := by
  cases fuel with
  | zero => rfl
  | succ fuel => rw [readValue, readValue, skipSpace_append h]

theorem readItems_blank {bs : List Char} (h : Blank bs) (fuel : Nat) (cs : List Char) :
    readItems fuel (bs ++ cs) = readItems fuel cs := by
  cases fuel with
  | zero => rfl
  | succ fuel => rw [readItems, readItems, readValue_blank h]

theorem readFields_blank {bs : List Char} (h : Blank bs) (fuel : Nat) (cs : List Char) :
    readFields fuel (bs ++ cs) = readFields fuel cs := by
  cases fuel with
  | zero => rfl
  | succ fuel => rw [readFields, readFields, skipSpace_append h]

/-- What follows a part of a document ends a numeral. -/
theorem ends_blank {bs : List Char} (h : Blank bs) {c : Char}
    (hc : c = ',' ∨ c = ']' ∨ c = '\x7d') (cs : List Char) : Ends (bs ++ c :: cs) := by
  intro d ds heq
  cases bs with
  | nil =>
    obtain ⟨rfl, -⟩ := List.cons.inj heq
    obtain rfl | rfl | rfl := hc <;> decide
  | cons b bs =>
    obtain ⟨rfl, -⟩ := List.cons.inj heq
    have hspace := h b (List.mem_cons_self ..)
    simp only [isSpace, Bool.or_eq_true, beq_iff_eq] at hspace
    obtain ((rfl | rfl) | rfl) | rfl := hspace <;> decide

variable {l : Layout}

theorem isSpace_of_digit {c : Char} (h : c.isDigit = true) : isSpace c = false := by
  rw [Bool.eq_false_iff]
  intro hspace
  simp only [isSpace, Bool.or_eq_true, beq_iff_eq] at hspace
  obtain ((rfl | rfl) | rfl) | rfl := hspace <;> cases h

theorem exists_digit (n : Nat) : ∃ c cs, natChars n = c :: cs ∧ c.isDigit = true := by
  obtain ⟨c, cs, heq⟩ := List.exists_cons_of_ne_nil (Nat.toDigits_ne_nil : Nat.toDigits 10 n ≠ [])
  exact ⟨c, cs, heq, Nat.isDigit_of_mem_toDigits (b := 10) (n := n) (by decide) (by decide)
    (by rw [heq]; exact List.mem_cons_self ..)⟩

/-- No document starts with a blank or with a closing bracket. -/
theorem write_head {j : Json} (hj : Exact j) (level : Nat) : ∃ c cs, write l level j = c :: cs ∧
    isSpace c = false ∧ c ≠ ']' := by
  cases hj with
  | null => exact ⟨'n', _, rfl, rfl, by decide⟩
  | bool b => cases b <;> exact ⟨_, _, rfl, rfl, by decide⟩
  | @int n =>
    by_cases hn : n < 0
    · exact ⟨'-', _, by rw [write, numberChars, intChars, if_pos hn], rfl, by decide⟩
    · rw [write, numberChars, intChars, if_neg hn]
      obtain ⟨c, cs, heq, hdigit⟩ := exists_digit n.natAbs
      exact ⟨c, cs, heq, isSpace_of_digit hdigit, fun h => by rw [h] at hdigit; cases hdigit⟩
  | string s => exact ⟨'"', _, rfl, rfl, by decide⟩
  | @array items _ => cases items <;> exact ⟨'[', _, rfl, rfl, by decide⟩
  | @object fields _ _ =>
    cases fields with
    | nil => exact ⟨'\x7b', _, rfl, rfl, by decide⟩
    | cons f fields => exact ⟨'\x7b', _, rfl, rfl, by decide⟩

theorem readValue_opening {bs : List Char} (h : Blank bs) {c : Char} (hspace : isSpace c = false)
    (hc : c ≠ ']') (fuel : Nat) (cs : List Char) : readValue (fuel + 1) ('[' :: (bs ++ c :: cs)) =
      (readItems fuel (c :: cs)).map fun r => (.array r.1, r.2) := by
  rw [readValue, skipSpace_cons (by rfl)]
  simp only [skipSpace_append h, skipSpace_cons hspace]
  split
  · rename_i heq
    exact absurd (List.cons.inj heq).1 hc
  · rfl

theorem readValue_brace {bs : List Char} (h : Blank bs) (fuel : Nat) (cs : List Char) :
    readValue (fuel + 1) ('\x7b' :: (bs ++ '"' :: cs)) =
      (readFields fuel ('"' :: cs)).map fun r => (.object r.1, r.2) := by
  rw [readValue, skipSpace_cons (by rfl)]
  simp only [skipSpace_append h, skipSpace_cons (c := '"') (by rfl)]
  rfl

theorem readValue_int {n : Int} (hlow : -9223372036854775808 ≤ n)
    (hhigh : n < 18446744073709551616) {rest : List Char} (hrest : Ends rest) (fuel : Nat) :
    readValue (fuel + 1) (intChars n ++ rest) = some (.number (.int n), rest) := by
  by_cases hn : n < 0
  · have hread := readNumber_neg (n := n.natAbs) (by omega) (by omega) hrest
    rw [show -(n.natAbs : Int) = n by omega] at hread
    rw [intChars, if_pos hn, List.cons_append, readValue, skipSpace_cons (by rfl)]
    simp only [hread, Option.map_some]
  · have hread := readNumber_pos (n := n.natAbs) (by omega) hrest
    rw [show (n.natAbs : Int) = n by omega] at hread
    obtain ⟨c, cs, heq, hdigit⟩ := exists_digit n.natAbs
    rw [intChars, if_neg hn, readValue]
    rw [heq, List.cons_append] at hread ⊢
    rw [skipSpace_cons (isSpace_of_digit hdigit)]
    split
    all_goals first
      | (rename_i h; obtain ⟨rfl, -⟩ := List.cons.inj h; cases hdigit)
      | rw [hread]; rfl

/-! Reading with a given fuel takes back what is no longer than the fuel. -/

def ReadsValues (l : Layout) (fuel : Nat) : Prop :=
  ∀ {j : Json}, Exact j → ∀ {level : Nat} {rest : List Char}, (write l level j).length ≤ fuel →
    Ends rest → readValue fuel (write l level j ++ rest) = some (j, rest)

def ReadsItems (l : Layout) (fuel : Nat) : Prop :=
  ∀ {j : Json} {js : List Json}, (∀ k ∈ j :: js, Exact k) → ∀ {level : Nat} {bs rest : List Char},
    Blank bs → (write l level j).length + (writeItems l level js).length + 1 ≤ fuel →
      readItems fuel (write l level j ++ (writeItems l level js ++ (bs ++ ']' :: rest))) =
        some (j :: js, rest)

def ReadsFields (l : Layout) (fuel : Nat) : Prop :=
  ∀ {s : String} {j : Json} {fs : List (Option String × Json)},
    (∀ f ∈ fs, f.1.isSome = true) → (∀ f ∈ (some s, j) :: fs, Exact f.2) →
      ∀ {level : Nat} {bs rest : List Char}, Blank bs →
        (write l level j).length + (writeFields l level fs).length + 1 ≤ fuel →
          readFields fuel (stringChars s ++ (l.colon ++ (write l level j ++
            (writeFields l level fs ++ (bs ++ '\x7d' :: rest))))) = some ((some s, j) :: fs, rest)

theorem readsValues_zero : ReadsValues l 0 := by
  intro j hj level rest hlen
  obtain ⟨c, cs, heq, -⟩ := write_head (l := l) hj level
  simp [heq] at hlen

theorem readsValues_succ (hl : l.Blank) {fuel : Nat} (hitems : ReadsItems l fuel)
    (hfields : ReadsFields l fuel) : ReadsValues l (fuel + 1) := by
  intro j hj level rest hlen hrest
  cases hj with
  | null => simp [write, nullChars, readValue, skipSpace, isSpace]
  | bool b => cases b <;> simp [write, boolChars, readValue, skipSpace, isSpace]
  | int hlow hhigh => exact readValue_int hlow hhigh hrest fuel
  | string s =>
    simp [write, keyChars, stringChars, readValue, skipSpace, isSpace, readString_written]
  | @array items h =>
    cases items with
    | nil => simp [write, readValue, skipSpace, isSpace]
    | cons j js =>
      obtain ⟨c, cs, heq, hspace, hc⟩ :=
        write_head (l := l) (h j (List.mem_cons_self ..)) (level + 1)
      have hread := @hitems _ _ h (level + 1) _ rest (hl.lineBreak level)
        (by simp [write] at hlen; omega)
      simp only [write, List.cons_append, List.append_assoc, List.nil_append]
      rw [heq, List.cons_append, readValue_opening (hl.lineBreak _) hspace hc, ← List.cons_append,
        ← heq, hread]
      rfl
  | @object fields hkeys h =>
    cases fields with
    | nil => simp [write, readValue, skipSpace, isSpace]
    | cons f fs =>
      obtain ⟨k, j⟩ := f
      obtain ⟨s, rfl⟩ := Option.isSome_iff_exists.1 (hkeys (k, j) (List.mem_cons_self ..))
      have hread := @hfields _ _ _ (fun f hf => hkeys f (List.mem_cons_of_mem _ hf)) h
        (level + 1) _ rest (hl.lineBreak level) (by simp [write] at hlen; omega)
      simp only [write, keyChars, stringChars, List.cons_append, List.append_assoc,
        List.nil_append] at hread ⊢
      rw [readValue_brace (hl.lineBreak _), hread]
      rfl

theorem readsItems_succ (hl : l.Blank) {fuel : Nat} (hvalues : ReadsValues l fuel)
    (hitems : ReadsItems l fuel) : ReadsItems l (fuel + 1) := by
  intro j js h level bs rest hbs hlen
  cases js with
  | nil =>
    have hj := @hvalues _ (h j (List.mem_cons_self ..)) level _ (by omega)
      (ends_blank hbs (.inr (.inl rfl)) rest)
    simp only [writeItems, List.nil_append, readItems, hj, skipSpace_append hbs,
      skipSpace_cons (c := ']') (by rfl)]
  | cons k js =>
    have hj := @hvalues _ (h j (List.mem_cons_self ..)) level _ (by omega)
      (@ends_blank [] (fun _ h => nomatch h) _ (.inl rfl)
        (l.lineBreak level ++ (write l level k ++ (writeItems l level js ++ (bs ++ ']' :: rest)))))
    have hjs := @hitems _ _ (fun k hk => h k (List.mem_cons_of_mem _ hk)) level _ rest hbs
      (by simp [writeItems] at hlen; omega)
    simp only [writeItems, List.cons_append, List.append_assoc, List.nil_append] at hj ⊢
    rw [readItems, hj]
    simp only [skipSpace_cons (c := ',') (by rfl), readItems_blank (hl.lineBreak _), hjs,
      Option.map_some]

theorem readsFields_succ (hl : l.Blank) {fuel : Nat} (hvalues : ReadsValues l fuel)
    (hfields : ReadsFields l fuel) : ReadsFields l (fuel + 1) := by
  intro s j fs hkeys h level bs rest hbs hlen
  obtain ⟨cs, hcolon, hcs⟩ := hl.colon
  cases fs with
  | nil =>
    have hj := @hvalues j (h (some s, j) (List.mem_cons_self ..)) level _ (by omega)
      (ends_blank hbs (.inr (.inr rfl)) rest)
    simp only [stringChars, writeFields, hcolon, List.cons_append, List.append_assoc,
      List.nil_append, readFields, skipSpace_cons (c := '"') (by rfl), readString_written,
      skipSpace_cons (c := ':') (by rfl), readValue_blank hcs, hj, skipSpace_append hbs,
      skipSpace_cons (c := '\x7d') (by rfl)]
  | cons f fs =>
    obtain ⟨k, i⟩ := f
    obtain ⟨t, rfl⟩ := Option.isSome_iff_exists.1 (hkeys (k, i) (List.mem_cons_self ..))
    have hj := @hvalues j (h (some s, j) (List.mem_cons_self ..)) level _ (by omega)
      (@ends_blank [] (fun _ h => nomatch h) _ (.inl rfl)
        (l.lineBreak level ++ (stringChars t ++ (l.colon ++ (write l level i ++
          (writeFields l level fs ++ (bs ++ '\x7d' :: rest)))))))
    have hfs := @hfields _ _ _ (fun f hf => hkeys f (List.mem_cons_of_mem _ hf))
      (fun f hf => h f (List.mem_cons_of_mem _ hf)) level _ rest hbs
      (by simp [writeFields] at hlen; omega)
    simp only [stringChars, writeFields, keyChars, hcolon, List.cons_append, List.append_assoc,
      List.nil_append] at hj hfs ⊢
    simp only [readFields, skipSpace_cons (c := '"') (by rfl), readString_written,
      skipSpace_cons (c := ':') (by rfl), readValue_blank hcs, hj,
      skipSpace_cons (c := ',') (by rfl), readFields_blank (hl.lineBreak _), hfs, Option.map_some]

/-- A document at the head of a text is read as it was written. -/
theorem readValue_write (hl : l.Blank) (fuel : Nat) : ReadsValues l fuel := by
  have hall : ReadsValues l fuel ∧ ReadsItems l fuel ∧ ReadsFields l fuel := by
    induction fuel with
    | zero => exact ⟨readsValues_zero, fun _ _ _ _ _ h => by omega, fun _ _ _ _ _ _ h => by omega⟩
    | succ fuel ih =>
      obtain ⟨hvalues, hitems, hfields⟩ := ih
      exact ⟨readsValues_succ hl hitems hfields, readsItems_succ hl hvalues hitems,
        readsFields_succ hl hvalues hfields⟩
  exact fun {j} => hall.1 (j := j)

theorem read?_write (hl : l.Blank) {j : Json} (hj : Exact j) :
    read? (String.ofList (write l 0 j)) = some j := by
  have hread := @readValue_write _ hl (2 * (write l 0 j).length + 1) _ hj 0 [] (by omega)
    (fun _ _ h => nomatch h)
  rw [List.append_nil] at hread
  simp [read?, String.toList_ofList, hread, skipSpace]

/-- A document laid out over lines is read as it was written. -/
theorem read?_pretty {j : Json} (hj : Exact j) : read? (pretty j) = some j :=
  read?_write blank_lines hj

/-- A document without blanks is read as it was written. -/
theorem read?_compact {j : Json} (hj : Exact j) : read? (compact j) = some j :=
  read?_write blank_tight hj

end StateDiagram.Json
