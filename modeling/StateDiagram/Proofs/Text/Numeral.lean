import StateDiagram.Text.Blank
import StateDiagram.Text.Numeral
import Mathlib.Tactic.Attr.Core

/-! Decimal numerals that are written are read back. -/
namespace StateDiagram.Text

theorem ofDigits_toDigits (n : Nat) : ofDigits (Nat.toDigits 10 n) = n := by
  have h := Nat.ofDigitChars_ten_toDigits (n := n)
  rwa [Nat.ofDigitChars_eq_foldl] at h

theorem ofDigits_toString (n : Nat) : ofDigits (toString n).toList = n := by
  have hdigits : (toString n).toList = Nat.toDigits 10 n := by simp
  rw [hdigits, ofDigits_toDigits]

/-- Different numbers have different numerals. -/
theorem toString_inj {m n : Nat} : toString m = toString n ↔ m = n := by
  constructor
  · intro h
    rw [← ofDigits_toString m, h, ofDigits_toString]
  · exact congrArg toString

theorem readNat?_toDigits (n : Nat) : readNat? (Nat.toDigits 10 n) = some n := by
  have hdigits : (Nat.toDigits 10 n).all Char.isDigit = true :=
    List.all_eq_true.2 fun c hc => Nat.isDigit_of_mem_toDigits (by decide) (by decide) hc
  rw [readNat?, if_pos ⟨Nat.toDigits_ne_nil, hdigits⟩, ofDigits_toDigits]

theorem toList_toString (n : Int) :
    (toString n).toList =
      if 0 ≤ n then Nat.toDigits 10 n.toNat else '-' :: Nat.toDigits 10 (-n).toNat := by
  rw [Int.toString_eq_repr, Int.repr_eq_if]
  split <;> simp

/-- A numeral without a sign starts with a digit. -/
theorem readInt?_of_digit {cs : List Char} (h : ∀ c ∈ cs, c.isDigit = true) :
    readInt? cs = (readNat? cs).map fun n => (n : Int) := by
  unfold readInt?
  split
  · have hd := h '-' (List.mem_cons_self ..)
    cases hd
  · have hd := h '+' (List.mem_cons_self ..)
    cases hd
  · rfl

theorem readInt?_toString (n : Int) : readInt? (toString n).toList = some n := by
  rw [toList_toString]
  split
  · rename_i h
    rw [readInt?_of_digit fun c hc => Nat.isDigit_of_mem_toDigits (by decide) (by decide) hc,
      readNat?_toDigits]
    simp [Int.toNat_of_nonneg h]
  · rename_i h
    have hneg : 0 ≤ -n := by omega
    simp [readInt?, readNat?_toDigits, Int.toNat_of_nonneg hneg]

/-- Different integers have different numerals. -/
theorem toString_int_inj {m n : Int} : toString m = toString n ↔ m = n := by
  constructor
  · intro h
    have hread := readInt?_toString m
    rw [h, readInt?_toString, Option.some.injEq] at hread
    exact hread.symm
  · exact congrArg toString

theorem int32?_toInt (n : Int32) : int32? n.toInt = some n := by
  have hlow : -2147483648 ≤ n.toInt := n.le_toInt
  have hhigh : n.toInt < 2147483648 := n.toInt_lt
  rw [int32?, if_pos ⟨hlow, by omega⟩, Int32.ofInt_toInt]

theorem int64?_toInt (n : Int64) : int64? n.toInt = some n := by
  have hlow : -9223372036854775808 ≤ n.toInt := n.le_toInt
  have hhigh : n.toInt < 9223372036854775808 := n.toInt_lt
  rw [int64?, if_pos ⟨hlow, by omega⟩, Int64.ofInt_toInt]

theorem readInt32?_toString (n : Int32) : readInt32? (toString n.toInt).toList = some n := by
  rw [readInt32?, readInt?_toString, Option.bind_some, int32?_toInt]

theorem readInt64?_toString {n : Int} (hlow : -9223372036854775808 ≤ n)
    (hhigh : n ≤ 9223372036854775807) :
    readInt64? (toString n).toList = some (Int64.ofInt n) := by
  rw [readInt64?, readInt?_toString, Option.bind_some, int64?, if_pos ⟨hlow, hhigh⟩]

theorem isBlank_of_isDigit {c : Char} (h : c.isDigit = true) : isBlank c = false := by
  have hrange : 48 ≤ c.toNat ∧ c.toNat ≤ 57 := by
    simp only [Char.isDigit, Bool.and_eq_true, decide_eq_true_eq, ge_iff_le, UInt32.le_iff_toNat_le]
      at h
    exact h
  simp only [isBlank, Bool.or_eq_false_iff, Bool.and_eq_false_iff, decide_eq_false_iff_not,
    beq_eq_false_iff_ne]
  omega

theorem trim_of_isDigit {cs : List Char} (h : ∀ c ∈ cs, c.isDigit = true) : trim cs = cs := by
  have hkept : ∀ ds : List Char, (∀ c ∈ ds, c.isDigit = true) → ds.dropWhile isBlank = ds := by
    intro ds hds
    cases ds with
    | nil => rfl
    | cons d ds =>
      rw [List.dropWhile_cons_of_neg]
      simp [isBlank_of_isDigit (hds d (List.mem_cons_self ..))]
  have hback : ∀ c ∈ cs.reverse, c.isDigit = true := fun c hc => h c (List.mem_reverse.1 hc)
  rw [trim, trimStart, hkept cs h, trimEnd, hkept cs.reverse hback, List.reverse_reverse]

/-- The numeral of a natural number has no blanks around it. -/
theorem readInt64?_trim {k : Nat} (h : k ≤ 9223372036854775807) :
    readInt64? (trim (toString k).toList) = some (Int64.ofInt k) := by
  have htrim : trim (toString k).toList = (toString (k : Int)).toList :=
    trim_of_isDigit fun c hc =>
      Nat.isDigit_of_mem_toDigits (b := 10) (n := k) (by decide) (by decide) (by simpa using hc)
  rw [htrim, readInt64?_toString (by omega) (by omega)]

/-- A numeral is written with digits and perhaps a sign before them. -/
theorem mem_toString {n : Int} {c : Char} (h : c ∈ (toString n).toList) :
    c.isDigit = true ∨ c = '-' := by
  have hdigit : ∀ {m : Nat}, c ∈ Nat.toDigits 10 m → c.isDigit = true :=
    fun hc => Nat.isDigit_of_mem_toDigits (by decide) (by decide) hc
  rw [toList_toString] at h
  split at h
  · exact .inl (hdigit h)
  · obtain rfl | h := List.mem_cons.1 h
    · exact .inr rfl
    · exact .inl (hdigit h)

theorem toString_ne_nil (n : Int) : (toString n).toList ≠ [] := by
  rw [toList_toString]
  split
  · exact Nat.toDigits_ne_nil
  · simp

end StateDiagram.Text
