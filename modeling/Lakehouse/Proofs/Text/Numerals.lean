import Lakehouse.Text.Blank
import Lakehouse.Text.Decimal
import Mathlib.Algebra.Group.Nat.Defs

/- Integers read back from their text.

   The digits of a number are ASCII digits that do not begin with a zero unless the
   number is zero, and taking them from left to right gives the number again
   (`ofDigitChars_decimal`). So every reader of integers, whatever its range, gives
   back a number within its range (`readUInt64_decimal`, `readInt32_signedDecimal`),
   and filling up with zeros changes the text but not the number. -/
namespace Lakehouse.Text

theorem isDigit_eq (c : Char) : isDigit c = c.isDigit := by
  rw [Bool.eq_iff_iff, Char.isDigit_iff_toNat]
  simp only [isDigit, Bool.and_eq_true, decide_eq_true_eq, Char.le_def, UInt32.le_iff_toNat_le]
  rfl

theorem isDigit_iff (c : Char) : isDigit c = true ↔ 48 ≤ c.toNat ∧ c.toNat ≤ 57 := by
  rw [isDigit_eq, Char.isDigit_iff_toNat]
  rfl

theorem isDigit_of_mem_decimal {n : Nat} {c : Char} (h : c ∈ decimal n) : isDigit c = true := by
  rw [isDigit_eq]
  exact Nat.isDigit_of_mem_toDigits (by decide) (by decide) h

theorem decimal_ne_nil (n : Nat) : decimal n ≠ [] := Nat.toDigits_ne_nil

/-- Only zero has a text that begins with a zero. -/
theorem eq_zero_of_head_decimal (n : Nat) (h : (decimal n).head? = some '0') : n = 0 := by
  induction n using Nat.strongRecOn with
  | ind n ih =>
    by_cases hn : n < 10
    · rw [decimal, Nat.toDigits_of_lt_base hn] at h
      simpa using h
    · have hsplit : decimal n = decimal (n / 10) ++ [(n % 10).digitChar] :=
        Nat.toDigits_of_base_le (by decide) (by omega)
      rw [hsplit, List.head?_append, List.head?_eq_some_head (decimal_ne_nil _), Option.some_or,
        ← List.head?_eq_some_head] at h
      have := ih (n / 10) (by omega) h
      omega

theorem ofDigitChars_decimal (n : Nat) : Nat.ofDigitChars 10 (decimal n) 0 = n :=
  Nat.ofDigitChars_ten_toDigits

theorem decimal_injective {m n : Nat} (h : decimal m = decimal n) : m = n := by
  rw [← ofDigitChars_decimal m, h, ofDigitChars_decimal]

/-- The minus sign is no digit, so it tells the numbers below zero from all others. -/
theorem signedDecimal_injective {i j : Int} (h : signedDecimal i = signedDecimal j) : i = j := by
  have hsign : ∀ m n : Nat, decimal m ≠ '-' :: decimal n := by
    intro m n hm
    have hdigit : isDigit '-' = true := isDigit_of_mem_decimal (hm ▸ List.mem_cons_self)
    exact absurd hdigit (by decide)
  cases i with
  | ofNat m =>
    cases j with
    | ofNat n => exact congrArg Int.ofNat (decimal_injective h)
    | negSucc n => exact absurd h (hsign m (n + 1))
  | negSucc m =>
    cases j with
    | ofNat n => exact absurd h.symm (hsign n (m + 1))
    | negSucc n =>
      have hdigits := decimal_injective (List.cons.inj h).2
      exact congrArg Int.negSucc (Nat.succ.inj hdigits)

/-! ### Reading -/

theorem le_ofDigitChars (l : List Char) (n : Nat) : n ≤ Nat.ofDigitChars 10 l n := by
  induction l generalizing n with
  | nil => simp [Nat.ofDigitChars_nil]
  | cons c rest ih =>
    rw [Nat.ofDigitChars_cons]
    exact Nat.le_trans (by omega) (ih _)

/-- Digits whose number stays within the limit are read to their end. -/
theorem readDigits_eq (limit : Nat) (excess : IntegerFault) {l : List Char} {n : Nat}
    (hl : ∀ c ∈ l, isDigit c = true) (hn : Nat.ofDigitChars 10 l n ≤ limit) :
    readDigits limit excess n l = .ok (Nat.ofDigitChars 10 l n) := by
  induction l generalizing n with
  | nil => rw [readDigits, Nat.ofDigitChars_nil]
  | cons c rest ih =>
    have hstep : Nat.ofDigitChars 10 (c :: rest) n =
        Nat.ofDigitChars 10 rest (n * 10 + digitValue c) := by
      rw [Nat.ofDigitChars_cons, Nat.mul_comm]; rfl
    rw [hstep] at hn ⊢
    have hle : n * 10 + digitValue c ≤ limit := Nat.le_trans (le_ofDigitChars rest _) hn
    rw [readDigits, if_pos (hl c (by simp)), if_pos hle]
    exact ih (fun d hd => hl d (by simp [hd])) hn

theorem readMagnitude_decimal {limit n : Nat} (excess : IntegerFault) (h : n ≤ limit) :
    readMagnitude limit excess (decimal n) = .ok n := by
  have hread := readDigits_eq limit excess (fun _ hc => isDigit_of_mem_decimal hc)
    (by rwa [ofDigitChars_decimal] : Nat.ofDigitChars 10 (decimal n) 0 ≤ limit)
  rw [ofDigitChars_decimal] at hread
  obtain ⟨c, rest, hcr⟩ := List.exists_cons_of_ne_nil (decimal_ne_nil n)
  rw [hcr] at hread ⊢
  exact hread

/-- The text of a number begins with a digit, so with no sign. -/
theorem decimal_eq_cons (n : Nat) : ∃ c rest, decimal n = c :: rest ∧ isDigit c = true := by
  obtain ⟨c, rest, hcr⟩ := List.exists_cons_of_ne_nil (decimal_ne_nil n)
  exact ⟨c, rest, hcr, isDigit_of_mem_decimal (hcr ▸ List.mem_cons_self)⟩

theorem readNatural_decimal {limit n : Nat} (h : n ≤ limit) :
    readNatural limit (decimal n) = .ok n := by
  have hread := readMagnitude_decimal .tooLarge h
  obtain ⟨c, rest, hcr, hc⟩ := decimal_eq_cons n
  have hplus : c ≠ '+' := by rintro rfl; exact absurd hc (by decide)
  rw [hcr] at hread ⊢
  simpa [readNatural, hplus] using hread

theorem readUInt64_decimal (v : UInt64) : readUInt64 (decimal v.toNat) = .ok v := by
  have hv : v.toNat ≤ UInt64.size - 1 := Nat.le_sub_one_of_lt v.toNat_lt_size
  rw [readUInt64, readNatural_decimal hv]
  exact congrArg Except.ok UInt64.ofNat_toNat

theorem readInteger_signedDecimal {below above : Nat} {i : Int} (hb : -(below : Int) ≤ i)
    (ha : i ≤ above) : readInteger below above (signedDecimal i) = .ok i := by
  cases i with
  | ofNat n =>
    have hread := readMagnitude_decimal .tooLarge (show n ≤ above by simpa using ha)
    obtain ⟨c, rest, hcr, hc⟩ := decimal_eq_cons n
    have hplus : c ≠ '+' := by rintro rfl; exact absurd hc (by decide)
    have hminus : c ≠ '-' := by rintro rfl; exact absurd hc (by decide)
    rw [hcr] at hread
    rw [signedDecimal, hcr, readInteger]
    · rw [hread]; rfl
    · simp
    · simpa using hplus
    · simpa using hminus
  | negSucc n =>
    have hread := readMagnitude_decimal .tooSmall (show n + 1 ≤ below by omega)
    rw [signedDecimal, readInteger, hread]
    rfl

theorem readInt32_signedDecimal (i : Int32) : readInt32 (signedDecimal i.toInt) = .ok i := by
  have hlow := i.le_toInt
  have hhigh := i.toInt_lt
  rw [readInt32, readInteger_signedDecimal (by simpa using hlow) (by simp; omega)]
  exact congrArg Except.ok (Int32.ofInt_toInt i)

theorem readInt64_signedDecimal (i : Int64) : readInt64 (signedDecimal i.toInt) = .ok i := by
  have hlow := i.le_toInt
  have hhigh := i.toInt_lt
  rw [readInt64, readInteger_signedDecimal (by simpa using hlow) (by simp; omega)]
  exact congrArg Except.ok (Int64.ofInt_toInt i)

/-! ### Texts filled up with zeros -/

theorem ofDigitChars_paddedDecimal (width n : Nat) :
    Nat.ofDigitChars 10 (paddedDecimal width n) 0 = n := by
  rw [paddedDecimal, Nat.ofDigitChars_append, Nat.ofDigitChars_replicate_zero, Nat.mul_zero,
    ofDigitChars_decimal]

theorem paddedDecimal_injective {width m n : Nat}
    (h : paddedDecimal width m = paddedDecimal width n) : m = n := by
  rw [← ofDigitChars_paddedDecimal width m, h, ofDigitChars_paddedDecimal]

theorem isDigit_of_mem_paddedDecimal {width n : Nat} {c : Char}
    (h : c ∈ paddedDecimal width n) : isDigit c = true := by
  rcases List.mem_append.1 h with h | h
  · obtain rfl := List.eq_of_mem_replicate h
    decide
  · exact isDigit_of_mem_decimal h

/-- A number with no more digits than the width takes exactly the width. -/
theorem length_paddedDecimal {width n : Nat} (hw : 0 < width) (hn : n < 10 ^ width) :
    (paddedDecimal width n).length = width := by
  have hle : (decimal n).length ≤ width := (Nat.length_toDigits_le_iff (by decide) hw).2 hn
  rw [paddedDecimal, List.length_append, List.length_replicate]
  omega

/-- A number with more digits than the width takes as many places as it needs. -/
theorem length_paddedDecimal_bounds (width digits : Nat) {n : Nat} (hw : width ≤ digits) (hd : 0 < digits)
    (hn : n < 10 ^ digits) :
    width ≤ (paddedDecimal width n).length ∧ (paddedDecimal width n).length ≤ digits := by
  have hle : (decimal n).length ≤ digits := (Nat.length_toDigits_le_iff (by decide) hd).2 hn
  rw [paddedDecimal, List.length_append, List.length_replicate]
  omega

theorem length_signedDecimal_le (digits : Nat) {i : Int} (hd : 0 < digits)
    (hi : i.natAbs < 10 ^ digits) : (signedDecimal i).length ≤ digits + 1 := by
  cases i with
  | ofNat n =>
    have hle : (decimal n).length ≤ digits := (Nat.length_toDigits_le_iff (by decide) hd).2 hi
    rw [signedDecimal]
    omega
  | negSucc n =>
    have hle : (decimal (n + 1)).length ≤ digits :=
      (Nat.length_toDigits_le_iff (by decide) hd).2 hi
    rw [signedDecimal, List.length_cons]
    omega

theorem paddedDecimal_ne_nil (width n : Nat) : paddedDecimal width n ≠ [] := by
  simp [paddedDecimal, decimal_ne_nil]

/-! ### Blanks around a number -/

theorem isBlank_of_isDigit {c : Char} (h : isDigit c = true) : isBlank c = false := by
  obtain ⟨hlow, hhigh⟩ := (isDigit_iff c).1 h
  have hrange : ∀ n : Fin 10, blanks.contains (48 + n.val) = false := by decide
  have hc := hrange ⟨c.toNat - 48, by omega⟩
  rwa [Nat.add_sub_cancel' hlow] at hc

/-- Nothing is trimmed off a text without blanks, and one line feed behind it is. -/
theorem trim_line {l : List Char} (h : ∀ c ∈ l, isBlank c = false) :
    trim (l ++ ['\n']) = l := by
  have hleft : ∀ l : List Char, (∀ c ∈ l, isBlank c = false) → l.dropWhile isBlank = l := by
    intro l h
    cases l with
    | nil => rfl
    | cons c rest => rw [List.dropWhile_cons_of_neg (by simp [h c (by simp)])]
  cases l with
  | nil => decide
  | cons c rest =>
    rw [trim, trimLeft, List.cons_append,
      List.dropWhile_cons_of_neg (by simp [h c (by simp)]), trimRight, ← List.cons_append,
      List.reverse_append, List.reverse_singleton, List.singleton_append,
      List.dropWhile_cons_of_pos (by decide), hleft _ (fun c hc => h c (List.mem_reverse.1 hc)),
      List.reverse_reverse]

end Lakehouse.Text
