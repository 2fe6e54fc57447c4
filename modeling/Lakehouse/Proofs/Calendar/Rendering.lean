import Lakehouse.Calendar.Rfc3339
import Lakehouse.Proofs.Text.Numerals

/- Instants read back from their text.

   Each reader takes exactly what the writer wrote for its part off the front of a
   text, whatever follows. Since only the last second of a minute can be a leap
   second, second 60 is read back as the instant that was written, and every instant
   is read from its text (`read?_render`). -/
namespace Lakehouse.Calendar

open Lakehouse.Text

section Readers

variable {α β : Type} (text : List Char)

/-- What comes first takes its part off the text, and the next reader goes on with
the rest. -/
theorem bind_apply {x : Reading α} {a : α} {text rest : List Char}
    (h : x text = some (a, rest)) (f : α → Reading β) : (x >>= f) text = f a rest := by
  have hbind : (x >>= f) text = (x text).bind fun p => f p.1 p.2 := rfl
  rw [hbind, h, Option.bind_some]

theorem pure_apply (a : α) : (pure a : Reading α) text = some (a, text) := rfl

theorem get_apply : (get : Reading (List Char)) text = some (text, text) := rfl

theorem set_apply (rest : List Char) : (set rest : Reading PUnit) text = some (⟨⟩, rest) := rfl

theorem guard_apply {p : Prop} [Decidable p] (h : p) :
    (guard p : Reading Unit) text = some ((), text) := by
  have hguard : (guard p : Reading Unit) = pure () := if_pos h
  rw [hguard]
  rfl

theorem skipBlanks_apply : skipBlanks text = some ((), trimLeft text) := rfl

end Readers

theorem trimLeft_cons {c : Char} (h : isBlank c = false) (rest : List Char) :
    trimLeft (c :: rest) = c :: rest :=
  List.dropWhile_cons_of_neg (by simp [h])

/-- A text of digits goes on with no more of them. -/
def Stops (rest : List Char) : Prop := ∀ c, rest.head? = some c → isDigit c = false

theorem Stops.cons {c : Char} (h : isDigit c = false) (rest : List Char) : Stops (c :: rest) := by
  intro d hd
  cases hd
  exact h

theorem takeWhile_take {digits rest : List Char} {width : Nat}
    (hdigits : ∀ c ∈ digits, isDigit c = true) (hlength : digits.length ≤ width)
    (hstop : digits.length = width ∨ Stops rest) :
    ((digits ++ rest).take width).takeWhile isDigit = digits := by
  have htake : (digits ++ rest).take width = digits ++ rest.take (width - digits.length) := by
    rw [List.take_append, List.take_of_length_le hlength]
  rw [htake, List.takeWhile_append_of_pos hdigits]
  rcases hstop with hfull | hstop
  · simp [hfull]
  · cases hrest : rest.take (width - digits.length) with
    | nil => simp
    | cons c more =>
      have hhead : rest.head? = some c := by
        have hprefix : c :: more <+: rest := hrest ▸ List.take_prefix _ rest
        obtain ⟨after, rfl⟩ := hprefix
        rfl
      rw [List.takeWhile_cons_of_neg (by simp [hstop c hhead]), List.append_nil]

theorem readNumber_append {digits rest : List Char} {width : Nat}
    (hdigits : ∀ c ∈ digits, isDigit c = true) (hne : digits ≠ [])
    (hlength : digits.length ≤ width) (hstop : digits.length = width ∨ Stops rest) :
    readNumber width (digits ++ rest) = some (Nat.ofDigitChars 10 digits 0, rest) := by
  have hempty : digits.isEmpty = false := by simpa using hne
  rw [readNumber, takeWhile_take hdigits hlength hstop]
  simp [hempty]

theorem length_twoDigits {n : Nat} (h : n < 100) : (twoDigits n).length = 2 :=
  length_paddedDecimal (by decide) h

/-- Where digits begin, there is no blank. -/
theorem trimLeft_paddedDecimal (width n : Nat) (rest : List Char) :
    trimLeft (paddedDecimal width n ++ rest) = paddedDecimal width n ++ rest := by
  obtain ⟨c, cs, hcs⟩ := List.exists_cons_of_ne_nil (paddedDecimal_ne_nil width n)
  have hc : isDigit c = true := isDigit_of_mem_paddedDecimal (hcs ▸ List.mem_cons_self)
  rw [hcs, List.cons_append, trimLeft_cons (isBlank_of_isDigit hc)]

theorem readPart_twoDigits {least greatest n : Nat} (hleast : least ≤ n) (hgreatest : n ≤ greatest)
    (h : n < 100) (rest : List Char) :
    readPart least greatest (twoDigits n ++ rest) = some (n, rest) := by
  have hnumber : readNumber 2 (twoDigits n ++ rest) = some (n, rest) := by
    rw [twoDigits, readNumber_append (fun _ hc => isDigit_of_mem_paddedDecimal hc)
      (paddedDecimal_ne_nil 2 n) (Nat.le_of_eq (length_twoDigits h)) (.inl (length_twoDigits h)),
      ofDigitChars_paddedDecimal]
  rw [readPart, bind_apply (skipBlanks_apply _), twoDigits, trimLeft_paddedDecimal, ← twoDigits,
    bind_apply hnumber, bind_apply (guard_apply _ ⟨hleast, hgreatest⟩), pure_apply]

theorem readMark_cons {mark : Char} (h : isBlank mark = false) (rest : List Char) :
    readMark mark (mark :: rest) = some (⟨⟩, rest) := by
  rw [readMark, bind_apply (skipBlanks_apply _), trimLeft_cons h, bind_apply (get_apply _)]
  exact bind_apply (guard_apply _ rfl) _

/-! ### Dates -/

/-- Four digits at the front of a text are no sign. -/
theorem readYear_digits {n : Nat} (h : n < 10 ^ 4) (rest : List Char) :
    readYear (paddedDecimal 4 n ++ rest) = some ((n : Int), rest) := by
  have hlength : (paddedDecimal 4 n).length = 4 := length_paddedDecimal (by decide) h
  have hnumber : readNumber 4 (paddedDecimal 4 n ++ rest) = some (n, rest) := by
    rw [readNumber_append (fun _ hc => isDigit_of_mem_paddedDecimal hc)
      (paddedDecimal_ne_nil 4 n) (Nat.le_of_eq hlength) (.inl hlength),
      ofDigitChars_paddedDecimal]
  obtain ⟨c, cs, hcs⟩ := List.exists_cons_of_ne_nil (paddedDecimal_ne_nil 4 n)
  have hc : isDigit c = true := isDigit_of_mem_paddedDecimal (hcs ▸ List.mem_cons_self)
  have hminus : c ≠ '-' := by rintro rfl; exact absurd hc (by decide)
  have hplus : c ≠ '+' := by rintro rfl; exact absurd hc (by decide)
  rw [readYear, bind_apply (skipBlanks_apply _), trimLeft_paddedDecimal, bind_apply (get_apply _)]
  rw [hcs, List.cons_append] at hnumber ⊢
  generalize htext : c :: (cs ++ rest) = text at hnumber ⊢
  split
  next => exact absurd (List.cons.inj htext).1 hminus
  next => exact absurd (List.cons.inj htext).1 hplus
  next => rw [bind_apply hnumber, pure_apply]

theorem readLongNumber_padded (width n : Nat) {rest : List Char} (hrest : Stops rest) :
    readLongNumber (paddedDecimal width n ++ rest) = some (n, rest) := by
  rw [readLongNumber, readNumber_append (fun _ hc => isDigit_of_mem_paddedDecimal hc)
    (paddedDecimal_ne_nil width n) (by simp) (.inr hrest), ofDigitChars_paddedDecimal]

theorem readYear_yearText (year : Int) (rest : List Char) (hrest : Stops rest) :
    readYear (yearText year ++ rest) = some (year, rest) := by
  have hlong := readLongNumber_padded 4 year.natAbs hrest
  rw [yearText]
  split
  next hyear =>
    obtain ⟨n, rfl⟩ := Int.eq_ofNat_of_zero_le hyear.1
    exact readYear_digits (by omega) rest
  next =>
    by_cases hneg : year < 0
    · rw [if_pos hneg, List.cons_append, readYear, bind_apply (skipBlanks_apply _),
        trimLeft_cons (by decide), bind_apply (get_apply _)]
      simp only
      rw [bind_apply (set_apply _ _), bind_apply hlong, pure_apply,
        show -(year.natAbs : Int) = year by omega]
    · rw [if_neg hneg, List.cons_append, readYear, bind_apply (skipBlanks_apply _),
        trimLeft_cons (by decide), bind_apply (get_apply _)]
      simp only
      rw [bind_apply (set_apply _ _), bind_apply hlong, pure_apply,
        show (year.natAbs : Int) = year by omega]

theorem daysInMonth_le (year : Int) (month : Nat) : daysInMonth year month ≤ 31 := by
  unfold daysInMonth
  split
  · split <;> omega
  all_goals omega

theorem readDate_dateText (d : Date) (h : d.Valid) (rest : List Char) :
    readDate (dateText d ++ rest) = some (d, rest) := by
  have hlast := daysInMonth_le d.year d.month
  obtain ⟨-, -, hmonth, hmonth', hday, hday'⟩ := h
  simp only [dateText, List.append_assoc, List.cons_append]
  rw [readDate, bind_apply (readYear_yearText _ _ (Stops.cons (by decide) _)),
    bind_apply (readMark_cons (by decide) _),
    bind_apply (readPart_twoDigits hmonth hmonth' (by omega) _),
    bind_apply (readMark_cons (by decide) _),
    bind_apply (readPart_twoDigits hday (by omega) (by omega) _), pure_apply]

/-! ### Times -/

theorem dropWhile_stops {rest : List Char} (h : Stops rest) : rest.dropWhile isDigit = rest := by
  cases rest with
  | nil => rfl
  | cons c rest => exact List.dropWhile_cons_of_neg (by simp [h c rfl])

/-- Digits of a fraction count as many as they are. -/
theorem readFraction_digits {width n : Nat} (hw : 0 < width) (hw9 : width ≤ 9)
    (hn : n < 10 ^ width) (rest : List Char) (hrest : Stops rest) :
    readFraction ('.' :: paddedDecimal width n ++ rest) = some (n * 10 ^ (9 - width), rest) := by
  have hlength := length_paddedDecimal hw hn
  have hnumber : readNumber 9 (paddedDecimal width n ++ rest) = some (n, rest) := by
    rw [readNumber_append (fun _ hc => isDigit_of_mem_paddedDecimal hc)
      (paddedDecimal_ne_nil width n) (by omega) (.inr hrest), ofDigitChars_paddedDecimal]
  rw [List.cons_append, readFraction, bind_apply (get_apply _)]
  simp only
  rw [bind_apply (set_apply _ _), bind_apply hnumber, bind_apply (get_apply _),
    bind_apply (set_apply _ _), pure_apply, dropWhile_stops hrest, List.length_append, hlength,
    Nat.add_sub_cancel]
  rfl

theorem readFraction_fractionText {nano : Nat} (h : nano < nanosPerSecond) (rest : List Char)
    (hrest : Stops rest) (hpoint : rest.head? ≠ some '.') :
    readFraction (fractionText nano ++ rest) = some (nano, rest) := by
  have h9 : nano < 1000000000 := h
  rw [fractionText]
  split
  next h0 =>
    rw [List.nil_append, readFraction, bind_apply (get_apply _)]
    split
    next => exact absurd rfl hpoint
    next => rw [pure_apply, h0]
  split
  next h6 =>
    rw [readFraction_digits (by decide) (by decide) (by omega) rest hrest]
    congr 2
    omega
  split
  next h3 =>
    rw [readFraction_digits (by decide) (by decide) (by omega) rest hrest]
    congr 2
    omega
  · rw [readFraction_digits (by decide) (by decide) (by omega) rest hrest, Nat.sub_self, Nat.pow_zero,
      Nat.mul_one]

theorem readTime_timeText {second nano : Nat} (hs : second < secondsPerDay)
    (hn : nano < 2 * nanosPerSecond) (hleap : nanosPerSecond ≤ nano → second % 60 = 59)
    (rest : List Char) (hrest : Stops rest) (hpoint : rest.head? ≠ some '.') :
    readTime (timeText second nano ++ rest) = some ((second, nano), rest) := by
  have hs' : second < 86400 := hs
  have hpos : 0 < nanosPerSecond := by decide
  have hquot : nano / nanosPerSecond = if nanosPerSecond ≤ nano then 1 else 0 := by
    split
    · rw [Nat.div_eq_of_lt_le] <;> omega
    · exact Nat.div_eq_of_lt (by omega)
  have hmod : nano % nanosPerSecond = if nanosPerSecond ≤ nano then nano - nanosPerSecond else nano := by
    split
    next h => rw [Nat.mod_eq_sub_mod h, Nat.mod_eq_of_lt (by omega)]
    next h => exact Nat.mod_eq_of_lt (by omega)
  have hsecond : second % 60 + nano / nanosPerSecond ≤ 60 := by
    rw [hquot]
    split <;> omega
  simp only [timeText, List.append_assoc, List.cons_append]
  rw [readTime, bind_apply (readPart_twoDigits (by omega) (by omega) (by omega) _),
    bind_apply (readMark_cons (by decide) _),
    bind_apply (readPart_twoDigits (by omega) (by omega) (by omega) _),
    bind_apply (readMark_cons (by decide) _),
    bind_apply (readPart_twoDigits (by omega) hsecond (by omega) _),
    bind_apply (readFraction_fractionText (Nat.mod_lt _ hpos) _ hrest hpoint)]
  -- In a leap second the nanoseconds go beyond one second, and the text counts to sixty.
  by_cases h : nanosPerSecond ≤ nano
  · have h59 := hleap h
    rw [hquot, hmod, if_pos h, if_pos h, if_pos (by omega), pure_apply]
    congr 3 <;> omega
  · rw [hquot, hmod, if_neg h, if_neg h, if_neg (by omega), pure_apply]
    congr 3
    omega

/-! ### Instants -/

theorem ofLocal?_universal (t : Instant) :
    Instant.ofLocal? t.date t.second t.nano 0 = some t := by
  have hsecond := t.second_lt
  rw [Instant.ofLocal?]
  simp only [Int.natAbs_zero, Int.sub_zero, Int.toNat_natCast]
  rw [if_neg (by simp [t.valid, secondsPerDay]), if_neg (by omega), if_pos (by omega),
    Instant.ofParts?, dif_pos ⟨t.valid, hsecond, t.nano_lt, t.leap⟩]

theorem readOffset_universal : readOffset ['Z'] = some (0, []) := rfl

/-- Every instant is read from its text. -/
theorem read?_render (t : Instant) : Instant.read? t.render = some t := by
  have hseparator : ∀ rest, readSeparator ('T' :: rest) = some (⟨⟩, rest) := fun _ => rfl
  have hread : readInstant (dateText t.date ++ 'T' :: timeText t.second t.nano ++ ['Z']) =
      some (t, []) := by
    rw [List.append_assoc, List.cons_append, readInstant, bind_apply (readDate_dateText _ t.valid _),
      bind_apply (hseparator _),
      bind_apply (readTime_timeText t.second_lt t.nano_lt t.leap _ (Stops.cons (by decide) _)
        (by decide))]
    simp only
    rw [bind_apply (skipBlanks_apply _), trimLeft_cons (by decide),
      bind_apply readOffset_universal, bind_apply (skipBlanks_apply _), ofLocal?_universal]
    rfl
  rw [Instant.read?, Instant.render, String.toList_ofList, hread]

end Lakehouse.Calendar
