import Lakehouse.Json.Reader
import Lakehouse.Proofs.Text.Numerals

/- Compact JSON reads back.

   `Regular` says of a value that nothing in it is lost when it is written: bodies of
   strings end at their closing quote, integers are not minus zero, and nothing is
   broken or a mere real number. `read_compact` states that a regular value is what
   is read from its compact form, with whatever may follow it in a document; the
   length of the form bounds the steps that are needed. A text is the body that it is
   written as (`text?_escape`). -/
namespace Lakehouse.Json

/-! ### Bodies of strings -/

/-- The body stands for itself between quotes. -/
def IsBody (body : List Symbol) : Prop :=
  ∃ cs : List Char, body = cs.map some ∧
    ∀ rest, readBody (cs.map some ++ some '"' :: rest) = some (cs.map some, rest)

/-- A character that needs no escape. -/
theorem readBody_plain {c : Char} {rest : List Symbol} (hq : c ≠ '"') (hb : c ≠ '\\')
    (hc : ¬ c.toNat < 0x20) :
    readBody (some c :: rest) = (readBody rest).map fun (body, after) => (some c :: body, after) := by
  rw [readBody]
  · simp [hb, hc]
  all_goals simp [hq, hb]

theorem readBody_letter {c : Char} {rest : List Symbol} (hu : c ≠ 'u')
    (h : (unescapeLetter? c).isSome) :
    readBody (some '\\' :: some c :: rest) =
      (readBody rest).map fun (body, after) => (some '\\' :: some c :: body, after) := by
  rw [readBody]
  · rw [if_pos h]
  · simp [hu]

theorem readBody_number {a b c d : Symbol} {rest : List Symbol}
    (h : (hexNumber? a b c d).isSome) :
    readBody (some '\\' :: some 'u' :: a :: b :: c :: d :: rest) =
      (readBody rest).map fun (body, after) =>
        (some '\\' :: some 'u' :: a :: b :: c :: d :: body, after) := by
  rw [readBody, if_pos h]

/-- The letter of an escape is understood. -/
theorem unescapeLetter?_escapeLetter? {c l : Char} (h : escapeLetter? c = some l) :
    unescapeLetter? l = some c ∧ l ≠ 'u' := by
  simp only [escapeLetter?] at h
  split at h
  next hc => cases h; subst hc; decide
  split at h
  next hc => cases h; subst hc; decide
  split at h
  next hc => cases h; subst hc; decide
  split at h
  next hc => cases h; subst hc; decide
  split at h
  next hc => cases h; subst hc; decide
  split at h
  next hc => cases h; subst hc; decide
  split at h
  next hc => cases h; subst hc; decide
  · exact absurd h (by simp)

theorem hexDigit?_digitChar {n : Nat} (h : n < 16) : hexDigit? n.digitChar = some n := by
  have hall : ∀ n : Fin 16, hexDigit? n.val.digitChar = some n.val := by decide
  exact hall ⟨n, h⟩

theorem hexNumber?_fourHexDigits {n : Nat} (h : n < 0x10000) :
    hexNumber? (some (n / 4096 % 16).digitChar) (some (n / 256 % 16).digitChar)
      (some (n / 16 % 16).digitChar) (some (n % 16).digitChar) = some n := by
  simp only [hexNumber?, Option.bind_eq_bind, Option.bind_some,
    hexDigit?_digitChar (Nat.mod_lt _ (by decide : 0 < 16)), Option.pure_def, Option.some.injEq]
  omega

/-- Which escape a character gets. -/
inductive Escape (c : Char) : Prop where
  | letter (l : Char) (h : escapeChar c = ['\\', l]) (hl : unescapeLetter? l = some c)
      (hu : l ≠ 'u')
  | number (h : escapeChar c = '\\' :: 'u' :: fourHexDigits c.toNat) (hc : c.toNat < 0x20)
  | plain (h : escapeChar c = [c]) (hq : c ≠ '"') (hb : c ≠ '\\') (hc : ¬ c.toNat < 0x20)

theorem escape_cases (c : Char) : Escape c := by
  cases h : escapeLetter? c with
  | some l =>
    obtain ⟨hl, hu⟩ := unescapeLetter?_escapeLetter? h
    exact .letter l (by simp [escapeChar, h]) hl hu
  | none =>
    by_cases hc : c.toNat < 0x20
    · exact .number (by simp [escapeChar, h, hc]) hc
    · refine .plain (by simp [escapeChar, h, hc]) ?_ ?_ hc
      · rintro rfl; exact absurd h (by decide)
      · rintro rfl; exact absurd h (by decide)

theorem readBody_escapeChar (c : Char) (rest : List Symbol) :
    readBody ((escapeChar c).map some ++ rest) =
      (readBody rest).map fun (body, after) => ((escapeChar c).map some ++ body, after) := by
  cases escape_cases c with
  | letter l h hl hu => rw [h]; exact readBody_letter hu (by simp [hl])
  | number h hc =>
    rw [h]
    exact readBody_number (by rw [hexNumber?_fourHexDigits (by omega)]; rfl)
  | plain h hq hb hc => rw [h]; exact readBody_plain hq hb hc

theorem isBody_escape (text : List Char) : IsBody ((escape text).map some) := by
  refine ⟨escape text, rfl, fun rest => ?_⟩
  induction text with
  | nil => simp [escape, readBody]
  | cons c text ih =>
    have hcons : escape (c :: text) = escapeChar c ++ escape text := rfl
    rw [hcons, List.map_append, List.append_assoc, readBody_escapeChar, ih]
    rfl

/-- Characters without quotes, backslashes and controls are a body. -/
theorem isBody_plain {cs : List Char}
    (h : ∀ c ∈ cs, c ≠ '"' ∧ c ≠ '\\' ∧ ¬ c.toNat < 0x20) : IsBody (cs.map some) := by
  refine ⟨cs, rfl, fun rest => ?_⟩
  induction cs with
  | nil => simp [readBody]
  | cons c cs ih =>
    obtain ⟨hq, hb, hc⟩ := h c (by simp)
    rw [List.map_cons, List.cons_append, readBody_plain hq hb hc,
      ih fun d hd => h d (by simp [hd])]
    rfl

theorem isNotSurrogate {n : Nat} (h : n < 0x20) :
    isHighSurrogate n = false ∧ isLowSurrogate n = false := by
  simp only [isHighSurrogate, isLowSurrogate, Bool.and_eq_false_iff, decide_eq_false_iff_not]
  omega

/-- The text of an escaped character is this character, whatever follows. -/
theorem unescape?_escapeChar (c : Char) (rest : List Symbol) :
    unescape? ((escapeChar c).map some ++ rest) = (unescape? rest).map (c :: ·) := by
  cases escape_cases c with
  | letter l h hl hu =>
    rw [h]
    simp only [List.map_cons, List.map_nil, List.cons_append, List.nil_append]
    rw [unescape?, hl]
    · cases unescape? rest <;> rfl
    · simp [hu]
    · simp [hu]
  | plain h hq hb hc =>
    rw [h]
    simp only [List.map_cons, List.map_nil, List.cons_append, List.nil_append]
    rw [unescape?]
    · cases unescape? rest <;> rfl
    all_goals simp [hb]
  | number h hc =>
    have hn := hexNumber?_fourHexDigits (show c.toNat < 0x10000 by omega)
    obtain ⟨hhigh, hlow⟩ := isNotSurrogate hc
    have hback : Char.ofNat c.toNat = c := Char.ofNat_toNat c
    rw [h]
    simp only [fourHexDigits, List.map_cons, List.map_nil, List.cons_append, List.nil_append]
    -- A second number right behind the first is looked at only if the first is half a pair.
    by_cases hpair : ∃ e f g h more,
        rest = some '\\' :: some 'u' :: e :: f :: g :: h :: more
    · obtain ⟨e, f, g, h, more, rfl⟩ := hpair
      rw [unescape?, hn]
      simp only [Option.bind_eq_bind, Option.bind_some, hhigh, hlow, Bool.false_eq_true, if_false,
        hback]
      cases unescape? (some '\\' :: some 'u' :: e :: f :: g :: h :: more) <;> rfl
    · rw [unescape?, hn]
      · simp only [Option.bind_eq_bind, Option.bind_some, hhigh, hlow, Bool.or_self,
          Bool.false_eq_true, if_false, hback]
        cases unescape? rest <;> rfl
      · rintro e f g h more rfl
        exact hpair ⟨e, f, g, h, more, rfl⟩

theorem unescape?_escape (text : List Char) :
    unescape? ((escape text).map some) = some text := by
  induction text with
  | nil => rfl
  | cons c text ih =>
    have hcons : escape (c :: text) = escapeChar c ++ escape text := rfl
    rw [hcons, List.map_append, unescape?_escapeChar, ih]
    rfl

/-- A text is what its body stands for. -/
theorem text?_escape (text : String) :
    text? ((escape text.toList).map some) = some text := by
  rw [text?, unescape?_escape, Option.map_some, String.ofList_toList]

/-! ### Regular values -/

mutual

/-- Nothing is lost when the value is written. -/
def Regular : Json → Prop
  | .null => True
  | .bool _ => True
  | .integer negative digits => negative = true → digits ≠ 0
  | .real => False
  | .string body => IsBody body
  | .array items => RegularItems items
  | .object members => RegularMembers members
  | .broken => False

def RegularItems : List Json → Prop
  | [] => True
  | item :: rest => Regular item ∧ RegularItems rest

def RegularMembers : List (List Symbol × Json) → Prop
  | [] => True
  | (key, value) :: rest => IsBody key ∧ Regular value ∧ RegularMembers rest

end

theorem regularItems_iff (items : List Json) :
    RegularItems items ↔ ∀ item ∈ items, item.Regular := by
  induction items with
  | nil => simp [RegularItems]
  | cons item rest ih => simp [RegularItems, ih]

theorem regularMembers_iff (members : List (List Symbol × Json)) :
    RegularMembers members ↔ ∀ m ∈ members, IsBody m.1 ∧ m.2.Regular := by
  induction members with
  | nil => simp [RegularMembers]
  | cons m rest ih => simp [RegularMembers, ih, and_assoc]

/-! ### Reading the parts -/

/-- A value may end here: the document does, or a comma or closing bracket follows. -/
def Ends (text : List Symbol) : Prop :=
  ∀ s, text.head? = some s → s = some ',' ∨ s = some ']' ∨ s = some '\x7d'

theorem Ends.nil : Ends [] := by simp [Ends]

theorem Ends.comma (text : List Symbol) : Ends (some ',' :: text) := by simp [Ends]

theorem Ends.bracket (text : List Symbol) : Ends (some ']' :: text) := by simp [Ends]

theorem Ends.brace (text : List Symbol) : Ends (some '\x7d' :: text) := by simp [Ends]

theorem skipBlanks_cons {s : Symbol} {text : List Symbol} (h : isBlank s = false) :
    skipBlanks (s :: text) = s :: text :=
  List.dropWhile_cons_of_neg (by simp [h])

theorem takeWhile_digits (cs : List Char) (rest : List Symbol)
    (hcs : ∀ c ∈ cs, Text.isDigit c = true) (hrest : ∀ s, rest.head? = some s → isDigit s = false) :
    (cs.map some ++ rest).takeWhile isDigit = cs.map some ∧
      (cs.map some ++ rest).dropWhile isDigit = rest := by
  induction cs with
  | nil =>
    cases rest with
    | nil => exact ⟨rfl, rfl⟩
    | cons s rest =>
      have hs := hrest s rfl
      exact ⟨List.takeWhile_cons_of_neg (by simp [hs]), List.dropWhile_cons_of_neg (by simp [hs])⟩
  | cons c cs ih =>
    have hc : isDigit (some c) = true := hcs c (by simp)
    obtain ⟨htake, hdrop⟩ := ih fun d hd => hcs d (by simp [hd])
    rw [List.map_cons, List.cons_append, List.takeWhile_cons_of_pos hc,
      List.dropWhile_cons_of_pos hc, htake, hdrop]
    exact ⟨rfl, rfl⟩

theorem Ends.notDigit {rest : List Symbol} (h : Ends rest) :
    ∀ s, rest.head? = some s → isDigit s = false := by
  intro s hs
  rcases h s hs with rfl | rfl | rfl <;> decide

/-- Nothing that ends a value goes on with a number. -/
theorem Ends.skipFraction {rest : List Symbol} (h : Ends rest) :
    (skipFraction rest >>= skipExponent) = some rest := by
  cases rest with
  | nil => rfl
  | cons s rest => rcases h s rfl with rfl | rfl | rfl <;> rfl

theorem readNumber_decimal (negative : Bool) (n : Nat) (hn : negative = true → n ≠ 0)
    {rest : List Symbol} (hrest : Ends rest) :
    readNumber negative ((Text.decimal n).map some ++ rest) =
      (.integer negative n, some rest) := by
  obtain ⟨htake, hdrop⟩ := takeWhile_digits (Text.decimal n) rest
    (fun _ hc => Text.isDigit_of_mem_decimal hc) hrest.notDigit
  have hdigits : ((Text.decimal n).map some).filterMap id = Text.decimal n := by
    rw [List.filterMap_map]; exact List.filterMap_some
  have hzero : ((Text.decimal n).head? == some '0' && decide (1 < (Text.decimal n).length)) = false := by
    rw [Bool.and_eq_false_iff]
    by_cases h : (Text.decimal n).head? = some '0'
    · right
      obtain rfl := Text.eq_zero_of_head_decimal n h
      decide
    · left; simpa using h
  have hminus : (negative && n == 0) = false := by
    cases negative
    · rfl
    · simpa using hn rfl
  have hne : (Text.decimal n).isEmpty = false := by
    simpa using Text.decimal_ne_nil n
  rw [readNumber, htake, hdrop, hdigits]
  simp only [hne, Bool.false_or, hzero, Bool.false_eq_true, if_false, hrest.skipFraction,
    Text.ofDigitChars_decimal, Nat.lt_irrefl, decide_false, hminus]

theorem readValue_digit {c : Char} (h : Text.isDigit c = true) (steps : Nat)
    (rest : List Symbol) :
    readValue (steps + 1) (some c :: rest) = readNumber false (some c :: rest) := by
  have hblank : isBlank (some c) = false := by
    cases hb : isBlank (some c)
    · rfl
    · simp only [isBlank, Bool.or_eq_true, beq_iff_eq, Option.some.injEq] at hb
      rcases hb with ((rfl | rfl) | rfl) | rfl <;> exact absurd h (by decide)
  rw [readValue, skipBlanks_cons hblank]
  split <;> rename_i heq
  case h_8 =>
    cases heq
    exact if_pos h
  all_goals exact absurd h (by cases heq <;> decide)

/-! ### Reading what was written -/

theorem compact_eq_cons {j : Json} (h : j.Regular) :
    ∃ c cs, compact j = c :: cs ∧ isBlank (some c) = false ∧ c ≠ ']' := by
  cases j with
  | null => exact ⟨_, _, rfl, by decide, by decide⟩
  | bool b => cases b <;> exact ⟨_, _, rfl, by decide, by decide⟩
  | integer negative n =>
    cases negative with
    | true => exact ⟨_, _, rfl, by decide, by decide⟩
    | false =>
      obtain ⟨c, cs, hcs, hc⟩ := Text.decimal_eq_cons n
      refine ⟨c, cs, hcs, ?_, ?_⟩
      · cases hb : isBlank (some c)
        · rfl
        · simp only [isBlank, Bool.or_eq_true, beq_iff_eq, Option.some.injEq] at hb
          rcases hb with ((rfl | rfl) | rfl) | rfl <;> exact absurd hc (by decide)
      · rintro rfl; exact absurd hc (by decide)
  | real => exact absurd h (by simp [Regular])
  | string body => exact ⟨_, _, rfl, by decide, by decide⟩
  | array items => exact ⟨_, _, rfl, by decide, by decide⟩
  | object members => exact ⟨_, _, rfl, by decide, by decide⟩
  | broken => exact absurd h (by simp [Regular])

theorem quotedBody_map {body : List Symbol} (h : IsBody body) :
    (quotedBody body).map some = some '"' :: body ++ [some '"'] ∧
      ∀ rest, readBody (body ++ some '"' :: rest) = some (body, rest) := by
  obtain ⟨cs, rfl, hread⟩ := h
  have hcs : (cs.map some).filterMap id = cs := by
    rw [List.filterMap_map]; exact List.filterMap_some
  exact ⟨by simp [quotedBody], hread⟩

mutual

/-- The steps that are needed are no more than the characters that are read. -/
theorem readValue_compact (j : Json) (h : j.Regular) (steps : Nat)
    (hsteps : (compact j).length ≤ steps) (rest : List Symbol) (hrest : Ends rest) :
    readValue steps ((compact j).map some ++ rest) = (j, some rest) := by
  -- The text has a first character, so there is a step to read it.
  obtain ⟨c, cs, hc, hblank, -⟩ := compact_eq_cons h
  obtain ⟨steps, rfl⟩ : ∃ n, steps = n + 1 :=
    ⟨steps - 1, by rw [hc, List.length_cons] at hsteps; omega⟩
  match j, h with
  | .null, _ => rfl
  | .bool true, _ => rfl
  | .bool false, _ => rfl
  | .integer false n, h =>
    obtain ⟨d, ds, hds, hd⟩ := Text.decimal_eq_cons n
    have hread := readNumber_decimal false n (by simp) hrest
    rw [hds] at hread
    simp only [compact, integerText, Bool.false_eq_true, if_false, hds, List.map_cons,
      List.cons_append] at hread ⊢
    rw [readValue_digit hd, hread]
  | .integer true n, h =>
    have hread := readNumber_decimal true n (by simpa [Regular] using h) hrest
    simp only [compact, integerText, if_true, List.map_cons, List.cons_append]
    rw [readValue, skipBlanks_cons (by decide)]
    exact hread
  | .string body, h =>
    obtain ⟨hmap, hread⟩ := quotedBody_map (h : IsBody body)
    simp only [compact, hmap, List.cons_append, List.append_assoc]
    rw [readValue, skipBlanks_cons (by decide)]
    simp only [List.nil_append, hread]
  | .array [], _ => rfl
  | .array (item :: items), h =>
    obtain ⟨hi, his⟩ : item.Regular ∧ RegularItems items := h
    have hread := readItems_compact item items hi his steps
      (by simp only [compact, List.length_cons, List.length_append] at hsteps; omega) rest
    obtain ⟨d, ds, hds, hblank, hd⟩ := compact_eq_cons hi
    obtain ⟨ds', hitems⟩ : ∃ ds', compactItems (item :: items) = d :: ds' := by
      cases items <;> simp [compactItems, hds]
    simp only [compact, hitems, List.map_cons, List.map_append, List.cons_append,
      List.append_assoc, List.map_nil, List.nil_append] at hread ⊢
    rw [readValue, skipBlanks_cons (by decide)]
    simp only [skipBlanks_cons hblank]
    -- What an item begins with does not close the array.
    split
    next heq => exact absurd (by simpa using (List.cons.inj heq).1) hd
    next => rw [hread]
  | .object [], _ => rfl
  | .object (member :: members), h =>
    have hread := readMembers_compact member members h steps
      (by simp only [compact, List.length_cons, List.length_append] at hsteps; omega) rest
    obtain ⟨ds, hmembers⟩ : ∃ ds, compactMembers (member :: members) = '"' :: ds := by
      cases members <;> exact ⟨_, rfl⟩
    simp only [compact, hmembers, List.map_cons, List.map_append, List.cons_append,
      List.append_assoc, List.map_nil, List.nil_append] at hread ⊢
    rw [readValue, skipBlanks_cons (by decide)]
    simp only [skipBlanks_cons (show isBlank (some '"') = false by decide)]
    -- A member begins with a quote, which does not close the object.
    split
    next heq => exact absurd (List.cons.inj heq).1 (by decide)
    next => rw [hread]
termination_by steps

theorem readItems_compact (item : Json) (items : List Json) (hi : item.Regular)
    (his : RegularItems items) (steps : Nat)
    (hsteps : (compactItems (item :: items)).length + 1 ≤ steps) (rest : List Symbol) :
    readItems steps ((compactItems (item :: items)).map some ++ some ']' :: rest) =
      (item :: items, some rest) := by
  obtain ⟨steps, rfl⟩ : ∃ n, steps = n + 1 := ⟨steps - 1, by omega⟩
  match items, his with
  | [], _ =>
    have hread := readValue_compact item hi steps (by simpa [compactItems] using hsteps)
      (some ']' :: rest) (Ends.bracket _)
    rw [compactItems, readItems, hread]
    rfl
  | next :: items, his =>
    have hlength : (compactItems (item :: next :: items)).length =
        (compact item).length + 1 + (compactItems (next :: items)).length := by
      simp [compactItems]; omega
    have hread := readValue_compact item hi steps (by omega)
      (some ',' :: ((compactItems (next :: items)).map some ++ some ']' :: rest)) (Ends.comma _)
    have hmore := readItems_compact next items his.1 his.2 steps
      (by obtain ⟨c, cs, hc, -⟩ := compact_eq_cons hi; rw [hc] at hlength; simp at hlength; omega)
      rest
    simp only [compactItems, List.map_append, List.map_cons, List.append_assoc, List.cons_append]
    rw [readItems, hread]
    simp only [skipBlanks_cons (show isBlank (some ',') = false by decide), hmore]
termination_by steps

theorem readMembers_compact (member : List Symbol × Json) (members : List (List Symbol × Json))
    (h : RegularMembers (member :: members)) (steps : Nat)
    (hsteps : (compactMembers (member :: members)).length + 1 ≤ steps) (rest : List Symbol) :
    readMembers steps ((compactMembers (member :: members)).map some ++ some '\x7d' :: rest) =
      (member :: members, some rest) := by
  obtain ⟨steps, rfl⟩ : ∃ n, steps = n + 1 := ⟨steps - 1, by omega⟩
  match member, members, h with
  | (key, value), [], h =>
    obtain ⟨hmap, hbody⟩ := quotedBody_map h.1
    have hread := readValue_compact value h.2.1 steps
      (by simp [compactMembers] at hsteps; omega) (some '\x7d' :: rest) (Ends.brace _)
    simp only [compactMembers, List.map_append, List.map_cons, hmap, List.cons_append,
      List.append_assoc, List.nil_append]
    rw [readMembers, skipBlanks_cons (by decide)]
    simp only [hbody, skipBlanks_cons (show isBlank (some ':') = false by decide), hread,
      skipBlanks_cons (show isBlank (some '\x7d') = false by decide)]
  | (key, value), next :: members, h =>
    obtain ⟨hmap, hbody⟩ := quotedBody_map h.1
    have hlength : (compactMembers ((key, value) :: next :: members)).length =
        (quotedBody key).length + 1 + (compact value).length + 1 +
          (compactMembers (next :: members)).length := by
      simp [compactMembers]; omega
    have hread := readValue_compact value h.2.1 steps (by omega)
      (some ',' :: ((compactMembers (next :: members)).map some ++ some '\x7d' :: rest))
      (Ends.comma _)
    have hmore := readMembers_compact next members h.2.2 steps (by omega) rest
    simp only [compactMembers, List.map_append, List.map_cons, hmap, List.cons_append,
      List.append_assoc, List.nil_append]
    rw [readMembers, skipBlanks_cons (by decide)]
    simp only [hbody, skipBlanks_cons (show isBlank (some ':') = false by decide), hread,
      skipBlanks_cons (show isBlank (some ',') = false by decide), hmore]
termination_by steps

end

/-- A regular value is what its compact form says. -/
theorem read_compact {j : Json} (h : j.Regular) :
    read ((compact j).map some) = ⟨j, true⟩ := by
  have hread := readValue_compact j h (2 * ((compact j).map some).length + 2)
    (by rw [List.length_map]; omega) [] Ends.nil
  rw [List.append_nil] at hread
  rw [read, hread]
  rfl

end Lakehouse.Json
