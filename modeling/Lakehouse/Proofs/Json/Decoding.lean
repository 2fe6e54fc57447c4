import Lakehouse.Form.Table
import Lakehouse.Proofs.Json.Compact
import Lakehouse.Proofs.SortedMap
import Lakehouse.Proofs.Success
import Mathlib.Data.Option.Basic

/- Typed values through JSON and back.

   `Carries decode j a` says that the JSON value `j` stands for `a` and loses nothing
   when it is written, so the text of `j`, or its bytes, decode to `a`
   (`Carries.run_text`, `Carries.run_bytes`). There is one lemma for each way in which
   forms are put together. If all values of a type are carried, the type goes through text
   and back (`RoundTrips`). For records, `Holds` says that a record of the given
   fields stands for a value; it is built up along the fields as the record is. -/
namespace Lakehouse

variable {α β κ : Type}

/-- The form stands for the value, and nothing of it is lost in writing. -/
structure Carries (decode : Decoder α) (j : Json) (a : α) : Prop where
  regular : j.Regular
  decodes : decode j = .ok a

theorem symbolsOfText_render (j : Json) : symbolsOfText j.render = j.compact.map some := by
  rw [symbolsOfText, Json.render, String.toList_ofList]

theorem fromUTF8?_toUTF8 (s : String) : String.fromUTF8? s.toUTF8 = some s := by
  rw [String.fromUTF8?]
  exact dif_pos s.isValidUTF8

theorem symbolsOfBytes_render (j : Json) : symbolsOfBytes j.render.toUTF8 = j.compact.map some := by
  rw [symbolsOfBytes, fromUTF8?_toUTF8]
  exact symbolsOfText_render j

namespace Carries

theorem run_symbols {decode : Decoder α} {j : Json} {a : α} (h : Carries decode j a) :
    decode.run (j.compact.map some) = .ok a := by
  rw [Decoder.run, Json.read_compact h.regular]
  simp only [h.decodes, if_true]

/-- The text of a form decodes to its value. -/
theorem run_text {decode : Decoder α} {j : Json} {a : α} (h : Carries decode j a) :
    decode.run (symbolsOfText j.render) = .ok a := by
  rw [symbolsOfText_render]
  exact h.run_symbols

/-- So do the bytes of this text. -/
theorem run_bytes {decode : Decoder α} {j : Json} {a : α} (h : Carries decode j a) :
    decode.run (symbolsOfBytes j.render.toUTF8) = .ok a := by
  rw [symbolsOfBytes_render]
  exact h.run_symbols

theorem map {decode : Decoder α} {j : Json} {a : α} (h : Carries decode j a) (f : α → β) :
    Carries (fun j => (decode j).map f) j (f a) :=
  ⟨h.regular, by simp only [h.decodes]; rfl⟩

/-! ### Single values -/

theorem bool (b : Bool) : Carries Decoder.bool (.bool b) b := ⟨trivial, rfl⟩

theorem text (s : String) : Carries Decoder.text (.ofText s) s := by
  refine ⟨Json.isBody_escape s.toList, ?_⟩
  simp only [Decoder.text, Json.ofText, Json.text?_escape]
  rfl

theorem integer (least greatest i : Int) (hl : least ≤ i) (hg : i ≤ greatest) :
    Carries (Decoder.integer least greatest) (Form.integer i) i := by
  refine ⟨fun hneg => ?_, ?_⟩
  · have := of_decide_eq_true hneg
    omega
  · have hi : (if decide (i < 0) = true then -(i.natAbs : Int) else i.natAbs) = i := by
      simp only [decide_eq_true_eq]
      split <;> omega
    simp only [Decoder.integer, Form.integer, hi]
    exact if_pos ⟨hl, hg⟩

theorem natural (greatest : Int) (n : Nat) (hg : (n : Int) ≤ greatest) :
    Carries (Decoder.integer 0 greatest) (Form.natural n) n := by
  refine ⟨fun hneg => absurd hneg (by simp), ?_⟩
  exact if_pos ⟨Int.natCast_nonneg n, hg⟩

theorem int32 (i : Int32) : Carries Decoder.int32 (Form.int32 i) i := by
  have hlow := i.le_toInt
  have hhigh := i.toInt_lt
  have h := (integer Int32.minValue.toInt Int32.maxValue.toInt i.toInt hlow
    (Int.le_sub_one_of_lt hhigh)).map Int32.ofInt
  rwa [Int32.ofInt_toInt] at h

theorem int64 (i : Int64) : Carries Decoder.int64 (Form.int64 i) i := by
  have hlow := i.le_toInt
  have hhigh := i.toInt_lt
  have h := (integer Int64.minValue.toInt Int64.maxValue.toInt i.toInt hlow
    (Int.le_sub_one_of_lt hhigh)).map Int64.ofInt
  rwa [Int64.ofInt_toInt] at h

theorem uint32 (n : UInt32) : Carries Decoder.uint32 (Form.uint32 n) n := by
  have hn := n.toNat_lt
  have h := (natural (UInt32.size - 1 : Nat) n.toNat (Int.ofNat_le.2 (Nat.le_sub_one_of_lt hn))).map
    fun i => UInt32.ofNat i.toNat
  rwa [Int.toNat_natCast, UInt32.ofNat_toNat] at h

theorem uint64 (n : UInt64) : Carries Decoder.uint64 (Form.uint64 n) n := by
  have hn := n.toNat_lt
  have h := (natural (UInt64.size - 1 : Nat) n.toNat (Int.ofNat_le.2 (Nat.le_sub_one_of_lt hn))).map
    fun i => UInt64.ofNat i.toNat
  rwa [Int.toNat_natCast, UInt64.ofNat_toNat] at h

/-- A value written as its name. -/
theorem named {values : List (String × α)} {name : String} {a : α}
    (h : values.lookup name = some a) : Carries (Decoder.named values) (.ofText name) a := by
  refine ⟨(text name).regular, ?_⟩
  simp only [Decoder.named, Json.ofText]
  have hname := (text name).decodes
  simp only [Json.ofText] at hname
  rw [hname]
  simp only [bind, Except.bind, h]
  rfl

/-! ### Values made of values -/

theorem option {decode : Decoder α} {write : α → Json} {a : Option α}
    (h : ∀ x, Carries decode (write x) x) (hnull : ∀ x, write x ≠ .null) :
    Carries (Decoder.option decode) (Form.option write a) a := by
  cases a with
  | none => exact ⟨trivial, rfl⟩
  | some x =>
    refine ⟨(h x).regular, ?_⟩
    simp only [Form.option]
    rw [Decoder.option]
    · rw [(h x).decodes]; rfl
    · exact hnull x

theorem items {decode : Decoder α} {write : α → Json} {l : List α}
    (h : ∀ a ∈ l, Carries decode (write a) a) : Decoder.items decode (l.map write) = .ok l := by
  induction l with
  | nil => rfl
  | cons a l ih =>
    simp only [List.map_cons, Decoder.items, (h a (by simp)).decodes,
      ih fun b hb => h b (by simp [hb])]
    rfl

theorem list {decode : Decoder α} {write : α → Json} {l : List α}
    (h : ∀ a ∈ l, Carries decode (write a) a) :
    Carries (Decoder.list decode) (Form.list write l) l := by
  refine ⟨?_, items h⟩
  rw [Form.list, Json.Regular, Json.regularItems_iff]
  intro j hj
  obtain ⟨a, ha, rfl⟩ := List.mem_map.1 hj
  exact (h a ha).regular

theorem bindings {key : List Symbol → Option κ} {decode : Decoder α} {body : κ → List Symbol}
    {write : α → Json} {l : List (κ × α)} (hkey : ∀ k, key (body k) = some k)
    (h : ∀ e ∈ l, Carries decode (write e.2) e.2) :
    Decoder.bindings key decode (l.map fun e => (body e.1, write e.2)) = .ok l := by
  induction l with
  | nil => rfl
  | cons e l ih =>
    simp only [List.map_cons, Decoder.bindings, hkey, (h e (by simp)).decodes,
      ih fun b hb => h b (by simp [hb])]
    rfl

theorem sortedMap [Ord κ] [Std.TransOrd κ] [Std.LawfulEqOrd κ] {key : List Symbol → Option κ}
    {decode : Decoder α} {write : α → Json} {m : SortedMap κ α} (body : κ → List Symbol)
    (hkey : ∀ k, key (body k) = some k) (hbody : ∀ k, Json.IsBody (body k))
    (h : ∀ e ∈ m.toList, Carries decode (write e.2) e.2) :
    Carries (Decoder.map key decode) (.object (m.toList.map fun e => (body e.1, write e.2))) m := by
  refine ⟨?_, ?_⟩
  · rw [Json.Regular, Json.regularMembers_iff]
    intro member hm
    obtain ⟨e, he, rfl⟩ := List.mem_map.1 hm
    exact ⟨hbody e.1, (h e he).regular⟩
  · rw [Decoder.map, bindings hkey h, Except.map, SortedMap.ofList_toList]

/-! ### Maps -/

theorem mapM_map_some (cs : List Char) : (cs.map some).mapM id = some cs := by
  induction cs with
  | nil => rfl
  | cons c cs ih => simp [List.mapM_cons, ih]

/-- The digits of a number have no leading zero, and only zero has no sign. -/
theorem decimal_isMagnitude (n : Nat) (negative : Bool) (h : negative = true → n ≠ 0) :
    ((!(Text.decimal n).isEmpty && (Text.decimal n).all Text.isDigit) = true) ∧
      ((Text.decimal n).head? != some '0' ||
        decide (Text.decimal n = ['0']) && !negative) = true := by
  refine ⟨?_, ?_⟩
  · rw [Bool.and_eq_true, List.all_eq_true]
    exact ⟨by simpa using Text.decimal_ne_nil n, fun c hc => Text.isDigit_of_mem_decimal hc⟩
  · by_cases h0 : (Text.decimal n).head? = some '0'
    · obtain rfl := Text.eq_zero_of_head_decimal n h0
      cases negative with
      | false => decide
      | true => exact absurd rfl (h rfl)
    · simp [h0]

theorem guard_eq_some {p : Prop} [Decidable p] (h : p) : (guard p : Option Unit) = some () :=
  if_pos h

theorem int32Key?_signedDecimal (k : Int32) :
    Decoder.int32Key? ((Text.signedDecimal k.toInt).map some) = some k := by
  have hread := Text.readInt32_signedDecimal k
  rw [Decoder.int32Key?, mapM_map_some]
  cases hk : k.toInt with
  | ofNat n =>
    obtain ⟨c, rest, hcr, hc⟩ := Text.decimal_eq_cons n
    have hminus : c ≠ '-' := by rintro rfl; exact absurd hc (by decide)
    obtain ⟨hdigits, hzero⟩ := decimal_isMagnitude n false (by simp)
    rw [hk] at hread
    simp only [Text.signedDecimal, hcr] at hread hdigits hzero ⊢
    simp only [Option.bind_eq_bind, Option.bind_some]
    split
    next heq => exact absurd (List.cons.inj heq).1 hminus
    next =>
      rw [guard_eq_some hdigits, guard_eq_some hzero, hread]
      rfl
  | negSucc n =>
    obtain ⟨hdigits, hzero⟩ := decimal_isMagnitude (n + 1) true (by simp)
    rw [hk] at hread
    simp only [Text.signedDecimal] at hread ⊢
    simp only [Option.bind_eq_bind, Option.bind_some, guard_eq_some hdigits, guard_eq_some hzero,
      hread]
    rfl

theorem isBody_signedDecimal (i : Int) : Json.IsBody ((Text.signedDecimal i).map some) := by
  have hdigit : ∀ c, Text.isDigit c = true → c ≠ '"' ∧ c ≠ '\\' ∧ ¬ c.toNat < 0x20 := by
    intro c hc
    have hrange := (Text.isDigit_iff c).1 hc
    refine ⟨?_, ?_, by omega⟩
    · rintro rfl; exact absurd hc (by decide)
    · rintro rfl; exact absurd hc (by decide)
  apply Json.isBody_plain
  intro c hc
  cases i with
  | ofNat n => exact hdigit c (Text.isDigit_of_mem_decimal hc)
  | negSucc n =>
    rcases List.mem_cons.1 hc with rfl | hc
    · decide
    · exact hdigit c (Text.isDigit_of_mem_decimal hc)

theorem columnMap {decode : Decoder α} {write : α → Json} {m : SortedMap FieldId α}
    (h : ∀ a, Carries decode (write a) a) :
    Carries (Form.readColumnMap decode) (Form.columnMap write m) m :=
  sortedMap (fun k : Int32 => (Text.signedDecimal k.toInt).map some) int32Key?_signedDecimal
    (fun k => isBody_signedDecimal k.toInt) fun e _ => h e.2

theorem textMap (m : SortedMap String String) : Carries Form.readTextMap (Form.textMap m) m :=
  sortedMap Form.key (fun k => Json.text?_escape k)
    (fun k => Json.isBody_escape k.toList) fun e _ => text e.2

/-- A value written as an object with the name of its kind. -/
theorem tagged {kinds : List (String × Decoder α)} {name : String} {decode : Decoder α}
    {j : Json} {a : α} (hname : kinds.lookup name = some decode) (h : Carries decode j a) :
    Carries (Decoder.tagged kinds) (Form.object [(name, j)]) a := by
  refine ⟨⟨Json.isBody_escape name.toList, h.regular, trivial⟩, ?_⟩
  simp only [Form.object, List.map_cons, List.map_nil, Decoder.tagged]
  have htext := (text name).decodes
  simp only [Json.ofText] at htext
  simp only [Form.key, htext]
  simp only [bind, Except.bind, hname, Option.elim, h.decodes]
  rfl

end Carries

/-! ### Types of values -/

/-- What is written for any value of the type is read as this value and no other, as text and as
bytes; and so a value that was read, from whatever symbols, is read again when it is written. -/
structure RoundTrips (decode : Decoder α) (write : α → Json) : Prop where
  text : ∀ a, decode.run (symbolsOfText (write a).render) = .ok a
  bytes : ∀ a, decode.run (symbolsOfBytes (write a).render.toUTF8) = .ok a
  distinct : ∀ a b, (write a).render = (write b).render → a = b
  again : ∀ symbols a, decode.run symbols = .ok a →
    decode.run (symbolsOfText (write a).render) = .ok a

namespace RoundTrips

variable {decode : Decoder α} {write : α → Json}

theorem of_carries (h : ∀ a, Carries decode (write a) a) : RoundTrips decode write := by
  refine ⟨fun a => (h a).run_text, fun a => (h a).run_bytes, fun a b hsame => ?_,
    fun _ a _ => (h a).run_text⟩
  have ha := (h a).run_text
  rw [hsame, (h b).run_text] at ha
  exact (Except.ok.inj ha).symm

/-- Distinct values have distinct bytes. -/
theorem injective (h : RoundTrips decode write) {a b : α}
    (hsame : (write a).render.toUTF8 = (write b).render.toUTF8) : a = b := by
  have ha := h.bytes a
  rw [hsame, h.bytes b] at ha
  exact (Except.ok.inj ha).symm

end RoundTrips

/-! ### Records -/

/-- What is found in a record that has exactly these fields. -/
def FoundFields.Describes (found : FoundFields) (fields : List (String × Json)) : Prop :=
  ∀ name, (found.find? name).map Prod.snd = fields.lookup name

/-- A record of these fields stands for the value, and nothing of the fields is lost
in writing. -/
structure RecordOf.Holds (r : RecordOf α) (fields : List (String × Json)) (a : α) : Prop where
  regular : ∀ name ∈ r.names, ∀ j, fields.lookup name = some j → j.Regular
  builds : ∀ found : FoundFields, found.Describes fields → r.build found = .ok a

namespace RecordOf

variable {fields : List (String × Json)}

theorem Holds.map {r : RecordOf α} {a : α} (h : r.Holds fields a) (f : α → β) :
    (f <$> r).Holds fields (f a) := by
  refine ⟨h.regular, fun found hfound => ?_⟩
  have hr : (f <$> r).build found = (r.build found).map f := rfl
  rw [hr, h.builds found hfound]
  rfl

theorem Holds.seq {rf : RecordOf (α → β)} {r : RecordOf α} {f : α → β} {a : α}
    (hf : rf.Holds fields f) (h : r.Holds fields a) : (rf <*> r).Holds fields (f a) := by
  refine ⟨fun name hname => ?_, fun found hfound => ?_⟩
  · rcases List.mem_append.1 hname with hname | hname
    · exact hf.regular name hname
    · exact h.regular name hname
  · have hr : (rf <*> r).build found = combine (rf.build found) (r.build found) := rfl
    rw [hr, hf.builds found hfound, h.builds found hfound]
    rfl

theorem Holds.present {name : String} {missing : Option α} {decode : Decoder α} {j : Json} {a : α}
    (hname : fields.lookup name = some j) (h : Carries decode j a) :
    (fieldOr name missing decode).Holds fields a := by
  refine ⟨fun other hother k hk => ?_, fun found hfound => ?_⟩
  · obtain rfl := List.mem_singleton.1 hother
    obtain rfl := Option.some.inj (hname.symm.trans hk)
    exact h.regular
  · have hf := hfound name
    rw [hname] at hf
    obtain ⟨⟨i, j'⟩, hij, rfl⟩ := Option.map_eq_some_iff.1 hf
    simp only [fieldOr, hij, h.decodes]
    rfl

theorem Holds.absent {name : String} {missing : α} {decode : Decoder α}
    (hname : fields.lookup name = none) :
    (fieldOr name (some missing) decode).Holds fields missing := by
  refine ⟨fun other hother k hk => ?_, fun found hfound => ?_⟩
  · obtain rfl := List.mem_singleton.1 hother
    exact absurd (hname.symm.trans hk) (by simp)
  · have hf := hfound name
    rw [hname] at hf
    simp only [fieldOr, Option.map_eq_none_iff.1 hf]
    rfl

/-! The fields of a written record. -/

theorem find?_numbered (name : String) (i : Nat) :
    (((numbered i (fields.map fun (name, j) => (Form.key name, j))).find?
      fun m => m.1 == some name).map (·.2)).map Prod.snd = fields.lookup name := by
  induction fields generalizing i with
  | nil => rfl
  | cons f fields ih =>
    obtain ⟨name', j⟩ := f
    simp only [List.map_cons, numbered, Form.key, Json.text?_escape, List.find?_cons,
      List.lookup_cons]
    by_cases h : name' = name
    · subst h; simp
    · have h' : (name == name') = false := by simpa using fun e => h e.symm
      have hs : (some name' == some name) = false := by simpa using h
      simp only [h', hs]
      exact ih (i + 1)

theorem firstFault?_numbered (names seen : List String) (i : Nat)
    (hnodup : (fields.map Prod.fst).Nodup) (hseen : ∀ name ∈ fields.map Prod.fst, name ∉ seen)
    (hregular : ∀ f ∈ fields, f.2.Regular) :
    firstFault? names seen (numbered i (fields.map fun (name, j) => (Form.key name, j))) = none := by
  induction fields generalizing i seen with
  | nil => rfl
  | cons f fields ih =>
    obtain ⟨name, j⟩ := f
    rw [List.map_cons, List.nodup_cons] at hnodup
    have hj : j ≠ .broken := by
      rintro rfl
      exact hregular (name, .broken) (by simp)
    have hname : seen.contains name = false := by
      simpa using hseen name (by simp)
    simp only [List.map_cons, numbered, Form.key, Json.text?_escape]
    rw [firstFault?]
    · simp only [hname, Bool.false_eq_true, if_false]
      apply ih _ _ hnodup.2
      · intro n hn
        split
        · rw [List.mem_cons, not_or]
          exact ⟨fun e => hnodup.1 (e ▸ hn), hseen n (by simp at hn ⊢; exact .inr hn)⟩
        · exact hseen n (by simp at hn ⊢; exact .inr hn)
      · exact fun f hf => hregular f (by simp [hf])
    · exact hj

theorem lookup_of_mem {name : String} {j : Json} (hnodup : (fields.map Prod.fst).Nodup)
    (h : (name, j) ∈ fields) : fields.lookup name = some j := by
  induction fields with
  | nil => exact absurd h (by simp)
  | cons f fields ih =>
    rw [List.map_cons, List.nodup_cons] at hnodup
    rcases List.mem_cons.1 h with rfl | h
    · rw [List.lookup_cons_self]
    · have hne : name ≠ f.1 := fun e => hnodup.1 (e ▸ List.mem_map.2 ⟨(name, j), h, rfl⟩)
      rw [List.lookup_cons, beq_false_of_ne hne]
      exact ih hnodup.2 h

/-- A record written with some of its fields, in their order, is read as its value. -/
theorem carries {r : RecordOf α} {a : α} (h : r.Holds fields a) (hnodup : r.names.Nodup)
    (hfields : (fields.map Prod.fst).Sublist r.names) :
    Carries r.decode (Form.object fields) a := by
  have hnodup' : (fields.map Prod.fst).Nodup := hfields.nodup hnodup
  have hregular : ∀ f ∈ fields, f.2.Regular := by
    intro f hf
    have hname : f.1 ∈ r.names := hfields.subset (List.mem_map.2 ⟨f, hf, rfl⟩)
    exact h.regular f.1 hname f.2 (lookup_of_mem hnodup' hf)
  refine ⟨?_, ?_⟩
  · rw [Form.object, Json.Regular, Json.regularMembers_iff]
    intro m hm
    obtain ⟨⟨name, j⟩, hf, rfl⟩ := List.mem_map.1 hm
    exact ⟨Json.isBody_escape name.toList, hregular _ hf⟩
  · have hfault := firstFault?_numbered r.names [] 0 hnodup' (by simp) hregular
    rw [Form.object, RecordOf.decode]
    simp only [hfault]
    rw [h.builds _ fun name => find?_numbered name 0]
    rfl

/-- A record written with all of its fields. -/
theorem carries_all {r : RecordOf α} {a : α} (h : r.Holds fields a) (hnodup : r.names.Nodup)
    (hfields : fields.map Prod.fst = r.names) : Carries r.decode (Form.object fields) a :=
  carries h hnodup (hfields ▸ .refl _)

/-! Fields that must be there. -/

/-- Nothing is built of a record that lacks the field. -/
def Needs (r : RecordOf α) (name : String) : Prop :=
  ∀ found a, r.build found = .ok a → (found.find? name).isSome

theorem needs_field (name : String) (decode : Decoder α) : (field name decode).Needs name := by
  intro found a h
  simp only [field, fieldOr] at h
  cases hfind : found.find? name with
  | none =>
    rw [hfind] at h
    exact absurd h (by simp)
  | some f => rfl

theorem Needs.map {r : RecordOf α} {name : String} (h : r.Needs name) (f : α → β) :
    (f <$> r).Needs name := by
  intro found b hb
  obtain ⟨a, ha, -⟩ := map_eq_ok.1 hb
  exact h found a ha

theorem Needs.seq {rf : RecordOf (α → β)} {name : String} (h : rf.Needs name) (r : RecordOf α) :
    (rf <*> r).Needs name := by
  intro found b hb
  have hr : (rf <*> r).build found = combine (rf.build found) (r.build found) := rfl
  rw [hr] at hb
  cases hf : rf.build found with
  | error e =>
    rw [hf] at hb
    cases ha : r.build found <;> exact absurd (ha ▸ hb) (by simp [combine])
  | ok f => exact h found f hf

/-- A record that is written without such a field is not read. -/
theorem Needs.run_bytes {r : RecordOf α} {name : String} (h : r.Needs name)
    (hregular : (Form.object fields).Regular) (hlacks : fields.lookup name = none) (a : α) :
    r.decode.run (symbolsOfBytes (Form.object fields).render.toUTF8) ≠ .ok a := by
  have hdecode : ∀ b, r.decode (Form.object fields) ≠ .ok b := by
    intro b hb
    rw [Form.object, decode] at hb
    simp only at hb
    generalize firstFault? r.names [] _ = fault at hb
    cases hbuild : r.build _ with
    | error e =>
      rw [hbuild, settle] at hb
      split at hb <;> exact absurd hb (by simp)
    | ok c =>
      obtain ⟨f, hf⟩ := Option.isSome_iff_exists.1 (h _ c hbuild)
      have hfound := congrArg (Option.map Prod.snd) hf
      exact absurd (hfound.symm.trans ((find?_numbered name 0).trans hlacks)) (by simp)
  rw [symbolsOfBytes_render, Decoder.run, Json.read_compact hregular]
  cases hd : r.decode (Form.object fields) with
  | error e => simp
  | ok b => exact absurd hd (hdecode b)

end RecordOf

end Lakehouse
