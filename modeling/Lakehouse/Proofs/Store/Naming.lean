import Lakehouse.Proofs.Store.Growth

/- Names that tell the content.

   What is hashed for an object tells its kind and its content, as no kind has a zero byte in it
   (`hashInput_eq_iff`), and the object's name keeps the first digits of the hash
   (`contentId_eq_shortHash`). So if different objects share a path, the hash collides
   (`Object.exists_collision`), and where the hash separates what is hashed, each path belongs to one
   object alone (`names_never_clash`). Then the contents that are asked to be stored are told apart by
   their names, on which all runs rely (`HashSeparates.unambiguous`). -/
namespace Lakehouse

open Lakehouse.Path

namespace Layout

/-! ### What is hashed -/

theorem toList_loop (bytes : ByteArray) (i : Nat) (before : List UInt8) :
    ByteArray.toList.loop bytes i before = before.reverse ++ bytes.data.toList.drop i := by
  induction i, before using ByteArray.toList.loop.induct bytes with
  | case1 i before hlt ih =>
    have hi : i < bytes.data.toList.length := hlt
    have hget : bytes.get! i = bytes.data.toList[i] := getElem!_pos bytes.data i hlt
    rw [ByteArray.toList.loop, if_pos hlt, ih, List.drop_eq_getElem_cons hi, hget,
      List.reverse_cons, List.append_assoc, List.singleton_append]
  | case2 i before hge =>
    have hi : bytes.data.toList.length ≤ i := Nat.le_of_not_lt hge
    rw [ByteArray.toList.loop, if_neg hge, List.drop_eq_nil_of_le hi, List.append_nil]

theorem toList_content_inj {a b : ByteArray} : a.toList = b.toList ↔ a = b := by
  have hdata : ∀ bytes : ByteArray, bytes.toList = bytes.data.toList := fun bytes =>
    toList_loop bytes 0 []
  rw [hdata, hdata, Array.toList_inj, ByteArray.ext_iff]

/-- No byte of the kind can be taken for the one that ends it. -/
def NoZeroByte (kind : String) : Prop := 0 ∉ kind.toUTF8.toList

/-- What is hashed tells the kind and the content. -/
theorem hashInput_eq_iff {kind kind' : String} {a b : ByteArray} (h : NoZeroByte kind)
    (h' : NoZeroByte kind') :
    hashInput kind a = hashInput kind' b ↔ kind = kind' ∧ a = b := by
  rw [hashInput, hashInput, append_first_mark h h', toList_content_inj, toList_content_inj,
    String.toUTF8_eq_toByteArray, String.toUTF8_eq_toByteArray, String.toByteArray_inj]

/-- A zero byte in a kind may be taken for its end. -/
example : hashInput "a" "b\x00c".toUTF8 = hashInput "a\x00b" "c".toUTF8 := by decide +kernel

theorem noZeroByte_manifestKind : NoZeroByte manifestKind := by
  unfold NoZeroByte
  decide +kernel

theorem noZeroByte_manifestListKind : NoZeroByte manifestListKind := by
  unfold NoZeroByte
  decide +kernel

theorem IsNameOf.noZeroByte {content : ByteArray} {kind path : String}
    (h : IsNameOf content kind path) : NoZeroByte kind := by
  cases h with
  | manifest => exact noZeroByte_manifestKind
  | staged => exact noZeroByte_manifestKind
  | list id => exact noZeroByte_manifestListKind

/-! ### What a name keeps of the hash -/

/-- The number of hexadecimal digits that a name keeps. -/
def contentIdDigits : Nat := 32

/-- The first hexadecimal digits of the hash. -/
def shortHash (input : List UInt8) : List Char :=
  ((Hash.Blake3.hash input).flatMap hexByte).take contentIdDigits

/-- Each byte is written with two digits. -/
theorem flatMap_hexByte_take (count : Nat) (bytes : List UInt8) :
    (bytes.take count).flatMap hexByte = (bytes.flatMap hexByte).take (2 * count) := by
  induction bytes generalizing count with
  | nil => simp
  | cons b bytes ih =>
    cases count with
    | zero => rfl
    | succ count =>
      rw [List.take_succ_cons, List.flatMap_cons, List.flatMap_cons, ih, Nat.mul_succ]
      rfl

theorem contentId_eq_shortHash (kind : String) (content : ByteArray) :
    contentId kind content = String.ofList (shortHash (hashInput kind content)) := by
  rw [contentId, flatMap_hexByte_take]
  rfl

theorem contentId_eq_iff {kind kind' : String} {a b : ByteArray} :
    contentId kind a = contentId kind' b ↔
      shortHash (hashInput kind a) = shortHash (hashInput kind' b) := by
  rw [contentId_eq_shortHash, contentId_eq_shortHash, String.ofList_inj]

/-- Different contents of a kind with one name are hashed as different inputs with one short
hash. -/
theorem collision_of_contentId {kind : String} {a b : ByteArray} (hkind : NoZeroByte kind)
    (h : contentId kind a = contentId kind b) (hne : a ≠ b) :
    hashInput kind a ≠ hashInput kind b ∧
      shortHash (hashInput kind a) = shortHash (hashInput kind b) := by
  refine ⟨fun hinput => ?_, contentId_eq_iff.1 h⟩
  exact hne ((hashInput_eq_iff hkind hkind).1 hinput).2

/-- No two of the inputs that are hashed have the same short hash. -/
def HashSeparates (hashed : List UInt8 → Prop) : Prop :=
  ∀ i j, hashed i → hashed j → shortHash i = shortHash j → i = j

namespace HashSeparates

variable {hashed : List UInt8 → Prop}

/-- The name that is made from a content tells its kind and the content. -/
theorem contentId_eq_iff (h : HashSeparates hashed) {kind kind' : String} {a b : ByteArray}
    (hkind : NoZeroByte kind) (hkind' : NoZeroByte kind') (ha : hashed (hashInput kind a))
    (hb : hashed (hashInput kind' b)) :
    contentId kind a = contentId kind' b ↔ kind = kind' ∧ a = b := by
  rw [← hashInput_eq_iff hkind hkind', Layout.contentId_eq_iff]
  exact ⟨h _ _ ha hb, congrArg shortHash⟩

/-- If the contents that are asked to be stored are hashed as inputs that the hash separates, no name
is ambiguous. -/
theorem unambiguous (h : HashSeparates hashed) {asked : Request → Prop}
    (hasked : ∀ kind path content, asked (.create path content) → IsNameOf content kind path →
      hashed (hashInput kind content)) : Unambiguous asked := by
  intro kind path a b ha hb hname hname'
  have hiff := h.contentId_eq_iff hname.noZeroByte hname'.noZeroByte (hasked kind path a ha hname)
    (hasked kind path b hb hname')
  exact (hiff.1 (hname.contentId_eq hname').2).2

end HashSeparates

/-! ### Objects -/

namespace Object

/-- What is hashed for the name of the object, if there is a hash in it. -/
def input? (x : Object) : Option (List UInt8) :=
  x.source?.map fun source => hashInput source.1 source.2

/-- If different objects share a path, their inputs are different and have one short hash. -/
theorem exists_collision {x y : Object} (h : x.path = y.path) (hne : x ≠ y) :
    ∃ i ∈ x.input?, ∃ j ∈ y.input?, i ≠ j ∧ shortHash i = shortHash j := by
  cases path_eq_iff.1 h with
  | current => exact absurd rfl hne
  | commit version => exact absurd rfl hne
  | manifest hcontent =>
    have hcollision := collision_of_contentId noZeroByte_manifestKind hcontent
      fun he => hne (congrArg manifest he)
    exact ⟨_, rfl, _, rfl, hcollision⟩
  | staged hcontent =>
    have hcollision := collision_of_contentId noZeroByte_manifestKind hcontent
      fun he => hne (congrArg staged he)
    exact ⟨_, rfl, _, rfl, hcollision⟩
  | manifestList id hcontent =>
    have hcollision := collision_of_contentId noZeroByte_manifestListKind hcontent
      fun he => hne (congrArg (manifestList id) he)
    exact ⟨_, rfl, _, rfl, hcollision⟩

end Object

/-- What is hashed tells the kind and the content, for all kinds without a zero byte; and so does
the name that is made from it, if the hash separates what is hashed. Objects of different families
have different paths, whatever the hash does. If the hash separates what is hashed for them, two
objects have one path only if they are the same: the file for the current version, the commit of one
version, the manifest or staged manifest of one content, or the manifest list of one id and one
content. Different paths lead to different places, wherever their root is. -/
theorem names_never_clash {hashed : List UInt8 → Prop} (hseparates : HashSeparates hashed) :
    (∀ kind kind' a b, NoZeroByte kind → NoZeroByte kind' →
      (hashInput kind a = hashInput kind' b ↔ kind = kind' ∧ a = b)) ∧
    (∀ kind kind' a b, NoZeroByte kind → NoZeroByte kind' → hashed (hashInput kind a) →
      hashed (hashInput kind' b) → (contentId kind a = contentId kind' b ↔ kind = kind' ∧ a = b)) ∧
    (∀ x y : Object, x.family ≠ y.family → x.path ≠ y.path) ∧
    (∀ x y : Object, (∀ i ∈ x.input?, hashed i) → (∀ j ∈ y.input?, hashed j) →
      (x.path = y.path ↔ x = y)) ∧
    ∀ (x y : Object) (root : String), x.path ≠ y.path →
      components (join root x.path) ≠ components (join root y.path) := by
  refine ⟨?_, ?_, ?_, ?_, ?_⟩
  · intro kind kind' a b hkind hkind'
    exact hashInput_eq_iff hkind hkind'
  · intro kind kind' a b hkind hkind' ha hb
    exact hseparates.contentId_eq_iff hkind hkind' ha hb
  · intro x y hfamily hpath
    exact hfamily (Object.family_eq_of_path_eq hpath)
  · intro x y hx hy
    refine ⟨fun hpath => ?_, congrArg Object.path⟩
    by_contra hne
    obtain ⟨i, hi, j, hj, hij, hshort⟩ := Object.exists_collision hpath hne
    exact hij (hseparates i j (hx i hi) (hy j hj) hshort)
  · intro x y root hpath hcomponents
    exact hpath (Object.path_eq_of_components root hcomponents)

/-- A content that is stored both as a manifest and as a manifest list. -/
def sharedContent : ByteArray := "[]".toUTF8

/-- What is hashed for it. -/
def sharedInputs : List (List UInt8) :=
  [hashInput manifestKind sharedContent, hashInput manifestListKind sharedContent]

theorem names_never_clash_sharedContent : HashSeparates (· ∈ sharedInputs) ∧
    contentId manifestKind sharedContent ≠ contentId manifestListKind sharedContent ∧
    manifestListPath (-5) sharedContent ≠ manifestListPath 5 sharedContent ∧
    commitPath 12345678901 ≠ commitPath 1234567890 := by
  have hhashes : ∀ i ∈ sharedInputs, ∀ j ∈ sharedInputs, shortHash i = shortHash j → i = j := by
    decide +kernel
  have hseparates : HashSeparates (· ∈ sharedInputs) := fun i j hi hj => hhashes i hi j hj
  have hmanifest : hashInput manifestKind sharedContent ∈ sharedInputs := by simp [sharedInputs]
  have hlist : hashInput manifestListKind sharedContent ∈ sharedInputs := by simp [sharedInputs]
  obtain ⟨-, hcontents, -, hpaths, -⟩ := names_never_clash hseparates
  refine ⟨hseparates, fun h => ?_, fun h => ?_, fun h => ?_⟩
  · have hkinds := (hcontents _ _ _ _ noZeroByte_manifestKind noZeroByte_manifestListKind hmanifest
      hlist).1 h
    exact absurd hkinds.1 (by decide)
  · have hobjects := (hpaths (.manifestList (-5) sharedContent) (.manifestList 5 sharedContent)
      (fun i hi => Option.some.inj hi ▸ hlist) (fun j hj => Option.some.inj hj ▸ hlist)).1 h
    exact absurd (Object.manifestList.inj hobjects).1 (by decide)
  · have hobjects := (hpaths (.commit 12345678901) (.commit 1234567890) (fun i hi => nomatch hi)
      (fun j hj => nomatch hj)).1 h
    exact absurd (Object.commit.inj hobjects) (by decide)

end Layout

end Lakehouse
