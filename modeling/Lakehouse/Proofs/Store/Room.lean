import Lakehouse.Proofs.Store.Hosting

/- Room for a table.

   An access refuses a path that is too long or has a zero in it, and nothing else keeps
   the files of a table from being written. Their names are short and have no zeros, so below
   a root of moderate length no path of a table is refused (`roomy_of_short`). Then the only
   failure of a creation is that the file is there (`create_of_takes`, `create_taken`), a
   replacement does not fail (`replace_of_takes`), and a file that is not there is missing
   (`readBytes_missing`). -/
namespace Lakehouse

open Lakehouse.Path Layout

/-! ### Lengths and zeros -/

namespace Path

theorem dropIdle_isPrefix (parts : List (List Char)) : dropIdle parts <+: parts := by
  rw [dropIdle, ← List.reverse_suffix, List.reverse_reverse]
  exact List.dropWhile_suffix _

theorem intercalate_isPrefix {a b : List (List Char)} (h : a <+: b) :
    ['/'].intercalate a <+: ['/'].intercalate b := by
  obtain ⟨rest, rfl⟩ := h
  induction a with
  | nil => exact List.nil_prefix
  | cons s a ih =>
    cases a with
    | nil =>
      cases rest with
      | nil => exact List.prefix_refl _
      | cons s' rest => simp [List.intercalate]
    | cons s' a =>
      have hcons : ∀ parts, ['/'].intercalate (s :: s' :: parts) =
          s ++ '/' :: ['/'].intercalate (s' :: parts) := by
        intro parts
        simp [List.intercalate]
      rw [List.cons_append, List.cons_append, hcons, hcons, List.prefix_append_right_inj,
        List.cons_prefix_cons]
      exact ⟨rfl, ih⟩

/-- The parent of a path stands at its beginning. -/
theorem parent_isPrefix (path : String) : (parent path).toList <+: path.toList := by
  have hparts : dropIdle (dropIdle (segments path.toList)).dropLast <+: segments path.toList :=
    ((dropIdle_isPrefix _).trans (List.dropLast_prefix _)).trans (dropIdle_isPrefix _)
  simp only [parent]
  split
  next h =>
    obtain ⟨rest, hrest⟩ := List.head?_eq_some_iff.1 h.2
    exact ⟨rest, hrest.symm⟩
  next =>
    rw [String.toList_ofList]
    have hbegins := intercalate_isPrefix hparts
    rwa [intercalate_segments] at hbegins

/-- What stands at the beginning of a path that can be followed can be followed. -/
theorem checkPath_of_isPrefix {a b : String} (hbegins : a.toList <+: b.toList)
    (h : Tree.checkPath b = .ok ()) : Tree.checkPath a = .ok () := by
  obtain ⟨rest, hrest⟩ := hbegins
  have hb : b = a ++ String.ofList rest := by
    rw [← String.toList_inj, String.toList_append, String.toList_ofList, hrest]
  rw [Tree.checkPath_eq_ok, hb, Tree.hasZero_append, Bool.or_eq_false_iff, isLong,
    decide_eq_false_iff_not, String.utf8ByteSize_append] at h
  rw [Tree.checkPath_eq_ok, isLong, decide_eq_false_iff_not]
  exact ⟨h.1.1, by omega⟩

theorem length_intercalate_le {bound : Nat} {parts : List (List Char)}
    (h : ∀ s ∈ parts, s.length ≤ bound) :
    (['/'].intercalate parts).length ≤ parts.length * (bound + 1) := by
  induction parts with
  | nil => simp [List.intercalate]
  | cons s parts ih =>
    have hs := h s (by simp)
    cases parts with
    | nil =>
      simp [List.intercalate]
      omega
    | cons s' parts =>
      have hcons : ['/'].intercalate (s :: s' :: parts) =
          s ++ '/' :: ['/'].intercalate (s' :: parts) := by
        simp [List.intercalate]
      have hrest := ih fun t ht => h t (by simp [ht])
      rw [hcons, List.length_append, List.length_cons, List.length_cons, Nat.add_mul, Nat.one_mul]
      omega

theorem mem_intercalate {c : Char} {parts : List (List Char)} (h : c ∈ ['/'].intercalate parts) :
    c = '/' ∨ ∃ s ∈ parts, c ∈ s := by
  induction parts with
  | nil => exact absurd h (by simp [List.intercalate])
  | cons s parts ih =>
    cases parts with
    | nil =>
      refine .inr ⟨s, by simp, ?_⟩
      simpa [List.intercalate] using h
    | cons s' parts =>
      have hcons : ['/'].intercalate (s :: s' :: parts) =
          s ++ '/' :: ['/'].intercalate (s' :: parts) := by
        simp [List.intercalate]
      rw [hcons, List.mem_append, List.mem_cons] at h
      rcases h with h | h | h
      · exact .inr ⟨s, by simp, h⟩
      · exact .inl h
      · rcases ih h with hslash | ⟨t, ht, hc⟩
        · exact .inl hslash
        · exact .inr ⟨t, List.mem_cons_of_mem _ ht, hc⟩

end Path

namespace Layout

theorem zero_not_mem_digits {l : List Char} (h : ∀ c ∈ l, Text.isDigit c = true) : '\x00' ∉ l := by
  intro hmem
  exact absurd (h _ hmem) (by decide)

theorem zero_not_mem_commitName (version : UInt64) : '\x00' ∉ (commitName version).toList := by
  rw [toList_commitName, List.mem_append, not_or]
  exact ⟨zero_not_mem_digits fun _ hc => Text.isDigit_of_mem_paddedDecimal hc, by decide⟩

theorem zero_not_mem_manifestName (content : ByteArray) :
    '\x00' ∉ (manifestName content).toList := by
  rw [toList_manifestName, List.mem_append, List.mem_append, not_or, not_or]
  exact ⟨⟨by decide, fun h => (mem_contentId h).2.2 rfl⟩, by decide⟩

theorem zero_not_mem_manifestListName (id : SnapshotId) (content : ByteArray) :
    '\x00' ∉ (manifestListName id content).toList := by
  rw [toList_manifestListName]
  simp only [List.mem_append, List.mem_cons, not_or]
  refine ⟨by decide, ?_, by decide, fun h => (mem_contentId h).2.2 rfl, by decide⟩
  cases id.toInt with
  | ofNat n => exact zero_not_mem_digits fun _ hc => Text.isDigit_of_mem_decimal hc
  | negSucc n =>
    rw [Text.signedDecimal, List.mem_cons, not_or]
    exact ⟨by decide, zero_not_mem_digits fun _ hc => Text.isDigit_of_mem_decimal hc⟩

end Layout

/-! ### Roots of moderate length -/

/-- No access refuses the path of a file that a table may have below the root. -/
structure Location.Roomy (root : Location) : Prop where
  current : Tree.Takes root currentPath
  commit : ∀ version, Tree.Takes root (commitPath version)
  named : ∀ {content kind path}, IsNameOf content kind path → Tree.Takes root path

/-- The path is so short that every file of a table can be reached below it. -/
structure Location.Short (root : Location) : Prop where
  noZero : hasZero root.path = false
  size : root.path.utf8ByteSize ≤ 1000

namespace Tree

variable {t : Tree} {root : Location} {path : String} {names : List String}

theorem toList_of_plain (hp : Plain path names) :
    path.toList = ['/'].intercalate (names.map String.toList) := by
  rw [← hp.segments_eq, intercalate_segments]

/-- A path of short names that is not deep is short. -/
theorem utf8ByteSize_le_of_plain (hp : Plain path names) (hdepth : names.length ≤ 3) :
    path.utf8ByteSize ≤ 4 * (3 * 256) := by
  have hle := @length_intercalate_le 255 (names.map String.toList) (by
    intro s hs
    obtain ⟨n, hn, rfl⟩ := List.mem_map.1 hs
    have hshort := (hp.isName n hn).short
    have hn' := length_le_utf8ByteSize n.toList
    rw [isLongName, decide_eq_false_iff_not] at hshort
    rw [String.ofList_toList] at hn'
    omega)
  rw [← toList_of_plain hp, List.length_map] at hle
  have hlength : path.toList.length ≤ 3 * 256 :=
    Nat.le_trans hle (Nat.mul_le_mul_right 256 hdepth)
  have hsize := utf8ByteSize_ofList_le path.toList
  rw [String.ofList_toList] at hsize
  omega

theorem hasZero_of_plain (hp : Plain path names) (hclean : ∀ n ∈ names, '\x00' ∉ n.toList) :
    hasZero path = false := by
  rw [hasZero, Bool.eq_false_iff, ne_eq, List.contains_iff_mem, toList_of_plain hp]
  intro hmem
  rcases mem_intercalate hmem with hslash | ⟨s, hs, hc⟩
  · exact absurd hslash (by decide)
  · obtain ⟨n, hn, rfl⟩ := List.mem_map.1 hs
    exact hclean n hn hc

theorem checkPath_of_short (hroot : root.Short) (hp : Plain path names)
    (hnoZero : hasZero path = false) (hsize : path.utf8ByteSize ≤ 4 * (3 * 256)) :
    checkPath (join root.path path) = .ok () := by
  have hslash : ("/" : String).utf8ByteSize = 1 := by decide
  have hroot' := hroot.size
  rw [checkPath_eq_ok, isLong, decide_eq_false_iff_not, join, if_neg hp.head_ne_slash]
  split
  · rw [hasZero_append, hroot.noZero, hnoZero, String.utf8ByteSize_append]
    exact ⟨rfl, by omega⟩
  · rw [hasZero_append, hasZero_append, hroot.noZero, hnoZero, String.utf8ByteSize_append,
      String.utf8ByteSize_append, hslash]
    exact ⟨by decide, by omega⟩

/-- No access refuses a file of a table for the length of its path or for a zero in it. -/
theorem takes_of_short (hroot : root.Short) (hp : Plain path names) (hnames : IsFile names)
    {last : String} (hlast : names.getLast? = some last) (hzero : '\x00' ∉ last.toList) :
    Takes root path := by
  have hdirectories : ∀ d ∈ directories, d.length ≤ 2 ∧ ∀ n ∈ d, '\x00' ∉ n.toList := by decide
  obtain ⟨directory, hd, name, rfl⟩ := hnames.inDirectory
  obtain rfl : name = last := by simpa using hlast
  obtain ⟨hdepth, hclean⟩ := hdirectories directory hd
  have hsize := utf8ByteSize_le_of_plain hp (by
    rw [List.length_append, List.length_singleton]
    omega)
  have hnoZero : hasZero path = false := hasZero_of_plain hp fun n hn => by
    rcases List.mem_append.1 hn with hn | hn
    · exact hclean n hn
    · exact List.mem_singleton.1 hn ▸ hzero
  have hjoin := checkPath_of_short hroot hp hnoZero hsize
  exact ⟨checkPath_of_isPrefix (parent_isPrefix _) hjoin, hjoin⟩

theorem roomy_of_short (h : root.Short) : root.Roomy := by
  constructor
  · exact takes_of_short h currentPath_isFile.1 currentPath_isFile.2 rfl (by decide)
  · intro version
    exact takes_of_short h (commitPath_isFile version).1 (commitPath_isFile version).2 rfl
      (zero_not_mem_commitName version)
  · intro content kind path hname
    cases hname with
    | manifest =>
      exact takes_of_short h (manifestPath_isFile content).1 (manifestPath_isFile content).2 rfl
        (zero_not_mem_manifestName content)
    | staged =>
      exact takes_of_short h (stagedPath_isFile content).1 (stagedPath_isFile content).2 rfl
        (zero_not_mem_manifestName content)
    | list id =>
      exact takes_of_short h (manifestListPath_isFile id content).1
        (manifestListPath_isFile id content).2 rfl (zero_not_mem_manifestListName id content)

/-! ### Writes that are taken -/

/-- Under a path that is taken, a file that is not there can be created. -/
theorem create_of_takes (h : t.Hosts root) (hpath : IsTablePath path) (htakes : Takes root path)
    (hnone : t.content? root path = none) (content : ByteArray) :
    (t.create (join root.path path) content).1 = .ok () ∧
      t.Becomes (t.create (join root.path path) content).2 root path content := by
  obtain ⟨-, -, houtcome⟩ := create_outcome h hpath content
  generalize t.create (join root.path path) content = reply at houtcome ⊢
  obtain ⟨result, after⟩ := reply
  cases houtcome with
  | done fresh free now => exact ⟨rfl, now⟩
  | taken p old there same => exact absurd (hnone.symm.trans there) (by simp)
  | failed p cause refused same => exact absurd htakes refused

/-- Under a path that is taken, only a file that is there keeps it from being created. -/
theorem create_taken (h : t.Hosts root) (hpath : IsTablePath path) (htakes : Takes root path)
    {old : ByteArray} (hthere : t.content? root path = some old) (content : ByteArray) :
    (∃ p, (t.create (join root.path path) content).1 = .error (.alreadyExists p)) ∧
      t.SameFiles (t.create (join root.path path) content).2 root := by
  obtain ⟨-, -, houtcome⟩ := create_outcome h hpath content
  generalize t.create (join root.path path) content = reply at houtcome ⊢
  obtain ⟨result, after⟩ := reply
  cases houtcome with
  | done fresh free now => exact absurd (fresh.symm.trans hthere) (by simp)
  | taken p old there same => exact ⟨⟨p, rfl⟩, same⟩
  | failed p cause refused same => exact absurd htakes refused

/-- Under a path that is taken, a file can be replaced. -/
theorem replace_of_takes (h : t.Hosts root) (hp : Plain path names) (hnames : IsFile names)
    (htakes : Takes root path) (content : ByteArray) :
    (t.replace (join root.path path) content).1 = .ok () ∧
      t.Becomes (t.replace (join root.path path) content).2 root path content := by
  obtain ⟨-, -, houtcome⟩ := replace_outcome h hp hnames content
  generalize t.replace (join root.path path) content = reply at houtcome ⊢
  obtain ⟨result, after⟩ := reply
  cases houtcome with
  | done now => exact ⟨rfl, now⟩
  | failed p cause refused same => exact absurd htakes refused

/-! ### Missing files -/

/-- A file of the table that is not there is missing, if its path is taken. -/
theorem readBytes_missing (h : t.Hosts root) (hpath : IsTablePath path) (htakes : Takes root path)
    (hnone : t.content? root path = none) :
    t.readBytes (join root.path path) = .error (.notFound (join root.path path)) := by
  obtain ⟨names, hp, hnames⟩ := hpath
  have hnode : t.node? (root.place ++ names) = none := by
    cases hn : t.node? (root.place ++ names) with
    | none => rfl
    | some n =>
      cases n with
      | directory => exact absurd hn (h.files names hnames)
      | file c =>
        have hsome := (content?_eq_some h hp).2 ⟨htakes.path, hn⟩
        exact absurd (hnone.symm.trans hsome) (by simp)
  -- No file stands above the place, so nothing but the file is missing.
  have habove : (above (root.place ++ names)).any t.isFile = false := by
    rw [List.any_eq_false]
    intro q hq
    obtain ⟨n, hn, rfl⟩ := List.mem_map.1 hq
    rw [List.mem_range, List.length_append] at hn
    rw [Bool.not_eq_true]
    by_cases hle : n ≤ root.place.length
    · rw [List.take_append_of_le_length hle]
      exact h.clear _ (List.take_prefix _ _)
    · obtain ⟨directory, hd, name, rfl⟩ := hnames.inDirectory
      rw [List.length_append, List.length_singleton] at hn
      rw [List.take_append, List.take_of_length_le (by omega),
        List.take_append_of_le_length (by omega)]
      refine h.directories _ (directories_closed hd (List.take_prefix _ _) ?_)
      intro hnil
      have hlength := congrArg List.length hnil
      rw [List.length_take, List.length_nil] at hlength
      have hne : directory ≠ [] := by
        rintro rfl
        exact absurd hd (by decide)
      have hpos := List.length_pos_iff.2 hne
      omega
  rw [readBytes, read, follow_plain h.located hp, htakes.path]
  simp only [Except.map, bind, Except.bind, hnode, absence, habove, mapError_error]
  rfl

end Tree

/-- The working directory is a root with room. -/
theorem roomy_here : Location.Roomy ⟨"."⟩ := Tree.roomy_of_short ⟨by decide, by decide⟩

end Lakehouse
