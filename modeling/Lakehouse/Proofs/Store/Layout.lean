import Lakehouse.Proofs.Store.Path
import Lakehouse.Proofs.Text.Numerals
import Lakehouse.Store.Layout

/- The paths of a table's files.

   Every file of a table lies in one of four directories below the root and has a
   name that leads down to it (`IsTablePath`). The path of a commit tells its version,
   and what is stored under a name made from it lies outside the log
   (`IsNameOf.outside_log`). -/
namespace Lakehouse

theorem utf8ByteSize_ofList_le (l : List Char) : (String.ofList l).utf8ByteSize ≤ 4 * l.length := by
  induction l with
  | nil => decide
  | cons c l ih =>
    have hone : (String.ofList [c]).utf8ByteSize ≤ 4 := by
      rw [← String.singleton_eq_ofList, String.utf8ByteSize_singleton]
      exact c.utf8Size_le_four
    rw [← List.singleton_append, String.ofList_append, String.utf8ByteSize_append,
      List.length_append, List.length_singleton]
    omega

theorem length_le_utf8ByteSize (l : List Char) : l.length ≤ (String.ofList l).utf8ByteSize := by
  induction l with
  | nil => exact Nat.zero_le _
  | cons c l ih =>
    have hone : 1 ≤ (String.ofList [c]).utf8ByteSize := by
      rw [← String.singleton_eq_ofList, String.utf8ByteSize_singleton]
      exact c.utf8Size_pos
    rw [← List.singleton_append, String.ofList_append, String.utf8ByteSize_append,
      List.length_append, List.length_singleton]
    omega

namespace Path

theorem isName_of_length {name : String} (hlow : 2 < name.toList.length)
    (hhigh : name.toList.length < 64) : IsName name := by
  refine ⟨?_, ?_, ?_, ?_⟩
  · intro h
    rw [h] at hlow
    exact absurd hlow (by decide)
  · intro h
    rw [h] at hlow
    exact absurd hlow (by decide)
  · intro h
    rw [h] at hlow
    exact absurd hlow (by decide)
  · have hsize := utf8ByteSize_ofList_le name.toList
    rw [String.ofList_toList] at hsize
    rw [isLongName, decide_eq_false_iff_not]
    omega

theorem plain_of_intercalate {path : String} {names : List String} (hne : names ≠ [])
    (hpath : path.toList = ['/'].intercalate (names.map String.toList))
    (hnames : ∀ name ∈ names, IsName name) (hslash : ∀ name ∈ names, '/' ∉ name.toList) :
    Plain path names := by
  refine ⟨?_, hnames⟩
  rw [hpath, segments_intercalate (by simpa using hne)]
  intro s hs
  obtain ⟨name, hname, rfl⟩ := List.mem_map.1 hs
  exact hslash name hname

namespace Plain

theorem names_eq {path : String} {names names' : List String} (h : Plain path names)
    (h' : Plain path names') : names = names' := by
  have hmap := h.segments_eq.symm.trans h'.segments_eq
  exact (List.map_inj_right fun _ _ he => String.toList_inj.1 he).1 hmap

theorem path_eq {path path' : String} {names : List String} (h : Plain path names)
    (h' : Plain path' names) : path = path' := by
  rw [← String.toList_inj, ← intercalate_segments path.toList, h.segments_eq, ← h'.segments_eq,
    intercalate_segments]

end Plain

end Path

namespace Layout

open Lakehouse.Path

/-- The directories of a table, each after those above it. -/
def directories : List (List String) :=
  [[logDirectory], [metadataDirectory], [metadataDirectory, "manifests"],
    [metadataDirectory, "staging"]]

/-- The names that lead to a file of a table. -/
structure IsFile (names : List String) : Prop where
  inDirectory : ∃ directory ∈ directories, ∃ name, names = directory ++ [name]
  notDirectory : names ∉ directories

/-- The path of a file of a table. -/
def IsTablePath (path : String) : Prop := ∃ names, Plain path names ∧ IsFile names

theorem directories_closed {directory p : List String} (h : directory ∈ directories)
    (hp : p <+: directory) (hne : p ≠ []) : p ∈ directories := by
  have hlength : ∀ d ∈ directories, d.length < 3 := by decide
  have hall : ∀ d ∈ directories, ∀ n ∈ List.range 3, d.take n ≠ [] → d.take n ∈ directories := by
    decide
  obtain ⟨rest, rfl⟩ := hp
  have hshort := hlength _ h
  have hp := hall _ h p.length (List.mem_range.2 (by rw [List.length_append] at hshort; omega))
  rw [List.take_left] at hp
  exact hp hne

/-- A file in one of the directories, whose name ends as no directory's name does. -/
theorem isFile_of_parts (directory : List String) {path name : String}
    (hdirectory : directory ∈ directories)
    (hpath : path.toList = ['/'].intercalate ((directory ++ [name]).map String.toList))
    (hlow : 2 < name.toList.length) (hhigh : name.toList.length < 64) (hslash : '/' ∉ name.toList)
    (hlast : name.toList.getLast? ∉ [some 'a', some 'g', some 's']) :
    Plain path (directory ++ [name]) ∧ IsFile (directory ++ [name]) := by
  have hparts : ∀ d ∈ directories, ∀ n ∈ d, 2 < n.toList.length ∧ n.toList.length < 64 ∧
      '/' ∉ n.toList := by decide
  refine ⟨plain_of_intercalate (by simp) hpath ?_ ?_, ⟨directory, hdirectory, name, rfl⟩, ?_⟩
  · intro n hn
    rcases List.mem_append.1 hn with hn | hn
    · obtain ⟨hlow, hhigh, -⟩ := hparts directory hdirectory n hn
      exact isName_of_length hlow hhigh
    · obtain rfl := List.mem_singleton.1 hn
      exact isName_of_length hlow hhigh
  · intro n hn
    rcases List.mem_append.1 hn with hn | hn
    · exact (hparts directory hdirectory n hn).2.2
    · obtain rfl := List.mem_singleton.1 hn
      exact hslash
  · intro hmem
    have hends : ∀ d ∈ directories, ∀ n, d.getLast? = some n →
        n.toList.getLast? ∈ [some 'a', some 'g', some 's'] := by decide
    exact hlast (hends _ hmem name (by rw [List.getLast?_concat]))

/-! ### Names of commits -/

theorem intercalate_pair (a b : List Char) : ['/'].intercalate [a, b] = a ++ '/' :: b := by
  simp [List.intercalate]

theorem intercalate_triple (a b c : List Char) :
    ['/'].intercalate [a, b, c] = a ++ '/' :: (b ++ '/' :: c) := by
  simp [List.intercalate]

/-- No directory has a name with this ending. -/
theorem getLast?_json (l : List Char) :
    (l ++ ".json".toList).getLast? ∉ [some 'a', some 'g', some 's'] := by
  have hjson : ".json".toList.getLast? = some 'n' := rfl
  rw [List.getLast?_append, hjson, Option.some_or]
  decide

theorem currentPath_isFile : Plain currentPath [logDirectory, "CURRENT"] ∧
    IsFile [logDirectory, "CURRENT"] :=
  isFile_of_parts [logDirectory] (by decide) rfl (by decide) (by decide) (by decide)
    (by decide)

/-- The name of a commit's file in its directory. -/
def commitName (version : UInt64) : String :=
  String.ofList (Text.paddedDecimal versionDigits version.toNat) ++ ".json"

theorem toList_commitName (version : UInt64) :
    (commitName version).toList = Text.paddedDecimal versionDigits version.toNat ++ ".json".toList := by
  rw [commitName, String.toList_append, String.toList_ofList]

theorem toList_commitPath (version : UInt64) :
    (commitPath version).toList = logDirectory.toList ++ '/' :: (commitName version).toList := by
  simp only [commitPath, toList_commitName, String.toList_append, String.toList_ofList,
    List.append_assoc]
  rfl

theorem length_commitName (version : UInt64) :
    15 ≤ (commitName version).toList.length ∧ (commitName version).toList.length ≤ 25 := by
  have hv : version.toNat < 10 ^ 20 := by
    have := version.toNat_lt
    omega
  have hbounds := Text.length_paddedDecimal_bounds versionDigits 20 (by decide) (by decide) hv
  have hwidth : versionDigits = 10 := rfl
  have hjson : ".json".toList.length = 5 := rfl
  rw [toList_commitName, List.length_append, hjson]
  omega

theorem slash_not_mem_digits {l : List Char} (h : ∀ c ∈ l, Text.isDigit c = true) : '/' ∉ l := by
  intro hmem
  exact absurd (h _ hmem) (by decide)

theorem commitPath_isFile (version : UInt64) :
    Plain (commitPath version) [logDirectory, commitName version] ∧
      IsFile [logDirectory, commitName version] := by
  have hlength := length_commitName version
  refine isFile_of_parts [logDirectory] (by decide) ?_ (by omega) (by omega) ?_ ?_
  · exact (toList_commitPath version).trans (intercalate_pair _ _).symm
  · rw [toList_commitName, List.mem_append, not_or]
    exact ⟨slash_not_mem_digits fun _ hc => Text.isDigit_of_mem_paddedDecimal hc, by decide⟩
  · rw [toList_commitName]
    exact getLast?_json _

theorem commitPath_injective {v w : UInt64} (h : commitPath v = commitPath w) : v = w := by
  have hlist := (toList_commitPath v).symm.trans ((congrArg String.toList h).trans (toList_commitPath w))
  have hname : (commitName v).toList = (commitName w).toList := by
    simpa using List.append_cancel_left hlist
  rw [toList_commitName, toList_commitName] at hname
  exact UInt64.toNat_inj.1 (Text.paddedDecimal_injective (List.append_cancel_right hname))

theorem commitPath_ne_currentPath (version : UInt64) : commitPath version ≠ currentPath := by
  intro h
  have hlist := congrArg List.length (congrArg String.toList h)
  have hcurrent : currentPath.toList.length = 21 := rfl
  have hlog : logDirectory.toList.length = 13 := rfl
  have hlength := length_commitName version
  rw [toList_commitPath, hcurrent, List.length_append, List.length_cons, hlog] at hlist
  omega

/-! ### Names made from content -/

theorem mem_hexByte {b : UInt8} {c : Char} (h : c ∈ hexByte b) :
    c ≠ '/' ∧ c ≠ '-' ∧ c ≠ '\x00' := by
  have hdigit : ∀ n : Fin 16, Nat.digitChar n.val ≠ '/' ∧ Nat.digitChar n.val ≠ '-' ∧
      Nat.digitChar n.val ≠ '\x00' := by decide
  have hb := b.toNat_lt
  rw [hexByte, List.mem_cons, List.mem_singleton] at h
  rcases h with rfl | rfl
  · exact hdigit ⟨b.toNat / 16, by omega⟩
  · exact hdigit ⟨b.toNat % 16, by omega⟩

theorem mem_contentId {kind : String} {content : ByteArray} {c : Char}
    (h : c ∈ (contentId kind content).toList) : c ≠ '/' ∧ c ≠ '-' ∧ c ≠ '\x00' := by
  rw [contentId, String.toList_ofList] at h
  obtain ⟨b, -, hc⟩ := List.mem_flatMap.1 h
  exact mem_hexByte hc

theorem length_contentId_le (kind : String) (content : ByteArray) :
    (contentId kind content).toList.length ≤ 32 := by
  have hflat : ∀ bytes : List UInt8, (bytes.flatMap hexByte).length = 2 * bytes.length := by
    intro bytes
    induction bytes with
    | nil => rfl
    | cons b bytes ih =>
      rw [List.flatMap_cons, List.length_append, ih, List.length_cons]
      have hb : (hexByte b).length = 2 := rfl
      omega
  rw [contentId, String.toList_ofList, hflat, List.length_take]
  have hbytes : contentIdBytes = 16 := rfl
  omega

/-- The name of a manifest's file in its directory. -/
def manifestName (content : ByteArray) : String :=
  "m-" ++ contentId manifestKind content ++ ".json"

/-- The name of the file of a manifest list. -/
def manifestListName (id : SnapshotId) (content : ByteArray) : String :=
  "snap-" ++ id.display ++ "-" ++ contentId manifestListKind content ++ ".json"

theorem toList_manifestName (content : ByteArray) :
    (manifestName content).toList =
      "m-".toList ++ (contentId manifestKind content).toList ++ ".json".toList := by
  rw [manifestName, String.toList_append, String.toList_append]

theorem toList_manifestListName (id : SnapshotId) (content : ByteArray) :
    (manifestListName id content).toList =
      "snap-".toList ++ (Text.signedDecimal id.toInt ++
        '-' :: ((contentId manifestListKind content).toList ++ ".json".toList)) := by
  have hid : id.display.toList = Text.signedDecimal id.toInt := String.toList_ofList
  have hmark : "-".toList = ['-'] := rfl
  simp only [manifestListName, String.toList_append, hid, hmark, List.append_assoc,
    List.cons_append, List.nil_append]

theorem isFile_of_manifestName (directory : List String) {path : String} {content : ByteArray}
    (hdirectory : directory ∈ directories)
    (hpath : path.toList =
      ['/'].intercalate ((directory ++ [manifestName content]).map String.toList)) :
    Plain path (directory ++ [manifestName content]) ∧ IsFile (directory ++ [manifestName content]) := by
  have hlength := length_contentId_le manifestKind content
  refine isFile_of_parts directory hdirectory hpath ?_ ?_ ?_ ?_
  · rw [toList_manifestName]
    simp
  · rw [toList_manifestName]
    simp
    omega
  · rw [toList_manifestName, List.mem_append, List.mem_append, not_or, not_or]
    exact ⟨⟨by decide, fun h => (mem_contentId h).1 rfl⟩, by decide⟩
  · rw [toList_manifestName]
    exact getLast?_json _

theorem manifestPath_isFile (content : ByteArray) :
    Plain (manifestPath content) [metadataDirectory, "manifests", manifestName content] ∧
      IsFile [metadataDirectory, "manifests", manifestName content] := by
  refine isFile_of_manifestName [metadataDirectory, "manifests"] (by decide) ?_
  refine Eq.trans ?_ (intercalate_triple _ _ _).symm
  have hmiddle : "/manifests/m-".toList = '/' :: ("manifests".toList ++ '/' :: "m-".toList) := rfl
  simp only [manifestPath, toList_manifestName, String.toList_append, hmiddle, List.append_assoc,
    List.cons_append]

theorem stagedPath_isFile (content : ByteArray) :
    Plain (stagedPath content) [metadataDirectory, "staging", manifestName content] ∧
      IsFile [metadataDirectory, "staging", manifestName content] := by
  refine isFile_of_manifestName [metadataDirectory, "staging"] (by decide) ?_
  refine Eq.trans ?_ (intercalate_triple _ _ _).symm
  have hmiddle : "/staging/m-".toList = '/' :: ("staging".toList ++ '/' :: "m-".toList) := rfl
  simp only [stagedPath, toList_manifestName, String.toList_append, hmiddle, List.append_assoc,
    List.cons_append]

theorem manifestListPath_isFile (id : SnapshotId) (content : ByteArray) :
    Plain (manifestListPath id content) [metadataDirectory, manifestListName id content] ∧
      IsFile [metadataDirectory, manifestListName id content] := by
  have hlength := length_contentId_le manifestListKind content
  have hid : (Text.signedDecimal id.toInt).length ≤ 20 := by
    have hlow := id.le_toInt
    have hhigh := id.toInt_lt
    exact Text.length_signedDecimal_le 19 (by decide) (by omega)
  refine isFile_of_parts [metadataDirectory] (by decide) ?_ ?_ ?_ ?_ ?_
  · refine Eq.trans ?_ (intercalate_pair _ _).symm
    have hdisplay : id.display.toList = Text.signedDecimal id.toInt := String.toList_ofList
    have hfront : "/snap-".toList = '/' :: "snap-".toList := rfl
    have hmark : "-".toList = ['-'] := rfl
    simp only [manifestListPath, toList_manifestListName, String.toList_append, hdisplay, hfront,
      hmark, List.append_assoc, List.cons_append, List.nil_append]
  · rw [toList_manifestListName]
    simp
  · rw [toList_manifestListName]
    simp
    omega
  · rw [toList_manifestListName]
    simp only [List.mem_append, List.mem_cons, not_or]
    -- Digits are not slashes, and neither are the characters of a hash.
    refine ⟨by decide, ?_, by decide, fun h => (mem_contentId h).1 rfl, by decide⟩
    cases id.toInt with
    | ofNat n => exact slash_not_mem_digits fun _ hc => Text.isDigit_of_mem_decimal hc
    | negSucc n =>
      rw [Text.signedDecimal, List.mem_cons, not_or]
      exact ⟨by decide, slash_not_mem_digits fun _ hc => Text.isDigit_of_mem_decimal hc⟩
  · rw [toList_manifestListName]
    have hlast := getLast?_json ("snap-".toList ++ (Text.signedDecimal id.toInt ++
      '-' :: (contentId manifestListKind content).toList))
    simpa only [List.append_assoc, List.cons_append] using hlast

/-- The path is one under which content of the kind is stored. -/
inductive IsNameOf (content : ByteArray) : (kind path : String) → Prop where
  | manifest : IsNameOf content manifestKind (manifestPath content)
  | staged : IsNameOf content manifestKind (stagedPath content)
  | list (id : SnapshotId) : IsNameOf content manifestListKind (manifestListPath id content)

theorem IsNameOf.isTablePath {content : ByteArray} {kind path : String}
    (h : IsNameOf content kind path) : IsTablePath path := by
  cases h with
  | manifest => exact ⟨_, manifestPath_isFile content⟩
  | staged => exact ⟨_, stagedPath_isFile content⟩
  | list id => exact ⟨_, manifestListPath_isFile id content⟩

theorem IsNameOf.below_metadata {content : ByteArray} {kind path : String}
    (h : IsNameOf content kind path) : ∃ rest, Plain path (metadataDirectory :: rest) := by
  cases h with
  | manifest => exact ⟨_, (manifestPath_isFile content).1⟩
  | staged => exact ⟨_, (stagedPath_isFile content).1⟩
  | list id => exact ⟨_, (manifestListPath_isFile id content).1⟩

theorem isTablePath_current : IsTablePath currentPath := ⟨_, currentPath_isFile⟩

theorem isTablePath_commit (version : UInt64) : IsTablePath (commitPath version) :=
  ⟨_, commitPath_isFile version⟩

/-- A file of a table has a plain path below some directory. -/
theorem IsTablePath.below_directory {path : String} (h : IsTablePath path) :
    ∃ directory name, directory ≠ [] ∧ Plain path (directory ++ [name]) := by
  obtain ⟨names, hp, hfile⟩ := h
  obtain ⟨directory, hd, name, rfl⟩ := hfile.inDirectory
  refine ⟨directory, name, ?_, hp⟩
  rintro rfl
  exact absurd hd (by decide)

/-- Content is not stored among the files of the log. -/
theorem IsNameOf.outside_log {content : ByteArray} {kind path : String}
    (h : IsNameOf content kind path) :
    path ≠ currentPath ∧ ∀ version, path ≠ commitPath version := by
  have hpath : path.toList.head? = some 'm' := by
    cases h <;> simp [manifestPath, stagedPath, manifestListPath, metadataDirectory]
  refine ⟨?_, fun version => ?_⟩
  · rintro rfl
    exact absurd hpath (by decide)
  · rintro rfl
    rw [toList_commitPath] at hpath
    exact absurd hpath (by simp [logDirectory])

/-- What is stored under a name made from it has a plain path beside the commits. -/
theorem IsNameOf.beside_commits {content : ByteArray} {kind path : String}
    (h : IsNameOf content kind path) : ∃ directory name, directory ≠ [] ∧
      Plain path (directory ++ [name]) ∧ ∀ v, directory ++ [name] ≠ [logDirectory, commitName v] := by
  obtain ⟨directory, name, hne, hp⟩ := h.isTablePath.below_directory
  refine ⟨directory, name, hne, hp, fun v he => ?_⟩
  rw [he] at hp
  exact h.outside_log.2 v (hp.path_eq (commitPath_isFile v).1)

end Layout

end Lakehouse
