import Lakehouse.Proofs.Parquet.Totals
import Lakehouse.Proofs.Store.Listing
import Lakehouse.Proofs.Store.Room
import Lakehouse.Proofs.Table.Live
import Lakehouse.Proofs.Table.Operations

/- Files that are gathered below a directory.

   Below a directory with plain names, the importable files are those that the search finds, each
   once and in ascending order (`Finds`), and all of them have been described when they have been
   loaded: by the path from the root, the values in the path below the directory, and the footer
   (`Gathers`). Each of these descriptions has a path of its own and as many slots as the spec
   (`Gathers.oncePerPath`, `Gathers.slots`). -/
namespace Lakehouse

open Contract Log Script

/-! ### Paths below a directory -/

namespace Path

variable {directory : String} {upper names : List String}

/-- What the name of a file or a directory can be. Backslashes are not in it. -/
structure IsEntry (name : String) : Prop extends IsName name where
  noSlash : '/' ∉ name.toList
  noBackslash : '\\' ∉ name.toList

theorem intercalate_append {a b : List (List Char)} (ha : a ≠ []) (hb : b ≠ []) :
    ['/'].intercalate (a ++ b) = ['/'].intercalate a ++ '/' :: ['/'].intercalate b := by
  induction a with
  | nil => exact absurd rfl ha
  | cons s a ih =>
    cases a with
    | nil =>
      obtain ⟨s', b, rfl⟩ := List.exists_cons_of_ne_nil hb
      simp [List.intercalate]
    | cons s' a =>
      calc ['/'].intercalate (s :: s' :: a ++ b)
          = s ++ '/' :: ['/'].intercalate (s' :: a ++ b) := by simp [List.intercalate]
        _ = s ++ '/' :: (['/'].intercalate (s' :: a) ++ '/' :: ['/'].intercalate b) := by
            rw [ih (by simp)]
        _ = ['/'].intercalate (s :: s' :: a) ++ '/' :: ['/'].intercalate b := by
            simp [List.intercalate]

namespace Plain

theorem toList_eq (h : Plain directory upper) :
    directory.toList = ['/'].intercalate (upper.map String.toList) := by
  rw [← h.segments_eq, intercalate_segments]

theorem noSlash (h : Plain directory upper) : ∀ name ∈ upper, '/' ∉ name.toList := by
  intro name hname
  refine slash_not_mem_segments directory.toList ?_
  rw [h.segments_eq]
  exact List.mem_map_of_mem hname

/-- A plain path begins with a name. -/
theorem withoutIdleStart_eq (h : Plain directory upper) :
    withoutIdleStart directory.toList = directory.toList := by
  obtain ⟨first, rest, rfl⟩ := List.exists_cons_of_ne_nil h.names_ne_nil
  have hfirst := h.isName first (by simp)
  have hsegments := h.segments_eq
  have hslash := h.head_ne_slash
  generalize directory.toList = text at hsegments hslash
  unfold withoutIdleStart
  split
  next => rfl
  next => exact absurd (List.cons.inj hsegments).1.symm hfirst.ne_dot
  next => exact absurd rfl hslash
  next rest' =>
    have hdot : segments ('.' :: '/' :: rest') = ['.'] :: segments rest' := segments_append ['.'] rest'
    rw [hdot] at hsegments
    exact absurd (List.cons.inj hsegments).1.symm hfirst.ne_dot
  next => rfl

theorem nil_not_mem_segments (h : Plain directory upper) : [] ∉ segments directory.toList := by
  rw [h.segments_eq, List.mem_map]
  rintro ⟨name, hname, hnil⟩
  exact (h.isName name hname).ne_nil hnil

theorem toList_ne_nil (h : Plain directory upper) : directory.toList ≠ [] := by
  intro hnil
  have hnone := h.nil_not_mem_segments
  rw [hnil] at hnone
  exact hnone List.mem_cons_self

theorem getLast?_ne_slash (h : Plain directory upper) : directory.toList.getLast? ≠ some '/' := by
  intro hlast
  obtain ⟨start, -, hsegments⟩ := segments_of_last_slash hlast
  have hnone := h.nil_not_mem_segments
  rw [hsegments] at hnone
  exact hnone (List.mem_append_right _ List.mem_cons_self)

/-- The path of what lies below a plain path has the names of both. -/
theorem below_eq (h : Plain directory upper) (hne : names ≠ []) :
    below directory names = "/".intercalate (upper ++ names) := by
  have hmark : "/".toList = ['/'] := rfl
  have hsplit : ¬ (directory.toList = [] ∨ directory.toList.getLast? = some '/') := by
    rw [not_or]
    exact ⟨h.toList_ne_nil, h.getLast?_ne_slash⟩
  simp only [below, h.withoutIdleStart_eq, ite_self]
  rw [if_neg hsplit, ← String.toList_inj, String.toList_append, String.toList_append,
    String.toList_ofList, String.toList_intercalate, String.toList_intercalate, List.map_append,
    hmark, intercalate_append (by simpa using h.names_ne_nil) (by simpa using hne), ← h.toList_eq,
    List.append_assoc, List.singleton_append]

/-- What lies below a plain path, under names that entries can have, has a plain path. -/
theorem below_plain (h : Plain directory upper) (hnames : ∀ name ∈ names, IsEntry name) :
    Plain ("/".intercalate (upper ++ names)) (upper ++ names) := by
  refine plain_of_intercalate (by simp [h.names_ne_nil]) String.toList_intercalate ?_ ?_
  · intro name hname
    rcases List.mem_append.1 hname with hupper | hbelow
    · exact h.isName name hupper
    · exact (hnames name hbelow).toIsName
  · intro name hname
    rcases List.mem_append.1 hname with hupper | hbelow
    · exact h.noSlash name hupper
    · exact (hnames name hbelow).noSlash

theorem startsWithDot_eq_false (h : Plain directory upper) :
    Table.startsWithDot directory = false := by
  obtain ⟨first, rest, rfl⟩ := List.exists_cons_of_ne_nil h.names_ne_nil
  rw [Table.startsWithDot, h.segments_eq]
  simpa using (h.isName first (by simp)).ne_dot

end Plain

/-- A path whose names have no backslashes stays as it is. -/
theorem withSlashes_eq {names : List String} (h : ∀ name ∈ names, '\\' ∉ name.toList) :
    withSlashes ("/".intercalate names) = "/".intercalate names := by
  rw [← String.toList_inj, withSlashes, String.toList_map, String.toList_intercalate]
  refine (List.map_congr_left fun c hc => if_neg ?_).trans (List.map_id' _)
  rintro rfl
  rcases mem_intercalate hc with hslash | ⟨s, hs, hmem⟩
  · exact absurd hslash (by decide)
  · obtain ⟨name, hname, rfl⟩ := List.mem_map.1 hs
    exact h name hname hmem

end Path

/-! ### Files below a directory -/

variable {asked : Request → Prop} {root : Location} {files files' : Tree} {commits : List Commit}
  {current : Nat} {t u : Table} {directory : String} {upper names : Place} {bytes : ByteArray}
  {f : DataFile}

/-- What a description says of the path and the slots is what it was given. -/
theorem Parquet.given_of_dataFile {path : String} {schema : Schema} {partition : PartitionTuple}
    (h : dataFile path bytes schema partition = .ok f) :
    f.path = path ∧ f.partition = partition := by
  obtain ⟨footer, -, rfl⟩ := exists_footer_of_dataFile h
  obtain ⟨hpath, hrest⟩ := Prod.mk.inj (describe_given path bytes.size footer schema partition)
  obtain ⟨hpartition, -⟩ := Prod.mk.inj hrest
  exact ⟨hpath, hpartition⟩

/-- The names lead from the directory to an importable file with these bytes. -/
structure Tree.HasImportable (files : Tree) (root : Location) (upper names : Place)
    (bytes : ByteArray) : Prop where
  there : files.node? (root.place ++ (upper ++ names)) = some (.file bytes)
  importable : Table.isImportable names = true

/-- No file of a table is importable, so what is importable stays. -/
theorem Tree.HasImportable.grows (h : files.HasImportable root upper names bytes)
    (hgrows : files.Grows asked root files') : files'.HasImportable root upper names bytes := by
  refine ⟨?_, h.importable⟩
  rcases hgrows.nodes _ _ h.there with hsame | ⟨hcurrent, -⟩
  · exact hsame
  · have himportable := h.importable
    have hlast : (upper ++ names).getLast? = some "CURRENT" := by
      rw [List.append_cancel_left hcurrent]
      rfl
    rw [List.getLast?_append] at hlast
    rw [Table.isImportable] at himportable
    cases hname : names.getLast? with
    | none =>
      rw [hname] at himportable
      exact absurd himportable (by simp)
    | some name =>
      rw [hname, Option.some_or] at hlast
      obtain rfl := Option.some.inj hlast
      rw [hname] at himportable
      exact absurd himportable (by decide)

/-- The path of a directory from the root, and the names that it has, in files that lie in
directories. -/
structure Tree.Addresses (files : Tree) (root : Location) (directory : String) (upper : Place) :
    Prop where
  grounded : files.Grounded
  located : files.locate [] (Path.rootMoves root.path) = .ok root.place
  plain : Path.Plain directory upper
  noBackslash : ∀ name ∈ upper, '\\' ∉ name.toList

/-- What is importable has names that entries can have. -/
def Tree.NamesImportable (files : Tree) (root : Location) (upper : Place) : Prop :=
  ∀ names bytes, files.HasImportable root upper names bytes → ∀ name ∈ names, Path.IsEntry name

namespace Table

/-- What the file is taken in as: its path from the root, the values that its path below the
directory has for the slots of the table, and the metrics in its footer. -/
structure TakesAs (t : Table) (upper names : Place) (bytes : ByteArray) (f : DataFile) : Prop where
  path : f.path = "/".intercalate (upper ++ names)
  partition : (if t.spec.isUnpartitioned then .ok []
    else Parquet.partitionFromPath ("/".intercalate names) t.schema t.spec) = .ok f.partition
  metrics : Parquet.dataFile f.path bytes t.schema f.partition = .ok f

/-- The importable files below the directory, each once and in ascending order; there are some. -/
structure Finds (root : Location) (upper : Place) (files : Tree) (found : List Place) : Prop where
  nonempty : found ≠ []
  ascending : found.Pairwise fun a b => compare a b = .lt
  complete : ∀ names, names ∈ found ↔ ∃ bytes, files.HasImportable root upper names bytes

/-- All importable files below the directory, and what they are taken in as. -/
structure Gathers (root : Location) (t : Table) (upper : Place) (files : Tree) (found : List Place)
    (added : List DataFile) : Prop extends Finds root upper files found where
  described : List.Forall₂ (fun names f => ∃ bytes, files.HasImportable root upper names bytes ∧
    t.TakesAs upper names bytes f) found added

theorem ne_nil_of_isImportable (h : isImportable names = true) : names ≠ [] := by
  rintro rfl
  exact absurd h (by decide)

theorem describeFile_eq_ok (hp : Path.Plain directory upper)
    (hupper : ∀ name ∈ upper, '\\' ∉ name.toList) (hne : names ≠ [])
    (hnames : ∀ name ∈ names, Path.IsEntry name) :
    describeFile t.schema t.spec directory names bytes = .ok f ↔ t.TakesAs upper names bytes f := by
  have hclear : ∀ name ∈ upper ++ names, '\\' ∉ name.toList := by
    intro name hname
    exact (List.mem_append.1 hname).elim (hupper name) fun h => (hnames name h).noBackslash
  have hwithin : pathWithin directory names = "/".intercalate names := by
    rw [pathWithin, hp.startsWithDot_eq_false]
    rfl
  have hboth : describeFile t.schema t.spec directory names bytes =
      (if t.spec.isUnpartitioned then .ok []
        else Parquet.partitionFromPath ("/".intercalate names) t.schema t.spec) >>= fun partition =>
          Parquet.dataFile ("/".intercalate (upper ++ names)) bytes t.schema partition := by
    rw [describeFile, hwithin, hp.below_eq hne, Path.withSlashes_eq hclear]
    split <;> rfl
  rw [hboth, bind_eq_ok]
  constructor
  · rintro ⟨partition, hpartition, hmetrics⟩
    obtain ⟨hpath, rfl⟩ := Parquet.given_of_dataFile hmetrics
    exact ⟨hpath, hpartition, hpath ▸ hmetrics⟩
  · rintro ⟨hpath, hpartition, hmetrics⟩
    exact ⟨f.partition, hpartition, hpath ▸ hmetrics⟩

theorem perform_loadFile_iff {schema : Schema} {spec : PartitionSpec} :
    perform root (loadFile schema spec directory names) files = (.ok f, files) ↔
      ∃ bytes, files.readBytes (Path.join root.path (Path.below directory names)) = .ok bytes ∧
        describeFile schema spec directory names bytes = .ok f := by
  rw [loadFile, perform_bind, perform_lift, run_request]
  simp only [Tree.answer]
  cases files.readBytes (Path.join root.path (Path.below directory names)) with
  | error e => simp
  | ok bytes =>
    simp only [Except.ok.injEq, exists_eq_left']
    cases describeFile schema spec directory names bytes with
    | error e => simp
    | ok g => simp

/-- A file that is loaded is at its place, and is taken in as it was described. -/
theorem takesAs_of_loadFile (haddresses : files.Addresses root directory upper) (hne : names ≠ [])
    (hnames : ∀ name ∈ names, Path.IsEntry name)
    (hload : perform root (loadFile t.schema t.spec directory names) files = (.ok f, files)) :
    ∃ bytes, files.node? (root.place ++ (upper ++ names)) = some (.file bytes) ∧
      t.TakesAs upper names bytes f := by
  obtain ⟨bytes, hread, hdescribed⟩ := perform_loadFile_iff.1 hload
  have hp := haddresses.plain
  rw [hp.below_eq hne] at hread
  refine ⟨bytes, ?_, (describeFile_eq_ok hp haddresses.noBackslash hne hnames).1 hdescribed⟩
  exact ((Tree.readBytes_plain haddresses.located (hp.below_plain hnames)).1 hread).2

theorem perform_findImportable_ok {found : List Place}
    (h : perform root (findImportable directory) files = (.ok found, files)) :
    ∃ listed, files.list (Path.join root.path directory) = .ok listed ∧
      found = listed.filter isImportable ∧ found ≠ [] := by
  rw [findImportable, perform_bind, perform_lift, run_request] at h
  simp only [Tree.answer] at h
  cases hlist : files.list (Path.join root.path directory) with
  | error e =>
    rw [hlist] at h
    exact absurd h (by simp)
  | ok listed =>
    rw [hlist] at h
    simp only at h
    split at h
    next => exact absurd h (by simp)
    next hsome =>
      obtain rfl := Except.ok.inj (Prod.mk.inj h).1
      exact ⟨listed, rfl, rfl, fun hnil => hsome (List.isEmpty_iff.2 hnil)⟩

/-- The listing of a directory below the root. -/
theorem mem_of_list (haddresses : files.Addresses root directory upper) {listed : List Place}
    (h : files.list (Path.join root.path directory) = .ok listed) (names : Place) :
    names ∈ listed ↔ ∃ bytes, files.node? (root.place ++ (upper ++ names)) = some (.file bytes) := by
  obtain ⟨place, hfollow, -, -, hmem⟩ := Tree.list_eq_ok haddresses.grounded h
  rw [Tree.follow_plain haddresses.located haddresses.plain, map_eq_ok] at hfollow
  obtain ⟨-, -, rfl⟩ := hfollow
  rw [hmem, List.append_assoc]

/-- A search finds what is importable. -/
theorem finds_of_findImportable (haddresses : files.Addresses root directory upper)
    {found : List Place} (h : perform root (findImportable directory) files = (.ok found, files)) :
    Finds root upper files found := by
  obtain ⟨listed, hlist, rfl, hne⟩ := perform_findImportable_ok h
  obtain ⟨-, -, -, hascending, -⟩ := Tree.list_eq_ok haddresses.grounded hlist
  refine ⟨hne, hascending.filter _, fun names => ?_⟩
  rw [List.mem_filter, mem_of_list haddresses hlist]
  constructor
  · rintro ⟨⟨bytes, hthere⟩, himportable⟩
    exact ⟨bytes, hthere, himportable⟩
  · rintro ⟨bytes, hthere, himportable⟩
    exact ⟨⟨bytes, hthere⟩, himportable⟩

/-- What is found and loaded is all that is importable. -/
theorem gathers_of_performs (haddresses : files.Addresses root directory upper)
    (hnames : files.NamesImportable root upper) {found : List Place} {added : List DataFile}
    (hfind : perform root (findImportable directory) files = (.ok found, files))
    (hload : perform root (found.mapM (loadFile t.schema t.spec directory)) files =
      (.ok added, files)) : t.Gathers root upper files found added := by
  have hfinds := finds_of_findImportable haddresses hfind
  have hloaded := ((perform_mapM_ok (reads_loadFile t.schema t.spec directory)).1 hload).2
  have hin : ∀ names ∈ found, ∃ bytes, files.HasImportable root upper names bytes :=
    fun names => (hfinds.complete names).1
  refine ⟨hfinds, ((List.forall₂_and_left found added).2 ⟨hin, hloaded⟩).imp ?_⟩
  rintro names f ⟨⟨bytes, himportable⟩, hone⟩
  have hne := ne_nil_of_isImportable himportable.importable
  obtain ⟨bytes', hthere, htakes⟩ :=
    takesAs_of_loadFile haddresses hne (hnames names bytes himportable) hone
  exact ⟨bytes', ⟨hthere, himportable.importable⟩, htakes⟩

/-! ### What can be gathered -/

theorem TakesAs.slots (h : t.TakesAs upper names bytes f) :
    f.partition.length = t.spec.fields.length := by
  have hpartition := h.partition
  split at hpartition
  next hnone =>
    rw [← Except.ok.inj hpartition, List.isEmpty_iff.1 hnone]
    rfl
  next => exact (forall₂_of_mapM hpartition).length_eq.symm

/-- A file is taken in as one thing only. -/
theorem TakesAs.unique {f' : DataFile} (h : t.TakesAs upper names bytes f)
    (h' : t.TakesAs upper names bytes f') : f = f' := by
  have hpath := h.path.trans h'.path.symm
  have hpartition := Except.ok.inj (h.partition.symm.trans h'.partition)
  have hmetrics := h.metrics
  rw [hpath, hpartition, h'.metrics] at hmetrics
  exact (Except.ok.inj hmetrics).symm

theorem Finds.nodup {found : List Place} (h : Finds root upper files found) : found.Nodup := by
  refine h.ascending.imp ?_
  rintro a _ hlt rfl
  have hself : compare a a = .eq := Std.ReflCmp.compare_self
  exact absurd (hlt.symm.trans hself) (by simp)

namespace Gathers

variable {found : List Place} {added : List DataFile}

/-- All that can be gathered is one list. -/
theorem unique {found' : List Place} {added' : List DataFile}
    (h : t.Gathers root upper files found added) (h' : t.Gathers root upper files found' added') :
    found = found' ∧ added = added' := by
  have hmem : ∀ names, names ∈ found ↔ names ∈ found' := fun names =>
    (h.complete names).trans (h'.complete names).symm
  obtain rfl : found = found' := by
    have hperm := (List.perm_ext_iff_of_nodup h.nodup h'.nodup).2 hmem
    refine hperm.eq_of_pairwise (fun a b _ _ hlt hgt => ?_) h.ascending h'.ascending
    exact absurd (hlt.symm.trans (Std.OrientedCmp.eq_swap.trans (congrArg Ordering.swap hgt)))
      (by decide)
  refine ⟨rfl, List.right_unique_forall₂' ?_ h.described h'.described⟩
  rintro names f f' ⟨bytes, hthere, htakes⟩ ⟨bytes', hthere', htakes'⟩
  obtain rfl : bytes = bytes' :=
    Node.file.inj (Option.some.inj (hthere.there.symm.trans hthere'.there))
  exact htakes.unique htakes'

/-- Each file has as many slots as the spec has fields. -/
theorem slots (h : t.Gathers root upper files found added) :
    ∀ f ∈ added, f.partition.length = t.spec.fields.length := by
  intro f hf
  obtain ⟨names, -, bytes, -, htakes⟩ := exists_of_forall₂ h.described.flip hf
  exact htakes.slots

/-- Different files have different paths. -/
theorem oncePerPath (h : t.Gathers root upper files found added) (hp : Path.Plain directory upper)
    (hnames : files.NamesImportable root upper) : OncePerPath added := by
  have hplain : ∀ names ∈ found,
      Path.Plain ("/".intercalate (upper ++ names)) (upper ++ names) := by
    intro names hin
    obtain ⟨bytes, hthere⟩ := (h.complete names).1 hin
    exact hp.below_plain (hnames names bytes hthere)
  have hpaths : added.map DataFile.path = found.map fun names => "/".intercalate (upper ++ names) := by
    rw [← List.forall₂_eq_eq_eq, List.forall₂_map_left_iff, List.forall₂_map_right_iff]
    exact h.described.flip.imp fun _ _ ⟨_, _, htakes⟩ => htakes.path
  rw [OncePerPath, hpaths]
  refine h.nodup.map_on fun a ha b hb hsame => ?_
  have hplain' := hplain b hb
  rw [← hsame] at hplain'
  exact List.append_cancel_left ((hplain a ha).names_eq hplain')

end Gathers

/-- The directory can be listed, and what is importable below it can be read. -/
structure Legible (root : Location) (directory : String) (upper : Place) (files : Tree) : Prop where
  lists : ∃ listed, files.list (Path.join root.path directory) = .ok listed
  reads : ∀ names bytes, files.HasImportable root upper names bytes →
    files.readBytes (Path.join root.path (Path.below directory names)) = .ok bytes

theorem perform_findImportable_of_list {listed : List Place}
    (hlist : files.list (Path.join root.path directory) = .ok listed)
    (hne : listed.filter isImportable ≠ []) :
    perform root (findImportable directory) files = (.ok (listed.filter isImportable), files) := by
  have hsome : (listed.filter isImportable).isEmpty = false := by
    rwa [Bool.eq_false_iff, Ne, List.isEmpty_iff]
  rw [findImportable, perform_bind, perform_lift, run_request]
  simp [Tree.answer, hlist, hsome]

/-- What is importable is gathered if there is anything, and all of it can be described. -/
theorem exists_gathered (haddresses : files.Addresses root directory upper)
    (hnames : files.NamesImportable root upper) (hlegible : Legible root directory upper files)
    (hsome : ∃ names bytes, files.HasImportable root upper names bytes)
    (hall : ∀ names bytes, files.HasImportable root upper names bytes →
      ∃ f, t.TakesAs upper names bytes f) :
    ∃ found added, perform root (findImportable directory) files = (.ok found, files) ∧
      perform root (found.mapM (loadFile t.schema t.spec directory)) files = (.ok added, files) := by
  obtain ⟨listed, hlist⟩ := hlegible.lists
  have hmem := mem_of_list haddresses hlist
  obtain ⟨names, bytes, hthere⟩ := hsome
  have hfound := @perform_findImportable_of_list root files directory listed hlist
    (List.ne_nil_of_mem (List.mem_filter.2 ⟨(hmem names).2 ⟨bytes, hthere.there⟩, hthere.importable⟩))
  have hload : ∀ names ∈ listed.filter isImportable,
      ∃ f, perform root (loadFile t.schema t.spec directory names) files = (.ok f, files) := by
    intro names hin
    obtain ⟨hlisted, himportable⟩ := List.mem_filter.1 hin
    obtain ⟨bytes, hnode⟩ := (hmem names).1 hlisted
    have hthere : files.HasImportable root upper names bytes := ⟨hnode, himportable⟩
    obtain ⟨f, hf⟩ := hall names bytes hthere
    have hdescribed := (describeFile_eq_ok haddresses.plain haddresses.noBackslash
      (ne_nil_of_isImportable himportable) (hnames names bytes hthere)).2 hf
    exact ⟨f, perform_loadFile_iff.2 ⟨bytes, hlegible.reads names bytes hthere, hdescribed⟩⟩
  obtain ⟨added, hadded⟩ := exists_forall₂ hload
  exact ⟨_, added, hfound,
    (perform_mapM_ok (reads_loadFile t.schema t.spec directory)).2 ⟨rfl, hadded⟩⟩

end Table

end Lakehouse
