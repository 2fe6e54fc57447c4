import Lakehouse.Proofs.Form.Log
import Lakehouse.Proofs.Parquet.Typing
import Lakehouse.Proofs.Store.Persistence
import Lakehouse.Proofs.Table.Asking

/- The types of what tables store.

   A tree is typed if every manifest that can be read from any file of it lists only files with the
   types of the columns (`Tree.IsTyped`). What is read of a typed tree is typed, and so is what is
   written from it: a plan stores files that it has read, and those that came with the request
   (`Planned.isTyped_stored`); an intake makes its files for the schema of the table
   (`isTyped_loadFile`). Commits, lists of manifests and the file for the current version are read
   as no manifest at all. So a typed tree stays typed through every operation, wherever it stops, as
   long as the files that come with requests are typed (`commit_asks_typed`, `stage_asks_typed`,
   `intake_asks_typed`, `Tree.IsTyped.run`). -/
namespace Lakehouse

open Log Script

variable {schema : Schema} {spec : PartitionSpec} {root : Location} {files files' : Tree} {α : Type}

/-! ### Files of admitted contents -/

/-- The content of each file, whatever its place, is admitted. -/
def Tree.Admits (admitted : ByteArray → Prop) (files : Tree) : Prop :=
  ∀ place c, files.node? place = some (.file c) → admitted c

namespace Tree.Admits

variable {admitted : ByteArray → Prop}

theorem of_wroteAt {place : Place} {content : ByteArray} {result : Except StorageError Unit}
    (h : files.Admits admitted) (hwrote : WroteAt files files' place content result)
    (hcontent : admitted content) : files'.Admits admitted := by
  intro q c hq
  rcases hwrote.files q c hq with hold | ⟨-, -, rfl⟩
  · exact h q c hold
  · exact hcontent

theorem create {path : String} {content : ByteArray} (h : files.Admits admitted)
    (hpath : Layout.IsTablePath path) (hcontent : admitted content) :
    (files.create (Path.join root.path path) content).2.Admits admitted := by
  obtain ⟨directory, name, hne, hplain⟩ := hpath.below_directory
  exact h.of_wroteAt (create_wrote files root hplain hne content).2.1 hcontent

theorem replace {path : String} {content : ByteArray} (h : files.Admits admitted)
    (hpath : Layout.IsTablePath path) (hcontent : admitted content) :
    (files.replace (Path.join root.path path) content).2.Admits admitted := by
  obtain ⟨directory, name, hne, hplain⟩ := hpath.below_directory
  exact h.of_wroteAt (replace_wrote files root hplain hne content).1 hcontent

/-- If the files of the log are admitted, each access keeps all contents admitted. -/
theorem answer (h : files.Admits admitted) (hcommit : ∀ c, admitted (commitContent c))
    (hcurrent : ∀ v, admitted (currentContent v)) {r : Request}
    (hr : r.StoresOnly fun _ => admitted) : (files.answer root r).2.Admits admitted := by
  cases hr with
  | read hread => rwa [Tree.answer_read hread]
  | commit version c => exact h.create (Layout.isTablePath_commit version) (hcommit c)
  | pointer version => exact h.replace Layout.isTablePath_current (hcurrent version)
  | named hname hcontent => exact h.create hname.isTablePath hcontent

/-- Each access that asks for admitted contents keeps the contents of the files admitted. -/
def contract (admitted : ByteArray → Prop) (root : Location) : Contract :=
  ⟨root, fun r => r.StoresOnly fun _ => admitted, fun t t' => t.Admits admitted → t'.Admits admitted⟩

theorem ensures (hcommit : ∀ c, admitted (commitContent c))
    (hcurrent : ∀ v, admitted (currentContent v)) (s : Script α) (files : Tree) :
    (contract admitted root).Ensures s files fun _ _ => True := by
  induction s generalizing files with
  | done a => trivial
  | ask r next ih => exact fun hr => ⟨fun h => h.answer hcommit hcurrent hr, ih _ _⟩

/-- A script that asks for admitted contents only leaves such contents, done or not. -/
theorem run (h : files.Admits admitted) (hcommit : ∀ c, admitted (commitContent c))
    (hcurrent : ∀ v, admitted (currentContent v)) {s : Script α}
    (hs : ∀ r ∈ s.requests root files, r.StoresOnly fun _ => admitted) :
    (s.run root files).2.Admits admitted ∧
      ∀ limit, (s.runFor root limit files).2.Admits admitted := by
  have hall := (ensures hcommit hcurrent s files).runFor hs (fun _ => id) fun _ _ _ h h' => h' ∘ h
  exact ⟨(hall 0).2 ((hall 0).1 h), fun limit => (hall limit).1 h⟩

end Tree.Admits

/-! ### Manifests -/

/-- The files of all entries, whatever their status, have the types of the columns. -/
def Manifest.IsTyped (schema : Schema) (spec : PartitionSpec) (m : Manifest) : Prop :=
  ∀ e ∈ m.entries, e.file.IsTyped schema spec

namespace Manifest.IsTyped

variable {m : Manifest}

theorem inherit (h : m.IsTyped schema spec) (id : SnapshotId) :
    (m.inherit id).IsTyped schema spec := by
  intro e he
  obtain ⟨e₀, he₀, rfl⟩ := List.mem_map.1 he
  exact h e₀ he₀

theorem liveEntry (h : m.IsTyped schema spec) {e : ManifestEntry} (he : e ∈ m.liveEntries) :
    e.file.IsTyped schema spec := h e (List.mem_of_mem_filter he)

theorem removing (h : m.IsTyped schema spec) (paths : SortedMap String Unit) (id : SnapshotId) :
    (m.removing paths id).IsTyped schema spec := by
  intro e he
  obtain ⟨e₀, he₀, rfl⟩ := List.mem_map.1 he
  have hfile := h.liveEntry he₀
  split <;> exact hfile

/-- The entries of a manifest that is made of files. -/
theorem of_files {added : List DataFile} (h : ∀ f ∈ added, f.IsTyped schema spec) (specId : Int32)
    (status : EntryStatus) (id : Option SnapshotId) :
    Manifest.IsTyped schema spec ⟨specId, added.map fun f => ⟨status, id, f⟩⟩ := by
  intro e he
  obtain ⟨f, hf, rfl⟩ := List.mem_map.1 he
  exact h f hf

end Manifest.IsTyped

theorem isTyped_of_mem_liveFiles {ms : List Manifest} (h : ∀ m ∈ ms, m.IsTyped schema spec)
    {f : DataFile} (hf : f ∈ liveFiles ms) : f.IsTyped schema spec := by
  obtain ⟨m, hm, hf⟩ := List.mem_flatMap.1 hf
  obtain ⟨e, he, rfl⟩ := List.mem_map.1 hf
  exact (h m hm).liveEntry he

/-- If the content is read as a manifest at all, the manifest is typed. -/
def Form.IsTyped (schema : Schema) (spec : PartitionSpec) (content : ByteArray) : Prop :=
  ∀ m, readManifest.run (symbolsOfBytes content) = .ok m → m.IsTyped schema spec

namespace Form

theorem isTyped_manifest {m : Manifest} (h : m.IsTyped schema spec) :
    Form.IsTyped schema spec (FileM.manifestContent m) := by
  intro m' hm'
  obtain rfl := Except.ok.inj ((Carries.manifest m).run_bytes.symm.trans hm')
  exact h

theorem isTyped_manifestList (l : ManifestList) :
    Form.IsTyped schema spec (FileM.manifestListContent l) :=
  fun m hm => absurd hm (manifestList_not_manifest l m)

theorem isTyped_commit (c : Commit) : Form.IsTyped schema spec (commitContent c) :=
  fun m hm => absurd hm (commitContent_not_manifest c m)

theorem isTyped_current (v : Version) : Form.IsTyped schema spec (currentContent v) :=
  fun m hm => absurd hm (isRecord_manifest.run_currentContent v m)

end Form

/-! ### Typed trees -/

/-- Whatever file is read as a manifest, the manifest is typed. -/
def Tree.IsTyped (schema : Schema) (spec : PartitionSpec) (files : Tree) : Prop :=
  files.Admits (Form.IsTyped schema spec)

theorem Tree.isTyped_empty : Tree.empty.IsTyped schema spec := by
  intro place c h
  cases place <;> exact absurd h (by simp [Tree.node?, Tree.empty])

namespace Tree.IsTyped

/-- A script that stores typed contents leaves a typed tree, wherever it stops. -/
theorem run (h : files.IsTyped schema spec) {s : Script α}
    (hs : ∀ r ∈ s.requests root files, r.StoresOnly fun _ => Form.IsTyped schema spec) :
    (s.run root files).2.IsTyped schema spec ∧
      ∀ limit, (s.runFor root limit files).2.IsTyped schema spec :=
  Admits.run h Form.isTyped_commit Form.isTyped_current hs

theorem readJson (h : files.IsTyped schema spec) {path : String} {m : Manifest} {n : UInt64}
    (hread : perform root (FileM.readJson Form.readManifest path) files = (.ok (m, n), files)) :
    m.IsTyped schema spec := by
  obtain ⟨bytes, hcontent, hrun, -⟩ := FileM.perform_readJson_iff.1 hread
  obtain ⟨place, -, hnode⟩ := Tree.readBytes_eq_ok.1 (Tree.readBytes_of_content hcontent)
  exact h place bytes hnode m hrun

theorem loads (h : files.IsTyped schema spec) {s : Snapshot}
    {ms : List (ManifestRecord × Manifest)} (hload : s.Loads root files ms) :
    ∀ m ∈ ms.map Prod.snd, m.IsTyped schema spec := by
  intro m hm
  obtain ⟨b, hb, rfl⟩ := List.mem_map.1 hm
  have hmanifest := (FileM.perform_loadManifests_iff.1 hload).2 b hb
  obtain ⟨m, n, hread, hsame⟩ := FileM.perform_loadManifest_iff.1 hmanifest
  rw [hsame]
  exact (h.readJson hread).inherit _

end Tree.IsTyped

/-! ### Plans -/

namespace Table

variable {u : Table} {operation : Operation} {changes : FileChanges} {p : Plan}

/-- The manifests that a plan has written are made of what it has read and of what is added. -/
theorem Planned.isTyped_written (h : Planned root files u operation changes p)
    (hfiles : files.IsTyped schema spec) (hadded : ∀ f ∈ changes.added, f.IsTyped schema spec)
    (own : PartitionSpec) (inherits : Bool) :
    ∀ m ∈ p.written own inherits, m.IsTyped schema spec := by
  intro m hm
  rw [Plan.written, List.mem_append, List.mem_append] at hm
  -- A manifest is written of what is added, of what is adopted, and of what stays of the base.
  rcases hm with (hm | hm) | hm
  · rw [Plan.additions] at hm
    split at hm
    next => exact absurd hm List.not_mem_nil
    next =>
      obtain rfl := List.mem_singleton.1 hm
      exact .of_files (h.added ▸ hadded) _ _ _
  · split at hm
    next => exact absurd hm List.not_mem_nil
    next =>
      obtain ⟨s, hs, rfl⟩ := List.mem_map.1 hm
      exact (hfiles.readJson (perform_readStaged_iff.1 (h.staged s hs)).1).inherit _
  · obtain ⟨b, hb, rfl⟩ := List.mem_map.1 hm
    have hbase : b ∈ p.manifests := List.mem_of_mem_filter hb
    rcases h.loads_current with ⟨-, hnil⟩ | ⟨s, -, hload⟩
    · rw [hnil] at hbase
      exact absurd hbase List.not_mem_nil
    · exact (hfiles.loads hload b.2 (List.mem_map_of_mem hbase)).removing _ _

theorem Planned.isTyped_stored (h : Planned root files u operation changes p)
    (hfiles : files.IsTyped schema spec) (hadded : ∀ f ∈ changes.added, f.IsTyped schema spec)
    {own : PartitionSpec} {inherits : Bool} {path : String} {content : ByteArray}
    (hstores : p.Stores own inherits path content) : Form.IsTyped schema spec content := by
  rcases hstores with ⟨m, hm, -, rfl⟩ | ⟨-, rfl⟩
  · exact Form.isTyped_manifest (h.isTyped_written hfiles hadded own inherits m hm)
  · exact Form.isTyped_manifestList _

/-! ### Imported files -/

/-- A file that is taken in is described for the schema, whatever its path and its footer say. -/
theorem isTyped_describeFile {directory : String} {names : Place} {bytes : ByteArray} {f : DataFile}
    (h : describeFile schema spec directory names bytes = .ok f) : f.IsTyped schema spec := by
  rw [describeFile] at h
  split at h
  next =>
    obtain ⟨partition, hnone, hfile⟩ := bind_eq_ok.1 h
    obtain rfl := Except.ok.inj hnone
    refine Parquet.isTyped_dataFile (fun slot _ _ v _ _ hv => ?_) hfile
    exact absurd hv (by simp [PartitionTuple.value?])
  next =>
    obtain ⟨partition, hpartition, hfile⟩ := bind_eq_ok.1 h
    exact Parquet.isTyped_dataFile (Parquet.isTyped_partitionFromPath hpartition) hfile

theorem isTyped_loadFile {directory : String} {names : Place} {f : DataFile}
    (h : perform root (loadFile schema spec directory names) files = (.ok f, files)) :
    f.IsTyped schema spec := by
  rw [loadFile, perform_bind, perform_lift] at h
  dsimp only at h
  split at h
  next => exact absurd h (by simp)
  next =>
    split at h
    next f' hdescribe =>
      obtain rfl := Except.ok.inj (Prod.mk.inj h).1
      exact isTyped_describeFile hdescribe
    next => exact absurd h (by simp)

/-! ### Operations -/

variable {t : Table} {now : Calendar.Instant}

theorem commit_asks_typed (hfiles : files.IsTyped schema spec) (base : Option SnapshotId)
    (operation : Operation) (hadded : ∀ f ∈ changes.added, f.IsTyped schema spec) :
    TableM.Asks (fun _ => Form.IsTyped schema spec) root (commit base operation changes now) t
      files :=
  commit_asks fun _ _ _ hplanned _ _ hstores => hplanned.isTyped_stored hfiles hadded hstores

theorem stage_asks_typed {added : List DataFile} (hadded : ∀ f ∈ added, f.IsTyped schema spec) :
    TableM.Asks (fun _ => Form.IsTyped schema spec) root (stage added) t files :=
  stage_asks (Form.isTyped_manifest (.of_files hadded _ _ _))

/-- An intake through a copy with the schema and the spec. -/
theorem intake_asks_typed (hfiles : files.IsTyped t.schema t.spec) (directory : String) :
    TableM.Asks (fun _ => Form.IsTyped t.schema t.spec) root (intake directory now) t files := by
  refine .ofReads (reads_findImportable directory) fun found _ => .get ?_
  refine .ofReads (Reads.mapM (reads_loadFile t.schema t.spec directory) found) fun added hload => ?_
  have hadded : ∀ f ∈ added, f.IsTyped t.schema t.spec := by
    intro f hf
    have hall := ((perform_mapM_ok (reads_loadFile t.schema t.spec directory)).1 hload).2
    obtain ⟨i, hi, rfl⟩ := List.getElem_of_mem hf
    exact isTyped_loadFile ((List.forall₂_iff_get.1 hall).2 i (hall.length_eq ▸ hi) hi)
  have hstage := @stage_asks_typed t.schema t.spec root files t added hadded
  refine .bind hstage fun path t' files' hperform => .get ?_
  refine commit_asks_typed ?_ _ _ fun f hf => absurd hf List.not_mem_nil
  -- The change reads the manifest from the files that staging has left.
  have hafter : (TableM.perform root (stage added) t files).2 = files' :=
    congrArg Prod.snd hperform
  exact hafter ▸ (hfiles.run hstage).1

end Table

end Lakehouse
