import Lakehouse.Inspect.Rows
import Lakehouse.Proofs.Table.Live
import Lakehouse.Proofs.Table.Loading
import Lakehouse.Proofs.Table.Operations

/- The snapshots of a table and their files.

   A table is catalogued in the files of its location if each of its snapshots has its
   manifests there, and no path is live twice in any of them (`Table.Catalogued`). This
   lasts however the files grow, and through every action that an operation commits: a
   change of files adds a snapshot whose live files are those of its base, without the
   removed ones and with those that arrive (`Committed.catalogued`). -/
namespace Lakehouse

open Log Script

variable {asked : Request → Prop} {root : Location} {files files' : Tree} {commits : List Commit}
  {current : Nat}

/-- The manifests of the snapshot, with their records, as they are read. -/
def Snapshot.Loads (root : Location) (files : Tree) (s : Snapshot)
    (ms : List (ManifestRecord × Manifest)) : Prop :=
  perform root (FileM.loadManifests s) files = (.ok ms, files)

theorem Snapshot.Loads.unique {s : Snapshot} {ms ms' : List (ManifestRecord × Manifest)}
    (h : s.Loads root files ms) (h' : s.Loads root files ms') : ms = ms' := by
  rw [Loads, h] at h'
  exact Except.ok.inj (Prod.mk.inj h').1

/-- A list that can be read, with all that it names, is the list of a snapshot that loads. -/
theorem Tree.HasList.loads {s : Snapshot} (h : files.HasList root s.manifestList) :
    ∃ ms, s.Loads root files ms := by
  obtain ⟨c, l, hcontent, hrun, hall⟩ := h
  have hlist : perform root (FileM.loadManifestList s.manifestList) files = (.ok l, files) :=
    FileM.perform_loadManifestList_iff.2
      ⟨_, FileM.perform_readJson_iff.2 ⟨c, hcontent, hrun, rfl⟩⟩
  have heach : ∀ rs : List ManifestRecord, (∀ r ∈ rs, files.HasManifest root r.path) →
      ∃ ms, List.Forall₂ (fun r b => perform root (FileM.loadManifest r) files = (.ok b, files))
        rs ms := by
    intro rs
    induction rs with
    | nil => exact fun _ => ⟨[], .nil⟩
    | cons r rs ih =>
      intro hrs
      obtain ⟨c, m, hcontent, hrun⟩ := hrs r (by simp)
      obtain ⟨ms, hms⟩ := ih fun r hr => hrs r (by simp [hr])
      refine ⟨(r, m.inherit r.addedSnapshotId) :: ms, .cons ?_ hms⟩
      exact FileM.perform_loadManifest_iff.2
        ⟨m, _, FileM.perform_readJson_iff.2 ⟨c, hcontent, hrun, rfl⟩, rfl⟩
  obtain ⟨ms, hms⟩ := heach l.manifests hall
  obtain ⟨hrecords, hloaded⟩ := FileM.forall₂_loadManifest_iff.1 hms
  exact ⟨ms, FileM.perform_loadManifests_iff.2 ⟨⟨l, hlist, hrecords⟩, hloaded⟩⟩

namespace Table

variable {t u : Table} {operation : Operation} {changes : FileChanges} {p : Plan}

/-! ### Rows of one snapshot -/

section RowsOf

variable {id : SnapshotId} {s : Snapshot} {α : Type}

theorem rowsOf_some (hs : t.snapshot? id = some s) (rows : Snapshot → FileM (List α)) :
    t.rowsOf (some id) rows = rows s := by
  rw [rowsOf, resolve, hs]

theorem rowsOf_current (hs : t.current? = some s) (rows : Snapshot → FileM (List α)) :
    t.rowsOf none rows = rows s := by
  rw [rowsOf, resolve, hs]

theorem rowsOf_none (hs : t.current? = none) (rows : Snapshot → FileM (List α)) :
    t.rowsOf none rows = pure [] := by
  rw [rowsOf, resolve, hs]

end RowsOf

theorem perform_entriesOf {s : Snapshot} {ms : List (ManifestRecord × Manifest)}
    (h : s.Loads root files ms) :
    perform root (entriesOf s) files = (.ok (ms.flatMap fun m => m.2.entries), files) :=
  perform_bind_ok.2 ⟨ms, files, h, rfl⟩

theorem perform_manifestsOf {s : Snapshot} {ms : List (ManifestRecord × Manifest)}
    (h : s.Loads root files ms) (write : BoundText) :
    perform root (manifestsOf write s) files =
      (.ok ((ms.map Prod.fst).map (.ofRecord write)), files) := by
  obtain ⟨⟨l, hlist, hrecords⟩, -⟩ := FileM.perform_loadManifests_iff.1 h
  rw [← hrecords]
  exact perform_bind_ok.2 ⟨l, files, hlist, rfl⟩

/-- The files of a snapshot are the live ones of its manifests. -/
theorem perform_filesOf {s : Snapshot} {ms : List (ManifestRecord × Manifest)}
    (h : s.Loads root files ms) :
    perform root (filesOf s) files = (.ok (liveFiles (ms.map Prod.snd)), files) := by
  refine perform_bind_ok.2 ⟨_, files, perform_entriesOf h, ?_⟩
  rw [perform_pure, liveFiles, List.flatMap_map]
  simp only [Manifest.liveFiles, Manifest.liveEntries, List.filter_flatMap, List.map_flatMap]

theorem perform_files {id : SnapshotId} {s : Snapshot} {ms : List (ManifestRecord × Manifest)}
    (hs : t.snapshot? id = some s) (h : s.Loads root files ms) :
    perform root (t.files (some id)) files = (.ok (liveFiles (ms.map Prod.snd)), files) := by
  rw [Table.files, rowsOf_some hs]
  exact perform_filesOf h

/-- Files are listed only if the manifests of the snapshot are read. -/
theorem loads_of_files {id : SnapshotId} {s : Snapshot} {listed : List DataFile}
    (hs : t.snapshot? id = some s)
    (h : perform root (t.files (some id)) files = (.ok listed, files')) :
    ∃ ms, s.Loads root files ms ∧ listed = liveFiles (ms.map Prod.snd) := by
  have hrows : t.files (some id) = filesOf s := rowsOf_some hs _
  rw [hrows] at h
  obtain ⟨entries, files₁, hentries, -⟩ := perform_bind_ok.1 h
  obtain ⟨ms, files₂, hload, -⟩ := perform_bind_ok.1 hentries
  obtain rfl := (FileM.reads_loadManifests s).eq_of_perform hload
  rw [perform_filesOf hload] at h
  exact ⟨ms, hload, (Except.ok.inj (Prod.mk.inj h).1).symm⟩

theorem perform_files_current {s : Snapshot} {ms : List (ManifestRecord × Manifest)}
    (hs : t.current? = some s) (h : s.Loads root files ms) :
    perform root (t.files none) files = (.ok (liveFiles (ms.map Prod.snd)), files) := by
  rw [Table.files, rowsOf_current hs]
  exact perform_filesOf h

theorem perform_files_none (hs : t.current? = none) :
    perform root (t.files none) files = (.ok [], files) := by
  rw [Table.files, rowsOf_none hs]
  rfl

/-- Of a table that is stored, the manifests of the current snapshot can be read. -/
theorem IsStored.exists_current (h : t.IsStored root files) :
    ∃ manifests, perform root t.loadCurrent files = (.ok manifests, files) := by
  rw [loadCurrent]
  cases hcurrent : t.current? with
  | none => exact ⟨[], rfl⟩
  | some s =>
    obtain ⟨id, -, hs⟩ := Option.bind_eq_some_iff.1 hcurrent
    exact (h id s hs).loads

/-- What is loaded as current are the manifests of the current snapshot, if there is one. -/
theorem loads_of_loadCurrent {ms : List (ManifestRecord × Manifest)}
    (h : perform root t.loadCurrent files = (.ok ms, files)) :
    t.current? = none ∧ ms = [] ∨ ∃ s, t.current? = some s ∧ s.Loads root files ms := by
  rw [loadCurrent] at h
  split at h
  next s hs => exact .inr ⟨s, hs, h⟩
  next hnone => exact .inl ⟨hnone, (Except.ok.inj (Prod.mk.inj h).1).symm⟩

/-- What is current can be loaded later as it can before. -/
theorem perform_loadCurrent_grows (h : Chain root files commits current)
    (hgrows : files.Grows asked root files') {ms : List (ManifestRecord × Manifest)}
    (hload : perform root t.loadCurrent files = (.ok ms, files)) :
    perform root t.loadCurrent files' = (.ok ms, files') := by
  rcases loads_of_loadCurrent hload with ⟨hnone, rfl⟩ | ⟨s, hs, hload⟩
  · rw [loadCurrent, hnone]
    rfl
  · rw [loadCurrent, hs]
    exact FileM.loadManifests_grows h hgrows hload

theorem perform_files_of_loadCurrent {ms : List (ManifestRecord × Manifest)}
    (hload : perform root t.loadCurrent files = (.ok ms, files)) :
    perform root (t.files none) files = (.ok (liveFiles (ms.map Prod.snd)), files) := by
  rcases loads_of_loadCurrent hload with ⟨hnone, rfl⟩ | ⟨s, hs, hload⟩
  · exact perform_files_none hnone
  · exact perform_files_current hs hload

/-- Each snapshot is registered under its id and has its manifests, without a path that is
live twice, and the current snapshot is registered. -/
structure Catalogued (root : Location) (files : Tree) (t : Table) : Prop where
  named : ∀ id s, t.snapshots.find? id = some s → s.id = id
  current : ∀ id, t.currentId = some id → t.snapshots.contains id = true
  loads : ∀ id s, t.snapshots.find? id = some s →
    ∃ ms, s.Loads root files ms ∧ OncePerPath (liveFiles (ms.map Prod.snd))

namespace Catalogued

theorem new (version : Version) (metadata : Metadata) :
    (Table.new version metadata).Catalogued root files :=
  ⟨fun _ _ h => absurd h (by simp [Table.new]), fun _ h => absurd h (by simp [Table.new]),
    fun _ _ h => absurd h (by simp [Table.new])⟩

theorem grows (h : t.Catalogued root files) (hchain : Chain root files commits current)
    (hgrows : files.Grows asked root files') : t.Catalogued root files' := by
  refine ⟨h.named, h.current, fun id s hs => ?_⟩
  obtain ⟨ms, hload, honce⟩ := h.loads id s hs
  exact ⟨ms, FileM.loadManifests_grows hchain hgrows hload, honce⟩

/-- Only snapshots and the pointer to the current one matter. -/
theorem of_same (h : t.Catalogued root files) (hsnapshots : u.snapshots = t.snapshots)
    (hcurrent : ∀ id, u.currentId = some id → u.snapshots.contains id = true) :
    u.Catalogued root files :=
  ⟨hsnapshots ▸ h.named, hcurrent, hsnapshots ▸ h.loads⟩

end Catalogued

/-- The manifests that a plan builds on are those of the current snapshot, if there is one. -/
theorem Planned.loads_current (h : Planned root files u operation changes p) :
    u.current? = none ∧ p.manifests = [] ∨
      ∃ s, u.current? = some s ∧ s.Loads root files p.manifests := loads_of_loadCurrent h.manifests

/-- The current snapshot of a table that a plan builds on is the one that it names. -/
theorem Planned.base (h : Planned root files u operation changes p) (hu : u.Catalogued root files) :
    OncePerPath (liveFiles (p.manifests.map Prod.snd)) ∧
      (u.currentId = none ∧ p.manifests = [] ∨
        ∃ id s, u.currentId = some id ∧ u.snapshots.find? id = some s ∧
          s.Loads root files p.manifests) := by
  rcases h.loads_current with ⟨hnone, hnil⟩ | ⟨s, hsome, hload⟩
  · rw [hnil]
    refine ⟨List.nodup_nil, .inl ⟨?_, rfl⟩⟩
    -- A snapshot that is named would be there.
    rw [Option.eq_none_iff_forall_ne_some]
    intro id hid
    obtain ⟨s, hs⟩ := SortedMap.contains_iff.1 (hu.current id hid)
    rw [current?, hid] at hnone
    exact absurd (hnone.symm.trans hs) (by simp)
  · obtain ⟨id, hid, hs⟩ := Option.bind_eq_some_iff.1 hsome
    obtain ⟨ms, hms, honce⟩ := hu.loads id s hs
    obtain rfl := hms.unique hload
    exact ⟨honce, .inr ⟨id, s, hid, hs, hload⟩⟩

/-- What the current snapshot lists is listed again, however the files grow. -/
theorem Catalogued.perform_files (h : t.Catalogued root files) (hchain : Chain root files commits current)
    : ∃ listed, perform root (t.files none) files = (.ok listed, files) ∧
      ∀ files', files.Grows asked root files' →
        perform root (t.files none) files' = (.ok listed, files') := by
  cases hcurrent : t.current? with
  | none => exact ⟨[], perform_files_none hcurrent, fun _ _ => perform_files_none hcurrent⟩
  | some s =>
    obtain ⟨id, -, hs⟩ := Option.bind_eq_some_iff.1 hcurrent
    obtain ⟨ms, hload, -⟩ := h.loads id s hs
    exact ⟨_, perform_files_current hcurrent hload, fun files' hgrows =>
      perform_files_current hcurrent (FileM.loadManifests_grows hchain hgrows hload)⟩

/-- What a change is planned for is what the current snapshot lists. -/
theorem Planned.perform_files (h : Planned root files u operation changes p)
    (hu : u.Catalogued root files) :
    perform root (u.files none) files = (.ok (liveFiles (p.manifests.map Prod.snd)), files) := by
  rcases (h.base hu).2 with ⟨hnone, hnil⟩ | ⟨id, s, hsome, hs, hload⟩
  · rw [hnil]
    exact perform_files_none (by rw [current?, hnone]; rfl)
  · exact perform_files_current (by rw [current?, hsome]; exact hs) hload

/-! ### After a change -/

variable {base : Option SnapshotId} {now : Calendar.Instant} {s : Snapshot} {t' : Table}

namespace Committed

theorem id_eq (h : Committed asked root commits current base operation changes now files u p s t'
    files') : s.id = p.id := by
  rw [h.snapshot]
  rfl

theorem fresh (h : Committed asked root commits current base operation changes now files u p s t'
    files') : u.snapshots.contains s.id = false := by
  rw [h.id_eq]
  exact nextId_fresh h.planned.next

/-- The table after a change has one more snapshot, which is current. -/
theorem table_eq (h : Committed asked root commits current base operation changes now files u p s t'
    files') : t' = { moveCurrent { u with snapshots := u.snapshots.insert s.id s }
      ⟨now, s.id, base, false⟩ with version := UInt64.ofNat (commits.length + 1) } := by
  obtain ⟨v, hv, rfl⟩ := h.wrote.applied
  rw [applyAll_register h.fresh] at hv
  rw [← Except.ok.inj hv]

theorem snapshots_eq (h : Committed asked root commits current base operation changes now files u p s
    t' files') : t'.snapshots = u.snapshots.insert s.id s := by
  rw [h.table_eq]
  rfl

theorem currentId_eq (h : Committed asked root commits current base operation changes now files u p
    s t' files') : t'.currentId = some s.id := by
  rw [h.table_eq]
  rfl

/-- The new snapshot is found under its id. -/
theorem find?_new (h : Committed asked root commits current base operation changes now files u p s t'
    files') : t'.snapshots.find? s.id = some s := by
  rw [h.snapshots_eq, SortedMap.find?_insert_self]

theorem current?_eq (h : Committed asked root commits current base operation changes now files u p s
    t' files') : t'.current? = some s := by
  rw [current?, h.currentId_eq]
  exact h.find?_new

/-- Every other snapshot is found as before. -/
theorem find?_kept (h : Committed asked root commits current base operation changes now files u p s
    t' files') {id : SnapshotId} {r : Snapshot} (hr : u.snapshots.find? id = some r) :
    t'.snapshots.find? id = some r := by
  have hne : id ≠ s.id := by
    rintro rfl
    have hin := SortedMap.contains_iff.2 ⟨r, hr⟩
    rw [h.fresh] at hin
    exact absurd hin (by simp)
  rw [h.snapshots_eq, SortedMap.find?_insert_of_ne _ _ hne, hr]

theorem find?_cases (h : Committed asked root commits current base operation changes now files u p s
    t' files') {id : SnapshotId} {r : Snapshot} (hr : t'.snapshots.find? id = some r) :
    id = s.id ∧ r = s ∨ u.snapshots.find? id = some r := by
  rw [h.snapshots_eq] at hr
  exact (SortedMap.find?_insert_cases hr).imp_right And.right

/-- What is current after a change is there. -/
theorem contains_current (h : Committed asked root commits current base operation changes now files u
    p s t' files') {id : SnapshotId} (hid : t'.currentId = some id) :
    t'.snapshots.contains id = true := by
  obtain rfl := Option.some.inj (h.currentId_eq.symm.trans hid)
  exact SortedMap.contains_iff.2 ⟨s, h.find?_new⟩

theorem loads (h : Committed asked root commits current base operation changes now files u p s t'
    files') (hchain : Chain root files commits current) (hgrows : files.Grows asked root files')
    (hsupplied : files'.Supplied asked root) (hclear : Unambiguous asked) :
    s.Loads root files' (p.manifestsAfter u.spec u.metadata.properties.inheritsSnapshotIds) :=
  h.planned.loads_after hchain hgrows h.filed hsupplied hclear
    (by rw [h.snapshot]; rfl)

/-- After a change, the current snapshot is the new one. -/
theorem perform_files (h : Committed asked root commits current base operation changes now files u p
    s t' files') (hchain : Chain root files commits current) (hgrows : files.Grows asked root files')
    (hsupplied : files'.Supplied asked root) (hclear : Unambiguous asked) :
    perform root (t'.files none) files' = (.ok (liveFiles ((p.manifestsAfter u.spec
      u.metadata.properties.inheritsSnapshotIds).map Prod.snd)), files') :=
  perform_files_current h.current?_eq (h.loads hchain hgrows hsupplied hclear)

theorem catalogued (h : Committed asked root commits current base operation changes now files u p s
    t' files') (hu : u.Catalogued root files) (hchain : Chain root files commits current)
    (hgrows : files.Grows asked root files') (hsupplied : files'.Supplied asked root)
    (hclear : Unambiguous asked) : t'.Catalogued root files' := by
  have hold := hu.grows hchain hgrows
  refine ⟨fun id r hr => ?_, fun id hid => h.contains_current hid, fun id r hr => ?_⟩
  · rcases h.find?_cases hr with ⟨rfl, rfl⟩ | hr
    · rfl
    · exact hold.named id r hr
  · rcases h.find?_cases hr with ⟨rfl, rfl⟩ | hr
    · exact ⟨_, h.loads hchain hgrows hsupplied hclear,
        h.planned.oncePerPath_after (h.planned.base hu).1 _⟩
    · exact hold.loads id r hr

end Committed

end Table

end Lakehouse
