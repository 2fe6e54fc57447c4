import Lakehouse.Proofs.Log.Extension
import Lakehouse.Proofs.Table.Catalog

/- How snapshots are made.

   A snapshot is made by a plan for the table in which its parent is current (`Table.Made`):
   the plan builds on the manifests of the parent, and the manifests of the snapshot are those
   that the plan gives, in its order. The records of those that are added, adopted or written
   anew carry the id of the snapshot, and each says of its manifest what can be read at its
   path (`ManifestRecord.IsExact`); all others are carried over from the parent. A change that
   succeeds has made its snapshot so (`Committed.made`), and the snapshot stays so made however
   the files grow. -/
namespace Lakehouse

open Log Script

variable {asked : Request → Prop} {root : Location} {files files' : Tree} {commits : List Commit}
  {current current' : Nat}

/-- The manifest at the path of the record can be read, and the record is what is written of it:
its length, its entries and slots, all but the id, which is the record's own. -/
def ManifestRecord.IsExact (root : Location) (files : Tree) (spec : PartitionSpec)
    (r : ManifestRecord) : Prop :=
  ∃ m, perform root (FileM.readJson Form.readManifest r.path) files = (.ok (m, r.length), files) ∧
    r = .summarize r.path r.length m spec r.addedSnapshotId

namespace ManifestRecord.IsExact

variable {spec : PartitionSpec} {r : ManifestRecord}

theorem grows (h : r.IsExact root files spec) (hchain : Chain root files commits current)
    (hgrows : files.Grows asked root files') : r.IsExact root files' spec := by
  obtain ⟨m, hread, hr⟩ := h
  exact ⟨m, FileM.readJson_grows Form.isRecord_manifest hchain hgrows hread, hr⟩

/-- If a manifest could be read before, the record was exact then. -/
theorem of_grown (h : r.IsExact root files' spec) (hchain : Chain root files commits current)
    (hgrows : files.Grows asked root files') {b : ManifestRecord × Manifest}
    (hload : perform root (FileM.loadManifest r) files = (.ok b, files)) :
    r.IsExact root files spec := by
  obtain ⟨m, n, hread, -⟩ := FileM.perform_loadManifest_iff.1 hload
  obtain ⟨m', hread', hr⟩ := h
  have hgrown := FileM.readJson_grows Form.isRecord_manifest hchain hgrows hread
  have hsame : (m, n) = (m', r.length) :=
    Except.ok.inj (Prod.mk.inj (hgrown.symm.trans hread')).1
  obtain ⟨rfl, rfl⟩ := Prod.mk.inj hsame
  exact ⟨m, hread, hr⟩

end ManifestRecord.IsExact

/-- A manifest that is filed is exactly recorded. -/
theorem Manifest.Filed.isExact {m : Manifest} (h : m.Filed asked root files)
    (hsupplied : files.Supplied asked root) (hclear : Unambiguous asked) (spec : PartitionSpec)
    (id : SnapshotId) : (ManifestRecord.stored m spec id).IsExact root files spec :=
  ⟨m, FileM.readJson_manifest (h.content hsupplied hclear), rfl⟩

namespace Table

variable {u t : Table} {operation : Operation} {changes : FileChanges} {p : Plan} {s : Snapshot}
  {base : Option SnapshotId} {now : Calendar.Instant}

/-- The plan is made for the table `u`, and `s` is the snapshot that came of it. -/
def Plan.Makes (root : Location) (u : Table) (p : Plan) (s : Snapshot) : Prop :=
  ∃ files operation changes now, Planned root files u operation changes p ∧
    s = p.snapshot u.currentId operation
      (p.listPath u.spec u.metadata.properties.inheritsSnapshotIds) now

/-- The manifests that a plan builds on are those of the current snapshot, as they can be read. -/
def Plan.BuildsOn (root : Location) (files : Tree) (u : Table) (p : Plan) : Prop :=
  u.current? = none ∧ p.manifests = [] ∨
    ∃ b, u.current? = some b ∧ b.Loads root files p.manifests

/-- The manifests of a snapshot that came of a plan for the table `u`. -/
def Plan.results (u : Table) (p : Plan) : List (ManifestRecord × Manifest) :=
  p.manifestsAfter u.spec u.metadata.properties.inheritsSnapshotIds

/-- The snapshot is made of the table `u` by the plan, as can be read from the files. -/
structure Made (root : Location) (files : Tree) (u : Table) (p : Plan) (s : Snapshot) : Prop where
  makes : p.Makes root u s
  base : p.BuildsOn root files u
  loads : s.Loads root files (p.results u)
  exact : ∀ b ∈ p.results u, b ∈ p.carried ∨
    b.1.addedSnapshotId = p.id ∧ b.1.IsExact root files u.spec

/-- The manifests of the parent of a snapshot, as they can be read; there are none without a
parent. -/
def ParentLoads (root : Location) (files : Tree) (t : Table) (s : Snapshot)
    (ms : List (ManifestRecord × Manifest)) : Prop :=
  s.parentId = none ∧ ms = [] ∨
    ∃ id b, s.parentId = some id ∧ t.snapshots.find? id = some b ∧ b.Loads root files ms

/-- The records are, in this order, that of the files added directly if there are any, those of
the staged manifests, those of the base manifests that are written anew, and those of the base
manifests that stay as they are. -/
def Plan.Orders (p : Plan) (spec : PartitionSpec) (inherits : Bool)
    (records : List ManifestRecord) : Prop :=
  records = (p.additions spec).map (.stored · spec p.id) ++
    p.staged.map (p.adoptedRecord spec inherits) ++
    p.touched.map (fun b => .stored (b.2.removing p.removed p.id) spec p.id) ++
    p.carried.map Prod.fst

/-- What a plan gives is added, adopted, written anew or carried over. -/
theorem Plan.cases_of_mem_after {spec : PartitionSpec} {inherits : Bool}
    {b : ManifestRecord × Manifest} (hb : b ∈ p.manifestsAfter spec inherits) :
    b ∈ p.carried ∨ (∃ s ∈ p.staged, inherits = true ∧
        b.1 = .summarize s.path s.length s.manifest spec p.id) ∨
      ∃ m ∈ p.written spec inherits, b.1 = .stored m spec p.id := by
  rw [manifestsAfter, List.mem_append, List.mem_append, List.mem_append] at hb
  rcases hb with ((hb | hb) | hb) | hb
  · obtain ⟨m, hm, rfl⟩ := List.mem_map.1 hb
    exact .inr (.inr ⟨m, by simp [written, hm], rfl⟩)
  · obtain ⟨s, hs, rfl⟩ := List.mem_map.1 hb
    cases inherits with
    | false =>
      refine .inr (.inr ⟨s.manifest.inherit p.id, ?_, rfl⟩)
      rw [written, List.mem_append, List.mem_append]
      exact .inl (.inr (List.mem_map.2 ⟨s, hs, rfl⟩))
    | true => exact .inr (.inl ⟨s, hs, rfl, rfl⟩)
  · obtain ⟨m, hm, rfl⟩ := List.mem_map.1 hb
    exact .inr (.inr ⟨m, by simp [written, hm], rfl⟩)
  · exact .inl hb

theorem Plan.BuildsOn.grows (h : p.BuildsOn root files u) (hchain : Chain root files commits current)
    (hgrows : files.Grows asked root files') : p.BuildsOn root files' u := by
  refine h.imp_right ?_
  rintro ⟨b, hb, hloads⟩
  exact ⟨b, hb, FileM.loadManifests_grows hchain hgrows hloads⟩

/-- What a plan builds on could be read before, where the current snapshot has its list. -/
theorem Plan.BuildsOn.of_grown (h : p.BuildsOn root files' u)
    (hchain : Chain root files commits current) (hgrows : files.Grows asked root files')
    (hstored : u.IsStored root files) : p.BuildsOn root files u := by
  refine h.imp_right ?_
  rintro ⟨b, hb, hloads⟩
  obtain ⟨id, -, hfind⟩ := Option.bind_eq_some_iff.1 hb
  obtain ⟨ms, hms⟩ := (hstored id b hfind).loads
  obtain rfl := Snapshot.Loads.unique (FileM.loadManifests_grows hchain hgrows hms) hloads
  exact ⟨b, hb, hms⟩

theorem Made.grows (h : Made root files u p s) (hchain : Chain root files commits current)
    (hgrows : files.Grows asked root files') : Made root files' u p s := by
  refine ⟨h.makes, h.base.grows hchain hgrows, FileM.loadManifests_grows hchain hgrows h.loads, ?_⟩
  intro b hb
  exact (h.exact b hb).imp_right fun hexact => ⟨hexact.1, hexact.2.grows hchain hgrows⟩

/-- A snapshot was so made before, if its list and what it builds on were there. -/
theorem Made.of_grown (h : Made root files' u p s) (hchain : Chain root files commits current)
    (hgrows : files.Grows asked root files') (hlist : files.HasList root s.manifestList)
    (hbase : p.BuildsOn root files u) : Made root files u p s := by
  obtain ⟨ms, hms⟩ := hlist.loads
  obtain rfl := Snapshot.Loads.unique (FileM.loadManifests_grows hchain hgrows hms) h.loads
  have hloaded := (FileM.perform_loadManifests_iff.1 hms).2
  refine ⟨h.makes, hbase, hms, fun b hb => ?_⟩
  exact (h.exact b hb).imp_right fun hexact =>
    ⟨hexact.1, hexact.2.of_grown hchain hgrows (hloaded b hb)⟩

theorem Made.id_eq (h : Made root files u p s) : s.id = p.id := by
  obtain ⟨_, _, _, _, -, hs⟩ := h.makes
  rw [hs]
  rfl

/-- The list of a snapshot is in the order of its plan. -/
theorem Made.orders (h : Made root files u p s) :
    ∃ l, perform root (FileM.loadManifestList s.manifestList) files = (.ok l, files) ∧
      p.Orders u.spec u.metadata.properties.inheritsSnapshotIds l.manifests := by
  obtain ⟨⟨l, hlist, hrecords⟩, -⟩ := FileM.perform_loadManifests_iff.1 h.loads
  refine ⟨l, hlist, ?_⟩
  have horder := congrArg ManifestList.manifests
    (p.listAfter_eq u.spec u.metadata.properties.inheritsSnapshotIds)
  rw [Plan.Orders, hrecords]
  exact horder.symm

/-- If the current snapshot is registered, what a plan builds on are the manifests of the parent
of its snapshot. -/
theorem Plan.BuildsOn.parentLoads (h : p.BuildsOn root files u)
    (hregistered : ∀ id, u.currentId = some id → u.snapshots.contains id = true)
    (hparent : s.parentId = u.currentId) (hextends : u.Extends t) :
    t.ParentLoads root files s p.manifests := by
  rcases h with ⟨hnone, hnil⟩ | ⟨b, hb, hloads⟩
  · refine .inl ⟨?_, hnil⟩
    rw [hparent, Option.eq_none_iff_forall_ne_some]
    intro id hid
    obtain ⟨b, hb⟩ := SortedMap.contains_iff.1 (hregistered id hid)
    rw [current?, hid] at hnone
    exact absurd (hnone.symm.trans hb) (by simp)
  · obtain ⟨id, hid, hb⟩ := Option.bind_eq_some_iff.1 hb
    exact .inr ⟨id, b, hparent.trans hid, hextends.kept id b hb, hloads⟩

/-- A change that succeeds has made its snapshot. -/
theorem Committed.made
    (h : Committed asked root commits current base operation changes now files u p s t files')
    (hchain : Chain root files commits current) (hgrows : files.Grows asked root files')
    (hsupplied : files'.Supplied asked root) (hclear : Unambiguous asked) :
    Made root files' u p s := by
  refine ⟨⟨files, operation, changes, now, h.planned, ?_⟩, ?_,
    h.loads hchain hgrows hsupplied hclear, fun b hb => ?_⟩
  · rw [h.based]
    exact h.snapshot
  · exact Plan.BuildsOn.grows h.planned.loads_current hchain hgrows
  · rcases p.cases_of_mem_after hb with hcarried | ⟨staged, hstaged, -, hrecord⟩ | ⟨m, hm, hrecord⟩
    · exact .inl hcarried
    · -- The manifest stays where it was found.
      obtain ⟨hread, -, -⟩ := perform_readStaged_iff.1 (h.planned.staged staged hstaged)
      rw [hrecord]
      exact .inr ⟨rfl, staged.manifest,
        FileM.readJson_grows Form.isRecord_manifest hchain hgrows hread, rfl⟩
    · rw [hrecord]
      exact .inr ⟨rfl, (h.filed.manifests m hm).isExact hsupplied hclear u.spec p.id⟩

end Table

end Lakehouse
