import Lakehouse.Proofs.Log.Shelves
import Lakehouse.Proofs.Table.Planning
import Lakehouse.Proofs.Table.Writing

/- Reading metadata files.

   What was read from the metadata files of a table is read again however they grow
   (`loadManifests_grows`): only the file for the current version changes, and its content
   is no manifest. After a change has filed its manifests and their list, the manifests of
   the new snapshot are read as its plan has them (`Planned.loads_after`). -/
namespace Lakehouse

open Log Script

variable {asked : Request → Prop} {root : Location} {files files' : Tree} {commits : List Commit}
  {current : Nat} {α : Type}

namespace FileM

theorem perform_readJson_iff {decode : Decoder α} {path : String} {a : α} {n : UInt64} :
    perform root (readJson decode path) files = (.ok (a, n), files) ↔
      ∃ bytes, files.content? root path = some bytes ∧
        decode.run (symbolsOfBytes bytes) = .ok a ∧ n = UInt64.ofNat bytes.size := by
  rw [readJson, perform_bind, perform_lift, run_request]
  simp only [Tree.answer, Tree.content?]
  cases files.readBytes (Path.join root.path path) with
  | error e => simp [Except.toOption]
  | ok bytes =>
    simp only [Except.toOption, Option.some.injEq, exists_eq_left']
    cases decode.run (symbolsOfBytes bytes) with
    | error e => simp
    | ok b => simp [eq_comm]

/-- A record that was read is read again. -/
theorem readJson_grows {decode : Decoder α} (hdecode : decode.IsRecord)
    (h : Chain root files commits current)
    (hgrows : files.Grows asked root files') {path : String} {r : α × UInt64}
    (hread : perform root (readJson decode path) files = (.ok r, files)) :
    perform root (readJson decode path) files' = (.ok r, files') := by
  obtain ⟨bytes, hcontent, hrun, hn⟩ := perform_readJson_iff.1 hread
  exact perform_readJson_iff.2 ⟨bytes, h.content_grows hdecode hgrows hcontent hrun, hrun, hn⟩

theorem hasManifest_of_readJson {path : String} {m : Manifest} {n : UInt64}
    (h : perform root (readJson Form.readManifest path) files = (.ok (m, n), files)) :
    files.HasManifest root path := by
  obtain ⟨c, hcontent, hrun, -⟩ := perform_readJson_iff.1 h
  exact ⟨c, m, hcontent, hrun⟩

theorem perform_loadManifest_iff {r : ManifestRecord} {b : ManifestRecord × Manifest} :
    perform root (loadManifest r) files = (.ok b, files) ↔
      ∃ m n, perform root (readJson Form.readManifest r.path) files = (.ok (m, n), files) ∧
        b = (r, m.inherit r.addedSnapshotId) := by
  rw [loadManifest, perform_bind_ok]
  constructor
  · rintro ⟨⟨m, n⟩, files₁, hread, h⟩
    obtain rfl := (reads_readJson _ _).eq_of_perform hread
    exact ⟨m, n, hread, (Except.ok.inj (Prod.mk.inj h).1).symm⟩
  · rintro ⟨m, n, hread, rfl⟩
    exact ⟨(m, n), files, hread, rfl⟩

theorem perform_loadManifestList_iff {path : String} {l : ManifestList} :
    perform root (loadManifestList path) files = (.ok l, files) ↔
      ∃ n, perform root (readJson Form.readManifestList path) files = (.ok (l, n), files) := by
  rw [loadManifestList, ← bind_pure_comp, perform_bind_ok]
  constructor
  · rintro ⟨⟨l', n⟩, files₁, hread, h⟩
    obtain rfl := (reads_readJson _ _).eq_of_perform hread
    obtain rfl := Except.ok.inj (Prod.mk.inj h).1
    exact ⟨n, hread⟩
  · rintro ⟨n, hread⟩
    exact ⟨(l, n), files, hread, rfl⟩

theorem reads_loadManifestList (path : String) : (loadManifestList path).run.Reads := by
  rw [loadManifestList, ← bind_pure_comp]
  exact Reads.bindE (reads_readJson _ _) fun _ => Reads.pure _

theorem fst_of_loadManifest {r : ManifestRecord} {b : ManifestRecord × Manifest}
    (h : perform root (loadManifest r) files = (.ok b, files)) : b.1 = r := by
  obtain ⟨m, n, -, rfl⟩ := perform_loadManifest_iff.1 h
  rfl

theorem forall₂_loadManifest_iff {rs : List ManifestRecord} {ms : List (ManifestRecord × Manifest)} :
    List.Forall₂ (fun r b => perform root (loadManifest r) files = (.ok b, files)) rs ms ↔
      rs = ms.map Prod.fst ∧ ∀ b ∈ ms, perform root (loadManifest b.1) files = (.ok b, files) :=
  forall₂_iff_map (g := Prod.fst) fun _ _ h => (fst_of_loadManifest h).symm

/-- The manifests of a snapshot are read if its list is and each of them is read from its
record. -/
theorem perform_loadManifests_iff {s : Snapshot} {ms : List (ManifestRecord × Manifest)} :
    perform root (loadManifests s) files = (.ok ms, files) ↔
      (∃ l, perform root (loadManifestList s.manifestList) files = (.ok l, files) ∧
        l.manifests = ms.map Prod.fst) ∧
      ∀ b ∈ ms, perform root (loadManifest b.1) files = (.ok b, files) := by
  rw [loadManifests, perform_bind_ok]
  constructor
  · rintro ⟨l, files₁, hread, h⟩
    obtain rfl := (reads_loadManifestList _).eq_of_perform hread
    have hall := ((perform_mapM_ok reads_loadManifest).1 h).2
    rw [forall₂_loadManifest_iff] at hall
    exact ⟨⟨l, hread, hall.1⟩, hall.2⟩
  · rintro ⟨⟨l, hread, hrecords⟩, hall⟩
    refine ⟨l, files, hread, (perform_mapM_ok reads_loadManifest).2 ⟨rfl, ?_⟩⟩
    exact forall₂_loadManifest_iff.2 ⟨hrecords, hall⟩

theorem loadManifest_grows (h : Chain root files commits current)
    (hgrows : files.Grows asked root files') {r : ManifestRecord} {b : ManifestRecord × Manifest}
    (hload : perform root (loadManifest r) files = (.ok b, files)) :
    perform root (loadManifest r) files' = (.ok b, files') := by
  obtain ⟨m, n, hread, hb⟩ := perform_loadManifest_iff.1 hload
  exact perform_loadManifest_iff.2 ⟨m, n,
    readJson_grows Form.isRecord_manifest h hgrows hread, hb⟩

/-- The manifests of a snapshot that were read are read again. -/
theorem loadManifests_grows (h : Chain root files commits current)
    (hgrows : files.Grows asked root files') {s : Snapshot}
    {ms : List (ManifestRecord × Manifest)}
    (hload : perform root (loadManifests s) files = (.ok ms, files)) :
    perform root (loadManifests s) files' = (.ok ms, files') := by
  obtain ⟨⟨l, hlist, hrecords⟩, hall⟩ := perform_loadManifests_iff.1 hload
  obtain ⟨n, hread⟩ := perform_loadManifestList_iff.1 hlist
  refine perform_loadManifests_iff.2 ⟨⟨l, ?_, hrecords⟩, fun b hb =>
    loadManifest_grows h hgrows (hall b hb)⟩
  exact perform_loadManifestList_iff.2 ⟨n,
    readJson_grows Form.isRecord_manifestList h hgrows hread⟩

theorem readJson_manifest {m : Manifest} {path : String}
    (h : files.content? root path = some (manifestContent m)) :
    perform root (readJson Form.readManifest path) files =
      (.ok (m, UInt64.ofNat (manifestContent m).size), files) :=
  perform_readJson_iff.2 ⟨_, h, (Carries.manifest m).run_bytes, rfl⟩

theorem readJson_manifestList {l : ManifestList} {path : String}
    (h : files.content? root path = some (manifestListContent l)) :
    perform root (readJson Form.readManifestList path) files =
      (.ok (l, UInt64.ofNat (manifestListContent l).size), files) :=
  perform_readJson_iff.2 ⟨_, h, (Carries.manifestList l).run_bytes, rfl⟩

end FileM

/-! ### Inherited ids -/

namespace Manifest

/-- Every entry has a snapshot id. -/
def IsResolved (m : Manifest) : Prop := ∀ e ∈ m.entries, e.snapshotId.isSome

theorem isResolved_inherit (m : Manifest) (id : SnapshotId) : (m.inherit id).IsResolved := by
  intro e he
  obtain ⟨e', -, rfl⟩ := List.mem_map.1 he
  rfl

/-- Where all entries have ids, nothing is inherited. -/
theorem IsResolved.inherit_eq {m : Manifest} (h : m.IsResolved) (id : SnapshotId) :
    m.inherit id = m := by
  have hsame : ∀ e ∈ m.entries, e.inherit id = e := by
    intro e he
    obtain ⟨i, hi⟩ := Option.isSome_iff_exists.1 (h e he)
    rw [ManifestEntry.inherit, hi, Option.getD_some, ← hi]
  rw [inherit, List.map_congr_left hsame, List.map_id']

theorem IsResolved.removing {m : Manifest} (h : m.IsResolved) (paths : SortedMap String Unit)
    (id : SnapshotId) : (m.removing paths id).IsResolved := by
  intro e he
  obtain ⟨e', he', rfl⟩ := List.mem_map.1 he
  split
  · rfl
  · exact h e' (List.mem_of_mem_filter he')

end Manifest

/-! ### The manifests of a new snapshot -/

namespace Table

variable {u : Table} {operation : Operation} {changes : FileChanges} {p : Plan}

/-- Each base manifest of a plan is read from its record. -/
theorem Planned.loaded (h : Planned root files u operation changes p) {b : ManifestRecord × Manifest}
    (hb : b ∈ p.manifests) : perform root (FileM.loadManifest b.1) files = (.ok b, files) := by
  have hload := h.manifests
  rw [loadCurrent] at hload
  split at hload
  · exact (FileM.perform_loadManifests_iff.1 hload).2 b hb
  · have hnil : p.manifests = [] := (Except.ok.inj (Prod.mk.inj hload).1).symm
    rw [hnil] at hb
    exact absurd hb (by simp)

/-- Every manifest that a plan builds on can be read. -/
theorem Planned.hasManifest (h : Planned root files u operation changes p) :
    (∀ s ∈ p.staged, files.HasManifest root s.path) ∧
      ∀ b ∈ p.manifests, files.HasManifest root b.1.path := by
  constructor
  · intro s hs
    exact FileM.hasManifest_of_readJson (perform_readStaged_iff.1 (h.staged s hs)).1
  · intro b hb
    obtain ⟨m, n, hread, -⟩ := FileM.perform_loadManifest_iff.1 (h.loaded hb)
    exact FileM.hasManifest_of_readJson hread

/-- The entries of the base manifests have ids. -/
theorem Planned.isResolved (h : Planned root files u operation changes p)
    {b : ManifestRecord × Manifest} (hb : b ∈ p.manifests) : b.2.IsResolved := by
  obtain ⟨m, n, -, hm⟩ := FileM.perform_loadManifest_iff.1 (h.loaded hb)
  rw [hm]
  exact m.isResolved_inherit _

/-- A manifest that is filed is read from the record made for it. -/
theorem loadManifest_stored {m : Manifest} (hfiled : m.Filed asked root files)
    (hsupplied : files.Supplied asked root) (hclear : Unambiguous asked) (hm : m.IsResolved)
    (spec : PartitionSpec) (id : SnapshotId) :
    perform root (FileM.loadManifest (.stored m spec id)) files =
      (.ok (.stored m spec id, m), files) := by
  refine FileM.perform_loadManifest_iff.2 ⟨m, _, FileM.readJson_manifest ?_, ?_⟩
  · exact hfiled.content hsupplied hclear
  · rw [hm.inherit_eq]

theorem isResolved_additions {m : Manifest} {spec : PartitionSpec} (hm : m ∈ p.additions spec) :
    m.IsResolved := by
  rw [Plan.additions] at hm
  split at hm
  · exact absurd hm (by simp)
  · obtain rfl := List.mem_singleton.1 hm
    intro e he
    obtain ⟨f, -, rfl⟩ := List.mem_map.1 he
    rfl

/-- The manifests of the new snapshot are read as they were planned. -/
theorem Planned.loads_after (hplanned : Planned root files u operation changes p)
    (h : Chain root files commits current)
    (hgrows : files.Grows asked root files') {inherits : Bool}
    (hfiled : p.Filed u.spec inherits asked root files') (hsupplied : files'.Supplied asked root)
    (hclear : Unambiguous asked) {s : Snapshot}
    (hs : s.manifestList = p.listPath u.spec inherits) :
    perform root (FileM.loadManifests s) files' =
      (.ok (p.manifestsAfter u.spec inherits), files') := by
  have hlist := hfiled.list.content hsupplied hclear
  rw [← hs] at hlist
  refine FileM.perform_loadManifests_iff.2 ⟨⟨p.listAfter u.spec inherits,
    FileM.perform_loadManifestList_iff.2 ⟨_, FileM.readJson_manifestList hlist⟩, rfl⟩, ?_⟩
  have hstored : ∀ m ∈ p.written u.spec inherits, m.IsResolved →
      perform root (FileM.loadManifest (.stored m u.spec p.id)) files' =
        (.ok (.stored m u.spec p.id, m), files') := fun m hm hresolved =>
    loadManifest_stored (hfiled.manifests m hm) hsupplied hclear hresolved u.spec p.id
  intro b hb
  rw [Plan.manifestsAfter, List.mem_append, List.mem_append, List.mem_append] at hb
  -- A manifest is added, adopted, written without what is removed, or carried over.
  rcases hb with ((hb | hb) | hb) | hb
  · obtain ⟨m, hm, rfl⟩ := List.mem_map.1 hb
    exact hstored m (by simp [Plan.written, hm]) (isResolved_additions hm)
  · obtain ⟨staged, hstaged, rfl⟩ := List.mem_map.1 hb
    cases inherits with
    | false =>
      refine hstored _ ?_ (staged.manifest.isResolved_inherit p.id)
      rw [Plan.written, List.mem_append, List.mem_append]
      exact .inl (.inr (List.mem_map.2 ⟨staged, hstaged, rfl⟩))
    | true =>
      obtain ⟨hread, -, -⟩ := perform_readStaged_iff.1 (hplanned.staged staged hstaged)
      exact FileM.perform_loadManifest_iff.2 ⟨staged.manifest, staged.length,
        FileM.readJson_grows Form.isRecord_manifest h hgrows hread, rfl⟩
  · obtain ⟨m, hm, rfl⟩ := List.mem_map.1 hb
    refine hstored m (by simp [Plan.written, hm]) ?_
    obtain ⟨b, hin, rfl⟩ := List.mem_map.1 hm
    exact (hplanned.isResolved (List.mem_of_mem_filter hin)).removing p.removed p.id
  · exact FileM.loadManifest_grows h hgrows (hplanned.loaded (List.mem_of_mem_filter hb))

end Table

end Lakehouse
