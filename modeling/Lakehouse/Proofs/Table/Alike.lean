import Lakehouse.Proofs.Lineage
import Lakehouse.Proofs.Table.Catalog

/- Tables that look alike.

   Two tables look alike if they differ at most in their properties and in what depends on
   clocks and names of files: they have snapshots with the same ids, parents, operations and
   summaries, and the same one is current (`Table.Alike`). They mirror each other, each in its
   own files, if the manifests of their snapshots list the same entries in the same order, where
   manifests that list nothing do not count (`substance`). Whether files are added directly or in
   a staged manifest, what arrives with a plan lists the same entries (`arrivals`); so for tables
   that mirror each other the same change is refused for the same reason, or is planned alike
   (`Mirrors.plan_sameOutcome`), and its plans leave manifests of the same substance
   (`Plan.Alike.results`). -/
namespace Lakehouse

open Script Log

/-! ### Outcomes -/

/-- Both fail with the same error, or both succeed with results that are related. -/
inductive SameOutcome {ε α β : Type} (related : α → β → Prop) :
    Except ε α → Except ε β → Prop where
  | ok {a : α} {b : β} (results : related a b) : SameOutcome related (.ok a) (.ok b)
  | error (e : ε) : SameOutcome related (.error e) (.error e)

namespace SameOutcome

variable {ε ε' α β γ δ : Type} {related : α → β → Prop} {related' : γ → δ → Prop}
  {x : Except ε α} {y : Except ε β}

theorem of_eq {x y : Except ε α} (h : x = y) : SameOutcome Eq x y := by
  subst h
  cases x with
  | ok a => exact .ok rfl
  | error e => exact .error e

theorem mono {stronger : α → β → Prop} (h : SameOutcome stronger x y)
    (himp : ∀ a b, stronger a b → related a b) : SameOutcome related x y := by
  cases h with
  | ok hab => exact .ok (himp _ _ hab)
  | error e => exact .error e

theorem mapError (f : ε → ε') (h : SameOutcome related x y) :
    SameOutcome related (x.mapError f) (y.mapError f) := by
  cases h with
  | ok hab => exact .ok hab
  | error e => exact .error (f e)

/-- Of readings that come one after the other, each on its own files. -/
theorem of_reads {root : Location} {files files' : Tree} {x : ExceptT ε Script α}
    {y : ExceptT ε Script β} (hx : x.run.Reads) (hy : y.run.Reads)
    (h : SameOutcome related (perform root x files).1 (perform root y files').1)
    {f : α → ExceptT ε Script γ} {g : β → ExceptT ε Script δ}
    (hnext : ∀ a b, related a b →
      SameOutcome related' (perform root (f a) files).1 (perform root (g b) files').1) :
    SameOutcome related' (perform root (x >>= f) files).1 (perform root (y >>= g) files').1 := by
  rw [perform_bind, perform_bind]
  rcases hrun : perform root x files with ⟨result, files₁⟩
  rcases hrun' : perform root y files' with ⟨result', files₁'⟩
  obtain rfl : files₁ = files := hx.eq_of_perform hrun
  obtain rfl : files₁' = files' := hy.eq_of_perform hrun'
  rw [hrun, hrun'] at h
  cases h with
  | ok hab => exact hnext _ _ hab
  | error e => exact .error e

end SameOutcome

/-! ### Manifests that list something -/

/-- The manifests that list something. -/
def substance (ms : List Manifest) : List Manifest := ms.filter fun m => !m.entries.isEmpty

theorem substance_append (ms ns : List Manifest) :
    substance (ms ++ ns) = substance ms ++ substance ns := List.filter_append _ _

/-- What is taken from entries is taken from manifests that list some. -/
theorem flatMap_substance {α : Type} {f : Manifest → List α} (hf : ∀ m, m.entries = [] → f m = [])
    (ms : List Manifest) : (substance ms).flatMap f = ms.flatMap f := by
  induction ms with
  | nil => rfl
  | cons m ms ih =>
    rw [substance, List.filter_cons, List.flatMap_cons]
    split
    next => rw [List.flatMap_cons, ← ih, substance]
    next hempty =>
      have hnil : m.entries = [] := by simpa using hempty
      rw [hf m hnil, List.nil_append, ← ih, substance]

theorem entries_substance (ms : List Manifest) :
    (substance ms).flatMap Manifest.entries = ms.flatMap Manifest.entries :=
  flatMap_substance (fun _ h => h) ms

theorem liveEntries_of_nil {m : Manifest} (h : m.entries = []) : m.liveEntries = [] := by
  rw [Manifest.liveEntries, h]
  rfl

theorem liveFiles_substance (ms : List Manifest) : liveFiles (substance ms) = liveFiles ms := by
  refine flatMap_substance (fun m h => ?_) ms
  rw [Manifest.liveFiles, liveEntries_of_nil h]
  rfl

theorem ofManifests_substance (ms : List Manifest) :
    LiveFiles.ofManifests (substance ms) = .ofManifests ms := by
  rw [LiveFiles.ofManifests, flatMap_substance (fun _ h => liveEntries_of_nil h),
    LiveFiles.ofManifests]

/-- Where only manifests that list something are taken, it is taken from those. -/
theorem filter_substance {p : Manifest → Bool} (hp : ∀ m, p m = true → m.entries ≠ [])
    (ms : List Manifest) : (substance ms).filter p = ms.filter p := by
  rw [substance, List.filter_filter]
  refine List.filter_congr fun m _ => ?_
  cases hm : p m with
  | false => rfl
  | true => simpa using hp m hm

/-! ### Snapshots and tables -/

/-- The snapshots agree but for their times and the places of their lists. -/
structure Snapshot.Alike (s s' : Snapshot) : Prop where
  id : s.id = s'.id
  parent : s.parentId = s'.parentId
  operation : s.operation = s'.operation
  summary : s.summary = s'.summary

namespace Table

/-- The tables agree but for their properties, and their snapshots but for times and places. -/
structure Alike (t t' : Table) : Prop where
  version : t.version = t'.version
  schema : t.schema = t'.schema
  spec : t.spec = t'.spec
  currentId : t.currentId = t'.currentId
  snapshots : ∀ id, Option.Rel Snapshot.Alike (t.snapshots.find? id) (t'.snapshots.find? id)

namespace Alike

variable {t t' : Table}

theorem refl (t : Table) : t.Alike t := by
  refine ⟨rfl, rfl, rfl, rfl, fun id => ?_⟩
  cases t.snapshots.find? id with
  | none => exact .none
  | some s => exact .some ⟨rfl, rfl, rfl, rfl⟩

theorem contains_eq (h : t.Alike t') (id : SnapshotId) :
    t.snapshots.contains id = t'.snapshots.contains id := by
  have hsnapshots := h.snapshots id
  rw [SortedMap.contains, SortedMap.contains]
  generalize t.snapshots.find? id = found at *
  generalize t'.snapshots.find? id = found' at *
  cases hsnapshots with
  | some => rfl
  | none => rfl

theorem isNone_eq (h : t.Alike t') (id : SnapshotId) :
    (t.snapshot? id).isNone = (t'.snapshot? id).isNone := by
  have hcontains := h.contains_eq id
  rw [SortedMap.contains, SortedMap.contains] at hcontains
  rw [snapshot?, snapshot?, ← Option.not_isSome, ← Option.not_isSome, hcontains]

theorem nextId_eq (h : t.Alike t') : t.nextId = t'.nextId := by
  have hkeys : t.snapshots.keys = t'.snapshots.keys := by
    refine SortedMap.keys_congr fun id => ?_
    exact h.contains_eq id
  rw [nextId, nextId, lastId?, lastId?, SortedMap.lastKey?, SortedMap.lastKey?, hkeys]

theorem parent?_eq (h : t.Alike t') (id : SnapshotId) :
    t.snapshots.parent? id = t'.snapshots.parent? id := by
  have hsnapshots := h.snapshots id
  rw [Snapshots.parent?, Snapshots.parent?]
  generalize t.snapshots.find? id = found at *
  generalize t'.snapshots.find? id = found' at *
  cases hsnapshots with
  | some hs => exact hs.parent
  | none => rfl

theorem isCurrentAncestor_eq (h : t.Alike t') (id : SnapshotId) :
    t.isCurrentAncestor id = t'.isCurrentAncestor id := by
  have hlinks : t.snapshots.Links = t'.snapshots.Links := by
    funext id parent
    rw [Snapshots.Links, Snapshots.Links, h.parent?_eq]
  rw [Bool.eq_iff_iff, isCurrentAncestor, isCurrentAncestor, Snapshots.contains_ancestors,
    Snapshots.contains_ancestors, Snapshots.Reaches, Snapshots.Reaches, hlinks, h.currentId]

end Alike

/-! ### What arrives -/

/-- What arrives with the change that makes the snapshot `id`: the files that are added directly,
before those of the staged manifests. -/
def arrivals (spec : PartitionSpec) (id : SnapshotId) (added : List DataFile)
    (staged : List Staged) : List Manifest :=
  substance (⟨spec.specId, added.map fun f => ⟨.added, some id, f⟩⟩ ::
    staged.map (·.manifest.inherit id))

theorem files_arrivals (spec : PartitionSpec) (id : SnapshotId) (added : List DataFile)
    (staged : List Staged) :
    (arrivals spec id added staged).flatMap (fun m => m.entries.map (·.file)) =
      added ++ staged.flatMap fun s => s.manifest.entries.map (·.file) := by
  have hadded : (added.map fun f => (⟨.added, some id, f⟩ : ManifestEntry)).map (·.file) = added := by
    rw [List.map_map]
    exact List.map_id' added
  have hinherit : ∀ m : Manifest, (m.inherit id).entries.map (·.file) = m.entries.map (·.file) := by
    intro m
    rw [Manifest.inherit, List.map_map]
    rfl
  rw [arrivals, flatMap_substance (fun m h => by rw [h, List.map_nil]), List.flatMap_cons, hadded,
    List.flatMap_map]
  simp only [hinherit]

/-- What a plan leaves lists what arrives, then what is rewritten of the base, and then what is
carried over, whether ids are inherited or not. -/
theorem Plan.substance_results (p : Plan) (spec : PartitionSpec) (inherits : Bool) :
    substance ((p.manifestsAfter spec inherits).map Prod.snd) =
      arrivals spec p.id p.added p.staged ++
        substance (((substance (p.manifests.map Prod.snd)).filter (·.mentions p.removed)).map
          (·.removing p.removed p.id)) ++
        (substance (p.manifests.map Prod.snd)).filter fun m =>
          !m.hasNoLiveEntries && !m.mentions p.removed := by
  have hadditions : substance (p.additions spec) =
      substance [⟨spec.specId, p.added.map fun f => ⟨.added, some p.id, f⟩⟩] := by
    rw [additions]
    split
    next hnone =>
      rw [List.isEmpty_iff.1 hnone]
      rfl
    next => rfl
  have hmentions : ∀ m : Manifest, m.mentions p.removed = true → m.entries ≠ [] := by
    intro m hm hnil
    rw [Manifest.mentions, liveEntries_of_nil hnil] at hm
    exact absurd hm (by simp)
  have hcarried : ∀ m : Manifest, (!m.hasNoLiveEntries && !m.mentions p.removed) = true →
      m.entries ≠ [] := by
    intro m hm hnil
    rw [Manifest.hasNoLiveEntries, liveEntries_of_nil hnil] at hm
    exact absurd hm (by simp)
  have hmanifests : (p.manifestsAfter spec inherits).map Prod.snd =
      p.additions spec ++ p.staged.map (·.manifest.inherit p.id) ++
        ((p.manifests.map Prod.snd).filter (·.mentions p.removed)).map
          (·.removing p.removed p.id) ++
        ((p.manifests.map Prod.snd).filter fun m =>
          !m.hasNoLiveEntries && !m.mentions p.removed) := by
    rw [p.map_manifestsAfter, rewritten, touched, carried, ← List.append_assoc]
    simp only [List.filter_map, List.map_map, Function.comp_def]
  rw [hmanifests, substance_append, substance_append, substance_append, hadditions,
    filter_substance hmentions, filter_substance hcarried, arrivals, ← substance_append,
    List.singleton_append]
  -- All that is carried over lists something.
  congr 1
  rw [substance, List.filter_filter]
  refine List.filter_congr fun m _ => ?_
  cases hm : !m.hasNoLiveEntries && !m.mentions p.removed with
  | false => simp
  | true => simpa using hcarried m hm

/-- The plans make the same snapshot of bases of the same substance. -/
structure Plan.Alike (spec : PartitionSpec) (p p' : Plan) : Prop where
  id : p.id = p'.id
  base : substance (p.manifests.map Prod.snd) = substance (p'.manifests.map Prod.snd)
  removed : p.removed = p'.removed
  brings : arrivals spec p.id p.added p.staged = arrivals spec p'.id p'.added p'.staged

namespace Plan.Alike

variable {spec : PartitionSpec} {p p' : Plan}

theorem live_eq (h : p.Alike spec p') : p.live = p'.live := by
  rw [live, live, ← ofManifests_substance, h.base, ofManifests_substance]

theorem arriving_eq (h : p.Alike spec p') : p.arriving = p'.arriving := by
  rw [arriving, arriving, ← files_arrivals spec p.id, h.brings, files_arrivals]

theorem leaving_eq (h : p.Alike spec p') : p.leaving = p'.leaving := by
  have hsubstance : ∀ ms : List (ManifestRecord × Manifest),
      ms.flatMap (fun b => b.2.filesAt p.removed) =
        (substance (ms.map Prod.snd)).flatMap (·.filesAt p.removed) := by
    intro ms
    rw [flatMap_substance, List.flatMap_map]
    intro m hm
    rw [Manifest.filesAt, liveEntries_of_nil hm]
    rfl
  rw [leaving, leaving, ← h.removed, hsubstance, hsubstance, h.base]

/-- Plans that are alike make snapshots that are alike. -/
theorem snapshot (h : p.Alike spec p') (base : Option SnapshotId) (operation : Operation)
    (list list' : String) (now now' : Calendar.Instant) :
    (p.snapshot base operation list now).Alike (p'.snapshot base operation list' now') := by
  refine ⟨h.id, rfl, rfl, ?_⟩
  rw [Plan.snapshot, Plan.snapshot, h.arriving_eq, h.leaving_eq, h.live_eq, h.removed]

/-- The manifests that the plans leave have the same substance. -/
theorem results (h : p.Alike spec p') {spec' : PartitionSpec} (hspec : spec = spec')
    (inherits inherits' : Bool) :
    substance ((p.manifestsAfter spec inherits).map Prod.snd) =
      substance ((p'.manifestsAfter spec' inherits').map Prod.snd) := by
  rw [← hspec, substance_results, substance_results, h.base, ← h.removed, h.brings, h.id]

end Plan.Alike

/-! ### Tables in their files -/

/-- The tables are alike, and each in its own files, their snapshots list the same. -/
structure Mirrors (root : Location) (files files' : Tree) (t t' : Table) : Prop where
  alike : t.Alike t'
  loads : ∀ id s s', t.snapshots.find? id = some s → t'.snapshots.find? id = some s' →
    ∃ ms ms', s.Loads root files ms ∧ s'.Loads root files' ms' ∧
      substance (ms.map Prod.snd) = substance (ms'.map Prod.snd)

/-- The changes ask for the same of a table with this spec, if what they bring in staged manifests
is read for each in its own files. -/
structure ChangesAlike (root : Location) (files files' : Tree) (spec : PartitionSpec)
    (operation : Operation) (changes changes' : FileChanges) : Prop where
  fit : changes.fit operation = changes'.fit operation
  deletedPaths : changes.deletedPaths = changes'.deletedPaths
  rowFilter : changes.rowFilter = changes'.rowFilter
  brings : SameOutcome (fun staged staged' => ∀ id,
      arrivals spec id changes.added staged = arrivals spec id changes'.added staged')
    (perform root (changes.stagedPaths.mapM (readStaged spec)) files).1
    (perform root (changes'.stagedPaths.mapM (readStaged spec)) files').1

namespace Mirrors

variable {root : Location} {files files' : Tree} {t t' : Table} {operation : Operation}
  {changes changes' : FileChanges}

/-- The manifests of the current snapshots can be read and have the same substance. -/
theorem loadCurrent (h : Mirrors root files files' t t') :
    SameOutcome (ε := TableError) (fun ms ms' => substance (ms.map Prod.snd) = substance (ms'.map Prod.snd))
      (perform root t.loadCurrent files).1 (perform root t'.loadCurrent files').1 := by
  rw [Table.loadCurrent, Table.loadCurrent, current?, current?, ← h.alike.currentId]
  cases t.currentId with
  | none => exact .ok rfl
  | some id =>
    have hfound := h.alike.snapshots id
    rw [Option.bind_some, Option.bind_some, snapshot?, snapshot?]
    have hloads := h.loads id
    generalize t.snapshots.find? id = found at *
    generalize t'.snapshots.find? id = found' at *
    cases hfound with
    | none => exact .ok rfl
    | some hs =>
      obtain ⟨ms, ms', hms, hms', hsame⟩ := hloads _ _ rfl rfl
      dsimp only
      rw [hms, hms']
      exact .ok hsame

/-- For tables that mirror each other, changes that are alike are refused for the same reason, or
planned alike. -/
theorem plan_sameOutcome (h : Mirrors root files files' t t')
    (hchanges : ChangesAlike root files files' t.spec operation changes changes') :
    SameOutcome (Plan.Alike t.spec) (perform root (t.plan operation changes) files).1
      (perform root (t'.plan operation changes') files').1 := by
  rw [plan, plan]
  refine .of_reads (FileM.reads_ofExcept _) (FileM.reads_ofExcept _)
    ((SameOutcome.of_eq hchanges.fit).mapError .rejected) fun _ _ _ => ?_
  refine .of_reads (FileM.reads_ofExcept _) (FileM.reads_ofExcept _)
    ((SameOutcome.of_eq h.alike.nextId_eq).mapError .rejected) ?_
  rintro id _ rfl
  refine .of_reads t.reads_loadCurrent t'.reads_loadCurrent h.loadCurrent fun ms ms' hbase => ?_
  -- The live files are told by the substance of the manifests.
  have hlive : LiveFiles.ofManifests (ms.map Prod.snd) = .ofManifests (ms'.map Prod.snd) := by
    rw [← ofManifests_substance, hbase, ofManifests_substance]
  have hremoved : removedPaths t.schema t.spec (.ofManifests (ms.map Prod.snd)) changes =
      removedPaths t'.schema t'.spec (.ofManifests (ms'.map Prod.snd)) changes' := by
    rw [removedPaths, removedPaths, h.alike.schema, h.alike.spec, hlive, hchanges.deletedPaths,
      hchanges.rowFilter]
  refine .of_reads (FileM.reads_ofExcept _) (FileM.reads_ofExcept _) (.of_eq hremoved) ?_
  rintro removed _ rfl
  rw [← h.alike.spec]
  refine .of_reads (Reads.mapM (reads_readStaged t.spec) _) (Reads.mapM (reads_readStaged t.spec) _)
    hchanges.brings fun staged staged' hbrings => ?_
  have halike : Plan.Alike t.spec ⟨id, ms, removed, changes.added, staged⟩
      ⟨id, ms', removed, changes'.added, staged'⟩ := ⟨rfl, hbase, rfl, hbrings id⟩
  dsimp only
  rw [halike.arriving_eq, halike.live_eq]
  refine .of_reads (FileM.reads_ofExcept _) (FileM.reads_ofExcept _)
    ((SameOutcome.of_eq rfl).mapError .rejected) fun _ _ _ => ?_
  refine .of_reads (FileM.reads_ofExcept _) (FileM.reads_ofExcept _)
    ((SameOutcome.of_eq rfl).mapError .rejected) fun _ _ _ => ?_
  exact .ok halike

/-! ### Mirrors that last -/

theorem new {metadata metadata' : Metadata} (hschema : metadata.schema = metadata'.schema)
    (hspec : metadata.spec = metadata'.spec) (version : Version) :
    Mirrors root files files' (.new version metadata) (.new version metadata') := by
  refine ⟨⟨rfl, hschema, hspec, rfl, fun id => ?_⟩, fun id s s' hs _ => ?_⟩
  · rw [Table.new, Table.new, SortedMap.find?_empty]
    exact .none
  · rw [Table.new, SortedMap.find?_empty] at hs
    exact absurd hs (by simp)

/-- Nothing that is written later changes what the snapshots list. -/
theorem grows (h : Mirrors root files files' t t') {asked asked' : Request → Prop}
    {commits commits' : List Commit} {current current' : Nat} {after after' : Tree}
    (hchain : Chain root files commits current) (hgrows : files.Grows asked root after)
    (hchain' : Chain root files' commits' current') (hgrows' : files'.Grows asked' root after') :
    Mirrors root after after' t t' := by
  refine ⟨h.alike, fun id s s' hs hs' => ?_⟩
  obtain ⟨ms, ms', hms, hms', hsame⟩ := h.loads id s s' hs hs'
  exact ⟨ms, ms', FileM.loadManifests_grows hchain hgrows hms,
    FileM.loadManifests_grows hchain' hgrows' hms', hsame⟩

theorem register (h : Mirrors root files files' t t') {s s' : Snapshot} (hs : s.Alike s')
    {ms ms' : List (ManifestRecord × Manifest)} (hms : s.Loads root files ms)
    (hms' : s'.Loads root files' ms')
    (hsame : substance (ms.map Prod.snd) = substance (ms'.map Prod.snd)) {m m' : PointerMove}
    (hm : m.snapshotId = m'.snapshotId) (version : Version) : Mirrors root files files'
      { moveCurrent { t with snapshots := t.snapshots.insert s.id s } m with version := version }
      { moveCurrent { t' with snapshots := t'.snapshots.insert s'.id s' } m' with
        version := version } := by
  refine ⟨⟨rfl, h.alike.schema, h.alike.spec, congrArg some hm, fun id => ?_⟩,
    fun id r r' hr hr' => ?_⟩
  · change Option.Rel Snapshot.Alike ((t.snapshots.insert s.id s).find? id)
      ((t'.snapshots.insert s'.id s').find? id)
    rw [SortedMap.find?_insert_eq, SortedMap.find?_insert_eq, hs.id]
    split
    next => exact .some hs
    next => exact h.alike.snapshots id
  · -- Under the id of the new snapshots both have theirs, and under others what they had.
    rcases SortedMap.find?_insert_cases hr with ⟨hid, rfl⟩ | ⟨hid, hr⟩ <;>
      rcases SortedMap.find?_insert_cases hr' with ⟨hid', rfl⟩ | ⟨hid', hr'⟩
    · exact ⟨ms, ms', hms, hms', hsame⟩
    · exact absurd (hid.trans hs.id) hid'
    · exact absurd (hid'.trans hs.id.symm) hid
    · exact h.loads id r r' hr hr'

theorem move (h : Mirrors root files files' t t') {m m' : PointerMove}
    (hm : m.snapshotId = m'.snapshotId) (version : Version) : Mirrors root files files'
      { t.moveCurrent m with version := version } { t'.moveCurrent m' with version := version } :=
  ⟨⟨rfl, h.alike.schema, h.alike.spec, congrArg some hm, h.alike.snapshots⟩, h.loads⟩

/-- Properties do not matter. -/
theorem update (h : Mirrors root files files' t t') (properties properties' : Properties)
    (version : Version) : Mirrors root files files'
      { t with metadata := { t.metadata with properties := properties }, version := version }
      { t' with metadata := { t'.metadata with properties := properties' }, version := version } :=
  ⟨⟨rfl, h.alike.schema, h.alike.spec, h.alike.currentId, h.alike.snapshots⟩, h.loads⟩

end Mirrors

end Table

end Lakehouse
