import Lakehouse.Proofs.Inspect.Rendering
import Lakehouse.Proofs.Run.Partitions
import Lakehouse.Proofs.Run.Typing

/- Scans in runs.

   A scan reads the rows that the accessor of the same name lists, and renders them. It looks at
   the snapshot that is asked for, and at none if there is no such snapshot, even where the rows are
   the same for all (`perform_scan_unknown`). The tables of all snapshots list the rows of one
   snapshot after the other (`Table.Concatenates`). Whatever runs, fails or stops, the rows of every
   table that is kept or replayed can be read, so that the batch has all of them, in their order
   and as they are (`scan_shows_rows`). Only the values of partition slots have to be of the types
   of their columns (`Table.Typed`). -/
namespace Lakehouse

open Contract Log Script

variable {root : Location} {files files' : Tree} {commits : List Commit} {current : Nat} {t : Table}
  {id : Option SnapshotId} {α : Type}

namespace Table

/-! ### Rows of one snapshot and of all -/

/-- The rows of one snapshot after the other, in ascending order of the ids. -/
def Concatenates (root : Location) (tree : Tree) (t : Table)
    (list : Option SnapshotId → FileM (List α)) (rows : List α) : Prop :=
  ∃ parts : List (SnapshotId × List α), (parts.Pairwise fun a b => a.1 < b.1) ∧
    (∀ k, (∃ part ∈ parts, part.1 = k) ↔ t.snapshots.contains k = true) ∧
    (∀ part ∈ parts, perform root (list (some part.1)) tree = (.ok part.2, tree)) ∧
    rows = parts.flatMap Prod.snd

theorem Concatenates.exists_part {list : Option SnapshotId → FileM (List α)} {rows : List α}
    (h : t.Concatenates root files list rows) {a : α} (ha : a ∈ rows) :
    ∃ k l, t.Asks (some k) ∧ perform root (list (some k)) files = (.ok l, files) ∧ a ∈ l := by
  obtain ⟨parts, -, hregistered, hlisted, rfl⟩ := h
  obtain ⟨part, hpart, hin⟩ := List.mem_flatMap.1 ha
  refine ⟨part.1, part.2, fun k hk => ?_, hlisted part hpart, hin⟩
  obtain rfl := Option.some.inj hk
  exact (hregistered part.1).1 ⟨part, hpart, rfl⟩

theorem exists_rowsOf {rows : Snapshot → FileM (List α)}
    (hrows : ∀ k s, t.snapshots.find? k = some s → ∃ l, perform root (rows s) files = (.ok l, files))
    (hasks : t.Asks id) : ∃ l, perform root (t.rowsOf id rows) files = (.ok l, files) := by
  cases id with
  | some k =>
    obtain ⟨s, hs⟩ := SortedMap.contains_iff.1 (hasks k rfl)
    rw [rowsOf_some hs]
    exact hrows k s hs
  | none =>
    cases hcurrent : t.current? with
    | some s =>
      obtain ⟨k, -, hs⟩ := Option.bind_eq_some_iff.1 hcurrent
      rw [rowsOf_current hcurrent]
      exact hrows k s hs
    | none => exact ⟨[], by rw [rowsOf_none hcurrent]; rfl⟩

theorem exists_rowsOfAll {rows : Snapshot → FileM (List α)}
    (hrows : ∀ k s, t.snapshots.find? k = some s → ∃ l, perform root (rows s) files = (.ok l, files)) :
    ∃ l, perform root (t.rowsOfAll rows) files = (.ok l, files) ∧
      t.Concatenates root files (fun id => t.rowsOf id rows) l := by
  obtain ⟨parts, hparts⟩ := @exists_forall₂ (SnapshotId × Snapshot) (SnapshotId × List α)
    (fun e part => part.1 = e.1 ∧ perform root (rows e.2) files = (.ok part.2, files))
    t.snapshots.toList fun e he => by
      obtain ⟨l, hl⟩ := hrows e.1 e.2 (SortedMap.mem_toList.1 he)
      exact ⟨(e.1, l), rfl, hl⟩
  have hkeys : t.snapshots.keys = parts.map Prod.fst :=
    map_eq_of_forall₂ (fun _ _ hone => hone.1.symm) hparts
  refine ⟨parts.flatMap Prod.snd, ?_, parts, ?_, fun k => ?_, fun part hpart => ?_, rfl⟩
  · have hall : List.Forall₂ (fun s l => perform root (rows s) files = (.ok l, files))
        (t.snapshots.toList.map Prod.snd) (parts.map Prod.snd) := by
      rw [List.forall₂_map_left_iff, List.forall₂_map_right_iff]
      exact hparts.imp fun _ _ hone => hone.2
    rw [rowsOfAll, ← bind_pure_comp, List.flatMap_def]
    exact perform_bind_ok.2 ⟨_, files, perform_mapM_of_forall₂ hall, rfl⟩
  · rw [← List.pairwise_map, ← hkeys, SortedMap.keys, List.pairwise_map]
    refine t.snapshots.sorted.imp fun {a b} hlt => ?_
    rwa [compare_int64, Int.compare_eq_lt, ← Int64.lt_iff_toInt_lt] at hlt
  · rw [← SortedMap.mem_keys, hkeys, List.mem_map]
  · obtain ⟨e, he, hsame, hread⟩ := exists_of_forall₂ hparts.flip hpart
    show perform root (t.rowsOf (some part.1) rows) files = _
    rw [hsame, rowsOf_some (SortedMap.mem_toList.1 he)]
    exact hread

/-! ### What a scan reads -/

/-- A scan of a snapshot that is not there fails, whatever it is to show. -/
theorem perform_scan_unknown {k : SnapshotId} (hk : t.snapshots.contains k = false)
    (kind : Inspection) :
    perform root (t.scan kind (some k)) files = (.error (.snapshotNotFound k), files) := by
  have hnone : t.snapshots.find? k = none := by simpa [SortedMap.contains] using hk
  rw [scan, resolve, snapshot?, hnone]
  rfl

/-- The snapshot that is found is found again under its own id. -/
theorem resolve_pinned (hnamed : ∀ k s, t.snapshots.find? k = some s → s.id = k)
    {pinned : Option Snapshot} (h : t.resolve id = .ok pinned) :
    t.resolve (pinned.map Snapshot.id) = .ok pinned := by
  have hfound : ∀ {k s}, t.snapshots.find? k = some s → t.resolve (some s.id) = .ok (some s) := by
    intro k s hs
    rw [hnamed k s hs, resolve, snapshot?, hs]
  cases id with
  | some k =>
    rw [resolve] at h
    split at h
    next s hs =>
      obtain rfl := Except.ok.inj h
      exact hfound hs
    next => exact absurd h (by simp)
  | none =>
    rw [resolve] at h
    obtain rfl := Except.ok.inj h
    cases hcurrent : t.current? with
    | some s =>
      obtain ⟨k, -, hs⟩ := Option.bind_eq_some_iff.1 hcurrent
      exact hfound hs
    | none => rw [Option.map_none, resolve, hcurrent]

/-- The rows of the snapshot that is pinned are those of the snapshot that is asked for. -/
theorem exists_pinned (hnamed : ∀ k s, t.snapshots.find? k = some s → s.id = k) (hasks : t.Asks id) :
    ∃ pinned, t.resolve id = .ok pinned ∧
      ∀ {α : Type} (rows : Snapshot → FileM (List α)),
        t.rowsOf (pinned.map Snapshot.id) rows = t.rowsOf id rows := by
  obtain ⟨pinned, hpinned⟩ : ∃ pinned, t.resolve id = .ok pinned := by
    cases id with
    | some k =>
      obtain ⟨s, hs⟩ := SortedMap.contains_iff.1 (hasks k rfl)
      exact ⟨some s, by rw [resolve, snapshot?, hs]⟩
    | none => exact ⟨t.current?, rfl⟩
  refine ⟨pinned, hpinned, fun rows => ?_⟩
  rw [rowsOf, rowsOf, resolve_pinned hnamed hpinned, hpinned]

/-- Rows that can be read and rendered give a batch that shows them. -/
theorem exists_batchOf {columns : List α → Except TableError (List Column)} {rows : FileM (List α)}
    {l : List α} {ps : List (Projection α)} (hrows : perform root rows files = (.ok l, files))
    (hrenders : ∃ built, columns l = .ok built ∧ RendersAll built ps l) (hne : ps ≠ []) :
    ∃ b, perform root (batchOf columns rows) files = (.ok b, files) ∧ b.Shows ps l := by
  obtain ⟨built, hbuilt, hrenders⟩ := hrenders
  refine ⟨⟨built⟩, perform_bind_ok.2 ⟨l, files, hrows, ?_⟩, Batch.shows_of_rendersAll hne hrenders⟩
  rw [hbuilt]
  rfl

theorem exists_batchOf_ok {columns : List α → List Column} {rows : FileM (List α)} {l : List α}
    {ps : List (Projection α)} (hrows : perform root rows files = (.ok l, files))
    (hrenders : RendersAll (columns l) ps l) (hne : ps ≠ []) :
    ∃ b, perform root (batchOf (fun rows => .ok (columns rows)) rows) files = (.ok b, files) ∧
      b.Shows ps l :=
  exists_batchOf hrows ⟨_, rfl, hrenders⟩ hne

/-- The source columns of the spec are there, as they are wherever `Metadata.create` made the metadata,
and the values in the slots of all entries, of each snapshot, are of the types of these columns. -/
structure Typed (root : Location) (tree : Tree) (t : Table) : Prop where
  sources : t.spec.checkSources t.schema = .ok ()
  slots : ∀ id entries, perform root (t.entries id) tree = (.ok entries, tree) →
    ∀ e ∈ entries, e.file.partition.IsTyped t.schema t.spec

/-- What a scan shows of the snapshot that is asked for: the rows that the accessor lists, or those
of all snapshots, or what the table knows without reading. -/
inductive Displays (root : Location) (tree : Tree) (t : Table) (id : Option SnapshotId) :
    Inspection → Batch → Prop where
  | entries {rows : List ManifestEntry} {b : Batch}
      (listed : perform root (t.entries id) tree = (.ok rows, tree))
      (shown : b.Shows (Projection.ofEntry t.metadata) rows) : Displays root tree t id .entries b
  | allEntries {rows : List ManifestEntry} {b : Batch}
      (listed : perform root t.allEntries tree = (.ok rows, tree))
      (ordered : t.Concatenates root tree t.entries rows)
      (shown : b.Shows (Projection.ofEntry t.metadata) rows) : Displays root tree t id .allEntries b
  | files {rows : List DataFile} {b : Batch}
      (listed : perform root (t.files id) tree = (.ok rows, tree))
      (shown : b.Shows (Projection.ofDataFile t.metadata) rows) : Displays root tree t id .files b
  | allDataFiles {rows : List DataFile} {b : Batch}
      (listed : perform root t.allDataFiles tree = (.ok rows, tree))
      (ordered : t.Concatenates root tree t.files rows)
      (shown : b.Shows (Projection.ofDataFile t.metadata) rows) : Displays root tree t id .allDataFiles b
  | manifests {rows : List ManifestRow} {b : Batch}
      (listed : perform root (t.manifests Datum.display id) tree = (.ok rows, tree))
      (shown : b.Shows Projection.ofManifest rows) : Displays root tree t id .manifests b
  | allManifests {rows : List ManifestRow} {b : Batch}
      (listed : perform root t.allManifests tree = (.ok rows, tree))
      (ordered : t.Concatenates root tree (t.manifests Datum.display) rows)
      (shown : b.Shows Projection.ofManifest rows) : Displays root tree t id .allManifests b
  | history {b : Batch} (shown : b.Shows Projection.ofMove t.history) :
      Displays root tree t id .history b
  | snapshots {b : Batch} (shown : b.Shows Projection.ofSnapshot t.snapshots.values) :
      Displays root tree t id .snapshots b
  | partitions {rows : List PartitionRow} {b : Batch}
      (listed : perform root (t.partitions id) tree = (.ok rows, tree))
      (shown : b.Shows (Projection.ofPartition t.metadata) rows) : Displays root tree t id .partitions b

/-- If only typed manifests are stored, the values in all slots are typed. -/
theorem Typed.of_tree (hsources : t.spec.checkSources t.schema = .ok ())
    (hfiles : files.IsTyped t.schema t.spec) : t.Typed root files := by
  refine ⟨hsources, fun id entries hentries e he => ?_⟩
  rw [Table.entries, rowsOf] at hentries
  split at hentries
  next => exact absurd hentries (by simp [perform_throw])
  next =>
    obtain rfl : [] = entries := by simpa [perform_pure] using hentries
    exact absurd he List.not_mem_nil
  next s _ =>
    obtain ⟨ms, files₁, hloads, hentries⟩ := perform_bind_ok.1 hentries
    obtain rfl := (FileM.reads_loadManifests s).eq_of_perform hloads
    obtain rfl : (ms.flatMap fun m => m.2.entries) = entries := by
      simpa [perform_pure] using hentries
    obtain ⟨m, hm, hin⟩ := List.mem_flatMap.1 he
    exact (hfiles.loads hloads m.2 (List.mem_map_of_mem hm) e hin).slots

theorem Typed.fits (h : t.Typed root files) {tuples : List PartitionTuple}
    (htyped : ∀ tuple ∈ tuples, tuple.IsTyped t.schema t.spec) : Inspection.Fits t.metadata tuples := by
  refine ⟨fun field hfield => ?_, htyped⟩
  have hsources := h.sources
  rw [PartitionSpec.checkSources] at hsources
  split at hsources
  next => exact absurd hsources (by simp)
  next hnone =>
    have hsome := List.find?_eq_none.1 hnone field hfield
    rwa [Option.isNone_iff_eq_none, ← ne_eq, Option.ne_none_iff_isSome] at hsome

theorem Typed.fits_entries (h : t.Typed root files) {rows : List ManifestEntry}
    (htyped : ∀ e ∈ rows, e.file.partition.IsTyped t.schema t.spec) :
    Inspection.Fits t.metadata ((rows.map (·.file)).map (·.partition)) := by
  refine h.fits fun tuple htuple => ?_
  obtain ⟨f, hf, rfl⟩ := List.mem_map.1 htuple
  obtain ⟨e, he, rfl⟩ := List.mem_map.1 hf
  exact htyped e he

theorem Typed.fits_files (h : t.Typed root files) {rows : List DataFile}
    (htyped : ∀ f ∈ rows, f.partition.IsTyped t.schema t.spec) :
    Inspection.Fits t.metadata (rows.map (·.partition)) := by
  refine h.fits fun tuple htuple => ?_
  obtain ⟨f, hf, rfl⟩ := List.mem_map.1 htuple
  exact htyped f hf

theorem Typed.typed_allEntries (h : t.Typed root files) {rows : List ManifestEntry}
    (hordered : t.Concatenates root files t.entries rows) :
    ∀ e ∈ rows, e.file.partition.IsTyped t.schema t.spec := by
  intro e he
  obtain ⟨k, l, -, hl, hin⟩ := hordered.exists_part he
  exact h.slots (some k) l hl e hin

section Loads

variable (hloads : ∀ k s, t.snapshots.find? k = some s → ∃ ms, s.Loads root files ms)

include hloads

/-- The values in the slots of the files that are listed are of the types of their columns. -/
theorem Typed.typed_files (h : t.Typed root files) (hasks : t.Asks id) {listed : List DataFile}
    (hlisted : perform root (t.files id) files = (.ok listed, files)) :
    ∀ f ∈ listed, f.partition.IsTyped t.schema t.spec := by
  obtain ⟨entries, hentries, hfiles⟩ := exists_entries hloads hasks
  have hsame : listed = (entries.filter (·.isLive)).map (·.file) := by
    simpa using hlisted.symm.trans hfiles
  intro f hf
  rw [hsame] at hf
  obtain ⟨e, he, rfl⟩ := List.mem_map.1 hf
  exact h.slots id entries hentries e (List.mem_filter.1 he).1

theorem Typed.typed_allFiles (h : t.Typed root files) {rows : List DataFile}
    (hordered : t.Concatenates root files t.files rows) :
    ∀ f ∈ rows, f.partition.IsTyped t.schema t.spec := by
  intro f hf
  obtain ⟨k, l, hk, hl, hin⟩ := hordered.exists_part hf
  exact h.typed_files hloads hk hl f hin

/-- The partitions that occur are those of files. -/
theorem Typed.typed_partitions (h : t.Typed root files) (hasks : t.Asks id) {listed : List DataFile}
    (hlisted : perform root (t.files id) files = (.ok listed, files)) :
    ∀ tuple ∈ (groupByPartition listed).map (·.partition), tuple.IsTyped t.schema t.spec := by
  intro tuple htuple
  obtain ⟨r, hr, rfl⟩ := List.mem_map.1 htuple
  obtain ⟨f, hf, hsame⟩ := ((groups_groupByPartition _).occur r.partition).1 ⟨r, hr, rfl⟩
  exact hsame ▸ h.typed_files hloads hasks hlisted f hf

/-- If all snapshots can be read, a scan of one that is there, or of the current one, shows its
rows. -/
theorem exists_scan (hnamed : ∀ k s, t.snapshots.find? k = some s → s.id = k)
    (htyped : t.Typed root files) (hasks : t.Asks id) (kind : Inspection) :
    ∃ b, perform root (t.scan kind id) files = (.ok b, files) ∧ t.Displays root files id kind b := by
  obtain ⟨pinned, hpinned, hsame⟩ := exists_pinned hnamed hasks
  obtain ⟨entries, hentries, hfiles⟩ := exists_entries hloads hasks
  -- What can be listed for the manifests of one snapshot can be listed for each.
  have hread : ∀ {β : Type} (rows : Snapshot → FileM (List β)),
      (∀ s ms, s.Loads root files ms → ∃ l, perform root (rows s) files = (.ok l, files)) →
      ∀ k s, t.snapshots.find? k = some s → ∃ l, perform root (rows s) files = (.ok l, files) := by
    intro β rows hrows k s hs
    obtain ⟨ms, hms⟩ := hloads k s hs
    exact hrows s ms hms
  have hmanifests := hread (manifestsOf Datum.display) fun _ _ hms => ⟨_, perform_manifestsOf hms _⟩
  simp only [scan, hpinned]
  cases kind with
  | entries =>
    obtain ⟨b, hb, hshown⟩ := exists_batchOf hentries (Inspection.renders_entries
      (htyped.fits_entries (htyped.slots id entries hentries))) (by simp [Projection.ofEntry])
    rw [Table.entries, hsame]
    exact ⟨b, hb, .entries hentries hshown⟩
  | allEntries =>
    obtain ⟨rows, hlisted, hordered⟩ := exists_rowsOfAll
      (hread entriesOf fun _ _ hms => ⟨_, perform_entriesOf hms⟩)
    obtain ⟨b, hb, hshown⟩ := exists_batchOf hlisted (Inspection.renders_entries
      (htyped.fits_entries (htyped.typed_allEntries hordered))) (by simp [Projection.ofEntry])
    exact ⟨b, hb, .allEntries hlisted hordered hshown⟩
  | files =>
    obtain ⟨b, hb, hshown⟩ := exists_batchOf hfiles (Inspection.renders_dataFiles
      (htyped.fits_files (htyped.typed_files hloads hasks hfiles))) (by simp [Projection.ofDataFile])
    rw [Table.files, hsame]
    exact ⟨b, hb, .files hfiles hshown⟩
  | allDataFiles =>
    obtain ⟨rows, hlisted, hordered⟩ := exists_rowsOfAll
      (hread filesOf fun _ _ hms => ⟨_, perform_filesOf hms⟩)
    obtain ⟨b, hb, hshown⟩ := exists_batchOf hlisted (Inspection.renders_dataFiles
      (htyped.fits_files (htyped.typed_allFiles hloads hordered))) (by simp [Projection.ofDataFile])
    exact ⟨b, hb, .allDataFiles hlisted hordered hshown⟩
  | manifests =>
    obtain ⟨rows, hlisted⟩ := exists_rowsOf hmanifests hasks
    obtain ⟨b, hb, hshown⟩ := exists_batchOf_ok hlisted (Inspection.renders_manifests rows)
      (by simp [Projection.ofManifest])
    rw [Table.manifests, hsame]
    exact ⟨b, hb, .manifests hlisted hshown⟩
  | allManifests =>
    obtain ⟨rows, hlisted, hordered⟩ := exists_rowsOfAll hmanifests
    obtain ⟨b, hb, hshown⟩ := exists_batchOf_ok hlisted (Inspection.renders_manifests rows)
      (by simp [Projection.ofManifest])
    exact ⟨b, hb, .allManifests hlisted hordered hshown⟩
  | history =>
    have hlisted : perform root (pure t.history : FileM (List PointerMove)) files =
        (.ok t.history, files) := rfl
    obtain ⟨b, hb, hshown⟩ := exists_batchOf_ok hlisted (Inspection.renders_moves t.history)
      (by simp [Projection.ofMove])
    exact ⟨b, hb, .history hshown⟩
  | snapshots =>
    have hlisted : perform root (pure t.snapshots.values : FileM (List Snapshot)) files =
        (.ok t.snapshots.values, files) := rfl
    obtain ⟨b, hb, hshown⟩ := exists_batchOf_ok hlisted
      (Inspection.renders_snapshots t.snapshots.values) (by simp [Projection.ofSnapshot])
    exact ⟨b, hb, .snapshots hshown⟩
  | partitions =>
    have hlisted := perform_partitions hfiles
    have htuples := htyped.typed_partitions hloads hasks hfiles
    obtain ⟨b, hb, hshown⟩ := exists_batchOf hlisted
      (Inspection.renders_partitions (htyped.fits htuples)) (by simp [Projection.ofPartition])
    rw [Table.partitions, Table.files, hsame]
    exact ⟨b, hb, .partitions hlisted hshown⟩

end Loads

end Table

namespace World

/-- In every run, snapshots are registered under their own ids. -/
theorem named_of_has (hvacant : files.Vacant root) (turns : List Turn)
    (ht : (run root (start files) turns).Has root t) :
    ∀ k s, t.snapshots.find? k = some s → s.id = k := by
  have hasked : ∀ before turn, before ++ [turn] <+: turns →
      ∀ r ∈ (run root (start files) before).wants root turn, everything r :=
    fun _ _ _ _ _ => trivial
  obtain ⟨commits, current, hordered, -, -, htraces⟩ := traced_run hvacant turns hasked
  exact (traced_induction htraces Table.HasLineage.new
    (fun _ _ h hfollows => h.of_follows hfollows) _ t (hordered.table_of_has ht).2).named

/-- In every run, with any number of handles, failures and stops, of every table that is kept or
replayed, a scan of any kind fails if a snapshot is asked for that is not there, and otherwise shows
the rows that the accessor lists, or those of all snapshots in ascending order of their ids, in their
order: each column has at each row what its projection shows of this row alone. The values in
partition slots have to be of the types of their source columns. -/
theorem scan_shows_rows (hvacant : files.Vacant root) (turns : List Turn) :
    ∀ t, (run root (start files) turns).Has root t →
      t.Typed root (run root (start files) turns).files → ∀ kind id,
      (∀ k, id = some k → t.snapshots.contains k = false →
        perform root (t.scan kind id) (run root (start files) turns).files =
          (.error (.snapshotNotFound k), (run root (start files) turns).files)) ∧
      (t.Asks id → ∃ b,
        perform root (t.scan kind id) (run root (start files) turns).files =
          (.ok b, (run root (start files) turns).files) ∧
        t.Displays root (run root (start files) turns).files id kind b) := by
  intro t ht htyped kind id
  refine ⟨?_, fun hasks => ?_⟩
  · rintro k rfl hk
    exact Table.perform_scan_unknown hk kind
  · exact Table.exists_scan (fun k s hs => loads_of_has hvacant turns ht hs)
      (named_of_has hvacant turns ht) htyped hasks kind

end World

/-! ### Scans of the days -/

namespace Days

open World

/-- Bounds of two columns of ints are typed. -/
theorem types_ints {x y : Int32} :
    metadata.schema.Types ((SortedMap.empty.insert 1 (.int x)).insert 2 (.int y)) := by
  intro field hfield b hb
  simp only [metadata, List.mem_cons, List.not_mem_nil, or_false] at hfield
  rcases find?_columns hb with ⟨-, rfl⟩ | ⟨-, rfl⟩ <;> rcases hfield with rfl | rfl <;> rfl

/-- The slot of the one partition field is typed if its value is an int, where it has one. -/
theorem slot_isTyped {value : Option Datum} (h : ∀ v, value = some v → v.type = .int) :
    PartitionTuple.IsTyped metadata.schema metadata.spec ([value] : PartitionTuple) := by
  intro slot p field v hp hfield hv
  obtain ⟨hlt, rfl⟩ := List.getElem?_eq_some_iff.1 hp
  obtain rfl : slot = 0 := Nat.lt_one_iff.1 hlt
  obtain rfl : (⟨2, "day", .int, false⟩ : Field) = field := Option.some.inj hfield
  exact h v hv

theorem dated_isTyped : dated.IsTyped metadata.schema metadata.spec :=
  ⟨slot_isTyped fun _ hv => Option.some.inj hv ▸ rfl, types_ints, types_ints⟩

theorem undated_isTyped : undated.IsTyped metadata.schema metadata.spec :=
  ⟨slot_isTyped fun _ hv => absurd hv (by simp), fun _ _ _ hb => absurd hb (by
    simp [undated, DataFile.withoutMetrics]), fun _ _ _ hb => absurd hb (by
    simp [undated, DataFile.withoutMetrics])⟩

/-- All that is brought is typed. -/
theorem typed_of_offers : ∀ turn ∈ turns, ∀ f ∈ turn.event.offers,
    f.IsTyped metadata.schema metadata.spec := by
  simp only [turns, List.mem_cons, List.not_mem_nil, or_false, forall_eq_or_imp, forall_eq,
    Event.offers, Call.offers, false_imp_iff, implies_true, true_and, and_true]
  exact ⟨dated_isTyped, undated_isTyped⟩

theorem typed_thinned : thinned.Typed ⟨"."⟩ (world 5).files := by
  have hrun := @typed_run ⟨"."⟩ .empty thinned (turns.take 5) Tree.vacant_empty
    (by rw [world_eq]; exact .kept known_thinned.stands.copy) Tree.isTyped_empty
    fun turn hturn => typed_of_offers turn (List.mem_of_mem_take hturn)
  rw [world_eq] at hrun
  exact .of_tree rfl hrun

/-- One file has metrics and the other has none; one of them is deleted. -/
theorem scan_shows_rows_thinned : Tree.empty.Vacant ⟨"."⟩ ∧
    run ⟨"."⟩ (start .empty) (turns.take 5) = world 5 ∧ (world 5).handles 0 = some thinned ∧
    thinned.Typed ⟨"."⟩ (world 5).files ∧
    (∃ b, thinned.Asks (some 2) ∧
      perform ⟨"."⟩ (thinned.scan .files (some 2)) (world 5).files = (.ok b, (world 5).files) ∧
      b.Shows (Projection.ofDataFile metadata) [dated, undated]) ∧
    ∃ b, thinned.Asks none ∧
      perform ⟨"."⟩ (thinned.scan .entries none) (world 5).files = (.ok b, (world 5).files) ∧
      b.Shows (Projection.ofEntry metadata)
        [⟨.deleted, some 3, dated⟩, ⟨.existing, some 2, undated⟩] := by
  have hhas : (run ⟨"."⟩ (start .empty) (turns.take 5)).Has ⟨"."⟩ thinned := by
    rw [world_eq]
    exact .kept known_thinned.stands.copy
  have hall := scan_shows_rows Tree.vacant_empty (turns.take 5) thinned hhas
    (by rw [world_eq]; exact typed_thinned)
  rw [world_eq] at hall
  have htwo : thinned.Asks (some 2) := fun k hk => Option.some.inj hk ▸ rfl
  have hnone : thinned.Asks none := fun k hk => absurd hk (by simp)
  have hfiles : perform ⟨"."⟩ (thinned.files (some 2)) (world 5).files =
      (.ok [dated, undated], (world 5).files) := by
    have hfilled : filled.currentId = some 2 := rfl
    have hfind : filled.snapshots.find? 2 = some (begun.snapshotOf (adding 2) .append default) := rfl
    exact Table.perform_files rfl (loads_later (known_filled.loads hfilled hfind) 1)
  have hentries : perform ⟨"."⟩ (thinned.entries none) (world 5).files =
      (.ok [⟨.deleted, some 3, dated⟩, ⟨.existing, some 2, undated⟩], (world 5).files) := by
    have hid : thinned.currentId = some 3 := rfl
    have hfind : thinned.snapshots.find? 3 = some (filled.snapshotOf deleting .delete default) := rfl
    have hcurrent : thinned.current? = some (filled.snapshotOf deleting .delete default) := hfind
    rw [Table.entries, Table.rowsOf_current hcurrent]
    exact Table.perform_entriesOf (known_thinned.loads hid hfind)
  obtain ⟨b, hb, hshows⟩ := (hall .files (some 2)).2 htwo
  obtain ⟨b', hb', hshows'⟩ := (hall .entries none).2 hnone
  refine ⟨Tree.vacant_empty, world_eq 5, known_thinned.stands.copy, typed_thinned,
    ⟨b, htwo, hb, ?_⟩, b', hnone, hb', ?_⟩
  · cases hshows with
    | files listed shown =>
      obtain rfl := Except.ok.inj (Prod.mk.inj (hfiles.symm.trans listed)).1
      exact shown
  · cases hshows' with
    | entries listed shown =>
      obtain rfl := Except.ok.inj (Prod.mk.inj (hentries.symm.trans listed)).1
      exact shown

end Days

end Lakehouse
