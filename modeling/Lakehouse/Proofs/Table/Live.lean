import Lakehouse.Proofs.Table.Planning
import Lakehouse.Proofs.Table.Writing
import Mathlib.Data.List.Nodup

/- The files that are live.

   The manifests of a snapshot list its live files, in no particular order. A change takes
   out the files that it removes and puts in those that arrive, whichever manifests they
   are in and whichever are written anew (`Planned.liveFiles_after`). If no path is live
   twice before, none is afterwards, since arriving files have paths of their own
   (`checkAdded_eq_ok`); the live files then are a map from paths (`find?_ofManifests`). -/
namespace Lakehouse

namespace Manifest

/-- The files of the live entries. -/
def liveFiles (m : Manifest) : List DataFile := m.liveEntries.map (·.file)

theorem liveFiles_inherit (m : Manifest) (id : SnapshotId) :
    (m.inherit id).liveFiles = m.liveFiles := by
  simp only [liveFiles, liveEntries, inherit, List.filter_map, List.map_map]
  rfl

theorem liveFiles_of_added {m : Manifest} (h : ∀ e ∈ m.entries, e.status = .added) :
    m.liveFiles = m.entries.map (·.file) := by
  rw [liveFiles, liveEntries, List.filter_eq_self.2 fun e he => ?_]
  rw [ManifestEntry.isLive, h e he]
  rfl

/-- Of a manifest from which files are removed, the others stay live. -/
theorem liveFiles_removing (m : Manifest) (paths : SortedMap String Unit) (id : SnapshotId) :
    (m.removing paths id).liveFiles = m.liveFiles.filter fun f => !paths.contains f.path := by
  simp only [liveFiles, removing]
  generalize m.liveEntries = entries
  simp only [liveEntries]
  induction entries with
  | nil => rfl
  | cons e entries ih =>
    cases hpath : paths.contains e.file.path with
    | true => simpa [hpath, ManifestEntry.isLive, EntryStatus.isLive] using ih
    | false => simpa [hpath, ManifestEntry.isLive, EntryStatus.isLive] using ih

theorem mentions_eq_false {m : Manifest} {paths : SortedMap String Unit}
    (h : m.mentions paths = false) : m.liveFiles.filter (fun f => !paths.contains f.path) =
      m.liveFiles := by
  rw [List.filter_eq_self]
  intro f hf
  obtain ⟨e, he, rfl⟩ := List.mem_map.1 hf
  rw [mentions, List.any_eq_false] at h
  simpa using h e he

theorem liveFiles_of_hasNoLiveEntries {m : Manifest} (h : m.hasNoLiveEntries = true) :
    m.liveFiles = [] := by
  rw [liveFiles, List.map_eq_nil_iff]
  exact List.isEmpty_iff.1 h

end Manifest

/-- The files that are live in some manifests. -/
def liveFiles (ms : List Manifest) : List DataFile := ms.flatMap Manifest.liveFiles

@[simp] theorem liveFiles_nil : liveFiles [] = [] := rfl

@[simp] theorem liveFiles_cons (m : Manifest) (ms : List Manifest) :
    liveFiles (m :: ms) = m.liveFiles ++ liveFiles ms := rfl

@[simp] theorem liveFiles_append (ms ns : List Manifest) :
    liveFiles (ms ++ ns) = liveFiles ms ++ liveFiles ns := List.flatMap_append

/-- No path is live twice. -/
def OncePerPath (files : List DataFile) : Prop := (files.map DataFile.path).Nodup

theorem OncePerPath.perm {files files' : List DataFile} (h : OncePerPath files)
    (hperm : files.Perm files') : OncePerPath files' := (hperm.map _).nodup h

namespace LiveFiles

theorem ofManifests_eq (ms : List Manifest) :
    ofManifests ms = .ofList ((liveFiles ms).map fun f => (f.path, f)) := by
  rw [ofManifests, liveFiles, List.map_flatMap, List.map_flatMap]
  simp only [Manifest.liveFiles, List.map_map]
  rfl

theorem find?_ofManifests {ms : List Manifest} (h : OncePerPath (liveFiles ms)) {path : String}
    {f : DataFile} : (ofManifests ms).find? path = some f ↔ f ∈ liveFiles ms ∧ f.path = path := by
  rw [ofManifests_eq, SortedMap.find?_ofList_iff]
  · simp only [List.mem_map, Prod.mk.injEq]
    constructor
    · rintro ⟨f, hf, rfl, rfl⟩
      exact ⟨hf, rfl⟩
    · rintro ⟨hf, rfl⟩
      exact ⟨f, hf, rfl, rfl⟩
  · rw [List.map_map]
    exact h

theorem contains_ofManifests {ms : List Manifest} {path : String} :
    (ofManifests ms).contains path = true ↔ ∃ f ∈ liveFiles ms, f.path = path := by
  rw [ofManifests_eq, SortedMap.contains_ofList]
  simp [eq_comm]

theorem checkPaths_eq_ok {live : LiveFiles} {paths : List String} :
    live.checkPaths paths = .ok () ↔ ∀ path ∈ paths, live.contains path = true := by
  induction paths with
  | nil => simp [checkPaths]
  | cons path paths ih =>
    rw [checkPaths]
    split
    next h => simp [ih, h]
    next h => simp [h]

/-- A filter matches all rows of the files at these paths, and no row of any other. -/
theorem matched_eq_ok {filter : BoundFilter} {spec : PartitionSpec} {l : List (String × DataFile)}
    {paths : List String} (h : matched filter spec l = .ok paths) :
    (∀ path, path ∈ paths ↔ ∃ f, (path, f) ∈ l ∧ filter.allRowsMatch spec f = true) ∧
      ∀ path f, (path, f) ∈ l → filter.allRowsMatch spec f = false →
        filter.mightMatch spec f = false := by
  induction l generalizing paths with
  | nil =>
    obtain rfl := Except.ok.inj h
    simp
  | cons head l ih =>
    obtain ⟨first, f⟩ := head
    rw [matched] at h
    split at h
    next hall =>
      cases hrest : matched filter spec l with
      | error e =>
        rw [hrest] at h
        exact absurd h (by simp [bind, Except.bind])
      | ok rest =>
        rw [hrest] at h
        obtain rfl := Except.ok.inj h
        obtain ⟨hmem, hother⟩ := ih hrest
        constructor
        · intro path
          rw [List.mem_cons, hmem]
          grind
        · grind
    next hall =>
      -- A file of which only some rows might match would have been refused.
      split at h
      next => exact absurd h (by simp)
      next hmight =>
        obtain ⟨hmem, hother⟩ := ih h
        constructor
        · intro path
          rw [hmem]
          grind
        · grind

end LiveFiles

theorem contains_pathSet {paths : List String} {path : String} :
    (pathSet paths).contains path = true ↔ path ∈ paths := by
  rw [pathSet, SortedMap.contains_ofList]
  simp

/-- A staged manifest is for the spec, and has entries for added files only. -/
theorem checkStaged_eq_ok {spec : PartitionSpec} {path : String} {m : Manifest} :
    checkStaged spec path m = .ok () ↔
      m.specId = spec.specId ∧ ∀ e ∈ m.entries, e.status = .added := by
  rw [checkStaged]
  split
  next h => simp [h]
  next h =>
    split
    next hany => simpa [Decidable.not_not.1 h] using hany
    next hall => simpa [Decidable.not_not.1 h] using hall

/-- The arriving files have the right number of slots and paths of their own. -/
theorem checkAdded_eq_ok {spec : PartitionSpec} {live : LiveFiles} {seen : SortedMap String Unit}
    {files : List DataFile} : checkAdded spec live seen files = .ok () ↔
      (∀ f ∈ files, f.partition.length = spec.fields.length ∧ live.contains f.path = false ∧
        seen.contains f.path = false) ∧ OncePerPath files := by
  induction files generalizing seen with
  | nil => simp [checkAdded, OncePerPath]
  | cons f files ih =>
    have hinsert : ∀ path, (seen.insert f.path ()).contains path = false ↔
        path ≠ f.path ∧ seen.contains path = false := by
      intro path
      by_cases hpath : path = f.path
      · subst hpath
        simp [SortedMap.contains, SortedMap.find?_insert_self]
      · simp [SortedMap.contains, SortedMap.find?_insert_of_ne _ _ hpath, hpath]
    rw [checkAdded]
    split
    next h => simp [h]
    next hslots =>
      split
      next h => simp [h]
      next hlive =>
        split
        next h => simp [h]
        next hseen =>
          simp only [ih, hinsert, OncePerPath, List.map_cons, List.nodup_cons, List.mem_map,
            List.forall_mem_cons]
          grind

/-! ### What a change does to the live files -/

namespace Table

open Script

variable {root : Location} {files : Tree} {u : Table} {operation : Operation}
  {changes : FileChanges} {p : Plan}

theorem Plan.liveFiles_additions (spec : PartitionSpec) :
    liveFiles (p.additions spec) = p.added := by
  rw [Plan.additions]
  split
  next h => rw [List.isEmpty_iff.1 h, liveFiles_nil]
  next =>
    rw [liveFiles_cons, liveFiles_nil, List.append_nil, Manifest.liveFiles_of_added (by simp),
      List.map_map]
    exact List.map_id' _

/-- The manifests of the base that are written anew, and those that are carried over, have
the base's files without those removed. -/
theorem Plan.liveFiles_rewritten_append_carried (p : Plan) :
    (liveFiles p.rewritten ++ liveFiles (p.carried.map Prod.snd)).Perm
      ((liveFiles (p.manifests.map Prod.snd)).filter fun f => !p.removed.contains f.path) := by
  rw [Plan.rewritten, Plan.touched, Plan.carried]
  induction p.manifests with
  | nil => simp
  | cons b bs ih =>
    rw [List.map_cons, liveFiles_cons, List.filter_append]
    cases htouched : b.2.mentions p.removed with
    | true =>
      simp only [List.filter_cons, htouched, if_true, Bool.not_true, Bool.and_false,
        Bool.false_eq_true, if_false, List.map_cons, liveFiles_cons, Manifest.liveFiles_removing,
        List.append_assoc]
      exact ih.append_left _
    | false =>
      rw [Manifest.mentions_eq_false htouched]
      cases hempty : b.2.hasNoLiveEntries with
      | true =>
        simp only [List.filter_cons, htouched, hempty, Bool.not_true, Bool.false_and,
          Bool.false_eq_true, if_false, Manifest.liveFiles_of_hasNoLiveEntries hempty,
          List.nil_append]
        exact ih
      | false =>
        simp only [List.filter_cons, htouched, hempty, Bool.not_false, Bool.and_self,
          Bool.false_eq_true, if_false, if_true, List.map_cons, liveFiles_cons]
        exact (List.perm_append_comm_assoc _ _ _).trans (ih.append_left _)

/-- After a change, the arriving files are live, and the files before without those removed. -/
theorem Planned.liveFiles_after (h : Planned root files u operation changes p)
    (inherits : Bool) :
    (liveFiles ((p.manifestsAfter u.spec inherits).map Prod.snd)).Perm
      (p.arriving ++
        (liveFiles (p.manifests.map Prod.snd)).filter fun f => !p.removed.contains f.path) := by
  have hstaged : liveFiles (p.staged.map fun s => s.manifest.inherit p.id) =
      p.staged.flatMap fun s => s.manifest.entries.map (·.file) := by
    rw [liveFiles, List.flatMap_map]
    refine List.flatMap_congr fun s hs => ?_
    have hadded := (checkStaged_eq_ok.1 (perform_readStaged_iff.1 (h.staged s hs)).2.2).2
    rw [Manifest.liveFiles_inherit, Manifest.liveFiles_of_added hadded]
  rw [p.map_manifestsAfter, liveFiles_append, liveFiles_append, liveFiles_append, Plan.liveFiles_additions,
    hstaged]
  exact p.liveFiles_rewritten_append_carried.append_left _

/-- A change leaves no path live twice. -/
theorem Planned.oncePerPath_after (h : Planned root files u operation changes p)
    (hbase : OncePerPath (liveFiles (p.manifests.map Prod.snd))) (inherits : Bool) :
    OncePerPath (liveFiles ((p.manifestsAfter u.spec inherits).map Prod.snd)) := by
  obtain ⟨hfresh, honce⟩ := checkAdded_eq_ok.1 h.distinct
  refine OncePerPath.perm ?_ (h.liveFiles_after inherits).symm
  rw [OncePerPath, List.map_append, List.nodup_append]
  refine ⟨honce, hbase.sublist (List.filter_sublist.map _), ?_⟩
  rintro path harriving other hkept rfl
  obtain ⟨f, hf, rfl⟩ := List.mem_map.1 harriving
  obtain ⟨g, hg, hsame⟩ := List.mem_map.1 hkept
  have hin := LiveFiles.contains_ofManifests.2 ⟨g, List.mem_of_mem_filter hg, hsame⟩
  exact absurd hin (by rw [← Plan.live, (hfresh f hf).2.1]; simp)

/-- As a map, the files after a change are those before, without those removed, and with
those that arrive. -/
theorem Planned.live_after (h : Planned root files u operation changes p)
    (hbase : OncePerPath (liveFiles (p.manifests.map Prod.snd))) (inherits : Bool) :
    LiveFiles.ofManifests ((p.manifestsAfter u.spec inherits).map Prod.snd) =
      (p.live.without p.removed).insertAll (p.arriving.map fun f => (f.path, f)) := by
  obtain ⟨hfresh, honce⟩ := checkAdded_eq_ok.1 h.distinct
  have hnodup : ((p.arriving.map fun f => (f.path, f)).map Prod.fst).Nodup := by
    rw [List.map_map]
    exact honce
  apply SortedMap.ext_find?
  intro path
  ext f
  rw [LiveFiles.find?_ofManifests (h.oncePerPath_after hbase inherits),
    (h.liveFiles_after inherits).mem_iff, List.mem_append, List.mem_filter]
  -- A file arrives only at a path where none was live.
  by_cases harriving : ∃ g ∈ p.arriving, g.path = path
  · obtain ⟨g, hg, rfl⟩ := harriving
    have hnew := (hfresh g hg).2.1
    have hold : ¬ ∃ f ∈ liveFiles (p.manifests.map Prod.snd), f.path = g.path := by
      rw [← LiveFiles.contains_ofManifests, ← Plan.live, hnew]
      simp
    rw [SortedMap.find?_insertAll_of_mem hnodup (List.mem_map.2 ⟨g, hg, rfl⟩)]
    constructor
    · rintro ⟨hf | hf, hpath⟩
      · exact congrArg some (List.inj_on_of_nodup_map honce hg hf hpath.symm)
      · exact absurd ⟨f, hf.1, hpath⟩ hold
    · intro he
      obtain rfl := Option.some.inj he
      exact ⟨.inl hg, rfl⟩
  · have hnone : ∀ g, (path, g) ∉ p.arriving.map fun f => (f.path, f) := by
      intro g hg
      obtain ⟨g', hg', he⟩ := List.mem_map.1 hg
      exact harriving ⟨g', hg', (Prod.mk.inj he).1⟩
    rw [SortedMap.find?_insertAll_of_not_mem hnone, LiveFiles.without, SortedMap.find?_filter,
      Option.filter_eq_some_iff, Plan.live, LiveFiles.find?_ofManifests hbase]
    grind

end Table

end Lakehouse
