import Lakehouse.Proofs.Table.Live

/- The changes that snapshots tell.

   Who follows a table from snapshot to snapshot reads the entries of each: those that a
   snapshot has added are the files that are live in it and were not in its parent, and those
   that it has deleted are the files that were live in its parent and are not in it. The id in
   a live entry tells since when the file is live (`LiveSince`), through every manifest that
   was carried over, copied or written anew in between. All this is `IsFeed` for one snapshot,
   and `Feeds` for a table.

   A feed looks back only, so it stays one when another snapshot is registered
   (`Feeds.insert`); the new snapshot is one because of what its plan does with the entries of
   its base (`Planned.isFeed`): the arriving files come with its id, of the others the removed
   ones get it, and all the rest keep theirs. -/
namespace Lakehouse

/-- The files of the live entries. -/
def liveAmong (entries : List ManifestEntry) : List DataFile :=
  (entries.filter fun e => e.isLive).map (·.file)

/-- The paths of the live entries. -/
def livePaths (entries : List ManifestEntry) : List String := (liveAmong entries).map DataFile.path

/-- The files that the snapshot with this id has brought to a status. -/
def changedBy (id : SnapshotId) (status : EntryStatus) (entries : List ManifestEntry) :
    List DataFile :=
  (entries.filter fun e => e.status = status ∧ e.snapshotId = some id).map (·.file)

/-- The entries of the parent; there are none without one. -/
def entriesBefore (entries : SnapshotId → List ManifestEntry) :
    Option SnapshotId → List ManifestEntry
  | none => []
  | some parent => entries parent

/-- In the chain of parents that starts at a snapshot, the path was last brought in by another:
it is live from there on, and was not live before. -/
inductive LiveSince (snapshots : Snapshots) (entries : SnapshotId → List ManifestEntry)
    (path : String) : SnapshotId → SnapshotId → Prop where
  | here {id : SnapshotId} {s : Snapshot} (registered : snapshots.find? id = some s)
      (live : path ∈ livePaths (entries id))
      (new : path ∉ livePaths (entriesBefore entries s.parentId)) :
      LiveSince snapshots entries path id id
  | before {id parent origin : SnapshotId} {s : Snapshot}
      (registered : snapshots.find? id = some s) (child : s.parentId = some parent)
      (live : path ∈ livePaths (entries id))
      (earlier : LiveSince snapshots entries path parent origin) :
      LiveSince snapshots entries path id origin

/-- The entries of a snapshot tell how its live files differ from those of its parent, and the
entry of a live file tells since when it is live. -/
structure IsFeed (snapshots : Snapshots) (entries : SnapshotId → List ManifestEntry)
    (id : SnapshotId) (s : Snapshot) : Prop where
  parent : ∀ parent, s.parentId = some parent → snapshots.contains parent = true
  made : ∀ e ∈ entries id, ∃ origin, e.snapshotId = some origin ∧
    snapshots.contains origin = true
  added : (changedBy id .added (entries id)).Perm
    ((liveAmong (entries id)).filter fun f =>
      f.path ∉ livePaths (entriesBefore entries s.parentId))
  deleted : (changedBy id .deleted (entries id)).Perm
    ((liveAmong (entriesBefore entries s.parentId)).filter fun f =>
      f.path ∉ livePaths (entries id))
  kept : ∀ f ∈ liveAmong (entries id), f.path ∈ livePaths (entriesBefore entries s.parentId) →
    f ∈ liveAmong (entriesBefore entries s.parentId)
  since : ∀ e ∈ entries id, e.isLive = true → ∃ origin, e.snapshotId = some origin ∧
    LiveSince snapshots entries e.file.path id origin

/-- All snapshots tell the changes. -/
def Feeds (snapshots : Snapshots) (entries : SnapshotId → List ManifestEntry) : Prop :=
  ∀ id s, snapshots.find? id = some s → IsFeed snapshots entries id s

/-! ### More snapshots -/

section More

variable {snapshots snapshots' : Snapshots} {entries entries' : SnapshotId → List ManifestEntry}

theorem entriesBefore_congr (h : ∀ id, snapshots.contains id = true → entries' id = entries id)
    {parent? : Option SnapshotId}
    (hparent : ∀ parent, parent? = some parent → snapshots.contains parent = true) :
    entriesBefore entries' parent? = entriesBefore entries parent? := by
  cases parent? with
  | none => rfl
  | some parent => exact h parent (hparent parent rfl)

/-- Snapshots that come later, with entries of their own, do not change what was. -/
theorem LiveSince.extend (hfeeds : Feeds snapshots entries)
    (hkept : ∀ id s, snapshots.find? id = some s → snapshots'.find? id = some s)
    (hsame : ∀ id, snapshots.contains id = true → entries' id = entries id) {path : String}
    {id origin : SnapshotId} (h : LiveSince snapshots entries path id origin) :
    LiveSince snapshots' entries' path id origin := by
  induction h with
  | @here id s registered live new =>
    have hid := hsame id (SortedMap.contains_iff.2 ⟨s, registered⟩)
    refine .here (hkept id s registered) (hid ▸ live) ?_
    rwa [entriesBefore_congr hsame (hfeeds id s registered).parent]
  | @before id parent origin s registered child live earlier ih =>
    have hid := hsame id (SortedMap.contains_iff.2 ⟨s, registered⟩)
    exact .before (hkept id s registered) child (hid ▸ live) ih

theorem Feeds.extend (hfeeds : Feeds snapshots entries)
    (hkept : ∀ id s, snapshots.find? id = some s → snapshots'.find? id = some s)
    (hsame : ∀ id, snapshots.contains id = true → entries' id = entries id) {id : SnapshotId}
    {s : Snapshot} (hs : snapshots.find? id = some s) : IsFeed snapshots' entries' id s := by
  have h := hfeeds id s hs
  have hid : entries' id = entries id := hsame id (SortedMap.contains_iff.2 ⟨s, hs⟩)
  have hbefore := entriesBefore_congr hsame h.parent
  have hcontains : ∀ other, snapshots.contains other = true → snapshots'.contains other = true := by
    intro other hother
    obtain ⟨r, hr⟩ := SortedMap.contains_iff.1 hother
    exact SortedMap.contains_iff.2 ⟨r, hkept other r hr⟩
  constructor
  · exact fun parent hparent => hcontains parent (h.parent parent hparent)
  · intro e he
    obtain ⟨origin, horigin, hin⟩ := h.made e (hid ▸ he)
    exact ⟨origin, horigin, hcontains origin hin⟩
  · rw [hid, hbefore]
    exact h.added
  · rw [hid, hbefore]
    exact h.deleted
  · rw [hid, hbefore]
    exact h.kept
  · intro e he hlive
    obtain ⟨origin, horigin, hsince⟩ := h.since e (hid ▸ he) hlive
    exact ⟨origin, horigin, hsince.extend hfeeds hkept hsame⟩

/-- An entry from before a snapshot is one of its parent, and comes from a snapshot. -/
theorem Feeds.exists_parent (hfeeds : Feeds snapshots entries) {parent? : Option SnapshotId}
    (hparent : ∀ parent, parent? = some parent → snapshots.contains parent = true)
    {e : ManifestEntry} (he : e ∈ entriesBefore entries parent?) :
    ∃ parent s origin, parent? = some parent ∧ snapshots.find? parent = some s ∧
      e ∈ entries parent ∧ e.snapshotId = some origin ∧ snapshots.contains origin = true := by
  cases parent? with
  | none => exact absurd he (by simp [entriesBefore])
  | some parent =>
    obtain ⟨s, hs⟩ := SortedMap.contains_iff.1 (hparent parent rfl)
    obtain ⟨origin, horigin, hin⟩ := (hfeeds parent s hs).made e he
    exact ⟨parent, s, origin, rfl, hs, he, horigin, hin⟩

end More

/-! ### The entries of a change -/

/-- All entries of some manifests. -/
def entriesIn (ms : List Manifest) : List ManifestEntry := ms.flatMap Manifest.entries

@[simp] theorem entriesIn_append (ms ns : List Manifest) :
    entriesIn (ms ++ ns) = entriesIn ms ++ entriesIn ns := List.flatMap_append

theorem liveAmong_append (es fs : List ManifestEntry) :
    liveAmong (es ++ fs) = liveAmong es ++ liveAmong fs := by
  simp [liveAmong]

theorem liveAmong_entriesIn (ms : List Manifest) : liveAmong (entriesIn ms) = liveFiles ms := by
  simp only [liveAmong, entriesIn, List.filter_flatMap, List.map_flatMap]
  rfl

@[simp] theorem changedBy_append (id : SnapshotId) (status : EntryStatus)
    (es fs : List ManifestEntry) :
    changedBy id status (es ++ fs) = changedBy id status es ++ changedBy id status fs := by
  simp [changedBy]

theorem changedBy_eq_nil {id : SnapshotId} {status : EntryStatus} {es : List ManifestEntry}
    (h : ∀ e ∈ es, e.status ≠ status ∨ e.snapshotId ≠ some id) : changedBy id status es = [] := by
  rw [changedBy, List.map_eq_nil_iff, List.filter_eq_nil_iff]
  intro e he
  have := h e he
  simpa [imp_iff_not_or] using this

theorem mem_livePaths {es : List ManifestEntry} {path : String} :
    path ∈ livePaths es ↔ ∃ f ∈ liveAmong es, f.path = path := List.mem_map

theorem path_mem_livePaths {es : List ManifestEntry} {e : ManifestEntry} (he : e ∈ es)
    (hlive : e.isLive = true) : e.file.path ∈ livePaths es :=
  List.mem_map_of_mem (List.mem_map_of_mem (List.mem_filter.2 ⟨he, hlive⟩))

namespace Table

open Script

variable {root : Location} {files : Tree} {u : Table} {operation : Operation}
  {changes : FileChanges} {p : Plan}

/-- No entry of a staged manifest has an id. -/
def Plan.AdoptsUnnamed (p : Plan) : Prop :=
  ∀ s ∈ p.staged, ∀ e ∈ s.manifest.entries, e.snapshotId = none

/-- The entry with which a file arrives. -/
def Plan.arrival (p : Plan) (f : DataFile) : ManifestEntry := ⟨.added, some p.id, f⟩

theorem Plan.liveAmong_arrivals (p : Plan) (fs : List DataFile) :
    liveAmong (fs.map p.arrival) = fs := by
  rw [liveAmong, List.filter_eq_self.2, List.map_map]
  · exact List.map_id' fs
  · intro e he
    obtain ⟨f, -, rfl⟩ := List.mem_map.1 he
    rfl

theorem Plan.entriesIn_additions (p : Plan) (spec : PartitionSpec) :
    entriesIn (p.additions spec) = p.added.map p.arrival := by
  rw [additions]
  split
  next h =>
    rw [List.isEmpty_iff.1 h]
    rfl
  next => exact List.append_nil _

theorem Planned.entriesIn_adopted (h : Planned root files u operation changes p)
    (hunnamed : p.AdoptsUnnamed) :
    entriesIn (p.staged.map fun s => s.manifest.inherit p.id) =
      (p.staged.flatMap fun s => s.manifest.entries.map (·.file)).map p.arrival := by
  rw [entriesIn, List.flatMap_map, List.map_flatMap]
  refine List.flatMap_congr fun s hs => ?_
  have hadded := (checkStaged_eq_ok.1 (perform_readStaged_iff.1 (h.staged s hs)).2.2).2
  rw [Manifest.inherit, List.map_map]
  refine List.map_congr_left fun e he => ?_
  rw [ManifestEntry.inherit, hunnamed s hs e he, Function.comp, Plan.arrival, ← hadded e he]
  rfl

/-- The files that arrive have entries of their own; the entries of the base are in manifests
that are written anew or carried over. -/
theorem Planned.entries_after (h : Planned root files u operation changes p)
    (hunnamed : p.AdoptsUnnamed) (inherits : Bool) :
    entriesIn ((p.manifestsAfter u.spec inherits).map Prod.snd) =
      p.arriving.map p.arrival ++ (entriesIn p.rewritten ++ entriesIn (p.carried.map Prod.snd)) := by
  rw [p.map_manifestsAfter, entriesIn_append, entriesIn_append, entriesIn_append, p.entriesIn_additions,
    h.entriesIn_adopted hunnamed, Plan.arriving, List.map_append]

/-- An entry that is written anew stands for a live entry of the base: it is deleted by the new
snapshot, or it exists as before. -/
theorem Plan.mem_rewritten {e : ManifestEntry} (he : e ∈ entriesIn p.rewritten) :
    ∃ e₀ ∈ entriesIn (p.manifests.map Prod.snd), e₀.isLive = true ∧ e.file = e₀.file ∧
      (e.status = .deleted ∧ e.snapshotId = some p.id ∨
        e.status = .existing ∧ e.snapshotId = e₀.snapshotId ∧
          p.removed.contains e₀.file.path = false) := by
  obtain ⟨m, hm, he⟩ := List.mem_flatMap.1 he
  obtain ⟨b, hb, rfl⟩ := List.mem_map.1 hm
  obtain ⟨e₀, he₀, rfl⟩ := List.mem_map.1 he
  obtain ⟨hin, hlive⟩ := List.mem_filter.1 he₀
  have hbase : e₀ ∈ entriesIn (p.manifests.map Prod.snd) :=
    List.mem_flatMap.2 ⟨b.2, List.mem_map_of_mem (List.mem_of_mem_filter hb), hin⟩
  refine ⟨e₀, hbase, hlive, ?_⟩
  split
  next => exact ⟨rfl, .inl ⟨rfl, rfl⟩⟩
  next hkept => exact ⟨rfl, .inr ⟨rfl, rfl, by simpa using hkept⟩⟩

/-- An entry that is carried over is one of the base, and it is not for a removed file if it
is live. -/
theorem Plan.mem_carried {e : ManifestEntry} (he : e ∈ entriesIn (p.carried.map Prod.snd)) :
    e ∈ entriesIn (p.manifests.map Prod.snd) ∧
      (e.isLive = true → p.removed.contains e.file.path = false) := by
  obtain ⟨m, hm, he⟩ := List.mem_flatMap.1 he
  obtain ⟨b, hb, rfl⟩ := List.mem_map.1 hm
  obtain ⟨hin, hcarried⟩ := List.mem_filter.1 hb
  refine ⟨List.mem_flatMap.2 ⟨b.2, List.mem_map_of_mem hin, he⟩, fun hlive => ?_⟩
  have huntouched : b.2.mentions p.removed = false := by
    simpa using (Bool.and_eq_true_iff.1 hcarried).2
  rw [Manifest.mentions, List.any_eq_false] at huntouched
  simpa using huntouched e (List.mem_filter.2 ⟨he, hlive⟩)

/-- The files that the new snapshot deletes are the live ones at the removed paths. -/
theorem Plan.changedBy_rewritten (p : Plan) : changedBy p.id .deleted (entriesIn p.rewritten) =
    (liveFiles (p.manifests.map Prod.snd)).filter fun f => p.removed.contains f.path := by
  rw [rewritten, touched]
  induction p.manifests with
  | nil => rfl
  | cons b bs ih =>
    have hone : changedBy p.id .deleted (b.2.removing p.removed p.id).entries =
        b.2.liveFiles.filter fun f => p.removed.contains f.path := by
      rw [Manifest.removing, Manifest.liveFiles, changedBy]
      generalize b.2.liveEntries = es
      induction es with
      | nil => rfl
      | cons e es ih =>
        cases hremoved : p.removed.contains e.file.path with
        | true => simpa [hremoved] using ih
        | false => simpa [hremoved] using ih
    rw [List.map_cons, liveFiles_cons, List.filter_append]
    cases htouched : b.2.mentions p.removed with
    | true =>
      simp only [List.filter_cons, htouched, if_true, List.map_cons]
      rw [← hone, ← ih]
      exact changedBy_append _ _ _ _
    | false =>
      have hnone : b.2.liveFiles.filter (fun f => p.removed.contains f.path) = [] := by
        rw [List.filter_eq_nil_iff]
        intro f hf
        rw [← Manifest.mentions_eq_false htouched] at hf
        simpa using (List.mem_filter.1 hf).2
      simp only [List.filter_cons, htouched, Bool.false_eq_true, if_false, hnone, List.nil_append]
      exact ih

/-- The entries after a change. -/
def Plan.entriesAfter (p : Plan) (spec : PartitionSpec) (inherits : Bool) : List ManifestEntry :=
  entriesIn ((p.manifestsAfter spec inherits).map Prod.snd)

/-- The entries that the change builds on. -/
def Plan.entriesBase (p : Plan) : List ManifestEntry := entriesIn (p.manifests.map Prod.snd)

/-- What is added by the new snapshot is what arrives: whatever else has been added was
added by others. -/
theorem Planned.added_after (h : Planned root files u operation changes p)
    (hunnamed : p.AdoptsUnnamed) (hothers : ∀ e ∈ p.entriesBase, e.snapshotId ≠ some p.id)
    (inherits : Bool) : changedBy p.id .added (p.entriesAfter u.spec inherits) = p.arriving := by
  have harriving : changedBy p.id .added (p.arriving.map p.arrival) = p.arriving := by
    rw [changedBy, List.filter_eq_self.2 (by simp [Plan.arrival]), List.map_map]
    exact List.map_id' _
  have hrewritten : changedBy p.id .added (entriesIn p.rewritten) = [] := by
    refine changedBy_eq_nil fun e he => .inl ?_
    obtain ⟨e₀, -, -, -, ⟨hstatus, -⟩ | ⟨hstatus, -⟩⟩ := p.mem_rewritten he
    · rw [hstatus]
      decide
    · rw [hstatus]
      decide
  have hcarried : changedBy p.id .added (entriesIn (p.carried.map Prod.snd)) = [] :=
    changedBy_eq_nil fun e he => .inr (hothers e (p.mem_carried he).1)
  rw [Plan.entriesAfter, h.entries_after hunnamed, changedBy_append, changedBy_append, harriving,
    hrewritten, hcarried, List.append_nil, List.append_nil]

/-- What is deleted by the new snapshot is what was live at the removed paths. -/
theorem Planned.deleted_after (h : Planned root files u operation changes p)
    (hunnamed : p.AdoptsUnnamed) (hothers : ∀ e ∈ p.entriesBase, e.snapshotId ≠ some p.id)
    (inherits : Bool) : changedBy p.id .deleted (p.entriesAfter u.spec inherits) =
      (liveAmong p.entriesBase).filter fun f => p.removed.contains f.path := by
  have harriving : changedBy p.id .deleted (p.arriving.map p.arrival) = [] := by
    refine changedBy_eq_nil fun e he => .inl ?_
    obtain ⟨f, -, rfl⟩ := List.mem_map.1 he
    exact (by decide : EntryStatus.added ≠ .deleted)
  have hcarried : changedBy p.id .deleted (entriesIn (p.carried.map Prod.snd)) = [] :=
    changedBy_eq_nil fun e he => .inr (hothers e (p.mem_carried he).1)
  rw [Plan.entriesAfter, h.entries_after hunnamed, changedBy_append, changedBy_append, harriving,
    hcarried, p.changedBy_rewritten, List.append_nil, List.nil_append, Plan.entriesBase,
    liveAmong_entriesIn]

theorem Planned.liveAmong_after (h : Planned root files u operation changes p) (inherits : Bool) :
    (liveAmong (p.entriesAfter u.spec inherits)).Perm
      (p.arriving ++ (liveAmong p.entriesBase).filter fun f => !p.removed.contains f.path) := by
  rw [Plan.entriesAfter, Plan.entriesBase, liveAmong_entriesIn, liveAmong_entriesIn]
  exact h.liveFiles_after inherits

/-- No file arrives at a path that is live before. -/
theorem Planned.not_live_before (h : Planned root files u operation changes p) {f : DataFile}
    (hf : f ∈ p.arriving) : f.path ∉ livePaths p.entriesBase := by
  have hfree := ((checkAdded_eq_ok.1 h.distinct).1 f hf).2.1
  rw [mem_livePaths, Plan.entriesBase, liveAmong_entriesIn, ← LiveFiles.contains_ofManifests,
    ← Plan.live, hfree]
  simp

/-- A path that is live before is live afterwards if it is not removed. -/
theorem Planned.live_after_iff (h : Planned root files u operation changes p) (inherits : Bool)
    {f : DataFile} (hf : f ∈ liveAmong p.entriesBase) :
    f.path ∈ livePaths (p.entriesAfter u.spec inherits) ↔ p.removed.contains f.path = false := by
  have hperm := h.liveAmong_after inherits
  constructor
  · intro hlive
    obtain ⟨g, hg, hpath⟩ := mem_livePaths.1 hlive
    rcases List.mem_append.1 (hperm.mem_iff.1 hg) with harriving | hkept
    · exact absurd (mem_livePaths.2 ⟨f, hf, hpath.symm⟩) (h.not_live_before harriving)
    · rw [← hpath]
      simpa using (List.mem_filter.1 hkept).2
  · intro hkept
    refine mem_livePaths.2 ⟨f, hperm.mem_iff.2 (List.mem_append_right _ ?_), rfl⟩
    exact List.mem_filter.2 ⟨hf, by simpa using hkept⟩

/-- A live file that does not arrive was live before. -/
theorem Planned.mem_before (h : Planned root files u operation changes p) (inherits : Bool)
    {f : DataFile} (hf : f ∈ liveAmong (p.entriesAfter u.spec inherits))
    (hbefore : f.path ∈ livePaths p.entriesBase) : f ∈ liveAmong p.entriesBase := by
  rcases List.mem_append.1 ((h.liveAmong_after inherits).mem_iff.1 hf) with harriving | hkept
  · exact absurd hbefore (h.not_live_before harriving)
  · exact List.mem_of_mem_filter hkept

/-- An entry after a change is that of an arriving file, that of a removed one, or stands for an
entry of the base whose file stays if it is live. -/
theorem Planned.mem_entriesAfter (h : Planned root files u operation changes p)
    (hunnamed : p.AdoptsUnnamed) {inherits : Bool} {e : ManifestEntry}
    (he : e ∈ p.entriesAfter u.spec inherits) :
    (∃ f ∈ p.arriving, e = p.arrival f) ∨ (e.status = .deleted ∧ e.snapshotId = some p.id) ∨
      ∃ e₀ ∈ p.entriesBase, e.file = e₀.file ∧ e.snapshotId = e₀.snapshotId ∧
        (e.isLive = true → e₀.isLive = true ∧ p.removed.contains e₀.file.path = false) := by
  rw [Plan.entriesAfter, h.entries_after hunnamed, List.mem_append, List.mem_append] at he
  rcases he with he | he | he
  · obtain ⟨f, hf, rfl⟩ := List.mem_map.1 he
    exact .inl ⟨f, hf, rfl⟩
  · obtain ⟨e₀, he₀, hlive₀, hfile, hdeleted | ⟨-, hid, hnot⟩⟩ := p.mem_rewritten he
    · exact .inr (.inl hdeleted)
    · exact .inr (.inr ⟨e₀, he₀, hfile, hid, fun _ => ⟨hlive₀, hnot⟩⟩)
  · obtain ⟨hin, hnot⟩ := p.mem_carried he
    exact .inr (.inr ⟨e, hin, rfl, rfl, fun hlive => ⟨hlive, hnot hlive⟩⟩)

/-- What the new snapshot has added is what is live afterwards and was not before. -/
theorem Planned.added_perm (h : Planned root files u operation changes p)
    (hunnamed : p.AdoptsUnnamed) (hothers : ∀ e ∈ p.entriesBase, e.snapshotId ≠ some p.id)
    (inherits : Bool) :
    (changedBy p.id .added (p.entriesAfter u.spec inherits)).Perm
      ((liveAmong (p.entriesAfter u.spec inherits)).filter fun f =>
        f.path ∉ livePaths p.entriesBase) := by
  rw [h.added_after hunnamed hothers]
  refine List.Perm.symm (((h.liveAmong_after inherits).filter _).trans (List.Perm.of_eq ?_))
  rw [List.filter_append, List.filter_eq_self.2, List.filter_eq_nil_iff.2, List.append_nil]
  · intro f hf
    simpa using mem_livePaths.2 ⟨f, List.mem_of_mem_filter hf, rfl⟩
  · intro f hf
    simpa using h.not_live_before hf

/-- What it has deleted is what was live before and is not afterwards. -/
theorem Planned.deleted_perm (h : Planned root files u operation changes p)
    (hunnamed : p.AdoptsUnnamed) (hothers : ∀ e ∈ p.entriesBase, e.snapshotId ≠ some p.id)
    (inherits : Bool) :
    (changedBy p.id .deleted (p.entriesAfter u.spec inherits)).Perm
      ((liveAmong p.entriesBase).filter fun f =>
        f.path ∉ livePaths (p.entriesAfter u.spec inherits)) := by
  rw [h.deleted_after hunnamed hothers]
  refine List.Perm.of_eq (List.filter_congr fun f hf => ?_)
  have hiff := h.live_after_iff inherits hf
  cases hremoved : p.removed.contains f.path with
  | true => simp [hiff, hremoved]
  | false => simp [hiff, hremoved]

/-- The new snapshot tells its changes. -/
theorem Planned.isFeed (h : Planned root files u operation changes p) (hunnamed : p.AdoptsUnnamed)
    (inherits : Bool) {snapshots : Snapshots} {entries entries' : SnapshotId → List ManifestEntry}
    {s : Snapshot} (hfeeds : Feeds u.snapshots entries)
    (hparent : ∀ parent, s.parentId = some parent → u.snapshots.contains parent = true)
    (hbase : entriesBefore entries s.parentId = p.entriesBase)
    (hnew : snapshots.find? p.id = some s)
    (hkept : ∀ id s, u.snapshots.find? id = some s → snapshots.find? id = some s)
    (hafter : entries' p.id = p.entriesAfter u.spec inherits)
    (hsame : ∀ id, u.snapshots.contains id = true → entries' id = entries id) :
    IsFeed snapshots entries' p.id s := by
  have hcontains : ∀ id, u.snapshots.contains id = true → snapshots.contains id = true := by
    intro id hid
    obtain ⟨r, hr⟩ := SortedMap.contains_iff.1 hid
    exact SortedMap.contains_iff.2 ⟨r, hkept id r hr⟩
  have hself : snapshots.contains p.id = true := SortedMap.contains_iff.2 ⟨s, hnew⟩
  have hbefore : entriesBefore entries' s.parentId = p.entriesBase :=
    (entriesBefore_congr hsame hparent).trans hbase
  -- The entries of the base are those of a snapshot that tells its changes.
  have hold : ∀ e ∈ p.entriesBase, ∃ parent r origin, s.parentId = some parent ∧
      u.snapshots.find? parent = some r ∧ e ∈ entries parent ∧ e.snapshotId = some origin ∧
      u.snapshots.contains origin = true :=
    fun e he => hfeeds.exists_parent hparent (hbase ▸ he)
  have hothers : ∀ e ∈ p.entriesBase, e.snapshotId ≠ some p.id := by
    intro e he hid
    obtain ⟨-, -, origin, -, -, -, horigin, hin⟩ := hold e he
    obtain rfl := Option.some.inj (horigin.symm.trans hid)
    exact absurd hin (by rw [nextId_fresh h.next]; simp)
  -- What is live since some snapshot stays so if it is live now.
  have hsince : ∀ e ∈ p.entriesBase, e.isLive = true → p.removed.contains e.file.path = false →
      ∃ origin, e.snapshotId = some origin ∧
        LiveSince snapshots entries' e.file.path p.id origin := by
    intro e he hlive hnot
    obtain ⟨parent, r, -, hp, hr, hin, -, -⟩ := hold e he
    obtain ⟨origin, horigin, hsince⟩ := (hfeeds parent r hr).since e hin hlive
    refine ⟨origin, horigin, .before hnew hp ?_ (hsince.extend hfeeds hkept hsame)⟩
    rw [hafter]
    exact (h.live_after_iff inherits (List.mem_map_of_mem (List.mem_filter.2 ⟨he, hlive⟩))).2 hnot
  constructor
  case parent => exact fun parent hp => hcontains parent (hparent parent hp)
  case made =>
    intro e he
    rcases h.mem_entriesAfter hunnamed (hafter ▸ he) with
      ⟨f, -, rfl⟩ | ⟨-, hid⟩ | ⟨e₀, he₀, -, hid, -⟩
    · exact ⟨p.id, rfl, hself⟩
    · exact ⟨p.id, hid, hself⟩
    · obtain ⟨-, -, origin, -, -, -, horigin, hin⟩ := hold e₀ he₀
      exact ⟨origin, hid.trans horigin, hcontains origin hin⟩
  case added =>
    rw [hafter, hbefore]
    exact h.added_perm hunnamed hothers inherits
  case deleted =>
    rw [hafter, hbefore]
    exact h.deleted_perm hunnamed hothers inherits
  case kept =>
    rw [hafter, hbefore]
    exact fun f hf => h.mem_before inherits hf
  case since =>
    intro e he hlive
    have hpath : e.file.path ∈ livePaths (entries' p.id) := path_mem_livePaths he hlive
    rcases h.mem_entriesAfter hunnamed (hafter ▸ he) with
      ⟨f, hf, rfl⟩ | ⟨hstatus, -⟩ | ⟨e₀, he₀, hfile, hid, hstays⟩
    · refine ⟨p.id, rfl, .here hnew hpath ?_⟩
      rw [hbefore]
      exact h.not_live_before hf
    · rw [ManifestEntry.isLive, hstatus] at hlive
      exact absurd hlive (by decide)
    · obtain ⟨hlive₀, hnot⟩ := hstays hlive
      rw [hid, hfile]
      exact hsince e₀ he₀ hlive₀ hnot

end Table

end Lakehouse
