import Lakehouse.Proofs.Table.Feed
import Lakehouse.Proofs.Table.Gathering
import Lakehouse.Proofs.Table.Twins

/- Directories that are taken in.

   What has been gathered below a directory is staged, and then adopted by a plan without being
   changed, so the new snapshot has one entry for each importable file, and behind them the entries
   of the snapshot before it (`TookIn`). If the files cannot all be described or are not all new,
   there is no plan for them, and nothing comes to the log (`Unfit`, `intake_refuses`). If they are,
   and nothing else is in the way, they are taken in (`intake_succeeds`). -/
namespace Lakehouse

open Contract Log Script

variable {asked : Request → Prop} {root : Location} {files files' : Tree} {commits : List Commit}
  {current : Nat} {t u : Table} {directory : String} {upper names : Place} {bytes : ByteArray}
  {f : DataFile}

namespace Table

/-! ### What an intake adds -/

section

variable {operation : Operation} {p : Plan} {path : String} {m : Manifest}

/-- A change that adopts one manifest adds its files, and removes none. -/
theorem Planned.adopts (h : Planned root files u operation (.adopting [path]) p)
    (hcontent : files.content? root path = some (FileM.manifestContent m)) :
    p.arriving = m.entries.map (·.file) ∧ (∀ s ∈ p.staged, s.manifest = m) ∧
      ∀ path, p.removed.contains path = false := by
  obtain ⟨s, hs⟩ : ∃ s, p.staged = [s] := by
    have hlength := congrArg List.length h.stagedPaths
    rw [List.length_map] at hlength
    exact List.length_eq_one_iff.1 hlength.symm
  have hpath : path = s.path := by
    have hpaths := h.stagedPaths
    rw [hs] at hpaths
    exact (List.cons.inj hpaths).1
  have hmanifest : s.manifest = m := by
    obtain ⟨hread, -⟩ := perform_readStaged_iff.1 (h.staged s (by simp [hs]))
    rw [← hpath, FileM.readJson_manifest hcontent] at hread
    exact (Prod.mk.inj (Except.ok.inj (Prod.mk.inj hread).1)).1.symm
  have hremoved : pathSet [] = p.removed := Except.ok.inj h.removed
  refine ⟨?_, ?_, fun path => ?_⟩
  · rw [Plan.arriving, h.added, hs, List.flatMap_singleton, hmanifest]
    rfl
  · rw [hs]
    simpa using hmanifest
  · rw [← hremoved]
    rfl

/-- Where nothing is removed, the entries of the base are carried over, but for manifests in which
nothing is live. -/
theorem Plan.entriesIn_kept (hnone : ∀ path, p.removed.contains path = false) :
    p.rewritten = [] ∧ (entriesIn (p.carried.map Prod.snd)).Sublist p.entriesBase ∧
      liveAmong (entriesIn (p.carried.map Prod.snd)) = liveAmong p.entriesBase := by
  have hmentions : ∀ b : ManifestRecord × Manifest, b.2.mentions p.removed = false := by
    intro b
    rw [Manifest.mentions, List.any_eq_false]
    exact fun e _ => by simp [hnone]
  refine ⟨?_, ?_⟩
  · rw [Plan.rewritten, Plan.touched, List.map_eq_nil_iff, List.filter_eq_nil_iff]
    exact fun b _ => by simp [hmentions]
  · have hcarried : p.carried = p.manifests.filter fun b => !b.2.hasNoLiveEntries := by
      simp [Plan.carried, hmentions]
    rw [liveAmong_entriesIn, Plan.entriesBase, liveAmong_entriesIn, hcarried]
    induction p.manifests with
    | nil => exact ⟨.refl _, rfl⟩
    | cons b bs ih =>
      obtain ⟨hsublist, hsame⟩ := ih
      cases hlive : b.2.hasNoLiveEntries with
      | true =>
        rw [List.filter_cons_of_neg (by simp [hlive]), List.map_cons, liveFiles_cons,
          Manifest.liveFiles_of_hasNoLiveEntries hlive]
        exact ⟨hsublist.trans (List.sublist_append_right b.2.entries _), hsame⟩
      | false =>
        rw [List.filter_cons_of_pos (by simp [hlive]), List.map_cons, List.map_cons, liveFiles_cons,
          liveFiles_cons, hsame]
        exact ⟨hsublist.append_left b.2.entries, rfl⟩

/-- The entries of a new snapshot that adopts one manifest: those of the manifest with its id, and
those that are carried over. -/
theorem Planned.entriesAfter_adopting (h : Planned root files u operation (.adopting [path]) p)
    (hcontent : files.content? root path = some (FileM.manifestContent m))
    (hunnamed : ∀ e ∈ m.entries, e.snapshotId = none) (inherits : Bool) :
    p.entriesAfter u.spec inherits =
      (m.entries.map (·.file)).map p.arrival ++ entriesIn (p.carried.map Prod.snd) := by
  obtain ⟨harriving, hstaged, hnone⟩ := h.adopts hcontent
  have hadopts : p.AdoptsUnnamed := by
    intro s hs
    rw [hstaged s hs]
    exact hunnamed
  rw [Plan.entriesAfter, h.entries_after hadopts, harriving, (Plan.entriesIn_kept hnone).1]
  rfl

end

/-- The entries of the current snapshot are those of its manifests. -/
theorem perform_entries_current {s : Snapshot} {ms : List (ManifestRecord × Manifest)}
    (hs : t.current? = some s) (h : s.Loads root files ms) :
    perform root (t.entries none) files = (.ok (entriesIn (ms.map Prod.snd)), files) := by
  rw [Table.entries, rowsOf_current hs, entriesIn, List.flatMap_map]
  exact perform_entriesOf h

/-- What a snapshot of the log loads later, it loads before. -/
theorem loads_of_grows (hshelved : Shelved root files) (h : Chain root files commits current)
    (hgrows : files.Grows asked root files') (hu : tableAfter? commits = some u) {id : SnapshotId}
    {s : Snapshot} (hs : u.snapshots.find? id = some s) {ms : List (ManifestRecord × Manifest)}
    (hload : s.Loads root files' ms) : s.Loads root files ms := by
  obtain ⟨ms', hload'⟩ := (hshelved.registered commits current u h hu id s hs).loads
  have hlater : s.Loads root files' ms' := FileM.loadManifests_grows h hgrows hload'
  obtain rfl := hlater.unique hload
  exact hload'

/-- What a plan builds on are the entries that the current snapshot lists, and its files. -/
theorem Planned.perform_base {operation : Operation} {changes : FileChanges} {p : Plan}
    (h : Planned root files' u operation changes p) (hshelved : Shelved root files)
    (hchain : Chain root files commits current) (hgrows : files.Grows asked root files')
    (hu : tableAfter? commits = some u) :
    perform root (u.entries none) files = (.ok p.entriesBase, files) ∧
      perform root (u.files none) files = (.ok (liveAmong p.entriesBase), files) := by
  rw [Plan.entriesBase, liveAmong_entriesIn]
  rcases h.loads_current with ⟨hnone, hnil⟩ | ⟨s, hs, hload⟩
  · rw [hnil]
    refine ⟨?_, perform_files_none hnone⟩
    rw [Table.entries, rowsOf_none hnone]
    rfl
  · obtain ⟨id, -, hfind⟩ := Option.bind_eq_some_iff.1 hs
    have hbefore := loads_of_grows hshelved hchain hgrows hu hfind hload
    exact ⟨perform_entries_current hs hbefore, perform_files_current hs hbefore⟩

/-- The importable files below a directory have been taken into the table `u` of the log, as a
snapshot that appends them to the current one. Each of them has one entry, in ascending order of
their paths. The other entries of the snapshot are from the one before, of which no live entry is
missing, so that the table lists the files that were taken in and those that it listed before. -/
structure TookIn (root : Location) (t u : Table) (upper : Place) (found : List Place)
    (added : List DataFile) (files : Tree) (s : Snapshot) (t' : Table) (files' : Tree) : Prop where
  gathers : t.Gathers root upper files found added
  operation : s.operation = .append
  parent : s.parentId = u.currentId
  fresh : u.snapshots.contains s.id = false
  snapshots : t'.snapshots = u.snapshots.insert s.id s
  current : t'.currentId = some s.id
  rebuilt : perform root rebuild files' = (.ok t', files')
  entries : ∃ before others, perform root (u.entries none) files = (.ok before, files) ∧
    perform root (t'.entries none) files' =
      (.ok (added.map (fun f => ⟨.added, some s.id, f⟩) ++ others), files') ∧
    others.Sublist before ∧ liveAmong others = liveAmong before
  listed : ∃ before, perform root (u.files none) files = (.ok before, files) ∧
    perform root (t'.files none) files' = (.ok (added ++ before), files')

/-- What an intake commits is all that it has gathered. -/
theorem Committed.tookIn (hshelved : Shelved root files) (hchain : Chain root files commits current)
    (hsupplied : files.Supplied asked root) (hclear : Unambiguous asked) {found : List Place}
    {added : List DataFile} (hgathers : t.Gathers root upper files found added) {files₁ : Tree}
    {path : String} (hproceeds : Proceeds asked root files files₁)
    (hchain₁ : Chain root files₁ commits current)
    (hfiled : files₁.Filed asked root (FileM.manifestContent (stagedManifest t.spec added)) path)
    {now : Calendar.Instant} {p : Plan} {s : Snapshot} {t' : Table}
    (hcommit : Committed asked root commits current t.currentId .append (.adopting [path]) now files₁
      u p s t' files') (hproceeds' : Proceeds asked root files₁ files') :
    TookIn root t u upper found added files s t' files' := by
  have hsupplied₁ := hsupplied.grows hproceeds.grows
  have hcontent := hfiled.content hsupplied₁ hclear
  have hplanned := hcommit.planned
  have hid := hcommit.id_eq
  have hlatest := hcommit.wrote.latest
  obtain ⟨hbase, hbaseFiles⟩ :=
    hplanned.perform_base hshelved hchain hproceeds.grows hlatest
  obtain ⟨-, hsublist, hlive⟩ := Plan.entriesIn_kept (hplanned.adopts hcontent).2.2
  have hafter := hplanned.entriesAfter_adopting hcontent (fun _ => unnamed_of_mem_stagedManifest)
    u.metadata.properties.inheritsSnapshotIds
  rw [files_stagedManifest] at hafter
  have hcurrent := hcommit.current?_eq
  have hloads := hcommit.loads hchain₁ hproceeds'.grows (hsupplied₁.grows hproceeds'.grows)
    hclear
  refine ⟨hgathers, by rw [hcommit.snapshot]; rfl, ?_, hcommit.fresh, hcommit.snapshots_eq,
    hcommit.currentId_eq, ?_, ?_, ?_⟩
  · rw [hcommit.snapshot, hcommit.based]
    rfl
  · obtain ⟨c, -, hchain', htable⟩ := hcommit.wrote.written
    refine Log.perform_rebuild hchain' (Nat.succ_pos _) ?_
    rw [List.take_of_length_le (by simp)]
    exact htable
  · refine ⟨p.entriesBase, _, hbase, ?_, hsublist, hlive⟩
    rw [perform_entries_current hcurrent hloads, ← Plan.entriesAfter, hafter, hid]
    rfl
  · refine ⟨_, hbaseFiles, ?_⟩
    rw [perform_files_current hcurrent hloads, ← liveAmong_entriesIn, ← Plan.entriesAfter, hafter,
      liveAmong_append, p.liveAmong_arrivals, hlive]

/-! ### Why nothing is taken in -/

/-- There is no plan for the change on the table that it is meant for, so nothing is written. -/
theorem commit_unplanned {base : Option SnapshotId} {operation : Operation} {changes : FileChanges}
    (hno : ∀ u p, perform root loadLatest files = (.ok u, files) → u.currentId = base →
      ¬ Planned root files u operation changes p) (now : Calendar.Instant) :
    (contract asked root).Performs (commit base operation changes now) t files
      (fun _ _ _ => False) (fun _ _ files' => files' = files) := by
  rw [commit]
  refine Performs.bind (ofFiles_performs reads_loadLatest ?_ fun _ _ => rfl)
  intro u hread
  split
  next => exact Performs.throw rfl
  next hbase =>
    refine Performs.bind (Performs.set (Performs.bind (ofFiles_performs (u.reads_plan _ _) ?_
      fun _ _ => rfl)))
    intro p hplan
    exact absurd (perform_plan_iff.1 hplan) (hno u p hread (Decidable.not_not.1 hbase))

/-- What has been gathered below a directory and staged, and a plan that adds it to the table `u` of
the log. -/
structure IntakePlanned (asked : Request → Prop) (root : Location) (commits : List Commit)
    (current : Nat) (t : Table) (directory : String) (files : Tree) (found : List Place)
    (added : List DataFile) (files₁ : Tree) (path : String) (u : Table) (p : Plan) : Prop where
  find : perform root (findImportable directory) files = (.ok found, files)
  load : perform root (found.mapM (loadFile t.schema t.spec directory)) files = (.ok added, files)
  proceeds : Proceeds asked root files files₁
  chain : Chain root files₁ commits current
  filed : files₁.Filed asked root (FileM.manifestContent (stagedManifest t.spec added)) path
  read : perform root loadLatest files₁ = (.ok u, files₁)
  base : u.currentId = t.currentId
  planned : Planned root files₁ u .append (.adopting [path]) p

/-- If there is no plan for what has been gathered and staged, the log stays as it is. -/
theorem intake_refuses (h : Chain root files commits current)
    (hno : ∀ found added files₁ path u p,
      ¬ IntakePlanned asked root commits current t directory files found added files₁ path u p)
    (now : Calendar.Instant) :
    (contract asked root).Performs (intake directory now) t files (fun _ _ _ => False)
      (fun _ _ files' => Chain root files' commits current) := by
  rw [intake]
  refine Performs.bind (ofFiles_performs (reads_findImportable directory) ?_ fun _ _ => h)
  intro found hfind
  refine Performs.bind (Performs.get (Performs.bind (ofFiles_performs
    (Reads.mapM (reads_loadFile t.schema t.spec directory) found) ?_ fun _ _ => h)))
  intro added hload
  refine Performs.bind ((stage_performs h added).proceeds.mono ?_ ?_)
  · rintro path t₁ files₁ ⟨⟨rfl, h₁, -, hfiled⟩, hproceeds⟩
    have hunplanned : ∀ u p, perform root loadLatest files₁ = (.ok u, files₁) →
        u.currentId = t₁.currentId → ¬ Planned root files₁ u .append (.adopting [path]) p :=
      fun u p hread hbase hplanned => hno found added files₁ path u p
        ⟨hfind, hload, hproceeds, h₁, hfiled, hread, hbase, hplanned⟩
    refine Performs.bind (Performs.get ((commit_unplanned hunplanned now).mono (fun _ _ _ => id) ?_))
    rintro _ _ _ rfl
    exact h₁
  · rintro _ _ _ ⟨⟨-, h', -⟩, -⟩
    exact h'

/-- As long as the table of the log has the current snapshot that the copy has, the current snapshot
is the same, and so it is the one of both. -/
theorem current?_of_replica (h : Chain root files commits current)
    (hreplica : Replica commits current t) (hu : perform root loadLatest files = (.ok u, files))
    (hbase : u.currentId = t.currentId) {s : Snapshot} (hs : t.current? = some s) :
    u.current? = some s := by
  obtain ⟨-, htable⟩ := table_of_rebuild h (perform_loadLatest hu)
  have hbegins : commits.take t.version.toNat <+: commits.take current := by
    rw [← Nat.min_eq_left hreplica.version_le, ← List.take_take]
    exact List.take_prefix _ _
  obtain ⟨id, hid, hfind⟩ := Option.bind_eq_some_iff.1 hs
  rw [current?, hbase, hid]
  exact (extends_of_begins hbegins hreplica.table htable).kept id s hfind

/-- Files that are listed as current are those of the current snapshot. -/
theorem loads_of_files_current {listed : List DataFile}
    (h : perform root (t.files none) files = (.ok listed, files)) (hne : listed ≠ []) :
    ∃ s ms, t.current? = some s ∧ s.Loads root files ms ∧ listed = liveFiles (ms.map Prod.snd) := by
  cases hcurrent : t.current? with
  | none =>
    rw [perform_files_none hcurrent] at h
    exact absurd (Except.ok.inj (Prod.mk.inj h).1).symm hne
  | some s =>
    obtain ⟨id, -, hs⟩ := Option.bind_eq_some_iff.1 hcurrent
    have hnamed : t.resolve (some id) = .ok (some s) := by rw [resolve, hs]
    have hsame : t.files none = t.files (some id) := by
      rw [Table.files, Table.files, rowsOf, rowsOf, hnamed, resolve, hcurrent]
    obtain ⟨ms, hload, hlisted⟩ := loads_of_files hs (hsame ▸ h)
    exact ⟨s, ms, rfl, hload, hlisted⟩

/-- Why a directory cannot be taken in: nothing below it is importable, or something that is
importable cannot be taken in as anything, or its path is live already, in the copy of the table
or in the table of the log. -/
inductive Unfit (root : Location) (t : Table) (upper : Place) (files : Tree) : Prop where
  | nothing (none : ∀ names bytes, ¬ files.HasImportable root upper names bytes) :
      Unfit root t upper files
  | bad {names : Place} {bytes : ByteArray} (there : files.HasImportable root upper names bytes)
      (never : ∀ f, ¬ t.TakesAs upper names bytes f) : Unfit root t upper files
  | live {names : Place} {bytes : ByteArray} {v : Table} {listed : List DataFile} {f : DataFile}
      (there : files.HasImportable root upper names bytes)
      (table : v = t ∨ perform root rebuild files = (.ok v, files))
      (lists : perform root (v.files none) files = (.ok listed, files)) (mem : f ∈ listed)
      (path : f.path = "/".intercalate (upper ++ names)) : Unfit root t upper files

namespace IntakePlanned

variable {found : List Place} {added : List DataFile} {files₁ : Tree} {path : String} {p : Plan}

/-- Each importable file has been taken in. -/
theorem takes (h : IntakePlanned asked root commits current t directory files found added files₁ path u p)
    (haddresses : files.Addresses root directory upper) (hthere : files.HasImportable root upper names bytes)
    (hnames : ∀ name ∈ names, Path.IsEntry name) : ∃ f ∈ added, t.TakesAs upper names bytes f := by
  have hfound : names ∈ found :=
    ((finds_of_findImportable haddresses h.find).complete names).2 ⟨bytes, hthere⟩
  have hloaded := ((perform_mapM_ok (reads_loadFile t.schema t.spec directory)).1 h.load).2
  obtain ⟨f, hf, hload⟩ := exists_of_forall₂ hloaded hfound
  obtain ⟨bytes', hnode, htakes⟩ :=
    takesAs_of_loadFile haddresses (ne_nil_of_isImportable hthere.importable) hnames hload
  obtain rfl : bytes' = bytes := by
    rw [hthere.there] at hnode
    exact (Node.file.inj (Option.some.inj hnode)).symm
  exact ⟨f, hf, htakes⟩

/-- What is taken in is not live before, in the copy or in the table of the log. -/
theorem not_listed
    (h : IntakePlanned asked root commits current t directory files found added files₁ path u p)
    (hchain : Chain root files commits current) (hreplica : Replica commits current t)
    (hsupplied : files.Supplied asked root) (hclear : Unambiguous asked) {v : Table}
    (hv : v = t ∨ perform root rebuild files = (.ok v, files)) {listed : List DataFile}
    (hlisted : perform root (v.files none) files = (.ok listed, files)) {f g : DataFile}
    (hf : f ∈ listed) (hg : g ∈ added) : f.path ≠ g.path := by
  have hlatest := perform_loadLatest_of_chain hchain h.chain h.read
  obtain ⟨s, ms, hs, hload, rfl⟩ := loads_of_files_current hlisted (List.ne_nil_of_mem hf)
  -- In both cases it is listed by the snapshot on which the plan builds.
  have hcurrent : u.current? = some s := by
    rcases hv with rfl | hread
    · exact current?_of_replica hchain hreplica hlatest h.base hs
    · rw [← hs, Except.ok.inj (Prod.mk.inj ((perform_loadLatest hlatest).symm.trans hread)).1]
  have hload₁ : s.Loads root files₁ ms :=
    FileM.loadManifests_grows hchain h.proceeds.grows hload
  obtain rfl : p.manifests = ms := by
    rcases h.planned.loads_current with ⟨hnone, -⟩ | ⟨s', hs', hload'⟩
    · exact absurd (hnone.symm.trans hcurrent) (by simp)
    · obtain rfl := Option.some.inj (hcurrent.symm.trans hs')
      exact hload'.unique hload₁
  have harriving : g ∈ p.arriving := by
    have hcontent := h.filed.content (hsupplied.grows h.proceeds.grows) hclear
    rwa [(h.planned.adopts hcontent).1, files_stagedManifest]
  intro hsame
  refine absurd (mem_livePaths.2 ⟨f, ?_, hsame⟩) (h.planned.not_live_before harriving)
  rw [Plan.entriesBase, liveAmong_entriesIn]
  exact hf

end IntakePlanned

/-- For a directory that cannot be taken in, there is no plan. -/
theorem Unfit.not_intakePlanned (hunfit : t.Unfit root upper files)
    (hchain : Chain root files commits current) (hreplica : Replica commits current t)
    (hsupplied : files.Supplied asked root) (hclear : Unambiguous asked)
    (haddresses : files.Addresses root directory upper) (hnames : files.NamesImportable root upper)
    (found : List Place) (added : List DataFile) (files₁ : Tree) (path : String) (u : Table) (p : Plan) :
    ¬ IntakePlanned asked root commits current t directory files found added files₁ path u p := by
  intro hintake
  have htakes := fun names bytes hthere =>
    hintake.takes haddresses hthere (hnames names bytes hthere)
  cases hunfit with
  | nothing hnone =>
    have hfinds := finds_of_findImportable haddresses hintake.find
    obtain ⟨names, hin⟩ := List.exists_mem_of_ne_nil found hfinds.nonempty
    obtain ⟨bytes, hthere⟩ := (hfinds.complete names).1 hin
    exact hnone names bytes hthere
  | @bad names bytes there never =>
    obtain ⟨f, -, hf⟩ := htakes names bytes there
    exact never f hf
  | @live names bytes v listed f there table lists mem path =>
    obtain ⟨g, hg, hgtakes⟩ := htakes names bytes there
    exact hintake.not_listed hchain hreplica hsupplied hclear table lists mem hg
      (path.trans hgtakes.path.symm)

/-- What has been taken in is not taken in again. -/
theorem TookIn.not_intakePlanned {found : List Place} {added : List DataFile} {s : Snapshot} {t' : Table}
    (h : TookIn root t u upper found added files s t' files')
    (hgrows : files.Grows asked root files') (hchain : Chain root files' commits current)
    (hreplica : Replica commits current t') (hsupplied : files'.Supplied asked root)
    (hclear : Unambiguous asked) (haddresses : files'.Addresses root directory upper)
    (hnames : files.NamesImportable root upper) (found' : List Place) (added' : List DataFile)
    (files₁ : Tree) (path : String) (v : Table) (p : Plan) :
    ¬ IntakePlanned asked root commits current t' directory files' found' added' files₁ path v p := by
  intro hintake
  obtain ⟨names, hin⟩ := List.exists_mem_of_ne_nil found h.gathers.nonempty
  obtain ⟨f, hf, bytes, hthere, htakes⟩ := exists_of_forall₂ h.gathers.described hin
  obtain ⟨g, hg, htakes'⟩ :=
    hintake.takes haddresses (hthere.grows hgrows) (hnames names bytes hthere)
  obtain ⟨before, -, hlisted⟩ := h.listed
  exact hintake.not_listed hchain hreplica hsupplied hclear (.inl rfl) hlisted
    (List.mem_append_left before hf) hg (htakes.path.trans htakes'.path.symm)

/-! ### When a directory is taken in -/

/-- What has been staged is planned to be adopted, if its files can be added. -/
theorem exists_planned {path : String} {added : List DataFile} {id : SnapshotId}
    {ms : List (ManifestRecord × Manifest)}
    (hcontent : files.content? root path =
      some (FileM.manifestContent (stagedManifest t.spec added)))
    (hnext : t.nextId = .ok id) (hload : perform root t.loadCurrent files = (.ok ms, files))
    (hfits : checkAdded t.spec (.ofManifests (ms.map Prod.snd)) .empty added = .ok ()) :
    ∃ p, Planned root files t .append (.adopting [path]) p := by
  obtain ⟨n, hread⟩ : ∃ n, perform root (readStaged t.spec path) files =
      (.ok ⟨path, stagedManifest t.spec added, n⟩, files) :=
    ⟨_, perform_readStaged_staged hcontent⟩
  have harriving : (stagedManifest t.spec added).entries.map (·.file) = added := by
    rw [stagedManifest, List.map_map]
    exact List.map_id' added
  refine ⟨⟨id, ms, .empty, [], [⟨path, stagedManifest t.spec added, n⟩]⟩, rfl, hnext, hload, rfl, rfl,
    rfl, fun s hs => ?_, ?_, ?_⟩
  · obtain rfl := List.mem_singleton.1 hs
    exact hread
  · rw [Plan.arriving, List.nil_append, List.flatMap_singleton, harriving]
    exact hfits
  · rw [checkRowCount, if_neg fun h => absurd h.1 (by decide)]

/-- Where nothing else is in the way, what has been gathered through the latest copy is taken in if
it can be added. -/
theorem intake_succeeds (h : Chain root files commits current) (hopen : Open root commits current)
    (hsupplied : files.Supplied asked root) (hclear : Unambiguous asked)
    (hread : perform root loadLatest files = (.ok t, files)) {found : List Place}
    {added : List DataFile} {id : SnapshotId} {ms : List (ManifestRecord × Manifest)}
    (hfind : perform root (findImportable directory) files = (.ok found, files))
    (hload : perform root (found.mapM (loadFile t.schema t.spec directory)) files =
      (.ok added, files))
    (hnext : t.nextId = .ok id) (hms : perform root t.loadCurrent files = (.ok ms, files))
    (hfits : checkAdded t.spec (.ofManifests (ms.map Prod.snd)) .empty added = .ok ())
    (now : Calendar.Instant) :
    (contract asked root).Performs (intake directory now) t files (fun _ _ _ => True)
      (fun _ _ _ => False) := by
  rw [intake]
  refine Performs.bind (ofFiles_performs (reads_findImportable directory) (fun found' hfind' => ?_)
    fun e he => absurd (hfind.symm.trans he) (by simp))
  obtain rfl := Except.ok.inj (Prod.mk.inj (hfind.symm.trans hfind')).1
  refine Performs.bind (Performs.get (Performs.bind (ofFiles_performs
    (Reads.mapM (reads_loadFile t.schema t.spec directory) found) (fun added' hload' => ?_)
    fun e he => absurd (hload.symm.trans he) (by simp))))
  obtain rfl := Except.ok.inj (Prod.mk.inj (hload.symm.trans hload')).1
  refine Performs.bind ((stage_performs_of_room h hopen.room hsupplied hclear added).proceeds.mono ?_
    fun _ _ _ hnever => hnever.1)
  rintro path t₁ files₁ ⟨⟨rfl, h₁, -, hcontent⟩, hproceeds⟩
  obtain ⟨p, hplanned⟩ := exists_planned hcontent hnext
    (perform_loadCurrent_grows h hproceeds.grows hms) hfits
  have hread₁ := perform_loadLatest_of_chain h₁ h hread
  refine Performs.bind (Performs.get ((commit_performs h₁ _ _ _ now).mono (fun _ _ _ _ => trivial) ?_))
  intro e t₂ files₂ hfailed
  exact hfailed.2 hopen t p hread₁ rfl hplanned

end Table

end Lakehouse
