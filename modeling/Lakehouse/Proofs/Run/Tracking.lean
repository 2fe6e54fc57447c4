import Lakehouse.Proofs.Log.Extension
import Lakehouse.Proofs.Run.Keeping
import Lakehouse.Proofs.Run.Ledger

/- What a ledger has to do with a table.

   A ledger tracks a table if it has the table's snapshots, each with the files that are
   live in its manifests, and if all that was staged is filed (`Ledger.Tracks`). This holds
   of a new table, lasts while files grow, and goes on with a change of files, for which the
   ledger computes from the files before what the table reads from the manifests
   (`Tracks.change`). `Follows` adds that the table is that of the whole log, and lasts
   through every call (`Follows.after_call`). -/
namespace Lakehouse

open Contract Log Script

variable {asked : Request → Prop} {root : Location} {files files' : Tree} {commits : List Commit}
  {current : Nat}

namespace Ledger

/-- The ledger knows the files of all snapshots of the table, and of all that was staged. -/
structure Tracks (l : Ledger) (asked : Request → Prop) (root : Location) (files : Tree)
    (t : Table) : Prop where
  metadata : ∃ m, l.metadata = some m ∧ m.schema = t.schema ∧ m.spec = t.spec
  current : t.currentId = l.currentId
  registered : ∀ id, t.snapshots.contains id = l.live.contains id
  live : ∀ id s ms, t.snapshots.find? id = some s → s.Loads root files ms →
    l.live.find? id = some (.ofManifests (ms.map Prod.snd))
  staged : ∀ path added, l.staged.find? path = some added →
    files.Filed asked root (FileM.manifestContent (Table.stagedManifest t.spec added)) path

namespace Tracks

variable {l : Ledger} {t t' u : Table}

theorem new (asked : Request → Prop) (root : Location) (files : Tree) (version : Version)
    (m : Metadata) :
    ({ empty with metadata := some m } : Ledger).Tracks asked root files (.new version m) :=
  ⟨⟨m, rfl, rfl, rfl⟩, rfl, fun _ => rfl, fun _ _ _ h => absurd h (by simp [Table.new]),
    fun _ _ h => absurd h (by simp [empty])⟩

theorem grows (h : l.Tracks asked root files t) (ht : t.Catalogued root files)
    (hchain : Chain root files commits current)
    (hgrows : files.Grows asked root files') : l.Tracks asked root files' t := by
  refine ⟨h.metadata, h.current, h.registered,
    fun id s ms hs hload => ?_, fun path added hadded => (h.staged path added hadded).grows hgrows⟩
  obtain ⟨ms', hload', -⟩ := ht.loads id s hs
  have hsame : ms = ms' := hload.unique (FileM.loadManifests_grows hchain hgrows hload')
  rw [hsame]
  exact h.live id s ms' hs hload'

/-- Of a table that differs in its properties or its current snapshot at most. -/
theorem of_same (h : l.Tracks asked root files t) (hschema : t'.schema = t.schema)
    (hspec : t'.spec = t.spec) (hsnapshots : t'.snapshots = t.snapshots)
    {currentId : Option SnapshotId} (hcurrent : t'.currentId = currentId) :
    ({ l with currentId := currentId } : Ledger).Tracks asked root files t' := by
  obtain ⟨m, hm, hmschema, hmspec⟩ := h.metadata
  refine ⟨⟨m, hm, hmschema.trans hschema.symm, hmspec.trans hspec.symm⟩, hcurrent, ?_, ?_, ?_⟩
  · rw [hsnapshots]
    exact h.registered
  · rw [hsnapshots]
    exact h.live
  · rw [hspec]
    exact h.staged

/-- What is staged is known to be in its manifest. -/
theorem staged_entries (h : l.Tracks asked root files t) (hsupplied : files.Supplied asked root)
    (hclear : Unambiguous asked) {spec : PartitionSpec} {s : Table.Staged}
    (hread : perform root (Table.readStaged spec s.path) files = (.ok s, files))
    (hknown : l.staged.contains s.path = true) :
    (l.staged.find? s.path).getD [] = s.manifest.entries.map (·.file) := by
  obtain ⟨added, hadded⟩ := SortedMap.contains_iff.1 hknown
  have hcontent := (h.staged _ _ hadded).content hsupplied hclear
  have hstored := FileM.readJson_manifest hcontent
  rw [(Table.perform_readStaged_iff.1 hread).1] at hstored
  obtain ⟨hmanifest, -⟩ := Prod.mk.inj (Except.ok.inj (Prod.mk.inj hstored).1)
  rw [hadded, Option.getD_some, hmanifest, Table.files_stagedManifest]

variable {c : Change} {now : Calendar.Instant} {p : Table.Plan} {s : Snapshot}

/-- A change is based on the live files that the ledger has. -/
theorem liveAt_base (h : l.Tracks asked root files u) (hu : u.Catalogued root files)
    (hcommit : Table.Committed asked root commits current c.base c.operation c.changes now files u p
      s t' files') : l.liveAt c.base = p.live := by
  rw [Table.Plan.live, ← hcommit.based]
  rcases (hcommit.planned.base hu).2 with ⟨hnone, hnil⟩ | ⟨id, r, hsome, hr, hload⟩
  · rw [hnone, hnil]
    rfl
  · rw [hsome, liveAt, Option.bind_some, h.live id r _ hr hload, Option.getD_some]

/-- The files that a change brings are those that the ledger expects. -/
theorem brought_eq (h : l.Tracks asked root files u) (hsupplied : files.Supplied asked root)
    (hclear : Unambiguous asked)
    (hcommit : Table.Committed asked root commits current c.base c.operation c.changes now files u p
      s t' files') (hknown : ∀ path ∈ c.changes.stagedPaths, l.staged.contains path = true) :
    l.brought c.changes = p.arriving := by
  have hplanned := hcommit.planned
  rw [brought, Table.Plan.arriving, hplanned.added, hplanned.stagedPaths, List.flatMap_map]
  congr 1
  refine List.flatMap_congr fun r hr => ?_
  refine h.staged_entries hsupplied hclear (hplanned.staged r hr) (hknown r.path ?_)
  rw [hplanned.stagedPaths]
  exact List.mem_map.2 ⟨r, hr, rfl⟩

/-- The files that are live in the manifests after a change are those of the ledger. -/
theorem liveAfter_eq (h : l.Tracks asked root files u) (hu : u.Catalogued root files)
    (hsupplied : files.Supplied asked root) (hclear : Unambiguous asked)
    (hcommit : Table.Committed asked root commits current c.base c.operation c.changes now files u p
      s t' files') (hknown : ∀ path ∈ c.changes.stagedPaths, l.staged.contains path = true)
    {m : Metadata} (hschema : m.schema = u.schema) (hspec : m.spec = u.spec) (inherits : Bool) :
    LiveFiles.ofManifests ((p.manifestsAfter u.spec inherits).map Prod.snd) = l.liveAfter m c := by
  rw [hcommit.planned.live_after (hcommit.planned.base hu).1,
    Table.without_of_removedPaths hcommit.planned.removed, liveAfter, h.liveAt_base hu hcommit,
    h.brought_eq hsupplied hclear hcommit hknown, hschema, hspec]

/-- A change makes of the table what the ledger makes of it. -/
theorem change (h : l.Tracks asked root files u) (hu : u.Catalogued root files)
    (hchain : Chain root files commits current) (hgrows : files.Grows asked root files')
    (hsupplied : files.Supplied asked root) (hclear : Unambiguous asked)
    (hcommit : Table.Committed asked root commits current c.base c.operation c.changes now files u p
      s t' files') (hknown : ∀ path ∈ c.changes.stagedPaths, l.staged.contains path = true) :
    ∃ l', l.change? c s = some l' ∧ l'.Tracks asked root files' t' ∧ l'.staged = l.staged := by
  obtain ⟨m, hm, hschema, hspec⟩ := h.metadata
  have hsupplied' := hsupplied.grows hgrows
  have hold := h.grows hu hchain hgrows
  have hfresh : l.live.contains s.id = false := (h.registered s.id).symm.trans hcommit.fresh
  have hparent : s.parentId = c.base := by
    rw [hcommit.snapshot]
    rfl
  refine ⟨_, change?_eq hm ⟨h.current.symm.trans hcommit.based, hparent, hfresh⟩, ?_, rfl⟩
  have hnew := hcommit.loads hchain hgrows hsupplied' hclear
  rw [hcommit.table_eq]
  refine ⟨⟨m, hm, hschema, hspec⟩, rfl, fun id => ?_, fun id r ms hr hload => ?_, hold.staged⟩
  · change (u.snapshots.insert s.id s).contains id = _
    rw [SortedMap.contains_insert, SortedMap.contains_insert, h.registered]
  · change (u.snapshots.insert s.id s).find? id = some r at hr
    change (l.live.insert s.id _).find? id = _
    -- Only the new snapshot has other live files than before.
    by_cases hid : id = s.id
    · subst hid
      rw [SortedMap.find?_insert_self] at hr ⊢
      obtain rfl := Option.some.inj hr
      rw [hload.unique hnew, h.liveAfter_eq hu hsupplied hclear hcommit hknown hschema hspec]
    · rw [SortedMap.find?_insert_of_ne _ _ hid] at hr ⊢
      exact hold.live id r ms hr hload

/-- Further files are staged. -/
theorem stage (h : l.Tracks asked root files t) {added : List DataFile} {path : String}
    (hfiled : files.Filed asked root (FileM.manifestContent (Table.stagedManifest t.spec added))
      path) :
    ({ l with staged := l.staged.insert path added } : Ledger).Tracks asked root files t := by
  refine ⟨h.metadata, h.current, h.registered, h.live, fun other fs hfs => ?_⟩
  rcases SortedMap.find?_insert_cases hfs with ⟨rfl, rfl⟩ | ⟨-, hfs⟩
  · exact hfiled
  · exact h.staged other fs hfs

/-- A registered snapshot is made current. -/
theorem move (h : l.Tracks asked root files t) (ht : t.Catalogued root files)
    (hchain : Chain root files commits commits.length) (hgrows : files.Grows asked root files')
    {target : SnapshotId} (hregistered : t.snapshots.contains target = true)
    (hwrote : Wrote root commits commits.length [.moveCurrent target none now] t t' files') :
    ∃ l', l.move? target = some l' ∧ l'.Tracks asked root files' t' ∧ l'.staged = l.staged := by
  obtain ⟨v, hv, ht'⟩ := hwrote.applied
  rw [Table.applyAll_move hregistered] at hv
  obtain rfl := Except.ok.inj hv
  have hin : l.live.contains target = true := (h.registered target).symm.trans hregistered
  have hold := h.grows ht hchain hgrows
  refine ⟨_, if_pos hin, hold.of_same ?_ ?_ ?_ ?_, rfl⟩
  all_goals rw [ht']; rfl

theorem update (h : l.Tracks asked root files t) (ht : t.Catalogued root files)
    (hchain : Chain root files commits commits.length) (hgrows : files.Grows asked root files')
    {set : Properties} {remove : List String}
    (hwrote : Wrote root commits commits.length [.updateProperties set remove] t t' files') :
    l.Tracks asked root files' t' := by
  obtain ⟨v, hv, ht'⟩ := hwrote.applied
  obtain rfl := Except.ok.inj hv
  have hold := h.grows ht hchain hgrows
  have hcurrent : t'.currentId = l.currentId := by rw [ht', h.current]
  exact hold.of_same (by rw [ht']; rfl) (by rw [ht']; rfl) (by rw [ht']) hcurrent

/-- The ledger of a table lists the files of every snapshot, also of those that earlier copies
of the table have. -/
theorem lists {u : Table} (h : l.Tracks asked root files u) (hu : u.Catalogued root files)
    (hextends : t.Extends u) : l.Lists root files t := by
  intro id hid
  obtain ⟨s, hs⟩ := SortedMap.contains_iff.1 hid
  obtain ⟨ms, hload, honce⟩ := hu.loads id s (hextends.kept id s hs)
  refine ⟨_, _, h.live id s ms (hextends.kept id s hs) hload, Table.perform_files hs hload, ?_⟩
  rw [LiveFiles.ofManifests_eq]
  refine SortedMap.perm_toList_ofList ?_
  rw [List.map_map]
  exact honce

end Tracks

/-! ### Calls -/

variable {l : Ledger} {now : Calendar.Instant} {t t' : Table} {call : Call} {a : Answer}

theorem call?_of_change {c : Change} (hasks : call.change? t = some c) (s : Snapshot) :
    l.call? t call (.snapshot s) = l.change? c s := by
  cases call with
  | refresh => exact absurd hasks (by simp [Call.change?])
  | updateProperties => exact absurd hasks (by simp [Call.change?])
  | rollback => exact absurd hasks (by simp [Call.change?])
  | setCurrent => exact absurd hasks (by simp [Call.change?])
  | _ => simp only [call?, hasks, Option.bind_some]

/-- The files of the location are kept, and the ledger tracks the table of the log, if there is
one. -/
structure Follows (l : Ledger) (asked : Request → Prop) (root : Location) (files : Tree)
    (commits : List Commit) : Prop where
  kept : Kept asked root files commits
  state : commits = [] ∧ l = .empty ∨
    ∃ t, tableAfter? commits = some t ∧ l.Tracks asked root files t

/-- Where there is a handle, there is a table. -/
theorem Follows.tracks (h : l.Follows asked root files commits)
    (hreplica : Replica commits current t) :
    ∃ u, tableAfter? commits = some u ∧ l.Tracks asked root files u ∧ t.Extends u := by
  rcases h.state with ⟨rfl, -⟩ | ⟨u, hu, htracks⟩
  · have hpos := pos_of_table hreplica.table
    exact absurd hpos (by simp)
  · exact ⟨u, hu, htracks, hreplica.extends hu⟩

/-- Events that do not write leave the ledger as it is. -/
theorem Follows.of_settled (h : l.Follows asked root files commits)
    (hsettled : Settled root commits commits.length files') (hgrows : files.Grows asked root files') :
    l.Follows asked root files' commits := by
  refine ⟨h.kept.of_settled hgrows hsettled, h.state.imp_right ?_⟩
  rintro ⟨t, ht, htracks⟩
  exact ⟨t, ht, htracks.grows (h.kept.catalogued t ht) h.kept.chain hgrows⟩

/-- The ledger goes on with a call that succeeds. -/
theorem Follows.after_call (h : l.Follows asked root files commits) (hclear : Unambiguous asked)
    (hreplica : Replica commits commits.length t) (hgrows : files.Grows asked root files')
    (heffect : call.Effect asked root commits commits.length now t files a t' files')
    (hknown : ∀ s, a = .snapshot s → ∃ c, call.change? t = some c ∧
      ∀ path ∈ c.changes.stagedPaths, l.staged.contains path = true) :
    ∃ l' commits', l.call? t call a = some l' ∧ l'.Follows asked root files' commits' ∧
      ∀ path, l.staged.contains path = true ∨ a = .path path → l'.staged.contains path = true := by
  obtain ⟨v, hv, htracks, hextends⟩ := h.tracks hreplica
  obtain ⟨hkept, hstate⟩ := h
  have hchain := hkept.chain
  have hcatalogued := hkept.catalogued v hv
  have hlatest : ∀ {actions u}, Wrote root commits commits.length actions u t' files' → u = v :=
    fun hwrote => Option.some.inj (hwrote.latest.symm.trans hv)
  -- Only staging makes further paths known.
  have hother : ∀ {l' : Ledger}, l'.staged = l.staged → (∀ path, a ≠ .path path) →
      ∀ path, l.staged.contains path = true ∨ a = .path path → l'.staged.contains path = true :=
    fun hstaged hanswer path hpath => hstaged ▸ hpath.resolve_right (hanswer path)
  cases heffect with
  | refreshed => exact ⟨l, commits, rfl, ⟨hkept, hstate⟩, hother rfl (by simp)⟩
  | @staged added path _ hchain' _ hfiled =>
    rw [← hextends.spec] at hfiled
    have htracks' := (htracks.grows hcatalogued hchain hgrows).stage hfiled
    refine ⟨_, commits, rfl, ⟨hkept.of_chain hgrows hchain', .inr ⟨v, hv, htracks'⟩⟩, ?_⟩
    intro other hknown'
    rw [SortedMap.contains_insert, Bool.or_eq_true, decide_eq_true_eq]
    rcases hknown' with hin | hpath
    · exact .inr hin
    · exact .inl (Answer.path.inj hpath).symm
  | @committed _ c u p s _ _ hasks hcommit =>
    obtain ⟨c', hasks', hpaths⟩ := hknown s rfl
    obtain rfl := Option.some.inj (hasks'.symm.trans hasks)
    obtain rfl := hlatest hcommit.wrote
    obtain ⟨l', hl', htracks', hstaged⟩ :=
      htracks.change hcatalogued hchain hgrows hkept.supplied hclear hcommit hpaths
    obtain ⟨commits', hkept', ht'⟩ := hkept.of_committed hclear hgrows hcommit
    exact ⟨l', commits', by rw [call?_of_change hasks, hl'], ⟨hkept', .inr ⟨_, ht', htracks'⟩⟩,
      hother hstaged (by simp)⟩
  | rolledBack _ hregistered _ hwrote =>
    obtain rfl := hlatest hwrote
    obtain ⟨l', hl', htracks', hstaged⟩ := htracks.move hcatalogued hchain hgrows hregistered hwrote
    obtain ⟨commits', hkept', ht'⟩ := hkept.of_moved hgrows hregistered hwrote
    exact ⟨l', commits', hl', ⟨hkept', .inr ⟨_, ht', htracks'⟩⟩, hother hstaged (by simp)⟩
  | moved _ hregistered hwrote =>
    obtain rfl := hlatest hwrote
    obtain ⟨l', hl', htracks', hstaged⟩ := htracks.move hcatalogued hchain hgrows hregistered hwrote
    obtain ⟨commits', hkept', ht'⟩ := hkept.of_moved hgrows hregistered hwrote
    exact ⟨l', commits', hl', ⟨hkept', .inr ⟨_, ht', htracks'⟩⟩, hother hstaged (by simp)⟩
  | updated hwrote =>
    obtain rfl := hlatest hwrote
    obtain ⟨commits', hkept', ht'⟩ := hkept.of_updated hgrows hwrote
    exact ⟨l, commits', rfl, ⟨hkept', .inr ⟨_, ht',
      htracks.update hcatalogued hchain hgrows hwrote⟩⟩, hother rfl (by simp)⟩
  | @tookIn directory _ _ _ _ _ _ s =>
    obtain ⟨c, hasks, -⟩ := hknown s rfl
    exact absurd hasks (by simp [Call.change?])

end Ledger

end Lakehouse
