import Lakehouse.Proofs.Run.Course
import Lakehouse.Proofs.Table.Feed

/- Feeds in runs.

   Whatever runs, fails or stops, the snapshots of a log tell their changes (`Log.Fed`): a
   commit that registers a snapshot follows a plan for the last table, and all other commits
   leave the snapshots alone (`Fed.after_deed`). An event that stops has left the log as it
   was, or with the commit of the whole event; in the latter case the snapshot can be read,
   so it is read as after the whole event (`Fed.between`). Two things are assumed of a run.
   The contents that it stores can be told apart by the names made from them, and the
   manifests that its calls adopt have no ids, unless the calls fail
   (`entries_tell_changes`). -/
namespace Lakehouse

open Contract Log Script

variable {asked : Request → Prop} {root : Location} {files files' files'' : Tree}
  {commits commits' commits'' : List Commit} {current current' current'' : Nat} {t u : Table}
  {entries entries' : SnapshotId → List ManifestEntry}

/-- The snapshots of the log tell their changes, at every version, and what is stored was
asked for. -/
structure Log.Fed (asked : Request → Prop) (root : Location) (files : Tree)
    (commits : List Commit) (entries : SnapshotId → List ManifestEntry) : Prop where
  supplied : files.Supplied asked root
  current : ∀ t, tableAfter? commits = some t →
    ∀ id, t.currentId = some id → t.snapshots.contains id = true
  loads : ∀ t, tableAfter? commits = some t → ∀ id s, t.snapshots.find? id = some s →
    ∃ ms, s.Loads root files ms ∧ entriesIn (ms.map Prod.snd) = entries id
  feeds : ∀ n t, tableAfter? (commits.take n) = some t → Feeds t.snapshots entries

namespace Log.Fed

theorem of_vacant (h : files.Vacant root) : Fed asked root files [] entries := by
  have hnone : tableAfter? [] = none := rfl
  refine ⟨fun path c hpath _ hc => ?_, fun t ht => ?_, fun t ht => ?_, fun n t ht => ?_⟩
  · exact absurd ((h.content?_eq_none hpath).symm.trans hc) (by simp)
  · exact absurd (hnone.symm.trans ht) (by simp)
  · exact absurd (hnone.symm.trans ht) (by simp)
  · rw [List.take_nil, hnone] at ht
    exact absurd ht (by simp)

/-- Without a new commit, all is told as before. -/
theorem grows (h : Fed asked root files commits entries) (hchain : Chain root files commits current)
    (hgrows : files.Grows asked root files') : Fed asked root files' commits entries := by
  refine ⟨h.supplied.grows hgrows, h.current, fun t ht id s hs => ?_, h.feeds⟩
  obtain ⟨ms, hloads, hentries⟩ := h.loads t ht id s hs
  exact ⟨ms, FileM.loadManifests_grows hchain hgrows hloads, hentries⟩

/-- A commit is added, of which the table tells its changes, and those before as they were. -/
theorem append (h : Fed asked root files commits entries) (hchain : Chain root files commits current)
    {c : Commit} (hsupplied : files'.Supplied asked root)
    (htable : tableAfter? (commits ++ [c]) = some t)
    (hcurrent : ∀ id, t.currentId = some id → t.snapshots.contains id = true)
    (hloads : ∀ id s, t.snapshots.find? id = some s →
      ∃ ms, s.Loads root files' ms ∧ entriesIn (ms.map Prod.snd) = entries' id)
    (hsame : ∀ u, tableAfter? commits = some u →
      ∀ id, u.snapshots.contains id = true → entries' id = entries id)
    (hfeeds : Feeds t.snapshots entries') : Fed asked root files' (commits ++ [c]) entries' := by
  refine ⟨hsupplied, fun v hv => ?_, fun v hv => ?_, fun n v hv => ?_⟩
  · obtain rfl := Option.some.inj (htable.symm.trans hv)
    exact hcurrent
  · obtain rfl := Option.some.inj (htable.symm.trans hv)
    exact hloads
  · by_cases hle : n ≤ commits.length
    · rw [List.take_append_of_le_length hle] at hv
      -- The table at an earlier version has no snapshot that the last one has not.
      obtain ⟨u, hu, hextends⟩ := hchain.exists_last hv
      have hsame' : ∀ id, v.snapshots.contains id = true → entries' id = entries id := by
        intro id hid
        obtain ⟨s, hs⟩ := SortedMap.contains_iff.1 hid
        exact hsame u hu id (SortedMap.contains_iff.2 ⟨s, hextends.kept id s hs⟩)
      exact fun id s hs => (h.feeds n v hv).extend (fun _ _ h => h) hsame' hs
    · have hlong : (commits ++ [c]).length ≤ n := by
        rw [List.length_append, List.length_singleton]
        omega
      rw [List.take_of_length_le hlong] at hv
      obtain rfl := Option.some.inj (htable.symm.trans hv)
      exact hfeeds

theorem feeds_last (h : Fed asked root files commits entries) (ht : tableAfter? commits = some t) :
    Feeds t.snapshots entries :=
  h.feeds commits.length t (by rwa [List.take_length])

variable {now : Calendar.Instant}

/-- A commit that leaves the snapshots alone. -/
theorem of_wrote (h : Fed asked root files commits entries) (hchain : Chain root files commits current)
    (hgrows : files.Grows asked root files') {actions : List Action}
    (hwrote : Wrote root commits current actions u t files') (hsnapshots : t.snapshots = u.snapshots)
    (hcurrent : ∀ id, t.currentId = some id → t.snapshots.contains id = true) :
    ∃ c, Chain root files' (commits ++ [c]) (commits.length + 1) ∧
      Fed asked root files' (commits ++ [c]) entries := by
  obtain ⟨c, -, hchain', htable⟩ := hwrote.written
  refine ⟨c, hchain', h.append hchain (h.supplied.grows hgrows) htable hcurrent ?_
    (fun _ _ _ _ => rfl) ?_⟩
  · rw [hsnapshots]
    exact (h.grows hchain hgrows).loads u hwrote.latest
  · rw [hsnapshots]
    exact h.feeds_last hwrote.latest

theorem of_moved (h : Fed asked root files commits entries) (hchain : Chain root files commits current)
    (hgrows : files.Grows asked root files') {target : SnapshotId}
    (hregistered : u.snapshots.contains target = true)
    (hwrote : Wrote root commits current [.moveCurrent target none now] u t files') :
    ∃ c, Chain root files' (commits ++ [c]) (commits.length + 1) ∧
      Fed asked root files' (commits ++ [c]) entries := by
  obtain ⟨v, hv, ht⟩ := hwrote.applied
  rw [Table.applyAll_move hregistered] at hv
  obtain rfl := Except.ok.inj hv
  refine h.of_wrote hchain hgrows hwrote (by rw [ht]; rfl) fun id hid => ?_
  rw [ht] at hid ⊢
  obtain rfl := Option.some.inj hid
  exact hregistered

theorem of_updated (h : Fed asked root files commits entries)
    (hchain : Chain root files commits current) (hgrows : files.Grows asked root files')
    {set : Properties} {remove : List String}
    (hwrote : Wrote root commits current [.updateProperties set remove] u t files') :
    ∃ c, Chain root files' (commits ++ [c]) (commits.length + 1) ∧
      Fed asked root files' (commits ++ [c]) entries := by
  obtain ⟨v, hv, ht⟩ := hwrote.applied
  obtain rfl := Except.ok.inj hv
  refine h.of_wrote hchain hgrows hwrote (by rw [ht]) fun id hid => ?_
  rw [ht] at hid ⊢
  exact h.current u hwrote.latest id hid

/-- The entries that a plan builds on are those of the current snapshot. -/
theorem entriesBefore_current (h : Fed asked root files commits entries)
    (hu : tableAfter? commits = some u) {operation : Operation} {changes : FileChanges}
    {p : Table.Plan} (hplanned : Table.Planned root files u operation changes p) :
    entriesBefore entries u.currentId = p.entriesBase := by
  rcases hplanned.loads_current with ⟨hnone, hnil⟩ | ⟨s, hsome, hload⟩
  · cases hid : u.currentId with
    | none =>
      rw [Table.Plan.entriesBase, hnil]
      rfl
    | some id =>
      obtain ⟨s, hs⟩ := SortedMap.contains_iff.1 (h.current u hu id hid)
      rw [Table.current?, hid] at hnone
      exact absurd (hnone.symm.trans hs) (by simp)
  · obtain ⟨id, hid, hs⟩ := Option.bind_eq_some_iff.1 hsome
    obtain ⟨ms, hms, hentries⟩ := h.loads u hu id s hs
    obtain rfl := hms.unique hload
    rw [hid]
    exact hentries.symm

/-- A commit that registers a snapshot. -/
theorem of_committed (h : Fed asked root files commits entries)
    (hchain : Chain root files commits current) (hclear : Unambiguous asked)
    (hgrows : files.Grows asked root files') {base : Option SnapshotId} {operation : Operation}
    {changes : FileChanges} {p : Table.Plan} {s : Snapshot} (hunnamed : p.AdoptsUnnamed)
    (hcommit : Table.Committed asked root commits current base operation changes now files u p s t
      files') :
    ∃ c entries', Chain root files' (commits ++ [c]) (commits.length + 1) ∧
      Fed asked root files' (commits ++ [c]) entries' := by
  obtain ⟨c, -, hchain', htable⟩ := hcommit.wrote.written
  have hu := hcommit.wrote.latest
  have hsupplied := h.supplied.grows hgrows
  have hid := hcommit.id_eq
  have hparent : s.parentId = u.currentId := by
    rw [hcommit.snapshot, hcommit.based]
    rfl
  -- The entries of the new snapshot are those of its plan; all others have theirs.
  generalize hinherits : u.metadata.properties.inheritsSnapshotIds = inherits at hcommit
  have hself : Function.update entries p.id (p.entriesAfter u.spec inherits) s.id =
      p.entriesAfter u.spec inherits := by
    rw [hid, Function.update_self]
  have hsame : ∀ id, u.snapshots.contains id = true →
      Function.update entries p.id (p.entriesAfter u.spec inherits) id = entries id := by
    intro id hin
    have hne : id ≠ p.id := by
      rintro rfl
      rw [← hid, hcommit.fresh] at hin
      exact absurd hin (by simp)
    exact Function.update_of_ne hne _ _
  refine ⟨c, Function.update entries p.id (p.entriesAfter u.spec inherits), hchain',
    h.append hchain hsupplied htable (fun _ => hcommit.contains_current) ?_ ?_ ?_⟩
  · intro id r hr
    rcases hcommit.find?_cases hr with ⟨rfl, rfl⟩ | hold
    · rw [hself, ← hinherits]
      exact ⟨_, hcommit.loads hchain hgrows hsupplied hclear, rfl⟩
    · rw [hsame id (SortedMap.contains_iff.2 ⟨r, hold⟩)]
      exact (h.grows hchain hgrows).loads u hu id r hold
  · intro v hv
    obtain rfl := Option.some.inj (hu.symm.trans hv)
    exact hsame
  · intro id r hr
    rcases hcommit.find?_cases hr with ⟨rfl, rfl⟩ | hold
    · rw [hid]
      refine hcommit.planned.isFeed hunnamed inherits (h.feeds_last hu) ?_ ?_ (hid ▸ hr)
        (fun _ _ => hcommit.find?_kept) (Function.update_self _ _ _) hsame
      · rw [hparent]
        exact h.current u hu
      · rw [hparent]
        exact h.entriesBefore_current hu hcommit.planned
    · exact (h.feeds_last hu).extend (fun _ _ => hcommit.find?_kept) hsame hold

end Log.Fed

/-! ### Events -/

/-- The manifests that the event adopts have no ids, as they are found. -/
def Event.AdoptsUnnamed (root : Location) (handles : Nat → Option Table) (files : Tree)
    (event : Event) : Prop :=
  ∀ handle call t c path m n, event = .call handle call → handles handle = some t →
    call.change? t = some c → path ∈ c.changes.stagedPaths →
    perform root (FileM.readJson Form.readManifest path) files = (.ok (m, n), files) →
    ∀ e ∈ m.entries, e.snapshotId = none

/-- A plan adopts what it finds under the paths that it is given. -/
theorem Table.Planned.adoptsUnnamed {operation : Operation} {changes : FileChanges}
    {p : Table.Plan} (h : Table.Planned root files u operation changes p)
    (hunnamed : ∀ path m n, path ∈ changes.stagedPaths →
      perform root (FileM.readJson Form.readManifest path) files = (.ok (m, n), files) →
      ∀ e ∈ m.entries, e.snapshotId = none) : p.AdoptsUnnamed := by
  intro s hs
  have hpath : s.path ∈ changes.stagedPaths := by
    rw [h.stagedPaths]
    exact List.mem_map_of_mem hs
  exact hunnamed s.path s.manifest s.length hpath (Table.perform_readStaged_iff.1 (h.staged s hs)).1

namespace Log.Fed

variable {now : Calendar.Instant} {handles : Nat → Option Table}

/-- An event that runs to its end leaves a log that tells its changes, with one more commit or
with none. -/
theorem after_deed (h : Fed asked root files commits entries)
    (hchain : Chain root files commits current) (hclear : Unambiguous asked)
    (hgrows : files.Grows asked root files') {event : Event}
    {result : Except TableError Answer × Option Table}
    (hdeed : event.Deed asked root commits current now handles files result files')
    (hunnamed : (∃ e, result.1 = .error e) ∨ event.AdoptsUnnamed root handles files) :
    ∃ commits' current' entries', Chain root files' commits' current' ∧
      Fed asked root files' commits' entries' ∧
      (commits' = commits ∨ ∃ c, commits' = commits ++ [c]) := by
  cases hdeed with
  | @created _ m c _ _ hfirst _ hnew hchain' htable =>
    subst hfirst
    refine ⟨[c], 1, entries, hchain', ?_, .inr ⟨c, rfl⟩⟩
    refine h.append hchain (h.supplied.grows hgrows) htable ?_ ?_ (fun _ _ _ _ => rfl) ?_
    · rw [hnew]
      exact fun id hid => absurd hid (by simp [Table.new])
    · rw [hnew]
      exact fun id s hs => absurd hs (by simp [Table.new])
    · rw [hnew]
      exact fun id s hs => absurd hs (by simp [Table.new])
  | @called handle call t a t' _ hcopy heffect =>
    have hadopts : Event.AdoptsUnnamed root handles files (.call handle call) :=
      hunnamed.resolve_left fun hfails => absurd hfails.choose_spec (by simp)
    cases heffect with
    | refreshed => exact ⟨commits, current, entries, hchain, h, .inl rfl⟩
    | staged hchain' =>
      exact ⟨commits, current, entries, hchain', h.grows hchain hgrows, .inl rfl⟩
    | committed hasks hcommit =>
      have hplan := hcommit.planned.adoptsUnnamed fun path m n hpath =>
        hadopts handle call t _ path m n rfl hcopy hasks hpath
      obtain ⟨c, entries', hchain', hfed⟩ :=
        h.of_committed hchain hclear hgrows hplan hcommit
      exact ⟨_, _, entries', hchain', hfed, .inr ⟨c, rfl⟩⟩
    | rolledBack _ hregistered _ hwrote =>
      obtain ⟨c, hchain', hfed⟩ := h.of_moved hchain hgrows hregistered hwrote
      exact ⟨_, _, entries, hchain', hfed, .inr ⟨c, rfl⟩⟩
    | moved _ hregistered hwrote =>
      obtain ⟨c, hchain', hfed⟩ := h.of_moved hchain hgrows hregistered hwrote
      exact ⟨_, _, entries, hchain', hfed, .inr ⟨c, rfl⟩⟩
    | updated hwrote =>
      obtain ⟨c, hchain', hfed⟩ := h.of_updated hchain hgrows hwrote
      exact ⟨_, _, entries, hchain', hfed, .inr ⟨c, rfl⟩⟩
    | @tookIn _ _ added files₁ path u p s _ _ _ _ hproceeds hchain₁ hpath hfiled hcommit hproceeds' =>
      have h₁ := h.grows hchain hproceeds.grows
      -- What is adopted is what was staged, and this has no ids.
      have hcontent := hfiled.content h₁.supplied hclear
      have hplan := hcommit.planned.adoptsUnnamed fun path' m n hpath' hread => by
        obtain rfl := List.mem_singleton.1 hpath'
        rw [FileM.readJson_manifest hcontent] at hread
        obtain ⟨rfl, -⟩ := Prod.mk.inj (Except.ok.inj (Prod.mk.inj hread).1)
        exact fun e => Table.unnamed_of_mem_stagedManifest
      obtain ⟨c, entries', hchain', hfed⟩ :=
        h₁.of_committed hchain₁ hclear hproceeds'.grows hplan hcommit
      exact ⟨_, _, entries', hchain', hfed, .inr ⟨c, rfl⟩⟩
  | opened => exact ⟨commits, current, entries, hchain, h, .inl rfl⟩
  | failed hfailure =>
    obtain ⟨current', hchain', -⟩ := hfailure.settled
    exact ⟨commits, current', entries, hchain', h.grows hchain hgrows, .inl rfl⟩

/-- Files between those before an event and those after the whole event tell their changes, if
what is on the shelves can be read: a snapshot that is registered by then is read as it is
after the whole event. -/
theorem between (h : Fed asked root files commits entries)
    (hchain : Chain root files commits current) (hgrows : files.Grows asked root files')
    (hchain' : Chain root files' commits' current') (hshelved : Shelved root files')
    (hbefore : commits <+: commits') (hgrows' : files'.Grows asked root files'')
    (h'' : Fed asked root files'' commits'' entries') (hbehind : commits' <+: commits'')
    (hone : commits'' = commits ∨ ∃ c, commits'' = commits ++ [c]) :
    ∃ entries₁, Fed asked root files' commits' entries₁ := by
  have hlength : commits''.length ≤ commits.length + 1 := by
    rcases hone with rfl | ⟨c, rfl⟩
    · exact Nat.le_succ _
    · exact Nat.le_of_eq List.length_append
  rcases eq_or_eq_of_stages hbefore hbehind hlength with rfl | rfl
  · exact ⟨entries, h.grows hchain hgrows⟩
  · refine ⟨entries', h.supplied.grows hgrows, h''.current, fun t ht id s hs => ?_, h''.feeds⟩
    obtain ⟨ms, hloads⟩ := (hshelved.registered commits' current' t hchain' ht id s hs).loads
    obtain ⟨ms', hloads', hentries⟩ := h''.loads t ht id s hs
    obtain rfl := Snapshot.Loads.unique (FileM.loadManifests_grows hchain' hgrows' hloads) hloads'
    exact ⟨ms, hloads, hentries⟩

end Log.Fed

/-! ### Runs -/

namespace World

variable {w : World} {turn : Turn}

/-- The turn ends with an error. -/
def Fails (root : Location) (w : World) (turn : Turn) : Prop :=
  ∃ r e, (w.step root turn).history = r :: w.history ∧ r.result = .error e

/-- Every turn leaves a log that tells its changes. -/
theorem fed_step (hordered : w.Ordered root commits current) (hshelved : Shelved root w.files)
    (hfed : Fed asked root w.files commits entries) (hclear : Unambiguous asked)
    (hasked : ∀ r ∈ w.wants root turn, asked r)
    (hunnamed : w.Fails root turn ∨ turn.event.AdoptsUnnamed root w.handles w.files) :
    ∃ commits' current' entries', (w.step root turn).Ordered root commits' current' ∧
      Shelved root (w.step root turn).files ∧
      Fed asked root (w.step root turn).files commits' entries' := by
  obtain ⟨commits', current', hordered', hbefore, -, hproceeds⟩ := hordered.step turn
  have hshelved' := hproceeds.shelves hshelved
  cases hscript : turn.event.script? turn.now w.handles with
  | none =>
    rw [step_of_no_script hscript] at hordered' ⊢
    exact ⟨commits, current, entries, hordered, hshelved, hfed⟩
  | some script =>
    simp only [wants, hscript] at hasked
    obtain ⟨hdeed, hwhole⟩ := hordered.deed hscript hasked
    obtain ⟨hfirst, hrest⟩ := hordered.step_between hscript hasked
    -- A turn that fails has run to its end, and failed there.
    have hunnamed : (∃ e, (script.run root w.files).1.1 = .error e) ∨
        turn.event.AdoptsUnnamed root w.handles w.files := by
      refine hunnamed.imp_left ?_
      rintro ⟨r, e, hdone, herror⟩
      obtain ⟨script', files', hscript', hrun, -⟩ := done_of_history hdone
      obtain rfl := Option.some.inj (hscript.symm.trans hscript')
      rw [Script.run_of_runWithin hrun]
      exact ⟨e, herror⟩
    obtain ⟨commits'', current'', entries'', hchain'', hfed'', hone⟩ :=
      hfed.after_deed hordered.chain hclear hwhole.grows hdeed hunnamed
    obtain ⟨_, _, hlast, hbehind, -⟩ := hrest.advances _ _ hordered'.chain
    obtain ⟨rfl, -⟩ := hlast.unique hchain''
    obtain ⟨entries', hfed'⟩ := hfed.between hordered.chain hfirst.grows hordered'.chain hshelved'
      hbefore hrest.grows hfed'' hbehind hone
    exact ⟨commits', current', entries', hordered', hshelved', hfed'⟩

/-- In every run, with many handles, failures and stops, the entries of each snapshot that a
handle has tell how its files differ from those of its parent, and since when its live files
are there. It is assumed that the contents which the turns ask to be stored can be told apart
by their names, and that the manifests which they adopt have no ids, unless they fail. -/
theorem entries_tell_changes (hvacant : files.Vacant root) (turns : List Turn)
    (hclear : Unambiguous asked)
    (hasked : ∀ before turn, before ++ [turn] <+: turns →
      ∀ r ∈ (run root (start files) before).wants root turn, asked r)
    (hunnamed : ∀ before turn, before ++ [turn] <+: turns →
      (run root (start files) before).Fails root turn ∨
        turn.event.AdoptsUnnamed root (run root (start files) before).handles
          (run root (start files) before).files)
    {handle : Nat} (ht : (run root (start files) turns).handles handle = some t) :
    ∃ entries, Feeds t.snapshots entries ∧ ∀ id, t.snapshots.contains id = true →
      perform root (t.entries (some id)) (run root (start files) turns).files =
          (.ok (entries id), (run root (start files) turns).files) ∧
        perform root (t.files (some id)) (run root (start files) turns).files =
          (.ok (liveAmong (entries id)), (run root (start files) turns).files) := by
  have hrun := @run_turns_induction root (start files) (fun w =>
    ∃ commits current entries, w.Ordered root commits current ∧ Shelved root w.files ∧
      Fed asked root w.files commits entries) turns
    ⟨[], 0, fun _ => [], .start (Chain.of_vacant hvacant), .of_vacant hvacant, .of_vacant hvacant⟩
    fun before turn hbefore ⟨commits, current, entries, hordered, hshelved, hfed⟩ =>
      fed_step hordered hshelved hfed hclear (hasked before turn hbefore)
        (hunnamed before turn hbefore)
  obtain ⟨commits, current, entries, hordered, -, hfed⟩ := hrun
  have hreplica := hordered.replicas handle t ht
  obtain ⟨u, hu, hextends⟩ := hordered.chain.exists_last hreplica.table
  refine ⟨entries, hfed.feeds _ t hreplica.table, fun id hin => ?_⟩
  obtain ⟨s, hs⟩ := SortedMap.contains_iff.1 hin
  obtain ⟨ms, hloads, hentries⟩ := hfed.loads u hu id s (hextends.kept id s hs)
  rw [← hentries, liveAmong_entriesIn, Table.entries, Table.rowsOf_some hs]
  refine ⟨?_, Table.perform_files hs hloads⟩
  rw [entriesIn, List.flatMap_map]
  exact Table.perform_entriesOf hloads

end World

namespace Days

open World

/-- What is adopted was staged, and has no ids. -/
theorem adoptsUnnamed_turns {before : List Turn} {turn : Turn}
    (h : before ++ [turn] <+: turns.take 5) :
    turn.event.AdoptsUnnamed ⟨"."⟩ (run ⟨"."⟩ (start .empty) before).handles
      (run ⟨"."⟩ (start .empty) before).files := by
  obtain ⟨j, hj, rfl, hturn⟩ := turn_of_prefix h
  rw [turns_eq] at hturn
  intro handle call t c path m n hevent _ hasks hpath hread
  -- Only the fourth of the turns names a manifest.
  obtain rfl | rfl | rfl | rfl | rfl : j = 0 ∨ j = 1 ∨ j = 2 ∨ j = 3 ∨ j = 4 := by omega
  all_goals obtain rfl := Option.some.inj hturn
  case inl => exact absurd hevent (by simp)
  all_goals obtain ⟨-, rfl⟩ := Event.call.inj hevent
  case inr.inr.inr.inl =>
    obtain rfl := Option.some.inj hasks
    obtain rfl := List.mem_singleton.1 hpath
    rw [world_eq] at hread
    have hstaged := (Table.perform_readStaged_iff.1 (readStaged 2 1 _ List.mem_cons_self)).1
    obtain ⟨rfl, -⟩ := Prod.mk.inj (Except.ok.inj (Prod.mk.inj (hread.symm.trans hstaged)).1)
    decide
  case inr.inl => exact absurd hasks (by simp [Call.change?])
  all_goals
    obtain rfl := Option.some.inj hasks
    exact absurd hpath List.not_mem_nil

/-- Two files are adopted, and then one of them is deleted. -/
theorem entries_tell_changes_thinned : Tree.empty.Vacant ⟨"."⟩ ∧
    run ⟨"."⟩ (start .empty) (turns.take 5) = world 5 ∧
    Unambiguous (· ∈ (world 5).requests) ∧
    (∀ before turn, before ++ [turn] <+: turns.take 5 →
      turn.event.AdoptsUnnamed ⟨"."⟩ (run ⟨"."⟩ (start .empty) before).handles
        (run ⟨"."⟩ (start .empty) before).files) ∧
    (world 5).handles 0 = some thinned ∧ thinned.snapshots.contains 3 = true ∧
    ∃ entries, Feeds thinned.snapshots entries ∧
      entries 3 = [⟨.deleted, some 3, dated⟩, ⟨.existing, some 2, undated⟩] ∧
      perform ⟨"."⟩ (thinned.entries (some 3)) (world 5).files =
        (.ok (entries 3), (world 5).files) := by
  have h := known_thinned
  have hcopy := h.stands.copy
  have hin : thinned.snapshots.contains 3 = true := by decide
  have hrun : run ⟨"."⟩ (start .empty) (turns.take 5) = world 5 := world_eq 5
  have hclear := h.stands.unambiguous unambiguous
  have hid : thinned.currentId = some 3 := rfl
  have hfind : thinned.snapshots.find? 3 = some (filled.snapshotOf deleting .delete default) := rfl
  obtain ⟨entries, hfeeds, hentries⟩ := @entries_tell_changes (· ∈ (world 5).requests) ⟨"."⟩ .empty
    thinned Tree.vacant_empty (turns.take 5) hclear
    (fun before turn hbefore => by rw [← hrun]; exact wants_mem_requests (ends 5) hbefore)
    (fun before turn hbefore => .inr (adoptsUnnamed_turns hbefore)) 0 (by rw [hrun]; exact hcopy)
  rw [hrun] at hentries
  obtain ⟨hlisted, -⟩ := hentries 3 hin
  have hread := hlisted
  rw [Table.entries, Table.rowsOf_some hfind, Table.perform_entriesOf (h.loads hid hfind)] at hread
  have hthree : entries 3 = [⟨.deleted, some 3, dated⟩, ⟨.existing, some 2, undated⟩] :=
    (Except.ok.inj (Prod.mk.inj hread).1).symm
  exact ⟨Tree.vacant_empty, hrun, hclear, fun _ _ => adoptsUnnamed_turns, hcopy, hin, entries, hfeeds,
    hthree, hlisted⟩

end Days

end Lakehouse
