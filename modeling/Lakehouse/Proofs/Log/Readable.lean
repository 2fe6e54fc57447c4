import Lakehouse.Proofs.Log.Acceptance
import Lakehouse.Proofs.Log.Appending

/- Logs that stay readable.

   Again nothing is supposed about the files but that the log can be read (`Readable`). There are
   two ways for a version to become current. A writer names the commit that it has created, of
   which the actions can be applied to the table; or it meets a commit file behind the last commit
   and names this one, after it has looked at its numbers, but not at its actions. So each access of
   a writer keeps the log readable if the actions of such a file, should there be one, can be
   applied to the table as well (`Safe`, `append_steady`). -/
namespace Lakehouse.Log

open Script Contract Lakehouse.Tree

variable {root : Location} {files files' : Tree} {v : Version} {c : Commit} {commits : List Commit}
  {t u : Table} {names : List String} {content : ByteArray} {result : Except StorageError Unit}

/-- The log can be read. -/
def Readable (root : Location) (files : Tree) : Prop :=
  ∃ t, perform root rebuild files = (.ok t, files)

/-! ### What is recorded stays recorded -/

theorem Points.keeps (h : Points root files v) (hkeep : files.Keeps files') :
    Points root files' v := by
  obtain ⟨content, hread, hv⟩ := h
  exact ⟨content, hkeep.readText hread, hv⟩

theorem Holds.keeps (h : Holds root files v c) (hkeep : files.Keeps files') :
    Holds root files' v c := by
  obtain ⟨content, hread, hc⟩ := h
  exact ⟨content, hkeep.readText hread, hc⟩

theorem plain_current : Path.Plain Layout.currentPath ([Layout.logDirectory] ++ ["CURRENT"]) :=
  Layout.currentPath_isFile.1

theorem plain_commit (v : Version) :
    Path.Plain (Layout.commitPath v) ([Layout.logDirectory] ++ [Layout.commitName v]) :=
  (Layout.commitPath_isFile v).1

theorem commitNames_ne (v : Version) :
    [Layout.logDirectory, Layout.commitName v] ≠ [Layout.logDirectory, "CURRENT"] := by
  intro h
  have hcommit : Path.Plain (Layout.commitPath v) [Layout.logDirectory, Layout.commitName v] :=
    plain_commit v
  rw [h] at hcommit
  exact Layout.commitPath_ne_currentPath v (hcommit.path_eq plain_current)

/-- The file for the current version may change. -/
theorem Holds.keepsBut (h : Holds root files v c)
    (hkeep : files.KeepsBut root.currentPlace files') : Holds root files' v c := by
  obtain ⟨content, hread, hc⟩ := h
  exact ⟨content, hkeep.readText (Layout.commitPath_isFile v).1 (commitNames_ne v) hread, hc⟩

/-- A commit file was there before a write at another place, or one that failed. -/
theorem Holds.of_wroteAt (h : Holds root files' v c)
    (hlocated : files.locate [] (Path.rootMoves root.path) = .ok root.place)
    (hwrote : WroteAt files files' (root.place ++ names) content result)
    (hother : result = .ok () → names ≠ [Layout.logDirectory, Layout.commitName v]) :
    Holds root files v c := by
  have hplain := (Layout.commitPath_isFile v).1
  obtain ⟨text, hread, hc⟩ := h
  obtain ⟨bytes, hbytes, htext⟩ := readText_eq_ok.1 hread
  have hlocated' := locate_mono hwrote.keepsBut.keepsDirectories hlocated
  obtain ⟨hcheck, hnode⟩ := (readBytes_plain hlocated' hplain).1 hbytes
  refine ⟨text, readText_eq_ok.2 ⟨bytes, (readBytes_plain hlocated hplain).2 ⟨hcheck, ?_⟩, htext⟩, hc⟩
  rcases hwrote.files _ _ hnode with hold | ⟨hplace, hok, -⟩
  · exact hold
  · exact absurd (List.append_cancel_left hplace).symm (hother hok)

theorem Logged.keeps (h : Logged root files v commits) (hkeep : files.Keeps files') :
    Logged root files' v commits :=
  ⟨h.current.keeps hkeep, h.pos, h.length,
    fun n c hc => (h.recorded n c hc).imp_right fun hholds => hholds.keeps hkeep⟩

theorem rebuild_keeps (h : perform root rebuild files = (.ok t, files))
    (hkeep : files.Keeps files') : perform root rebuild files' = (.ok t, files') := by
  obtain ⟨-, v, commits, hlogged, htable⟩ := perform_rebuild_iff.1 h
  exact perform_rebuild_iff.2 ⟨rfl, v, commits, hlogged.keeps hkeep, htable⟩

/-! ### What is read of a log that can be read -/

theorem logged_of_rebuild (h : perform root rebuild files = (.ok t, files)) :
    ∃ commits, Logged root files t.version commits ∧ tableAfter? commits = some t := by
  obtain ⟨-, v, commits, hlogged, htable⟩ := perform_rebuild_iff.1 h
  obtain ⟨u, -, rfl⟩ := tableAfter?_eq_some htable
  have hversion : UInt64.ofNat commits.length = v := by rw [hlogged.length, UInt64.ofNat_toNat]
  exact ⟨commits, by rwa [← hversion] at hlogged, htable⟩

theorem currentVersion_of_rebuild (h : perform root rebuild files = (.ok t, files)) :
    perform root currentVersion files = (.ok t.version, files) := by
  obtain ⟨commits, hlogged, -⟩ := logged_of_rebuild h
  exact (perform_currentVersion_pos_iff hlogged.pos).2 ⟨rfl, hlogged.current⟩

theorem located_of_rebuild (h : perform root rebuild files = (.ok t, files)) :
    files.locate [] (Path.rootMoves root.path) = .ok root.place := by
  obtain ⟨commits, hlogged, -⟩ := logged_of_rebuild h
  obtain ⟨text, hread, -⟩ := hlogged.current
  obtain ⟨bytes, hbytes, -⟩ := readText_eq_ok.1 hread
  exact located_of_read Layout.currentPath_isFile.1 hbytes

/-- The commit behind the last one is recorded as soon as it is current. -/
theorem Logged.advance (h : Logged root files v commits) (hc : Holds root files (v + 1) c)
    (hversion : c.version = v + 1) (hlast : v.toNat + 1 ≠ UInt64.size)
    (hkeep : files.KeepsBut root.currentPlace files') (hcurrent : Points root files' (v + 1)) :
    Logged root files' (v + 1) (commits ++ [c]) := by
  have hnext : (v + 1).toNat = v.toNat + 1 := by
    have hlt := v.toNat_lt
    have hsize : UInt64.size = 2 ^ 64 := rfl
    rw [UInt64.toNat_add, UInt64.toNat_one, Nat.mod_eq_of_lt (by omega)]
  have hlength := h.length
  refine ⟨hcurrent, fun hzero => ?_, ?_, fun n d hd => ?_⟩
  · rw [hzero] at hnext
    exact absurd hnext (by simp)
  · rw [List.length_append, hnext, hlength, List.length_singleton]
  · by_cases hn : n < commits.length
    · rw [List.getElem?_append_left hn] at hd
      exact (h.recorded n d hd).imp_right fun hholds => hholds.keepsBut hkeep
    · obtain rfl : n = commits.length := by
        have hlt := (List.getElem?_eq_some_iff.1 hd).1
        rw [List.length_append, List.length_singleton] at hlt
        omega
      rw [List.getElem?_concat_length] at hd
      obtain rfl := Option.some.inj hd
      have hsame : UInt64.ofNat (commits.length + 1) = v + 1 := by
        rw [hlength, ← hnext, UInt64.ofNat_toNat]
      rw [hsame]
      exact ⟨hversion, hc.keepsBut hkeep⟩

/-- One more commit describes a table if its actions can be applied to the one before. -/
theorem exists_tableAfter?_append (h : tableAfter? commits = some t) :
    (∃ u, tableAfter? (commits ++ [c]) = some u) ↔ ∃ u, t.applyAll c.actions = .ok u := by
  constructor
  · rintro ⟨u, hu⟩
    obtain ⟨t', ht', rfl⟩ := tableAfter?_eq_some h
    obtain ⟨u', hu', -⟩ := tableAfter?_eq_some hu
    rw [replayed, List.foldlM_append, ← replayed, ht'] at hu'
    have hone : replayed (some t') [c] = .ok (some u') := hu'
    rw [replayed_some, actionsOf_cons, actionsOf, List.flatMap_nil, List.append_nil] at hone
    obtain ⟨w, hw, -⟩ := map_eq_ok.1 hone
    exact ⟨_, by rw [Table.applyAll_version, hw]; rfl⟩
  · rintro ⟨u, hu⟩
    exact ⟨_, tableAfter?_append h hu⟩

/-- With one more commit, the log is read as the table after its actions. -/
theorem rebuild_advance (h : perform root rebuild files = (.ok t, files))
    (hc : Holds root files (t.version + 1) c) (hversion : c.version = t.version + 1)
    (hlast : t.version.toNat + 1 ≠ UInt64.size) (hkeep : files.KeepsBut root.currentPlace files')
    (hcurrent : Points root files' (t.version + 1)) (happly : t.applyAll c.actions = .ok u) :
    perform root rebuild files' = (.ok { u with version := t.version + 1 }, files') := by
  obtain ⟨commits, hlogged, htable⟩ := logged_of_rebuild h
  have hnext : UInt64.ofNat (commits.length + 1) = t.version + 1 := by
    rw [hlogged.length, ofNat_succ, UInt64.ofNat_toNat]
  have hafter := tableAfter?_append htable happly
  rw [hnext] at hafter
  exact perform_rebuild_iff.2
    ⟨rfl, _, _, hlogged.advance hc hversion hlast hkeep hcurrent, hafter⟩

/-- With one more commit, the log can be read if the actions can be applied to the table. -/
theorem readable_advance (h : perform root rebuild files = (.ok t, files))
    (hc : Holds root files (t.version + 1) c) (hversion : c.version = t.version + 1)
    (hlast : t.version.toNat + 1 ≠ UInt64.size) (hkeep : files.KeepsBut root.currentPlace files')
    (hcurrent : Points root files' (t.version + 1)) :
    Readable root files' ↔ ∃ u, t.applyAll c.actions = .ok u := by
  constructor
  · rintro ⟨u, hu⟩
    obtain ⟨commits, hlogged, htable⟩ := logged_of_rebuild h
    obtain ⟨-, w, commits', hlogged', hu⟩ := perform_rebuild_iff.1 hu
    obtain ⟨-, rfl⟩ := (hlogged.advance hc hversion hlast hkeep hcurrent).unique hlogged'
    exact (exists_tableAfter?_append htable).1 ⟨u, hu⟩
  · rintro ⟨u, hu⟩
    exact ⟨_, rebuild_advance h hc hversion hlast hkeep hcurrent hu⟩

/-! ### Safe logs -/

/-- The log is read as this table; and if a commit is found behind the last one that goes on from
it, its actions can be applied to the table. -/
structure Safe (root : Location) (t : Table) (files : Tree) : Prop where
  read : perform root rebuild files = (.ok t, files)
  next : ∀ c, Holds root files (t.version + 1) c → c.version = t.version + 1 →
    c.base = t.version → ∃ u, t.applyAll c.actions = .ok u

/-- What is created beside the next commit, or cannot be created, changes nothing of this. -/
theorem Safe.of_wroteAt (h : Safe root t files) (hkeep : files.Keeps files')
    (hwrote : WroteAt files files' (root.place ++ names) content result)
    (hother : result = .ok () → names ≠ [Layout.logDirectory, Layout.commitName (t.version + 1)]) :
    Safe root t files' :=
  ⟨rebuild_keeps h.read hkeep, fun c hc =>
    h.next c (hc.of_wroteAt (located_of_rebuild h.read) hwrote hother)⟩

/-- Whatever is asked for, each access keeps the log readable. -/
def steady (root : Location) : Contract :=
  ⟨root, fun _ => True, fun files files' => Readable root files → Readable root files'⟩

/-- A version is named of which the commit can be applied. -/
theorem writeCurrent_steady (h : perform root rebuild files = (.ok t, files))
    (hc : Holds root files (t.version + 1) c) (hversion : c.version = t.version + 1)
    (happly : t.applyAll c.actions = .ok u) (hlast : t.version.toNat + 1 ≠ UInt64.size) :
    (steady root).Attempts (writeCurrent (t.version + 1)) files (fun _ _ => True)
      (fun _ _ => True) := by
  obtain ⟨hwrote, hcheck⟩ := replace_wrote files root plain_current (by simp)
    (currentContent (t.version + 1))
  refine Attempts.mk (Ensures.bind (Ensures.request fun _ => ?_))
  simp only [steady, Tree.answer]
  generalize files.replace (Path.join root.path Layout.currentPath)
    (currentContent (t.version + 1)) = reply at hwrote hcheck ⊢
  obtain ⟨result, after⟩ := reply
  refine ⟨fun _ => ?_, Ensures.pure (by split <;> trivial)⟩
  by_cases hok : result = .ok ()
  · subst hok
    have hpoints : Points root after (t.version + 1) := ⟨_, hwrote.readText (located_of_rebuild h)
      plain_current (hcheck rfl) (fromUTF8?_toUTF8 _), parseCurrent_line _⟩
    exact (readable_advance h hc hversion hlast hwrote.keepsBut hpoints).2 ⟨u, happly⟩
  · exact ⟨t, rebuild_keeps h (hwrote.keeps hok)⟩

/-- A commit file that is met behind the last commit becomes current only if it goes on from it. -/
theorem publish_steady (h : Safe root t files) (hlast : t.version.toNat + 1 ≠ UInt64.size) :
    (steady root).Attempts (publish t.version (t.version + 1)) files (fun _ _ => True)
      (fun _ _ => True) := by
  refine Attempts.bind ((attempts_of_reads (c := steady root) (reads_loadCommit _) id).mono ?_
    fun _ _ _ => trivial)
  rintro found files' ⟨hload, rfl⟩
  have hfound := (perform_loadCommit_iff.1 hload).2
  split
  next hgoes =>
    refine Attempts.bind ((attempts_of_reads (c := steady root) reads_currentVersion id).mono ?_
      fun _ _ _ => trivial)
    rintro current files'' ⟨-, rfl⟩
    split
    next =>
      obtain ⟨u, hu⟩ := h.next found hfound hgoes.1 hgoes.2
      exact writeCurrent_steady h.read hfound hgoes.1 hu hlast
    next => exact Attempts.pure trivial
  next => exact Attempts.throw trivial

/-- A writer whose actions can be applied to the table keeps a safe log readable. -/
theorem append_steady (h : Safe root t files) {expected : Version} {actions : List Action}
    (hvalid : expected = t.version → ∃ u, t.applyAll actions = .ok u) (now : Calendar.Instant) :
    (steady root).Attempts (append expected actions now) files (fun _ _ => True)
      (fun _ _ => True) := by
  refine Attempts.bind ((attempts_of_reads (c := steady root) reads_currentVersion id).mono ?_
    fun _ _ _ => trivial)
  rintro current files' ⟨hcurrent, rfl⟩
  obtain rfl : t.version = current :=
    Except.ok.inj (Prod.mk.inj ((currentVersion_of_rebuild h.read).symm.trans hcurrent)).1
  split
  next => exact Attempts.throw trivial
  next hsame =>
    obtain rfl : expected = t.version := (not_not.1 hsame).symm
    split
    next => exact Attempts.throw trivial
    next hlast =>
      obtain ⟨u, hu⟩ := hvalid rfl
      obtain ⟨hkeep, hwrote, hcheck⟩ := create_wrote files' root (plain_commit (t.version + 1))
        (by simp) (commitContent (nextCommit t.version actions now))
      refine Attempts.bind (Attempts.lift (Ensures.request fun _ => ?_))
      simp only [steady, Tree.answer, nextCommit] at hkeep hwrote hcheck ⊢
      generalize files'.create (Path.join root.path (Layout.commitPath (t.version + 1)))
        (commitContent ⟨t.version + 1, t.version, now, actions⟩) = reply at hkeep hwrote hcheck ⊢
      obtain ⟨result, after⟩ := reply
      refine ⟨fun _ => ⟨t, rebuild_keeps h.read hkeep⟩, ?_⟩
      cases result with
      | ok _ =>
        -- The commit is the one that was created.
        have hholds : Holds root after (t.version + 1) ⟨t.version + 1, t.version, now, actions⟩ :=
          ⟨_, hwrote.readText (located_of_rebuild h.read) (plain_commit _) (hcheck rfl)
            (fromUTF8?_toUTF8 _), parseCommit_render _ _⟩
        refine Attempts.bind ((writeCurrent_steady (rebuild_keeps h.read hkeep) hholds rfl hu
          hlast).mono ?_ fun _ _ _ => trivial)
        exact fun _ _ _ => Attempts.pure trivial
      | error e =>
        have hsafe := h.of_wroteAt hkeep hwrote fun hok => absurd hok (by simp)
        cases e with
        | alreadyExists p =>
          refine Attempts.bind ((publish_steady hsafe hlast).mono ?_ fun _ _ _ => trivial)
          exact fun _ _ _ => Attempts.throw trivial
        | notFound p => exact Attempts.throw trivial
        | fault p cause => exact Attempts.throw trivial

/-! ### Commits that were left -/

theorem Holds.content? (h : Holds root files v c) :
    ∃ bytes, files.content? root (Layout.commitPath v) = some bytes := by
  obtain ⟨text, hread, -⟩ := h
  obtain ⟨bytes, hbytes, -⟩ := readText_eq_ok.1 hread
  exact ⟨bytes, by rw [Tree.content?, hbytes]; rfl⟩

/-- Whoever looks for the commit behind the last one names it, if the version can be named. -/
theorem perform_publish (hread : perform root rebuild files = (.ok t, files))
    (hc : Holds root files (t.version + 1) c) (hversion : c.version = t.version + 1)
    (hbase : c.base = t.version) (hok : (files.replace (Path.join root.path Layout.currentPath)
      (currentContent (t.version + 1))).1 = .ok ()) :
    perform root (publish t.version (t.version + 1)) files =
      (.ok (), (files.replace (Path.join root.path Layout.currentPath)
        (currentContent (t.version + 1))).2) := by
  rw [publish, perform_bind, perform_loadCommit_iff.2 ⟨rfl, hc⟩]
  simp only [if_pos (And.intro hversion hbase)]
  rw [perform_bind, currentVersion_of_rebuild hread]
  simp only [if_true]
  rw [writeCurrent, perform_mk, run_bind, run_request, run_pure]
  simp only [Tree.answer, hok, mapError_ok]

/-- Whoever meets the next commit, and has named it, has lost to it. -/
theorem perform_append_of_taken (hread : perform root rebuild files = (.ok t, files))
    (hlast : t.version.toNat + 1 ≠ UInt64.size) {actions : List Action} {now : Calendar.Instant}
    {p : String} (htaken : (files.create (Path.join root.path (Layout.commitPath (t.version + 1)))
      (commitContent (nextCommit t.version actions now))).1 = .error (.alreadyExists p))
    {after : Tree} (hpublish : perform root (publish t.version (t.version + 1))
      (files.create (Path.join root.path (Layout.commitPath (t.version + 1)))
        (commitContent (nextCommit t.version actions now))).2 = (.ok (), after)) :
    perform root (append t.version actions now) files =
      (.error (.conflict t.version (t.version + 1)), after) := by
  rw [append, perform_bind, currentVersion_of_rebuild hread]
  simp only [ne_eq, not_true_eq_false, if_false, if_neg hlast]
  rw [perform_bind, perform_lift, run_request]
  simp only [Tree.answer, nextCommit] at htaken hpublish ⊢
  simp only [htaken]
  rw [perform_bind, hpublish]
  rfl

/-- A commit that goes on from the last one becomes current as soon as it is met, and the log stays
readable only if the actions of the commit can be applied to the table. -/
theorem publish_leftover (hosts : files.Hosts root) (hroom : root.Roomy)
    (hread : perform root rebuild files = (.ok t, files)) (hc : Holds root files (t.version + 1) c)
    (hversion : c.version = t.version + 1) (hbase : c.base = t.version)
    (hlast : t.version.toNat + 1 ≠ UInt64.size) : ∃ after,
      perform root (publish t.version (t.version + 1)) files = (.ok (), after) ∧
        (Readable root after ↔ ∃ u, t.applyAll c.actions = .ok u) := by
  obtain ⟨-, hkeep, -⟩ := replace_outcome hosts Layout.currentPath_isFile.1
    Layout.currentPath_isFile.2 (currentContent (t.version + 1))
  obtain ⟨hok, hnow⟩ := replace_of_takes hosts Layout.currentPath_isFile.1
    Layout.currentPath_isFile.2 hroom.current (currentContent (t.version + 1))
  exact ⟨_, perform_publish hread hc hversion hbase hok,
    readable_advance hread hc hversion hlast hkeep (.of_content hnow.here)⟩

/-- A writer that expects the current version and meets such a commit has lost to it. -/
theorem append_meets_leftover (hosts : files.Hosts root) (hroom : root.Roomy)
    (hread : perform root rebuild files = (.ok t, files)) (hc : Holds root files (t.version + 1) c)
    (hversion : c.version = t.version + 1) (hbase : c.base = t.version)
    (hlast : t.version.toNat + 1 ≠ UInt64.size) (actions : List Action) (now : Calendar.Instant) :
    (perform root (append t.version actions now) files).1 =
        .error (.conflict t.version (t.version + 1)) ∧
      (Readable root (perform root (append t.version actions now) files).2 ↔
        ∃ u, t.applyAll c.actions = .ok u) := by
  obtain ⟨old, hthere⟩ := hc.content?
  obtain ⟨hosts', hkeep, -⟩ := create_outcome hosts (Layout.isTablePath_commit (t.version + 1))
    (commitContent (nextCommit t.version actions now))
  obtain ⟨⟨p, hp⟩, -⟩ := create_taken hosts (Layout.isTablePath_commit (t.version + 1))
    (hroom.commit _) hthere (commitContent (nextCommit t.version actions now))
  obtain ⟨after, hpublish, hreadable⟩ := publish_leftover hosts' hroom (rebuild_keeps hread hkeep)
    (hc.keeps hkeep) hversion hbase hlast
  rw [perform_append_of_taken hread hlast hp hpublish]
  exact ⟨rfl, hreadable⟩

end Lakehouse.Log
