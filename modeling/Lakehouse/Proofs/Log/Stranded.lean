import Lakehouse.Proofs.Log.Readable
import Lakehouse.Proofs.Store.Grounding

/- Commits that were left behind the last one.

   A writer may stop after it has created its commit and before it has named the commit as current.
   Where the files of such commits follow one another, each of them going on from the one before
   (`Stranded`), and their actions can be applied in their order (`Table.after`), the next writer
   makes the first of them current and has lost to it, and then the others are left (`Pending`,
   `Pending.append_loses`). When there are none left, a writer does not lose
   (`Pending.append_decides`). -/
namespace Lakehouse

/-- The table after further commits, each of which is one version. -/
def Table.after (t : Table) : List Log.Commit → Except Log.Corruption Table
  | [] => .ok t
  | c :: rest => do
    let u ← t.applyAll c.actions
    Table.after { u with version := t.version + 1 } rest

namespace Log

open Script Lakehouse.Tree

variable {root : Location} {files files' : Tree} {v : Version} {c : Commit} {rest : List Commit}
  {t : Table} {names : List String} {content : ByteArray} {result : Except StorageError Unit}

/-- Behind the version there are the files of these commits, each of which says its version, and
that it goes on from the one before. Behind them no commit goes on. -/
def Stranded (root : Location) (files : Tree) : (version : Version) → List Commit → Prop
  | v, [] => ∀ c, Holds root files (v + 1) c → c.version = v + 1 → c.base ≠ v
  | v, c :: rest =>
    Holds root files (v + 1) c ∧ c.version = v + 1 ∧ c.base = v ∧ Stranded root files (v + 1) rest

/-- The log is read as this table, and the commits that were left behind it can be read as well. -/
structure Pending (root : Location) (t : Table) (rest : List Commit) (files : Tree) : Prop where
  read : perform root rebuild files = (.ok t, files)
  grounded : files.Grounded
  stranded : Stranded root files t.version rest
  room : t.version.toNat + rest.length < UInt64.size
  accepted : ∃ u, t.after rest = .ok u

/-! ### Writing beside the commits -/

/-- Beside its file, a write does not change what a commit is. -/
theorem holds_iff_of_wroteAt (hlocated : files.locate [] (Path.rootMoves root.path) = .ok root.place)
    (hwrote : WroteAt files files' (root.place ++ names) content result)
    (hbeside : names ≠ [Layout.logDirectory, Layout.commitName v]) :
    Holds root files' v c ↔ Holds root files v c := by
  constructor
  · intro h
    exact h.of_wroteAt hlocated hwrote fun _ => hbeside
  · rintro ⟨text, hread, hc⟩
    exact ⟨text, hwrote.keepsBut.readText (Layout.commitPath_isFile v).1 hbeside.symm hread, hc⟩

theorem Stranded.of_wroteAt (h : Stranded root files v rest)
    (hlocated : files.locate [] (Path.rootMoves root.path) = .ok root.place)
    (hwrote : WroteAt files files' (root.place ++ names) content result)
    (hbeside : ∀ w, names ≠ [Layout.logDirectory, Layout.commitName w]) :
    Stranded root files' v rest := by
  have hsame := fun w d => @holds_iff_of_wroteAt root files files' w d names content result hlocated
    hwrote (hbeside w)
  induction rest generalizing v with
  | nil =>
    intro d hd
    exact h d ((hsame _ d).1 hd)
  | cons c rest ih =>
    obtain ⟨hholds, hversion, hbase, hrest⟩ := h
    exact ⟨(hsame _ c).2 hholds, hversion, hbase, ih hrest⟩

/-- What is filed leaves the commits as they are. -/
theorem Pending.filed (h : Pending root t rest files) {kind path : String}
    (hname : Layout.IsNameOf content kind path) :
    Pending root t rest (files.create (Path.join root.path path) content).2 := by
  obtain ⟨directory, name, hne, hp, hbeside⟩ := hname.beside_commits
  obtain ⟨hkeep, hwrote, -⟩ := create_wrote files root hp hne content
  exact ⟨rebuild_keeps h.read hkeep, h.grounded.create _ _,
    h.stranded.of_wroteAt (located_of_rebuild h.read) hwrote hbeside, h.room, h.accepted⟩

/-- A commit that does not go on from the last one was put behind it by somebody else. It is not one
that was left behind. -/
theorem Pending.of_foreign (hread : perform root rebuild files = (.ok t, files))
    (hosts : files.Hosts root) (hroom : root.Roomy) (hgrounded : files.Grounded)
    (hfree : files.content? root (Layout.commitPath (t.version + 1)) = none)
    (hforeign : c.version = t.version + 1 → c.base ≠ t.version)
    (hafter : (files.create (Path.join root.path (Layout.commitPath (t.version + 1)))
      (commitContent c)).2 = files') :
    Pending root t [] files' ∧ Holds root files' (t.version + 1) c := by
  subst hafter
  obtain ⟨hkeep, -, -⟩ := create_wrote files root (plain_commit (t.version + 1)) (by simp)
    (commitContent c)
  obtain ⟨-, hcreated⟩ := create_of_takes hosts (Layout.isTablePath_commit (t.version + 1))
    (hroom.commit (t.version + 1)) hfree (commitContent c)
  have hholds := Holds.of_content hcreated.here
  refine ⟨⟨rebuild_keeps hread hkeep, hgrounded.create _ _, fun d hd hversion => ?_,
    t.version.toNat_lt, ⟨t, rfl⟩⟩, hholds⟩
  obtain rfl := hholds.unique hd
  exact hforeign hversion

/-! ### Adding a commit -/

theorem Points.of_rebuild (h : perform root rebuild files = (.ok t, files)) :
    Points root files t.version := by
  obtain ⟨commits, hlogged, -⟩ := logged_of_rebuild h
  exact hlogged.current

/-- The file that names the version is there where the log is read, so it can be replaced. -/
theorem replace_current (hread : perform root rebuild files = (.ok t, files))
    (hgrounded : files.Grounded) (content : ByteArray) :
    (files.replace (Path.join root.path Layout.currentPath) content).1 = .ok () := by
  obtain ⟨text, htext, -⟩ := Points.of_rebuild hread
  obtain ⟨old, hold, -⟩ := readText_eq_ok.1 htext
  exact replace_of_read hgrounded plain_current (by simp) hold content

/-- When the first of the commits is named, it is current, and the others are left. -/
theorem Pending.names_next (h : Pending root t (c :: rest) files) : ∃ u,
    t.applyAll c.actions = .ok u ∧ Pending root { u with version := t.version + 1 } rest
      (files.replace (Path.join root.path Layout.currentPath) (currentContent (t.version + 1))).2 := by
  have hroom := h.room
  rw [List.length_cons] at hroom
  obtain ⟨hholds, hversion, -, hrest⟩ := h.stranded
  obtain ⟨last, hlater⟩ := h.accepted
  rw [Table.after] at hlater
  obtain ⟨u, hu, hlater⟩ := bind_eq_ok.1 hlater
  have hok := replace_current h.read h.grounded (currentContent (t.version + 1))
  obtain ⟨hwrote, hcheck⟩ := replace_wrote files root plain_current (by simp)
    (currentContent (t.version + 1))
  have hgrounded := h.grounded.replace (Path.join root.path Layout.currentPath)
    (currentContent (t.version + 1))
  generalize (files.replace (Path.join root.path Layout.currentPath)
    (currentContent (t.version + 1))) = reply at hok hwrote hcheck hgrounded ⊢
  obtain ⟨result, after⟩ := reply
  obtain rfl : result = .ok () := hok
  have hpoints : Points root after (t.version + 1) := ⟨_, hwrote.readText
    (located_of_rebuild h.read) plain_current (hcheck rfl) (fromUTF8?_toUTF8 _), parseCurrent_line _⟩
  have hnext : (t.version + 1).toNat = t.version.toNat + 1 := by
    rw [UInt64.toNat_add, UInt64.toNat_one, Nat.mod_eq_of_lt (by simp only [UInt64.size] at hroom; omega)]
  refine ⟨u, hu, ?_, hgrounded, ?_, ?_, ⟨last, hlater⟩⟩
  · exact rebuild_advance h.read hholds hversion (by omega) hwrote.keepsBut hpoints hu
  · exact hrest.of_wroteAt (located_of_rebuild h.read) hwrote fun w he => commitNames_ne w he.symm
  · dsimp only
    omega

/-- Whoever meets the first of the commits loses to it. It is current then, and the others are
left. -/
theorem Pending.append_loses (h : Pending root t (c :: rest) files) (actions : List Action)
    (now : Calendar.Instant) : ∃ u files',
      perform root (append t.version actions now) files =
        (.error (.conflict t.version (t.version + 1)), files') ∧
      t.applyAll c.actions = .ok u ∧
      Pending root { u with version := t.version + 1 } rest files' := by
  obtain ⟨hholds, hversion, hbase, -⟩ := h.stranded
  have hlast : t.version.toNat + 1 ≠ UInt64.size := by
    have hroom := h.room
    rw [List.length_cons] at hroom
    omega
  obtain ⟨text, hread, -⟩ := h.stranded.1
  obtain ⟨old, hold, -⟩ := readText_eq_ok.1 hread
  have htaken := create_of_read h.grounded (plain_commit (t.version + 1)) (by simp) hold
    (commitContent (nextCommit t.version actions now))
  have hpublish := perform_publish h.read hholds hversion hbase
    (replace_current h.read h.grounded (currentContent (t.version + 1)))
  have hlost := @perform_append_of_taken root files t h.read hlast actions now _
    (congrArg Prod.fst htaken)
  rw [htaken] at hlost
  obtain ⟨u, hu, hpending⟩ := h.names_next
  exact ⟨u, _, hlost hpublish, hu, hpending⟩

/-- Looking for a commit behind the last one fails in some other way than by losing to it, if none
goes on. -/
theorem Pending.publish_fails (h : Pending root t [] files) : ∃ e,
    perform root (publish t.version (t.version + 1)) files = (.error e, files) ∧
      e.isConflict = false := by
  rw [publish, perform_bind]
  rcases hload : perform root (loadCommit (t.version + 1)) files with ⟨e | found, files'⟩
  · obtain rfl := Reads.eq_of_perform (reads_loadCommit _) hload
    refine ⟨e, rfl, ?_⟩
    rw [loadCommit, perform_mk, run_bind, run_request] at hload
    simp only [Tree.answer] at hload
    split at hload
    next content _ =>
      cases hparse : parseCommit (t.version + 1) content with
      | ok d => simp [hparse] at hload
      | error cause =>
        rw [hparse] at hload
        obtain rfl := Except.error.inj (Prod.mk.inj hload).1
        rfl
    next cause hread =>
      obtain rfl := Except.error.inj (Prod.mk.inj hload).1
      cases cause with
      | alreadyExists p => exact absurd rfl (readText_ne_alreadyExists hread p)
      | notFound p => rfl
      | fault p cause => rfl
  · obtain ⟨rfl, hholds⟩ := perform_loadCommit_iff.1 hload
    -- A commit that is there but does not go on from the last one is another failure.
    have hstops : ¬ (found.version = t.version + 1 ∧ found.base = t.version) :=
      fun hgoes => h.stranded found hholds hgoes.1 hgoes.2
    simp only [if_neg hstops]
    exact ⟨_, rfl, rfl⟩

/-- If no commit was left behind the last one, nobody loses to one. -/
theorem Pending.append_decides (h : Pending root t [] files) (actions : List Action)
    (now : Calendar.Instant) {e : LogError} {files' : Tree}
    (hfails : perform root (append t.version actions now) files = (.error e, files')) :
    e.isConflict = false := by
  obtain ⟨hkeep, hwrote, -⟩ := create_wrote files root (plain_commit (t.version + 1)) (by simp)
    (commitContent (nextCommit t.version actions now))
  have hgrounded := h.grounded.create (Path.join root.path (Layout.commitPath (t.version + 1)))
    (commitContent (nextCommit t.version actions now))
  rw [append, perform_bind, currentVersion_of_rebuild h.read] at hfails
  simp only [ne_eq, not_true_eq_false, if_false] at hfails
  split at hfails
  next =>
    obtain rfl := Except.error.inj (Prod.mk.inj hfails).1
    rfl
  next =>
    rw [perform_bind, perform_lift, run_request] at hfails
    simp only [Tree.answer] at hfails
    simp only [nextCommit] at hkeep hwrote hgrounded
    generalize files.create (Path.join root.path (Layout.commitPath (t.version + 1)))
      (commitContent ⟨t.version + 1, t.version, now, actions⟩) = reply
      at hkeep hwrote hgrounded hfails
    obtain ⟨result, after⟩ := reply
    have hread := rebuild_keeps h.read hkeep
    cases result with
    | ok _ =>
      -- The version can be named, for the file that names it is there.
      have hok := replace_current hread hgrounded (currentContent (t.version + 1))
      dsimp only at hfails hok
      rw [perform_bind, writeCurrent, perform_mk, run_bind, run_request, run_pure] at hfails
      simp only [Tree.answer, hok, mapError_ok] at hfails
      exact absurd hfails (by simp)
    | error cause =>
      cases cause with
      | alreadyExists p =>
        have hafter : Pending root t [] after := by
          refine ⟨hread, hgrounded, fun d hd => ?_, h.room, h.accepted⟩
          exact h.stranded d (hd.of_wroteAt (located_of_rebuild h.read) hwrote (by simp))
        obtain ⟨e', hpublish, hno⟩ := hafter.publish_fails
        dsimp only at hfails
        rw [perform_bind, hpublish] at hfails
        obtain rfl := Except.error.inj (Prod.mk.inj hfails).1
        exact hno
      | notFound p =>
        obtain rfl := Except.error.inj (Prod.mk.inj hfails).1
        rfl
      | fault p cause =>
        obtain rfl := Except.error.inj (Prod.mk.inj hfails).1
        rfl

end Log

end Lakehouse
