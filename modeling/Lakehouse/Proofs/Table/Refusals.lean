import Lakehouse.Proofs.Table.Operations

/- What refused operations come to.

   Below a root with room for all paths, a commit of actions is refused for one of three
   reasons: its writer did not expect the current version, versions run out, or another writer
   has left a commit that is made current first. In each case the error is known, and which of
   them it is depends on nothing but the versions (`perform_append_late`, `perform_append_last`,
   `append_attempts_behind`); so what an operation tells about the log depends on nothing
   else either. -/
namespace Lakehouse

open Contract Log Script

variable {asked : Request → Prop} {root : Location} {files : Tree} {commits : List Commit}
  {current : Nat}

namespace Log

variable {expected : Version}

/-- A writer that does not expect the current version meets a conflict. -/
theorem perform_append_late (h : Chain root files commits current) (hroom : root.Roomy)
    (hlate : expected.toNat ≠ current) (actions : List Action) (now : Calendar.Instant) :
    perform root (append expected actions now) files =
      (.error (.conflict expected (UInt64.ofNat current)), files) := by
  have hne : UInt64.ofNat current ≠ expected := by
    rintro rfl
    exact hlate h.toNat_current
  rw [append, perform_bind, h.perform_currentVersion_of_room hroom]
  simp only [if_pos hne, perform_throw]

/-- Behind the greatest version there is none. -/
theorem perform_append_last (h : Chain root files commits current) (hroom : root.Roomy)
    (hexpected : expected.toNat = current) (hlast : current + 1 = UInt64.size)
    (actions : List Action) (now : Calendar.Instant) :
    perform root (append expected actions now) files =
      (.error (.corrupt (.lastVersion expected)), files) := by
  have hcurrent : UInt64.ofNat current = expected := by rw [← hexpected, UInt64.ofNat_toNat]
  have hgreatest : expected.toNat + 1 = UInt64.size := by omega
  rw [append, perform_bind, h.perform_currentVersion_of_room hroom]
  simp only [if_neg (not_not_intro hcurrent), if_pos hgreatest, LogScript.fail, perform_throw]

/-- The commit that another writer has left is made current. -/
theorem publish_attempts_behind (h : Chain root files commits current) (hroom : root.Roomy)
    (hexpected : expected.toNat = current) (hbehind : current + 1 = commits.length) :
    (contract asked root).Attempts (publish expected (expected + 1)) files
      (fun _ files' => Chain root files' commits (current + 1)) (fun _ _ => False) := by
  have hcurrent : UInt64.ofNat current = expected := by rw [← hexpected, UInt64.ofNat_toNat]
  have hnumber : expected + 1 = UInt64.ofNat (current + 1) := by rw [ofNat_succ, hcurrent]
  have hlt : current < commits.length := by omega
  have hcommit : commitAt? commits (expected + 1) = some commits[current] := by
    rw [hnumber, commitAt?_ofNat hlt h.length_lt, List.getElem?_eq_getElem hlt]
  -- The commit that is there says of itself that it goes on from the current one.
  obtain ⟨hversion, hbase⟩ := h.numbered _ _ hcommit
  have hfile : files.content? root (Layout.commitPath (expected + 1)) =
      some (commitContent commits[current]) := by
    rw [h.file, hcommit]
    rfl
  refine Attempts.bind ((reads_attempts (reads_loadCommit (expected + 1))).mono ?_ ?_)
  · rintro found files₁ ⟨hfound, rfl⟩
    obtain rfl := Except.ok.inj (Prod.mk.inj ((perform_loadCommit hfile).symm.trans hfound)).1
    rw [if_pos ⟨hversion, (UInt64.add_left_inj 1).1 hbase⟩]
    refine Attempts.bind ((reads_attempts reads_currentVersion).mono ?_ ?_)
    · rintro version files₂ ⟨hread, rfl⟩
      rw [h.eq_of_perform_currentVersion hread, if_pos hcurrent, hnumber]
      exact (writeCurrent_attempts h hbehind).mono (fun _ _ h' => h') fun _ _ h' => h'.2 hroom.current
    · rintro e files₂ ⟨hread, rfl⟩
      rw [h.perform_currentVersion_of_room hroom] at hread
      exact absurd hread (by simp)
  · rintro e files₁ ⟨hread, rfl⟩
    rw [perform_loadCommit hfile] at hread
    exact absurd hread (by simp)

/-- A writer that meets a commit which is not current makes it current, and has lost to it. -/
theorem append_attempts_behind (h : Chain root files commits current) (hroom : root.Roomy)
    (hexpected : expected.toNat = current) (hbehind : current + 1 = commits.length)
    (actions : List Action) (now : Calendar.Instant) :
    (contract asked root).Attempts (append expected actions now) files (fun _ _ => False)
      (fun e files' => e = .conflict expected (expected + 1) ∧
        Chain root files' commits (current + 1)) := by
  have hcurrent : UInt64.ofNat current = expected := by rw [← hexpected, UInt64.ofNat_toNat]
  have hsize := h.length_lt
  refine Attempts.bind ((reads_attempts reads_currentVersion).mono ?_ ?_)
  · rintro version files₁ ⟨hread, rfl⟩
    rw [h.eq_of_perform_currentVersion hread, if_neg (not_not_intro hcurrent), if_neg (by omega)]
    obtain ⟨hosts, hkeep, houtcome⟩ := Tree.create_outcome h.hosts
      (Layout.isTablePath_commit (expected + 1)) (commitContent ⟨expected + 1, expected, now, actions⟩)
    refine Attempts.bind (Attempts.lift (Ensures.request fun hasked => ?_))
    simp only [contract, Tree.answer]
    generalize files₁.create (Path.join root.path (Layout.commitPath (expected + 1)))
      (commitContent ⟨expected + 1, expected, now, actions⟩) = reply at hosts hkeep houtcome ⊢
    obtain ⟨result, after⟩ := reply
    cases houtcome with
    | done fresh free written =>
      -- The name is taken by the commit that is not current yet.
      have hthere : (files₁.content? root (Layout.commitPath (expected + 1))).isSome := by
        have hnumber : (expected + 1).toNat = current + 1 := by
          rw [← hcurrent, ← ofNat_succ, UInt64.toNat_ofNat_of_lt' (by omega)]
        rw [h.commit_isSome, hnumber]
        omega
      rw [fresh] at hthere
      exact absurd hthere (by simp)
    | taken p old there same =>
      have hafter := h.of_sameFiles hosts same
      refine ⟨.of_same h hafter (fun q n hq => .inl (hkeep q n hq)) same, ?_⟩
      refine Attempts.bind ((publish_attempts_behind hafter hroom hexpected hbehind).mono ?_ ?_)
      · intro _ files' h'
        exact Attempts.throw ⟨rfl, h'⟩
      · intro _ _ hfailed
        exact hfailed.elim
    | failed p cause refused same => exact absurd (hroom.commit _) refused
  · rintro e files₁ ⟨hread, rfl⟩
    rw [h.perform_currentVersion_of_room hroom] at hread
    exact absurd hread (by simp)

/-- The log has a table if commits are current. -/
theorem Chain.perform_loadLatest (h : Chain root files commits current) (hpos : 0 < current)
    {u : Table} (hu : tableAfter? (commits.take current) = some u) :
    perform root Table.loadLatest files = (.ok u, files) :=
  Table.perform_loadLatest_of_rebuild (perform_rebuild h hpos hu)

end Log

namespace Table

variable {t u : Table}

/-! ### Commits of actions -/

theorem run_latestCurrentId (hread : perform root loadLatest files = (.ok u, files)) :
    latestCurrentId.run root files = (u.currentId, files) := by
  rw [perform] at hread
  rw [latestCurrentId, run_bind, hread]
  rfl

theorem perform_commitActions_late (h : Chain root files commits current) (hroom : root.Roomy)
    (hread : perform root loadLatest files = (.ok u, files)) (hlate : t.version.toNat ≠ current)
    (expected : Option SnapshotId) (actions : List Action) (now : Calendar.Instant) :
    (commitActions expected actions now).perform root t files =
      ((.error (.commitConflict expected u.currentId), t), files) := by
  have happend := perform_append_late h hroom hlate actions now
  rw [perform] at happend
  rw [commitActions, TableM.perform_bind, TableM.perform_get]
  simp only [TableM.perform_bind, TableM.perform_ofScript, happend]
  simp only [LogError.isConflict, if_true, TableM.perform_bind, TableM.perform_ofScript,
    run_latestCurrentId hread, TableM.perform_throw]

theorem perform_commitActions_last (h : Chain root files commits current) (hroom : root.Roomy)
    (hversion : t.version.toNat = current) (hlast : current + 1 = UInt64.size)
    (expected : Option SnapshotId) (actions : List Action) (now : Calendar.Instant) :
    (commitActions expected actions now).perform root t files =
      ((.error (.log (.corrupt (.lastVersion t.version))), t), files) := by
  have happend := perform_append_last h hroom hversion hlast actions now
  rw [perform] at happend
  rw [commitActions, TableM.perform_bind, TableM.perform_get]
  simp only [TableM.perform_bind, TableM.perform_ofScript, happend]
  simp only [LogError.isConflict, Bool.false_eq_true, if_false, TableM.perform_throw]

/-- The conflict tells the current snapshot of the whole log. -/
theorem commitActions_performs_behind (h : Chain root files commits current) (hroom : root.Roomy)
    (hversion : t.version.toNat = current) (hbehind : current + 1 = commits.length)
    (hu : tableAfter? commits = some u) (expected : Option SnapshotId) (actions : List Action)
    (now : Calendar.Instant) :
    (contract asked root).Performs (commitActions expected actions now) t files
      (fun _ _ _ => False)
      (fun e t' files' => e = .commitConflict expected u.currentId ∧ t' = t ∧
        Chain root files' commits (current + 1)) := by
  refine Performs.bind (Performs.get (Performs.bind (Performs.ofScript (Ensures.mono
    (append_attempts_behind h hroom hversion hbehind actions now) fun r files' hr => ?_))))
  cases r with
  | ok v => exact hr.elim
  | error e =>
    obtain ⟨rfl, h'⟩ := hr
    have hread := h'.perform_loadLatest (Nat.succ_pos current) (u := u)
      (by rwa [hbehind, List.take_length])
    simp only [LogError.isConflict, if_true]
    refine Performs.bind (Performs.ofScript ((ensures_of_reads (c := contract asked root)
      reads_latestCurrentId (Proceeds.refl asked root files')).mono ?_))
    rintro found files'' ⟨rfl, rfl⟩
    have hfound : (latestCurrentId.run (contract asked root).root files'').1 = u.currentId := by
      rw [contract, run_latestCurrentId hread]
    rw [hfound]
    exact Performs.throw ⟨rfl, rfl, h'⟩

/-! ### New tables and handles -/

/-- A log with current commits has a table already. -/
theorem perform_create_of_pos (h : Chain root files commits current) (hroom : root.Roomy)
    (hpos : 0 < current) (metadata : Metadata) (now : Calendar.Instant) :
    perform root (create metadata now) files =
      (.error (.alreadyExists (UInt64.ofNat current)), files) := by
  have hread := h.perform_currentVersion_of_room hroom
  rw [create, perform_bind, FileM.ofLog, perform_adapt, hread]
  simp only [mapError_ok, if_pos (h.current_ne_zero hpos), perform_throw]

/-- Whoever creates a table may meet one that another has created but not made current. -/
theorem create_attempts_behind (h : Chain root files commits 0) (hroom : root.Roomy)
    (hbehind : 1 = commits.length) (metadata : Metadata) (now : Calendar.Instant) :
    (contract asked root).Attempts (create metadata now) files (fun _ _ => False)
      (fun e files' => e = .log (.conflict 0 1) ∧ Chain root files' commits 1) := by
  refine Attempts.bind (Attempts.adapt ((reads_attempts reads_currentVersion).mono ?_ ?_))
  · rintro v files₁ ⟨hread, rfl⟩
    have hzero : UInt64.ofNat 0 = 0 := rfl
    rw [h.eq_of_perform_currentVersion hread, if_neg (not_not_intro hzero)]
    refine Attempts.bind (Attempts.adapt
      ((append_attempts_behind h hroom rfl hbehind [.create metadata] now).mono ?_ ?_))
    · intro _ _ hfailed
      exact hfailed.elim
    · rintro e files' ⟨rfl, h'⟩
      exact ⟨rfl, h'⟩
  · rintro e files₁ ⟨hread, rfl⟩
    rw [h.perform_currentVersion_of_room hroom] at hread
    exact absurd hread (by simp)

theorem perform_openLatest_of_zero (h : Chain root files commits 0) (hroom : root.Roomy) :
    perform root openLatest files = (.error .emptyTable, files) := by
  rw [openLatest, perform_bind, FileM.ofLog, perform_adapt, h.perform_currentVersion_of_room hroom]
  rfl

theorem perform_openLatest_of_pos (h : Chain root files commits current) (hroom : root.Roomy)
    (hpos : 0 < current) (hread : perform root loadLatest files = (.ok u, files)) :
    perform root openLatest files = (.ok u, files) := by
  rw [openLatest, perform_bind, FileM.ofLog, perform_adapt, h.perform_currentVersion_of_room hroom]
  simp only [mapError_ok, if_neg (h.current_ne_zero hpos)]
  exact hread

end Table

end Lakehouse
