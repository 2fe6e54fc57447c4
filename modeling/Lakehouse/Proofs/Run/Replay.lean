import Lakehouse.Proofs.Run.Commits

/- Handles are replays.

   However many handles work on a location, and whether their events succeed, fail or stop,
   every handle is the table that is read from the commits up to its version. After a write
   that succeeds it is the table of the whole log, of which the version is current; and a
   write that fails has added no commit, so no actions are left in the log that could not
   be applied (`handles_replay_log`). -/
namespace Lakehouse.World

open Contract Log Script

variable {root : Location} {files files' : Tree} {commits : List Commit} {current : Nat}
  {w : World} {turn : Turn}

theorem Ordered.perform_rebuildAt (h : w.Ordered root commits current) {handle : Nat} {t : Table}
    (ht : w.handles handle = some t) :
    perform root (rebuildAt t.version) w.files = (.ok t, w.files) := by
  have hreplica := h.replicas handle t ht
  have hle := Nat.le_trans hreplica.version_le h.chain.current_le
  exact Log.perform_rebuildAt h.chain hle hreplica.table

/-- The last of the commits is the table of the log, and there is none behind it. -/
structure IsWholeLog (root : Location) (files : Tree) (t : Table) : Prop where
  rebuilt : perform root rebuild files = (.ok t, files)
  current : perform root currentVersion files = (.ok t.version, files)
  last : ∀ v, t.version < v → files.content? root (Layout.commitPath v) = none

theorem isWholeLog_of_last (h : Chain root files commits commits.length) (hpos : 0 < commits.length)
    {t : Table} (htable : tableAfter? commits = some t) : IsWholeLog root files t := by
  have hversion := (h.replica_of_last htable).2
  refine ⟨perform_rebuild h hpos (by rwa [List.take_length]), ?_, fun v hv => ?_⟩
  · rw [perform_currentVersion (h.pointer_pos hpos), ← hversion, UInt64.ofNat_toNat]
  · have hbehind : ¬ (files.content? root (Layout.commitPath v)).isSome := by
      rw [h.commit_isSome]
      rw [UInt64.lt_iff_toNat_lt] at hv
      omega
    simpa using hbehind

/-- What a turn remembers is about its event, which ran to its end. -/
theorem done_of_history {r : Record} (h : (w.step root turn).history = r :: w.history) :
    ∃ script files', turn.event.script? turn.now w.handles = some script ∧
      script.runWithin root turn.limit w.files = (some (r.result, r.after), files') ∧
      r.event = turn.event ∧ (w.step root turn).files = files' ∧
      (w.step root turn).handles r.event.handle = r.after := by
  cases hscript : turn.event.script? turn.now w.handles with
  | none =>
    rw [step_of_no_script hscript] at h
    exact absurd h (by simp)
  | some script =>
    rcases hrun : script.runWithin root turn.limit w.files with ⟨_ | ⟨result, t⟩, files'⟩
    · rw [step_of_stop hscript hrun] at h
      exact absurd h (by simp)
    · rw [step_of_done hscript hrun] at h ⊢
      obtain rfl := (List.cons.inj h).1
      exact ⟨script, files', rfl, hrun, rfl, rfl, by simp [setHandle]⟩

/-- A write that succeeds leaves its handle with the whole log. -/
theorem Ordered.isWholeLog (h : w.Ordered root commits current) {r : Record} {a : Answer}
    (hdone : (w.step root turn).history = r :: w.history) (hok : r.result = .ok a)
    (hwrites : r.event.writes = true) :
    ∃ t, r.after = some t ∧ (w.step root turn).handles r.event.handle = some t ∧
      IsWholeLog root (w.step root turn).files t := by
  obtain ⟨script, files', hscript, hrun, hevent, hfiles, hhandle⟩ := done_of_history hdone
  have houtcome := (h.outcome hscript hrun).1
  rw [hfiles, hhandle]
  generalize r.after = after at houtcome ⊢
  rw [hok] at houtcome
  cases houtcome with
  | @wrote _ t c _ _ hlast hchain htable =>
    have hlength : (commits ++ [c]).length = commits.length + 1 := by simp
    rw [← hlength] at hchain
    exact ⟨t, rfl, rfl, isWholeLog_of_last hchain (by omega) htable⟩
  | kept hquiet =>
    rcases hquiet with hquiet | ⟨e, he⟩
    · exact absurd (hevent ▸ hwrites) (by simp [hquiet])
    · exact absurd he (by simp)

/-- A failure leaves the files of all commits as they are. -/
theorem Ordered.same_commits (h : w.Ordered root commits current) {r : Record} {e : TableError}
    (hdone : (w.step root turn).history = r :: w.history) (herror : r.result = .error e)
    (v : Version) : (w.step root turn).files.content? root (Layout.commitPath v) =
      w.files.content? root (Layout.commitPath v) := by
  obtain ⟨script, files', hscript, hrun, -, hfiles, -⟩ := done_of_history hdone
  have houtcome := (h.outcome hscript hrun).1
  rw [hfiles]
  generalize r.after = after at houtcome
  rw [herror] at houtcome
  cases houtcome with
  | kept _ hsettled =>
    obtain ⟨current', hchain, -⟩ := hsettled
    rw [hchain.file, h.chain.file]

/-- In every run, each handle is the table that the commits up to its version give when they
are read again. A write that succeeds leaves its handle with the whole log, and one that fails
leaves no commit. -/
theorem handles_replay_log (h : files.Vacant root) (turns : List Turn) :
    (∀ handle t, (run root (start files) turns).handles handle = some t →
      perform root (rebuildAt t.version) (run root (start files) turns).files =
        (.ok t, (run root (start files) turns).files)) ∧
    ∀ turn r, ((run root (start files) turns).step root turn).history =
        r :: (run root (start files) turns).history →
      (∀ a, r.result = .ok a → r.event.writes = true →
        ∃ t, r.after = some t ∧
          ((run root (start files) turns).step root turn).handles r.event.handle = some t ∧
          IsWholeLog root ((run root (start files) turns).step root turn).files t) ∧
      (∀ e, r.result = .error e → ∀ v,
        ((run root (start files) turns).step root turn).files.content? root (Layout.commitPath v) =
          (run root (start files) turns).files.content? root (Layout.commitPath v)) := by
  obtain ⟨commits, current, hw⟩ := ordered_run h turns
  refine ⟨fun handle t ht => hw.perform_rebuildAt ht, fun turn r hdone => ⟨?_, ?_⟩⟩
  · intro a hok hwrites
    exact hw.isWholeLog hdone hok hwrites
  · intro e herror v
    exact hw.same_commits hdone herror v

/-- A table is made through one handle, of which another is a copy. -/
def copiedHandle : List Turn :=
  [⟨.create 0 ⟨⟨[], .nil⟩, .unpartitioned, .empty, default, 1⟩, default, none⟩,
    ⟨.copy 0 1, default, none⟩]

theorem handles_replay_log_copiedHandle : Tree.empty.Vacant ⟨"."⟩ ∧
    ∃ t, (run ⟨"."⟩ (start .empty) copiedHandle).handles 1 = some t ∧
      perform ⟨"."⟩ (rebuildAt t.version) (run ⟨"."⟩ (start .empty) copiedHandle).files =
        (.ok t, (run ⟨"."⟩ (start .empty) copiedHandle).files) := by
  have hhandle : ((run ⟨"."⟩ (start .empty) copiedHandle).handles 1).isSome = true := by
    decide +kernel
  obtain ⟨t, ht⟩ := Option.isSome_iff_exists.1 hhandle
  exact ⟨Tree.vacant_empty, t, ht, (handles_replay_log Tree.vacant_empty copiedHandle).1 1 t ht⟩

end Lakehouse.World
