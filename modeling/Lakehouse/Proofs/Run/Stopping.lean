import Lakehouse.Proofs.Run.Commits

/- Writers that stop.

   A writer may stop for good after any access to the storage, also while it makes a commit
   current that another one left. The files of the log still are commits numbered from 1 on,
   the file for the current version names the last of them or the one before, and none of
   this ever goes back (`log_survives_stops`). As the current version moves by one in an
   event at most (`Event.Outcome.current_le`), the table that is read after a stop is the one
   before the event or the one that the whole event would have left (`rebuild_of_stop`). -/
namespace Lakehouse

open Contract Log Script

variable {root : Location} {files files' : Tree} {commits : List Commit} {current : Nat}

/-- The version that the file for it names, zero while there is none. -/
def Log.PointsTo (root : Location) (files : Tree) (version : Nat) : Prop :=
  files.content? root Layout.currentPath =
    if version = 0 then none else some (currentContent (UInt64.ofNat version))

/-- One event moves the current version by one at most. -/
theorem Event.Outcome.current_le {event : Event} {result : Except TableError Answer × Option Table}
    (h : Chain root files commits current)
    (houtcome : event.Outcome root commits current result files') {commits' : List Commit}
    {current' : Nat} (h' : Chain root files' commits' current') : current' ≤ current + 1 := by
  cases houtcome with
  | wrote _ hlast hchain _ =>
    have hsame := (h'.unique hchain).2
    omega
  | kept _ hsettled _ =>
    obtain ⟨current'', hchain, -⟩ := hsettled
    have hsame := (h'.unique hchain).2
    have hle := hchain.current_le
    have hnamed := h.named
    omega

namespace World

variable {w : World}

/-- What is read from a chain is what is read from any that goes on from it and names the
same version. -/
theorem rebuild_of_begins {commits' : List Commit} (h : Chain root files commits current)
    (h' : Chain root files' commits' current) (hbegins : commits <+: commits') (t : Table) :
    perform root rebuild files = (.ok t, files) ↔ perform root rebuild files' = (.ok t, files') := by
  have hsame : commits'.take current = commits.take current := by
    obtain ⟨rest, rfl⟩ := hbegins
    exact List.take_append_of_le_length h.current_le
  constructor
  · intro hread
    obtain ⟨hpos, ht⟩ := table_of_rebuild h hread
    exact perform_rebuild h' hpos (by rw [hsame, ht])
  · intro hread
    obtain ⟨hpos, ht⟩ := table_of_rebuild h' hread
    exact perform_rebuild h hpos (by rw [← hsame, ht])

/-- After a stop, the table is the one before the event or the one that the event would have
left. -/
theorem Ordered.rebuild_of_stop (h : w.Ordered root commits current) (turn : Turn) {t : Table}
    (hread : perform root rebuild (w.step root turn).files = (.ok t, (w.step root turn).files)) :
    perform root rebuild w.files = (.ok t, w.files) ∨
      perform root rebuild (w.step root { turn with limit := none }).files =
        (.ok t, (w.step root { turn with limit := none }).files) := by
  cases hscript : turn.event.script? turn.now w.handles with
  | none =>
    rw [step_of_no_script hscript] at hread
    exact .inl hread
  | some script =>
    have hrunWhole : script.runWithin root none w.files =
        (some (script.run root w.files).1, (script.run root w.files).2) := rfl
    have hwhole := @step_of_done root _ w { turn with limit := none } script hscript _ _ hrunWhole
    rw [hwhole]
    rcases hrun : script.runWithin root turn.limit w.files with ⟨_ | ⟨result, u⟩, files'⟩
    · rw [step_of_stop hscript hrun] at hread
      obtain ⟨n, -, hrun⟩ := Script.runFor_of_stop hrun
      obtain ⟨hbefore, hafter⟩ := h.stopped hscript (fun _ _ => (trivial : everything _)) n
      rw [hrun] at hbefore hafter
      obtain ⟨commits₁, current₁, h₁, hbegins₁, hle₁⟩ := hbefore.advances _ _ h.chain
      obtain ⟨commits₂, current₂, h₂, hbegins₂, hle₂⟩ := hafter.advances _ _ h₁
      have houtcome := (@Ordered.outcome root _ commits current w { turn with limit := none } script
        h hscript _ hrunWhole).1
      have hnext := houtcome.current_le h.chain h₂
      -- The event moves the current version once at most: before the stop, or not yet.
      by_cases hsame : current₁ = current
      · exact .inl ((rebuild_of_begins h.chain (hsame ▸ h₁) hbegins₁ t).2 hread)
      · have hmoved : current₂ = current₁ := by omega
        exact .inr ((rebuild_of_begins h₁ (hmoved ▸ h₂) hbegins₂ t).1 hread)
    · rw [step_of_done hscript hrun] at hread
      rw [Script.run_of_runWithin hrun]
      exact .inr hread

theorem Ordered.run (h : w.Ordered root commits current) (turns : List Turn) :
    ∃ commits' current', (run root w turns).Ordered root commits' current' ∧
      commits <+: commits' ∧ current ≤ current' ∧
      Proceeds everything root w.files (World.run root w turns).files := by
  refine run_induction (p := fun w' => ∃ commits' current', w'.Ordered root commits' current' ∧
    commits <+: commits' ∧ current ≤ current' ∧ Proceeds everything root w.files w'.files)
    ⟨commits, current, h, List.prefix_refl _, Nat.le_refl _, Proceeds.refl _ _ _⟩ ?_ turns
  rintro w' turn ⟨commits₁, current₁, h₁, hbegins₁, hle₁, hproceeds₁⟩
  obtain ⟨commits₂, current₂, h₂, hbegins₂, hle₂, hproceeds₂⟩ := h₁.step turn
  exact ⟨commits₂, current₂, h₂, hbegins₁.trans hbegins₂, Nat.le_trans hle₁ hle₂,
    hproceeds₁.trans hproceeds₂⟩

end World

namespace Log

/-- The files of the log are those of the versions from 1 to `last`, each of which records its
own number and the one before, and the table of the version `current` can be read. -/
structure IsSound (root : Location) (files : Tree) (last current : Nat) : Prop where
  present : ∀ v, (files.content? root (Layout.commitPath v)).isSome ↔ 1 ≤ v.toNat ∧ v.toNat ≤ last
  recorded : ∀ v, 1 ≤ v.toNat → v.toNat ≤ last → ∃ c,
    perform root (loadCommit v) files = (.ok c, files) ∧ c.version = v ∧ c.base = v - 1
  pointer : PointsTo root files current
  named : current = last ∨ current + 1 = last
  readable : 0 < current → ∃ t, perform root rebuild files = (.ok t, files)

theorem Chain.isSound (h : Chain root files commits current) :
    IsSound root files commits.length current := by
  refine ⟨h.commit_isSome, fun v hpos hle => ?_, h.pointer, h.named, fun hpos => ?_⟩
  · obtain ⟨content, hcontent⟩ := Option.isSome_iff_exists.1 ((h.commit_isSome v).2 ⟨hpos, hle⟩)
    rw [h.file] at hcontent
    obtain ⟨c, hc, -⟩ := Option.map_eq_some_iff.1 hcontent
    obtain ⟨hversion, hbase⟩ := h.numbered v c hc
    refine ⟨c, ?_, hversion, ?_⟩
    · exact perform_loadCommit (by rw [h.file, hc]; rfl)
    · rw [← hbase, UInt64.add_sub_cancel]
  · obtain ⟨t, ht⟩ := h.replays current hpos h.current_le
    exact ⟨t, perform_rebuild h hpos ht⟩

end Log

/-- Whatever runs, and wherever events stop: the log is sound at every point, its files never
change and its current version never decreases; the table that is read after a stop is the one
before the event or the one that the whole event would have left; and no version is reported
twice. -/
theorem World.log_survives_stops (h : files.Vacant root) (turns : List Turn) :
    ∃ last current, IsSound root (run root (start files) turns).files last current ∧
      (∀ later, ∃ last' current',
        IsSound root (run root (start files) (turns ++ later)).files last' current' ∧
        current ≤ current' ∧ ∀ v content,
          (run root (start files) turns).files.content? root (Layout.commitPath v) = some content →
          (run root (start files) (turns ++ later)).files.content? root (Layout.commitPath v) =
            some content) ∧
      (∀ turn t, perform root rebuild ((run root (start files) turns).step root turn).files =
          (.ok t, ((run root (start files) turns).step root turn).files) →
        perform root rebuild (run root (start files) turns).files =
            (.ok t, (run root (start files) turns).files) ∨
          perform root rebuild
              ((run root (start files) turns).step root { turn with limit := none }).files =
            (.ok t, ((run root (start files) turns).step root { turn with limit := none }).files)) ∧
      ((run root (start files) turns).history.filterMap Record.version?).Nodup := by
  obtain ⟨commits, current, hw⟩ := ordered_run h turns
  refine ⟨commits.length, current, hw.chain.isSound, fun later => ?_, fun turn t => ?_, ?_⟩
  · obtain ⟨commits', current', hw', -, hle, hproceeds⟩ := hw.run later
    rw [run_append]
    refine ⟨commits'.length, current', hw'.chain.isSound, hle, fun v content hcontent => ?_⟩
    exact hproceeds.grows.kept _ content (Layout.isTablePath_commit v)
      (Layout.commitPath_ne_currentPath v) hcontent
  · exact hw.rebuild_of_stop turn
  · exact hw.ascending.imp fun hlt heq => absurd hlt (by rw [heq]; exact UInt64.lt_irrefl _)

/-- A table is made by a writer that stops before it makes the first commit current. -/
def World.stoppedCreation : List Turn :=
  [⟨.create 0 ⟨⟨[], .nil⟩, .unpartitioned, .empty, default, 1⟩, default, some 3⟩]

open World in
theorem World.log_survives_stops_stoppedCreation : Tree.empty.Vacant ⟨"."⟩ ∧
    IsSound ⟨"."⟩ (run ⟨"."⟩ (start .empty) stoppedCreation).files 1 0 := by
  obtain ⟨last, current, hsound, -⟩ := log_survives_stops Tree.vacant_empty stoppedCreation
  have hfirst : ((run ⟨"."⟩ (start .empty) stoppedCreation).files.content? ⟨"."⟩
      (Layout.commitPath 1)).isSome = true := by decide +kernel
  have hsecond : ¬ ((run ⟨"."⟩ (start .empty) stoppedCreation).files.content? ⟨"."⟩
      (Layout.commitPath 2)).isSome = true := by decide +kernel
  have hcurrent : (run ⟨"."⟩ (start .empty) stoppedCreation).files.content? ⟨"."⟩
      Layout.currentPath = none := by decide +kernel
  have hone : last = 1 := by
    have hle : 1 ≤ last := ((hsound.present 1).1 hfirst).2
    have hlt : ¬ 2 ≤ last := fun hle => hsecond ((hsound.present 2).2 ⟨by decide, hle⟩)
    omega
  have hzero : current = 0 := by
    have hpointer := hsound.pointer
    rw [PointsTo, hcurrent] at hpointer
    by_contra hne
    rw [if_neg hne] at hpointer
    exact absurd hpointer (by simp)
  rw [← hone, ← hzero]
  exact ⟨Tree.vacant_empty, hsound⟩

end Lakehouse
