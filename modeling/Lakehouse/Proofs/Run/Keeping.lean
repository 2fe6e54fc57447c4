import Lakehouse.Proofs.Log.Extension
import Lakehouse.Proofs.Run.Commits
import Lakehouse.Proofs.Store.Grounding
import Lakehouse.Proofs.Table.Catalog

/- What every run keeps readable.

   As long as events run to their ends, no commit waits to be made current, and the table of
   the log stays catalogued: every snapshot's manifests are there, whatever was staged, taken
   in or adopted (`Kept.after_deed`). So whoever opens the table can list the files of its
   current snapshot (`Kept.reads`). -/
namespace Lakehouse

open Contract Log Script

variable {asked : Request → Prop} {root : Location} {files files' : Tree} {commits : List Commit}
  {t t' : Table}

/-- All commits are current, what is stored was asked for, and the table of the log, if there is
one, is catalogued. -/
structure Log.Kept (asked : Request → Prop) (root : Location) (files : Tree)
    (commits : List Commit) : Prop where
  chain : Chain root files commits commits.length
  supplied : files.Supplied asked root
  catalogued : ∀ t, tableAfter? commits = some t → t.Catalogued root files

namespace Log.Kept

theorem of_vacant (h : files.Vacant root) : Kept asked root files [] := by
  refine ⟨Chain.of_vacant h, fun path c hpath _ hc => ?_, fun t ht => ?_⟩
  · exact absurd ((h.content?_eq_none hpath).symm.trans hc) (by simp)
  · exact absurd (pos_of_table ht) (by simp)

/-- The table of the log can be read. -/
theorem perform_rebuild (h : Kept asked root files commits) (ht : tableAfter? commits = some t) :
    perform root rebuild files = (.ok t, files) :=
  Log.perform_rebuild h.chain (pos_of_table ht) (by rwa [List.take_length])

/-- Where there is a handle, there is a table. -/
theorem table_of_replica (h : Kept asked root files commits) {current : Nat}
    (hreplica : Replica commits current t) : ∃ u, tableAfter? commits = some u := by
  obtain ⟨u, hu, -⟩ := h.chain.exists_last hreplica.table
  exact ⟨u, hu⟩

theorem of_wrote {actions : List Action} {u : Table} (hsupplied : files'.Supplied asked root)
    (hwrote : Wrote root commits commits.length actions u t' files')
    (hcatalogued : t'.Catalogued root files') :
    ∃ commits', Kept asked root files' commits' ∧ tableAfter? commits' = some t' := by
  obtain ⟨c, -, hchain, htable⟩ := hwrote.written
  refine ⟨commits ++ [c], ⟨by rwa [List.length_append, List.length_singleton], hsupplied,
    fun v hv => ?_⟩, htable⟩
  rwa [← Option.some.inj (htable.symm.trans hv)]

/-- Where there is a table, its snapshots stay readable. -/
theorem grows (h : Kept asked root files commits) (hgrows : files.Grows asked root files')
    (ht : tableAfter? commits = some t) : t.Catalogued root files' :=
  (h.catalogued t ht).grows h.chain hgrows

theorem of_chain (h : Kept asked root files commits) (hgrows : files.Grows asked root files')
    (hchain : Chain root files' commits commits.length) : Kept asked root files' commits :=
  ⟨hchain, h.supplied.grows hgrows, fun _ ht => h.grows hgrows ht⟩

theorem of_settled (h : Kept asked root files commits) (hgrows : files.Grows asked root files')
    (hsettled : Settled root commits commits.length files') : Kept asked root files' commits := by
  obtain ⟨current', hchain, hle⟩ := hsettled
  obtain rfl : commits.length = current' := Nat.le_antisymm hle hchain.current_le
  exact h.of_chain hgrows hchain

variable {now : Calendar.Instant}

theorem of_moved (h : Kept asked root files commits) (hgrows : files.Grows asked root files')
    {target : SnapshotId} (hregistered : t.snapshots.contains target = true)
    (hwrote : Wrote root commits commits.length [.moveCurrent target none now] t t' files') :
    ∃ commits', Kept asked root files' commits' ∧ tableAfter? commits' = some t' := by
  have hold := h.grows hgrows hwrote.latest
  obtain ⟨v, hv, ht'⟩ := hwrote.applied
  rw [Table.applyAll_move hregistered] at hv
  obtain rfl := Except.ok.inj hv
  refine of_wrote (h.supplied.grows hgrows) hwrote (hold.of_same (by rw [ht']; rfl) fun id hid => ?_)
  rw [ht'] at hid ⊢
  obtain rfl := Option.some.inj hid
  exact hregistered

theorem of_updated (h : Kept asked root files commits) (hgrows : files.Grows asked root files')
    {set : Properties} {remove : List String}
    (hwrote : Wrote root commits commits.length [.updateProperties set remove] t t' files') :
    ∃ commits', Kept asked root files' commits' ∧ tableAfter? commits' = some t' := by
  have hold := h.grows hgrows hwrote.latest
  obtain ⟨v, hv, ht'⟩ := hwrote.applied
  obtain rfl := Except.ok.inj hv
  refine of_wrote (h.supplied.grows hgrows) hwrote (hold.of_same (by rw [ht']) fun id hid => ?_)
  rw [ht'] at hid ⊢
  exact hold.current id hid

theorem of_committed (h : Kept asked root files commits) (hclear : Unambiguous asked)
    (hgrows : files.Grows asked root files') {base : Option SnapshotId} {operation : Operation}
    {changes : FileChanges} {u : Table} {p : Table.Plan} {s : Snapshot}
    (hcommit : Table.Committed asked root commits commits.length base operation changes now files u p
      s t' files') : ∃ commits', Kept asked root files' commits' ∧ tableAfter? commits' = some t' := by
  have hsupplied := h.supplied.grows hgrows
  have hu := h.catalogued u hcommit.wrote.latest
  exact of_wrote hsupplied hcommit.wrote (hcommit.catalogued hu h.chain hgrows hsupplied hclear)

/-- No event that runs to its end makes anything unreadable. -/
theorem after_deed (h : Kept asked root files commits) (hclear : Unambiguous asked)
    (hgrows : files.Grows asked root files') {handles : Nat → Option Table} {event : Event}
    {result : Except TableError Answer × Option Table}
    (hdeed : event.Deed asked root commits commits.length now handles files result files') :
    ∃ commits', Kept asked root files' commits' := by
  cases hdeed with
  | @created _ m c _ _ _ _ hnew hchain htable =>
    refine ⟨[c], hchain, h.supplied.grows hgrows, fun v hv => ?_⟩
    rw [← Option.some.inj (htable.symm.trans hv), hnew]
    exact .new 1 m
  | called _ heffect =>
    cases heffect with
    | refreshed => exact ⟨commits, h⟩
    | staged hchain => exact ⟨commits, h.of_chain hgrows hchain⟩
    | committed _ hcommit =>
      obtain ⟨commits', hkept, -⟩ := h.of_committed hclear hgrows hcommit
      exact ⟨commits', hkept⟩
    | rolledBack _ hregistered _ hwrote =>
      obtain ⟨commits', hkept, -⟩ := h.of_moved hgrows hregistered hwrote
      exact ⟨commits', hkept⟩
    | moved _ hregistered hwrote =>
      obtain ⟨commits', hkept, -⟩ := h.of_moved hgrows hregistered hwrote
      exact ⟨commits', hkept⟩
    | updated hwrote =>
      obtain ⟨commits', hkept, -⟩ := h.of_updated hgrows hwrote
      exact ⟨commits', hkept⟩
    | tookIn _ _ hproceeds hchain _ _ hcommit hproceeds' =>
      have hstaged := h.of_chain hproceeds.grows hchain
      obtain ⟨commits', hkept, -⟩ := hstaged.of_committed hclear hproceeds'.grows hcommit
      exact ⟨commits', hkept⟩
  | opened => exact ⟨commits, h⟩
  | failed hfailure => exact ⟨commits, h.of_settled hgrows hfailure.settled⟩

end Log.Kept

namespace World

variable {w : World} {turn : Turn}

/-- A turn that ends does nothing, or what its event does is remembered. -/
theorem Ordered.step_ends {current : Nat} (h : w.Ordered root commits current)
    (hends : turn.limit = none) (hasked : ∀ r ∈ (w.step root turn).requests, asked r) :
    w.step root turn = w ∨ ∃ result after,
      (w.step root turn).history =
        ⟨turn.event, w.handles turn.event.handle, result, after⟩ :: w.history ∧
      turn.event.Deed asked root commits current turn.now w.handles w.files (result, after)
        (w.step root turn).files ∧
      w.files.Grows asked root (w.step root turn).files := by
  cases hscript : turn.event.script? turn.now w.handles with
  | none => exact .inl (step_of_no_script hscript)
  | some script =>
    have hrun : script.runWithin root turn.limit w.files =
        (some (script.run root w.files).1, (script.run root w.files).2) := by
      rw [hends]
      rfl
    rw [step_of_done hscript hrun] at hasked ⊢
    obtain ⟨hdeed, hproceeds⟩ := h.deed hscript fun r hr => hasked r (by
      rw [hends]
      exact List.mem_append_right _ hr)
    exact .inr ⟨_, _, rfl, hdeed, hproceeds.grows⟩

/-- In every run, every node lies in a directory. -/
theorem grounded_run (hgrounded : files.Grounded) (turns : List Turn) :
    (run root (start files) turns).files.Grounded := by
  refine run_induction (p := fun w => w.files.Grounded) hgrounded (fun w turn h => ?_) turns
  cases hscript : turn.event.script? turn.now w.handles with
  | none => rwa [step_of_no_script hscript]
  | some script =>
    have hleft : (script.runWithin root turn.limit w.files).2.Grounded := by
      cases turn.limit with
      | none => exact h.run root script
      | some n => exact h.runFor root n script
    rcases hrun : script.runWithin root turn.limit w.files with ⟨_ | ⟨result, u⟩, files'⟩
    · rw [hrun] at hleft
      rwa [step_of_stop hscript hrun]
    · rw [hrun] at hleft
      rwa [step_of_done hscript hrun]

/-- Nothing that was requested or that happened is forgotten. -/
theorem remembers_step (root : Location) (w : World) (turn : Turn) :
    w.requests <+: (w.step root turn).requests ∧ w.history <:+ (w.step root turn).history := by
  cases hscript : turn.event.script? turn.now w.handles with
  | none =>
    rw [step_of_no_script hscript]
    exact ⟨List.prefix_refl _, List.suffix_refl _⟩
  | some script =>
    rcases hrun : script.runWithin root turn.limit w.files with ⟨_ | ⟨result, t⟩, files'⟩
    · rw [step_of_stop hscript hrun]
      exact ⟨List.prefix_append _ _, List.suffix_refl _⟩
    · rw [step_of_done hscript hrun]
      exact ⟨List.prefix_append _ _, List.suffix_cons _ _⟩

theorem remembers_run (root : Location) (w : World) (turns : List Turn) :
    w.requests <+: (run root w turns).requests ∧ w.history <:+ (run root w turns).history := by
  refine run_induction (p := fun w' => w.requests <+: w'.requests ∧ w.history <:+ w'.history)
    ⟨List.prefix_refl _, List.suffix_refl _⟩ ?_ turns
  rintro w' turn ⟨hrequests, hhistory⟩
  obtain ⟨hrequests', hhistory'⟩ := remembers_step root w' turn
  exact ⟨hrequests.trans hrequests', hhistory.trans hhistory'⟩

/-- Events that end have asked for all that they want. -/
theorem wants_mem_requests {turns before : List Turn} {turn : Turn}
    (hends : ∀ turn ∈ turns, turn.limit = none) (hbefore : before ++ [turn] <+: turns) :
    ∀ r ∈ (run root w before).wants root turn, r ∈ (run root w turns).requests := by
  obtain ⟨rest, rfl⟩ := hbefore
  have hstep : ∀ r ∈ (run root w before).wants root turn,
      r ∈ ((run root w before).step root turn).requests := by
    intro r hr
    cases hscript : turn.event.script? turn.now (run root w before).handles with
    | none =>
      rw [wants, hscript] at hr
      exact absurd hr List.not_mem_nil
    | some script =>
      rcases hrun : script.run root (run root w before).files with ⟨⟨result, t⟩, files'⟩
      rw [step_of_end (hends turn (by simp)) hscript hrun]
      exact List.mem_append_right _ hr
  have hrest := (remembers_run root ((run root w before).step root turn) rest).1
  rw [← run_concat, ← run_append] at hrest
  rw [← run_concat] at hstep
  exact fun r hr => hrest.subset (hstep r hr)

/-- What holds at the start and lasts through turns that end holds after a run of such turns. -/
theorem run_ends_induction {p : World → Prop} (hstart : p w)
    (hstep : ∀ w turn, p w → turn.limit = none → (∀ r ∈ (w.step root turn).requests, asked r) →
      p (w.step root turn)) (turns : List Turn) (hends : ∀ turn ∈ turns, turn.limit = none)
    (hasked : ∀ r ∈ (run root w turns).requests, asked r) : p (run root w turns) := by
  induction turns generalizing w with
  | nil => exact hstart
  | cons turn turns ih =>
    have hrequests := (remembers_run root (w.step root turn) turns).1
    refine ih (hstep w turn hstart (hends turn (by simp)) fun r hr => hasked r ?_) ?_ hasked
    · exact hrequests.subset hr
    · exact fun turn' hturn' => hends turn' (by simp [hturn'])

/-- After a run of events that end, the world is in order, and its files are kept. -/
theorem kept_run (hvacant : files.Vacant root) (hclear : Unambiguous asked) (turns : List Turn)
    (hends : ∀ turn ∈ turns, turn.limit = none)
    (hasked : ∀ r ∈ (run root (start files) turns).requests, asked r) :
    ∃ commits, (run root (start files) turns).Ordered root commits commits.length ∧
      Kept asked root (run root (start files) turns).files commits := by
  refine run_ends_induction (p := fun w => ∃ commits, w.Ordered root commits commits.length ∧
    Kept asked root w.files commits) ⟨[], .start (Chain.of_vacant hvacant), .of_vacant hvacant⟩ ?_
    turns hends hasked
  rintro w turn ⟨commits, hordered, hkept⟩ hends' hasked'
  obtain ⟨_, _, hordered', -⟩ := hordered.step turn
  rcases hordered.step_ends hends' hasked' with hsame | ⟨result, after, -, hdeed, hgrows⟩
  · rw [hsame]
    exact ⟨commits, hordered, hkept⟩
  · obtain ⟨commits', hkept'⟩ := hkept.after_deed hclear hgrows hdeed
    obtain ⟨rfl, rfl⟩ := hordered'.chain.unique hkept'.chain
    exact ⟨_, hordered', hkept'⟩

end World

end Lakehouse
