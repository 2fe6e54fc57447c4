import Lakehouse.Proofs.Run.World

/- The log under every run.

   Whatever happens, the files of the log form a chain of commits that only goes on, and
   every handle is the table that a beginning of it describes (`World.Ordered`). An event
   that succeeds in writing adds one commit, which is then current, and its handle is the
   table of the whole log; any other that runs to its end leaves the commits as they are
   (`Event.Outcome`). So the versions that were reported are all different. -/
namespace Lakehouse

open Calendar (Instant)
open Contract Log

variable {asked : Request → Prop} {root : Location} {files files' : Tree} {commits : List Commit}
  {current : Nat}

/-- What an event that ran to its end has done to the log. -/
inductive Event.Outcome (root : Location) (commits : List Commit) (current : Nat) (event : Event) :
    Except TableError Answer × Option Table → Tree → Prop where
  | wrote {a : Answer} {t : Table} {c : Commit} {files' : Tree} (writes : event.writes = true)
      (last : current = commits.length)
      (chain : Chain root files' (commits ++ [c]) (commits.length + 1))
      (table : tableAfter? (commits ++ [c]) = some t) :
      Outcome root commits current event (.ok a, some t) files'
  | kept {result : Except TableError Answer} {t : Option Table} {files' : Tree}
      (quiet : event.writes = false ∨ ∃ e, result = .error e)
      (settled : Settled root commits current files')
      (copy : ∀ u, t = some u → Replica commits current u) :
      Outcome root commits current event (result, t) files'

namespace Call

variable {now : Instant} {t t' : Table} {call : Call} {a : Answer} {handle : Nat}

theorem replica_of_read (h : Chain root files commits current)
    (hread : Script.perform root Table.loadLatest files = (.ok t, files)) :
    Replica commits current t := (h.replica_of_rebuild (Table.perform_loadLatest hread)).1

theorem outcome_of_wrote {event : Event} {u : Table} {actions : List Action}
    (hwrites : event.writes = true) (h : Wrote root commits current actions u t' files') :
    event.Outcome root commits current (.ok a, some t') files' := by
  obtain ⟨c, -, hchain, htable⟩ := h.written
  exact .wrote hwrites h.current_eq hchain htable

theorem outcome_of_effect (h : Chain root files commits current) (hreplica : Replica commits current t)
    (heffect : Effect asked root commits current now t files call a t' files') :
    (Event.call handle call).Outcome root commits current (.ok a, some t') files' := by
  cases heffect with
  | refreshed hread =>
    refine .kept (.inl rfl) h.settled fun u hu => ?_
    obtain rfl := Option.some.inj hu
    exact replica_of_read h hread
  | staged hchain =>
    refine .kept (.inl rfl) hchain.settled fun u hu => ?_
    obtain rfl := Option.some.inj hu
    exact hreplica
  | committed hasks hcommit =>
    refine outcome_of_wrote ?_ hcommit.wrote
    cases call with
    | commit => rfl
    | append => rfl
    | appendManifests => rfl
    | deleteFiles => rfl
    | deleteWhere => rfl
    | overwrite => rfl
    | _ => exact absurd hasks (by simp [change?])
  | rolledBack hread hin hancestor hwrote => exact outcome_of_wrote rfl hwrote
  | moved hread hin hwrote => exact outcome_of_wrote rfl hwrote
  | updated hwrote => exact outcome_of_wrote rfl hwrote
  | tookIn _ _ _ _ _ _ hcommit _ => exact outcome_of_wrote rfl hcommit.wrote

end Call

namespace Event

variable {handles : Nat → Option Table} {now : Instant}
  {script : Script (Except TableError Answer × Option Table)}

/-- The event opens a table or copies a handle. -/
def opens : Event → Bool
  | openTable _ => true
  | copy _ _ => true
  | _ => false

/-- The error says that another writer was first. -/
def LostTo : Event → TableError → Prop
  | create _ _, e => ∃ expected found, e = .log (.conflict expected found)
  | call _ _, e => ∃ expected found, e = .commitConflict expected found
  | _, _ => False

/-- What an event that failed has left: the same commits, and the same version as current unless
it lost to another writer; the handle has the copy from before, or one that was read again. -/
structure Failure (root : Location) (commits : List Commit) (current : Nat)
    (handles : Nat → Option Table) (files : Tree) (event : Event) (e : TableError)
    (after : Option Table) (files' : Tree) : Prop where
  settled : Settled root commits current files'
  still : event.LostTo e ∨ Chain root files' commits current
  copy : after = handles event.handle ∨
    ∃ t, after = some t ∧ Script.perform root Table.loadLatest files = (.ok t, files)

theorem Failure.replica {event : Event} {e : TableError} {after : Option Table}
    (hfailure : event.Failure root commits current handles files e after files')
    (h : Chain root files commits current)
    (hreplicas : ∀ handle t, handles handle = some t → Replica commits current t) :
    ∀ t, after = some t → Replica commits current t := by
  intro t ht
  rcases hfailure.copy with hsame | ⟨u, hu, hread⟩
  · exact hreplicas _ t (hsame ▸ ht)
  · obtain rfl := Option.some.inj (hu.symm.trans ht)
    exact Call.replica_of_read h hread

/-- What an event that ran to its end has done, in full. -/
inductive Deed (asked : Request → Prop) (root : Location) (commits : List Commit) (current : Nat)
    (now : Instant) (handles : Nat → Option Table) (files : Tree) :
    Event → Except TableError Answer × Option Table → Tree → Prop where
  | created {handle : Nat} {metadata : Metadata} {c : Commit} {t : Table} {files' : Tree}
      (first : commits = []) (actions : c.actions = [.create metadata]) (new : t = .new 1 metadata)
      (chain : Chain root files' [c] 1) (table : tableAfter? [c] = some t) :
      Deed asked root commits current now handles files (.create handle metadata)
        (.ok .done, some t) files'
  | called {handle : Nat} {call : Call} {t : Table} {a : Answer} {t' : Table} {files' : Tree}
      (copy : handles handle = some t)
      (effect : call.Effect asked root commits current now t files a t' files') :
      Deed asked root commits current now handles files (.call handle call) (.ok a, some t') files'
  | opened {event : Event} {a : Answer} {t : Table} (opens : event.opens = true)
      (copy : Replica commits current t) :
      Deed asked root commits current now handles files event (.ok a, some t) files
  | failed {event : Event} {e : TableError} {after : Option Table} {files' : Tree}
      (failure : event.Failure root commits current handles files e after files') :
      Deed asked root commits current now handles files event (.error e, after) files'

theorem ensures_handleOf (event : Event) {access : FileM Table}
    (h : (contract asked root).Attempts access files
      (fun t files' => event.Deed asked root commits current now handles files (.ok .done, some t)
        files')
      (fun e files' => event.Failure root commits current handles files e (handles event.handle)
        files')) :
    (contract asked root).Ensures (handleOf (handles event.handle) access) files
      (event.Deed asked root commits current now handles files) := by
  refine Ensures.bind (Ensures.mono h fun r files' hr => ?_)
  cases r with
  | ok t => exact hr
  | error e => exact .failed hr

/-- What an event does, if it runs to its end. -/
theorem ensures (h : Chain root files commits current)
    (hreplicas : ∀ handle t, handles handle = some t → Replica commits current t) {event : Event}
    (hscript : event.script? now handles = some script) :
    (contract asked root).Ensures script files
      (event.Deed asked root commits current now handles files) := by
  cases event with
  | create handle metadata =>
    obtain rfl := Option.some.inj hscript
    refine ensures_handleOf (.create handle metadata) ((Table.create_attempts h metadata now).mono ?_ ?_)
    · rintro t files' ⟨hfirst, hnew, c, hactions, hchain, htable⟩
      exact .created hfirst hactions hnew hchain htable
    · intro e files' huncreated
      exact ⟨huncreated.settled, huncreated.still, .inl rfl⟩
  | openTable handle =>
    obtain rfl := Option.some.inj hscript
    refine ensures_handleOf (.openTable handle) ((reads_attempts Table.reads_openLatest).mono ?_ ?_)
    · rintro t files' ⟨hopen, rfl⟩
      exact .opened rfl (Call.replica_of_read h (Table.perform_openLatest hopen))
    · rintro e files' ⟨-, rfl⟩
      exact ⟨h.settled, .inr h, .inl rfl⟩
  | copy source handle =>
    obtain ⟨t, ht, rfl⟩ := Option.map_eq_some_iff.1 hscript
    exact .opened rfl (hreplicas source t ht)
  | call handle call =>
    obtain ⟨t, ht, rfl⟩ := Option.map_eq_some_iff.1 hscript
    refine Ensures.bind (Ensures.mono (Call.performs h (hreplicas handle t ht)) fun r files' hr => ?_)
    obtain ⟨e | a, t'⟩ := r
    · refine .failed ⟨hr.settled, hr.still, hr.copy.imp ?_ fun hread => ⟨t', rfl, hread⟩⟩
      rintro rfl
      exact ht.symm
    · exact .called ht hr

/-- What an event has done to the log. -/
theorem Deed.outcome {event : Event} {result : Except TableError Answer × Option Table}
    (h : Chain root files commits current)
    (hreplicas : ∀ handle t, handles handle = some t → Replica commits current t)
    (hdeed : event.Deed asked root commits current now handles files result files') :
    event.Outcome root commits current result files' := by
  cases hdeed with
  | created hfirst hactions hnew hchain htable =>
    subst hfirst
    exact .wrote rfl (Nat.le_zero.1 h.current_le) hchain htable
  | called hcopy heffect => exact Call.outcome_of_effect h (hreplicas _ _ hcopy) heffect
  | opened hopens hcopy =>
    refine .kept (.inl ?_) h.settled fun u hu => Option.some.inj hu ▸ hcopy
    cases event with
    | openTable => rfl
    | copy => rfl
    | _ => exact absurd hopens (by simp [opens])
  | failed hfailure => exact .kept (.inr ⟨_, rfl⟩) hfailure.settled (hfailure.replica h hreplicas)

end Event

/-! ### Whole runs -/

/-- The version that was reported to the caller of a write. -/
def Record.version? (r : Record) : Option Version :=
  match r.result with
  | .ok _ => if r.event.writes then r.after.map Table.version else none
  | .error _ => none

namespace World

/-- Any request. -/
def everything : Request → Prop := fun _ => True

/-- The files of the log form the chain of these commits, every handle is a replay of a
beginning of it, and the versions that were reported went up. -/
structure Ordered (root : Location) (w : World) (commits : List Commit) (current : Nat) : Prop where
  chain : Chain root w.files commits current
  replicas : ∀ handle t, w.handles handle = some t → Replica commits current t
  ascending : (w.history.filterMap Record.version?).Pairwise (· > ·)
  reported : ∀ v ∈ w.history.filterMap Record.version?, v.toNat ≤ current

variable {w : World} {turn : Turn} {script : Script (Except TableError Answer × Option Table)}

theorem Ordered.ensures (asked : Request → Prop) (h : w.Ordered root commits current)
    (hscript : turn.event.script? turn.now w.handles = some script) :
    (contract asked root).Ensures script w.files fun result files' =>
      turn.event.Deed asked root commits current turn.now w.handles w.files result files' ∧
        Proceeds asked root w.files files' :=
  (Event.ensures h.chain h.replicas hscript).proceeds

/-- What an event that ran to its end has done, and that it only let the files grow. -/
theorem Ordered.deed (h : w.Ordered root commits current)
    (hscript : turn.event.script? turn.now w.handles = some script)
    (hasked : ∀ r ∈ script.requests root w.files, asked r) :
    turn.event.Deed asked root commits current turn.now w.handles w.files
        (script.run root w.files).1 (script.run root w.files).2 ∧
      Proceeds asked root w.files (script.run root w.files).2 :=
  (h.ensures asked hscript).run hasked

theorem Ordered.outcome (h : w.Ordered root commits current)
    (hscript : turn.event.script? turn.now w.handles = some script)
    {result : Except TableError Answer × Option Table}
    (hrun : script.runWithin root turn.limit w.files = (some result, files')) :
    turn.event.Outcome root commits current result files' ∧
      Proceeds everything root w.files files' := by
  obtain ⟨hdeed, hproceeds⟩ := h.deed hscript fun _ _ => (trivial : everything _)
  rw [Script.run_of_runWithin hrun] at hdeed hproceeds
  exact ⟨hdeed.outcome h.chain h.replicas, hproceeds⟩

/-- A run that stops has let the log go on, and the whole run would have gone on from there. -/
theorem Ordered.stopped (h : w.Ordered root commits current)
    (hscript : turn.event.script? turn.now w.handles = some script)
    (hasked : ∀ r ∈ script.requests root w.files, asked r) (n : Nat) :
    Proceeds asked root w.files (script.runFor root n w.files).2 ∧
      Proceeds asked root (script.runFor root n w.files).2 (script.run root w.files).2 :=
  (h.ensures asked hscript).runFor hasked (Proceeds.refl asked root)
    (fun _ _ _ => Proceeds.trans) n

theorem Ordered.mono_replicas (h : w.Ordered root commits current) {commits' : List Commit}
    {current' : Nat} (hbegins : commits <+: commits') (hle : current ≤ current') {slot : Nat}
    {u : Option Table} (hu : ∀ t, u = some t → Replica commits' current' t) :
    ∀ handle t, w.setHandle slot u handle = some t → Replica commits' current' t := by
  intro handle t ht
  rw [setHandle] at ht
  split at ht
  · exact hu t ht
  · exact (h.replicas handle t ht).mono h.chain.current_le hbegins hle

theorem step_of_no_script (hscript : turn.event.script? turn.now w.handles = none) :
    w.step root turn = w := by
  rw [step, hscript]

theorem step_of_done (hscript : turn.event.script? turn.now w.handles = some script)
    {result : Except TableError Answer} {t : Option Table}
    (hrun : script.runWithin root turn.limit w.files = (some (result, t), files')) :
    w.step root turn = ⟨files', w.setHandle turn.event.handle t,
      ⟨turn.event, w.handles turn.event.handle, result, t⟩ :: w.history,
      w.requests ++ script.requestsWithin root turn.limit w.files⟩ := by
  simp only [step, hscript, hrun]

/-- What a turn asks for, or would ask for if it did not stop. -/
def wants (root : Location) (w : World) (turn : Turn) : List Request :=
  match turn.event.script? turn.now w.handles with
  | none => []
  | some script => script.requests root w.files

/-- A turn without a limit ends. -/
theorem step_of_end (hends : turn.limit = none)
    (hscript : turn.event.script? turn.now w.handles = some script)
    {result : Except TableError Answer} {t : Option Table}
    (hrun : script.run root w.files = ((result, t), files')) :
    w.step root turn = ⟨files', w.setHandle turn.event.handle t,
      ⟨turn.event, w.handles turn.event.handle, result, t⟩ :: w.history,
      w.requests ++ w.wants root turn⟩ := by
  simp only [step, hscript, hends, Script.runWithin, Script.requestsWithin, hrun, wants]

theorem step_of_stop (hscript : turn.event.script? turn.now w.handles = some script)
    (hrun : script.runWithin root turn.limit w.files = (none, files')) :
    w.step root turn = ⟨files', w.setHandle turn.event.handle none, w.history,
      w.requests ++ script.requestsWithin root turn.limit w.files⟩ := by
  simp only [step, hscript, hrun]

/-- A turn leaves the handles of others alone. -/
theorem step_handles_of_ne {handle : Nat} (h : handle ≠ turn.event.handle) :
    (w.step root turn).handles handle = w.handles handle := by
  cases hscript : turn.event.script? turn.now w.handles with
  | none => rw [step_of_no_script hscript]
  | some script =>
    rcases hrun : script.runWithin root turn.limit w.files with ⟨_ | ⟨result, t⟩, files'⟩
    · rw [step_of_stop hscript hrun]
      exact if_neg h
    · rw [step_of_done hscript hrun]
      exact if_neg h

theorem Ordered.start (h : Chain root files commits current) :
    (World.start files).Ordered root commits current :=
  ⟨h, fun _ _ ht => absurd ht (by simp [World.start]), .nil, fun _ hv => absurd hv (by simp [World.start])⟩

theorem version?_of_quiet {r : Record} (h : r.event.writes = false ∨ ∃ e, r.result = .error e) :
    r.version? = none := by
  rw [Record.version?]
  rcases h with hread | ⟨e, he⟩
  · split <;> simp [hread]
  · rw [he]

/-- Where no version is reported, a world stays in order as far as its log goes on and what the
handle gets is a replay. -/
theorem Ordered.settle (h : w.Ordered root commits current) {commits' : List Commit} {current' : Nat}
    (hchain : Chain root files' commits' current') (hbegins : commits <+: commits')
    (hle : current ≤ current') {slot : Nat} {u : Option Table}
    (hu : ∀ t, u = some t → Replica commits' current' t) {history : List Record}
    (hquiet : history.filterMap Record.version? = w.history.filterMap Record.version?)
    (requests : List Request) :
    Ordered root ⟨files', w.setHandle slot u, history, requests⟩ commits' current' := by
  refine ⟨hchain, h.mono_replicas hbegins hle hu, ?_, fun v hv => ?_⟩
  · rw [hquiet]
    exact h.ascending
  · rw [hquiet] at hv
    exact Nat.le_trans (h.reported v hv) hle

/-- The version of a commit that was added behind the last one is above all that were reported. -/
theorem Ordered.report (h : w.Ordered root commits current) {c : Commit} {t : Table}
    (hlast : current = commits.length) (hchain : Chain root files' (commits ++ [c]) (commits.length + 1))
    (htable : tableAfter? (commits ++ [c]) = some t) {r : Record} (hr : r.version? = some t.version)
    (slot : Nat) (requests : List Request) :
    Ordered root ⟨files', w.setHandle slot (some t), r :: w.history, requests⟩ (commits ++ [c])
      (commits.length + 1) := by
  have hlength : (commits ++ [c]).length = commits.length + 1 := by simp
  rw [← hlength] at hchain ⊢
  obtain ⟨hreplica, hversion⟩ := hchain.replica_of_last htable
  have hle : current ≤ (commits ++ [c]).length := by omega
  refine ⟨hchain, h.mono_replicas (List.prefix_append _ _) hle ?_, ?_, fun v hv => ?_⟩
  · intro u hu
    obtain rfl := Option.some.inj hu
    exact hreplica
  · rw [List.filterMap_cons_some hr]
    refine List.pairwise_cons.2 ⟨fun v hv => ?_, h.ascending⟩
    have hbound := h.reported v hv
    rw [gt_iff_lt, UInt64.lt_iff_toNat_lt]
    omega
  · rw [List.filterMap_cons_some hr] at hv
    rcases List.mem_cons.1 hv with rfl | hv
    · exact Nat.le_of_eq hversion
    · exact Nat.le_trans (h.reported v hv) hle

/-- Every turn keeps a world in order. -/
theorem Ordered.step (h : w.Ordered root commits current) (turn : Turn) :
    ∃ commits' current', (w.step root turn).Ordered root commits' current' ∧
      commits <+: commits' ∧ current ≤ current' ∧
      Proceeds everything root w.files (w.step root turn).files := by
  cases hscript : turn.event.script? turn.now w.handles with
  | none =>
    rw [step_of_no_script hscript]
    exact ⟨commits, current, h, List.prefix_refl _, Nat.le_refl _, Proceeds.refl _ _ _⟩
  | some script =>
    rcases hrun : script.runWithin root turn.limit w.files with ⟨_ | ⟨result, t⟩, files'⟩
    · rw [step_of_stop hscript hrun]
      obtain ⟨n, -, hrun⟩ := Script.runFor_of_stop hrun
      have hproceeds := (h.stopped hscript (fun _ _ => (trivial : everything _)) n).1
      rw [hrun] at hproceeds
      obtain ⟨commits', current', hchain, hbegins, hle⟩ := hproceeds.advances _ _ h.chain
      exact ⟨commits', current', h.settle hchain hbegins hle (by simp) rfl _, hbegins, hle, hproceeds⟩
    · rw [step_of_done hscript hrun]
      obtain ⟨houtcome, hproceeds⟩ := h.outcome hscript hrun
      cases houtcome with
      | @wrote a t c _ hwrites hlast hchain htable =>
        exact ⟨_, _, h.report hlast hchain htable (by simp [Record.version?, hwrites]) _ _,
          List.prefix_append _ _, by omega, hproceeds⟩
      | kept hquiet hsettled hcopy =>
        obtain ⟨current', hchain, hle⟩ := hsettled
        have hnone := List.filterMap_cons_none (l := w.history) (version?_of_quiet
          (r := ⟨turn.event, w.handles turn.event.handle, result, t⟩) hquiet)
        have hcopy' : ∀ u, t = some u → Replica commits current' u := fun u hu =>
          (hcopy u hu).mono h.chain.current_le (List.prefix_refl _) hle
        exact ⟨commits, current', h.settle hchain (List.prefix_refl _) hle hcopy' hnone _,
          List.prefix_refl _, hle, hproceeds⟩

/-- Every run from a place without a table keeps its world in order. -/
theorem ordered_run (h : files.Vacant root) (turns : List Turn) :
    ∃ commits current, (run root (start files) turns).Ordered root commits current := by
  refine run_induction (p := fun w => ∃ commits current, w.Ordered root commits current)
    ⟨[], 0, .start (Chain.of_vacant h)⟩ ?_ turns
  rintro w turn ⟨commits, current, hw⟩
  obtain ⟨commits', current', hw', -⟩ := hw.step turn
  exact ⟨commits', current', hw'⟩

end World

end Lakehouse
