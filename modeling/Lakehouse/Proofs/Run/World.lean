import Lakehouse.Proofs.Table.Operations

/- Worlds with many handles on one location.

   A handle is a kept copy of the table. In a world there are files and handles, and one
   event after the other happens: a table is created or opened, a copy is made of a handle,
   or an operation is called through one (`Event.script?`). An event runs to its end, or it
   stops for good after some number of accesses to the storage (`World.step`), and then its
   handle is gone. A world also remembers what its events came to and what was requested.
   `Call.performs` is the one lemma on what a call comes to: one constructor of
   `Call.Effect` for each way to succeed, and `Table.Failed` for all failures. -/
namespace Lakehouse

open Calendar (Instant)
open Contract Log

/-- The operations that are called through a handle. -/
inductive Call where
  | refresh
  | stage (files : List DataFile)
  | commit (base : Option SnapshotId) (operation : Operation) (changes : FileChanges)
  | append (files : List DataFile)
  | appendManifests (paths : List String)
  | deleteFiles (paths : List String)
  | deleteWhere (filter : Filter)
  | overwrite (filter : Filter) (files : List DataFile)
  | rollback (target : SnapshotId)
  | setCurrent (target : SnapshotId)
  | updateProperties (set : Properties) (remove : List String)
  | intake (directory : String)

/-- What a call gives when it succeeds. -/
inductive Answer where
  | done
  | path (path : String)
  | snapshot (s : Snapshot)

/-- A change of files, with the snapshot that it is meant for. -/
structure Change where
  base : Option SnapshotId
  operation : Operation
  changes : FileChanges

namespace Call

def run (now : Instant) : Call → TableM Answer
  | refresh => (fun _ => .done) <$> Table.refresh
  | stage files => .path <$> Table.stage files
  | commit base operation changes => .snapshot <$> Table.commit base operation changes now
  | append files => .snapshot <$> Table.append files now
  | appendManifests paths => .snapshot <$> Table.appendManifests paths now
  | deleteFiles paths => .snapshot <$> Table.deleteFiles paths now
  | deleteWhere filter => .snapshot <$> Table.deleteWhere filter now
  | overwrite filter files => .snapshot <$> Table.overwrite filter files now
  | rollback target => (fun _ => .done) <$> Table.rollback target now
  | setCurrent target => (fun _ => .done) <$> Table.setCurrent target now
  | updateProperties set remove => (fun _ => .done) <$> Table.updateProperties set remove now
  | intake directory => .snapshot <$> Table.intake directory now

/-- The call adds a commit to the log if it succeeds. -/
def writes : Call → Bool
  | refresh => false
  | stage _ => false
  | _ => true

/-- The change that the call asks for through a handle with the copy `t`. -/
def change? (t : Table) : Call → Option Change
  | commit base operation changes => some ⟨base, operation, changes⟩
  | append files => some ⟨t.currentId, .append, .adding files⟩
  | appendManifests paths => some ⟨t.currentId, .append, .adopting paths⟩
  | deleteFiles paths => some ⟨t.currentId, .delete, .deleting paths⟩
  | deleteWhere filter => some ⟨t.currentId, .delete, .deletingRows filter⟩
  | overwrite filter files =>
    some ⟨t.currentId, .overwrite, { FileChanges.deletingRows filter with added := files }⟩
  | _ => none

/-- What a successful call did, found the files `files` and the copy `t`. -/
inductive Effect (asked : Request → Prop) (root : Location) (commits : List Commit) (current : Nat)
    (now : Instant) (t : Table) (files : Tree) : Call → Answer → Table → Tree → Prop where
  | refreshed {t' : Table} (read : Script.perform root Table.loadLatest files = (.ok t', files)) :
      Effect asked root commits current now t files .refresh .done t' files
  | staged {added : List DataFile} {path : String} {files' : Tree}
      (chain : Chain root files' commits current)
      (name : path = Layout.stagedPath
        (FileM.manifestContent (Table.stagedManifest t.spec added)))
      (filed : files'.Filed asked root (FileM.manifestContent (Table.stagedManifest t.spec added))
        path) :
      Effect asked root commits current now t files (.stage added) (.path path) t files'
  | committed {call : Call} {change : Change} {u : Table} {p : Table.Plan} {s : Snapshot}
      {t' : Table} {files' : Tree} (asks : call.change? t = some change)
      (commit : Table.Committed asked root commits current change.base change.operation
        change.changes now files u p s t' files') :
      Effect asked root commits current now t files call (.snapshot s) t' files'
  | rolledBack {target : SnapshotId} {u t' : Table} {files' : Tree}
      (read : Script.perform root Table.loadLatest files = (.ok u, files))
      (registered : u.snapshots.contains target = true)
      (ancestor : u.isCurrentAncestor target = true)
      (wrote : Wrote root commits current [.moveCurrent target none now] u t' files') :
      Effect asked root commits current now t files (.rollback target) .done t' files'
  | moved {target : SnapshotId} {u t' : Table} {files' : Tree}
      (read : Script.perform root Table.loadLatest files = (.ok u, files))
      (registered : u.snapshots.contains target = true)
      (wrote : Wrote root commits current [.moveCurrent target none now] u t' files') :
      Effect asked root commits current now t files (.setCurrent target) .done t' files'
  | updated {set : Properties} {remove : List String} {t' : Table} {files' : Tree}
      (wrote : Wrote root commits current [.updateProperties set remove] t t' files') :
      Effect asked root commits current now t files (.updateProperties set remove) .done t' files'
  | tookIn {directory : String} {found : List Place} {added : List DataFile} {files₁ : Tree}
      {path : String} {u : Table} {p : Table.Plan} {s : Snapshot} {t' : Table} {files' : Tree}
      (find : Script.perform root (Table.findImportable directory) files = (.ok found, files))
      (load : Script.perform root (found.mapM (Table.loadFile t.schema t.spec directory)) files =
        (.ok added, files))
      (proceeds : Proceeds asked root files files₁) (chain : Chain root files₁ commits current)
      (name : path = Layout.stagedPath
        (FileM.manifestContent (Table.stagedManifest t.spec added)))
      (filed : files₁.Filed asked root (FileM.manifestContent (Table.stagedManifest t.spec added))
        path)
      (commit : Table.Committed asked root commits current t.currentId .append (.adopting [path])
        now files₁ u p s t' files') (proceeds' : Proceeds asked root files₁ files') :
      Effect asked root commits current now t files (.intake directory) (.snapshot s) t' files'

variable {asked : Request → Prop} {root : Location} {files files' : Tree} {commits : List Commit}
  {current : Nat} {t t' : Table} {now : Instant} {call : Call}

theorem run_map_get {α β : Type} (f : α → β) (next : Table → TableM α) :
    (f <$> (MonadState.get >>= next)).run.run t = (f <$> next t).run.run t := rfl

/-- Through a handle, a call that asks for a change is this change. -/
theorem run_of_change {change : Change} (hchange : call.change? t = some change) :
    (call.run now).run.run t = (Answer.snapshot <$>
      Table.commit change.base change.operation change.changes now).run.run t := by
  cases call with
  | commit =>
    obtain rfl := Option.some.inj hchange
    rw [run]
  | append =>
    obtain rfl := Option.some.inj hchange
    rw [run, Table.append, run_map_get]
  | appendManifests =>
    obtain rfl := Option.some.inj hchange
    rw [run, Table.appendManifests, run_map_get]
  | deleteFiles =>
    obtain rfl := Option.some.inj hchange
    rw [run, Table.deleteFiles, run_map_get]
  | deleteWhere =>
    obtain rfl := Option.some.inj hchange
    rw [run, Table.deleteWhere, run_map_get]
  | overwrite =>
    obtain rfl := Option.some.inj hchange
    rw [run, Table.overwrite, run_map_get]
  | _ => exact absurd hchange (by simp [change?])

/-- A change succeeds if it is planned for the current snapshot and nothing is in the way. -/
theorem performs_change (h : Chain root files commits current) {change : Change}
    (hchange : call.change? t = some change) :
    (contract asked root).Performs (call.run now) t files
      (fun a t' files' => ∃ s u p, a = .snapshot s ∧ Table.Committed asked root commits current
        change.base change.operation change.changes now files u p s t' files')
      (fun e t' files' => Table.Failed root commits current files t e t' files' ∧
        (Open root commits current → ∀ u p,
          Script.perform root Table.loadLatest files = (.ok u, files) →
          u.currentId = change.base →
          ¬ Table.Planned root files u change.operation change.changes p)) := by
  rw [Performs, run_of_change hchange]
  refine Performs.map ((Table.commit_performs h change.base change.operation change.changes
    now).mono ?_ fun _ _ _ h' => h')
  rintro s t' files' ⟨u, p, hcommitted⟩
  exact ⟨s, u, p, rfl, hcommitted⟩

/-- What is known of a change is known of the call that asks for it. -/
theorem performs_of_change (h : Chain root files commits current) {change : Change}
    (hchange : call.change? t = some change) :
    (contract asked root).Performs (call.run now) t files
      (Effect asked root commits current now t files call)
      (fun e t' files' => Table.Failed root commits current files t e t' files') := by
  refine (performs_change h hchange).mono ?_ fun _ _ _ h' => h'.1
  rintro a t' files' ⟨s, u, p, rfl, hcommitted⟩
  exact .committed hchange hcommitted

theorem performs (h : Chain root files commits current) (hreplica : Replica commits current t) :
    (contract asked root).Performs (call.run now) t files
      (Effect asked root commits current now t files call)
      (fun e t' files' => Table.Failed root commits current files t e t' files') := by
  cases call with
  | refresh =>
    refine Performs.map (Table.refresh_performs.mono ?_ ?_)
    · rintro _ t' files' ⟨hread, rfl⟩
      exact .refreshed hread
    · rintro e t' files' ⟨rfl, rfl⟩
      exact .of_chain (.inl rfl) h
  | stage added =>
    refine Performs.map ((Table.stage_performs h added).mono ?_ ?_)
    · rintro path t' files' ⟨rfl, h', hname, hfiled⟩
      exact .staged h' hname hfiled
    · rintro e t' files' ⟨rfl, h', -⟩
      exact .of_chain (.inl rfl) h'
  | commit => exact performs_of_change h rfl
  | append => exact performs_of_change h rfl
  | appendManifests => exact performs_of_change h rfl
  | deleteFiles => exact performs_of_change h rfl
  | deleteWhere => exact performs_of_change h rfl
  | overwrite => exact performs_of_change h rfl
  | rollback target =>
    refine Performs.map ((Table.rollback_performs h target now).mono ?_ fun _ _ _ h' => h')
    rintro _ t' files' ⟨u, hread, hin, hancestor, hwrote⟩
    exact .rolledBack hread hin hancestor hwrote
  | setCurrent target =>
    refine Performs.map ((Table.setCurrent_performs h target now).mono ?_ fun _ _ _ h' => h')
    rintro _ t' files' ⟨u, hread, hin, hwrote⟩
    exact .moved hread hin hwrote
  | updateProperties set remove =>
    refine Performs.map ((Table.updateProperties_performs h hreplica set remove now).mono ?_ ?_)
    · intro _ t' files' hwrote
      exact .updated hwrote
    · rintro e t' files' ⟨rfl, hunwritten⟩
      exact .of_unwritten (.inl rfl) hunwritten
  | intake directory =>
    refine Performs.map ((Table.intake_performs h directory now).mono ?_ fun _ _ _ h' => h')
    rintro s t' files' ⟨found, added, files₁, path, u, p, hfind, hload, hproceeds, h₁, hname, hfiled,
      hcommitted, hproceeds'⟩
    exact .tookIn hfind hload hproceeds h₁ hname hfiled hcommitted hproceeds'

end Call

/-! ### Events -/

/-- What happens at a location. -/
inductive Event where
  | create (handle : Nat) (metadata : Metadata)
  | openTable (handle : Nat)
  | copy (source handle : Nat)
  | call (handle : Nat) (call : Call)

namespace Event

/-- The handle that is new or that is used. -/
def handle : Event → Nat
  | create h _ => h
  | openTable h => h
  | copy _ h => h
  | call h _ => h

/-- The event adds a commit to the log if it succeeds. -/
def writes : Event → Bool
  | create _ _ => true
  | call _ c => c.writes
  | _ => false

/-- What a new handle comes to; if it cannot be had, the one before stays. -/
def handleOf (before : Option Table) (access : FileM Table) :
    Script (Except TableError Answer × Option Table) := do
  match ← access.run with
  | .ok t => return (.ok .done, some t)
  | .error e => return (.error e, before)

/-- The accesses of an event, its result and its handle afterwards. Nothing happens
through a handle that is not there. -/
def script? (now : Instant) (handles : Nat → Option Table) :
    Event → Option (Script (Except TableError Answer × Option Table))
  | create h metadata => some (handleOf (handles h) (Table.create metadata now))
  | openTable h => some (handleOf (handles h) Table.openLatest)
  | copy source _ => (handles source).map fun t => pure (.ok .done, some t)
  | call h c => (handles h).map fun t => do
    let (result, t) ← (c.run now).run.run t
    return (result, some t)

end Event

/-- An event that ran to its end, with its handle before and afterwards. -/
structure Record where
  event : Event
  before : Option Table
  result : Except TableError Answer
  after : Option Table

/-- An event, the time that it reads, and the number of accesses after which it stops, if it
is to stop. -/
structure Turn where
  event : Event
  now : Instant
  limit : Option Nat

/-- Files, handles, what happened (the last first), and what was requested. -/
structure World where
  files : Tree
  handles : Nat → Option Table
  history : List Record
  requests : List Request

namespace Script

variable {α : Type}

/-- A run that stops if there is a limit and the script is not done by then. -/
def runWithin (root : Location) (limit : Option Nat) (s : Script α) (t : Tree) : Option α × Tree :=
  match limit with
  | none => (some (s.run root t).1, (s.run root t).2)
  | some n => s.runFor root n t

/-- The requests of a run that may stop. -/
def requestsWithin (root : Location) (limit : Option Nat) (s : Script α) (t : Tree) :
    List Request :=
  match limit with
  | none => s.requests root t
  | some n => (s.requests root t).take n

theorem run_of_runWithin {root : Location} {limit : Option Nat} {s : Script α} {t t' : Tree} {a : α}
    (h : s.runWithin root limit t = (some a, t')) : s.run root t = (a, t') := by
  cases limit with
  | none =>
    obtain ⟨h₁, h₂⟩ := Prod.mk.inj h
    exact Prod.ext (Option.some.inj h₁) h₂
  | some n => exact run_of_runFor h

/-- Only a run with a limit stops. -/
theorem runFor_of_stop {root : Location} {limit : Option Nat} {s : Script α} {t t' : Tree}
    (h : s.runWithin root limit t = (none, t')) :
    ∃ n, limit = some n ∧ s.runFor root n t = (none, t') := by
  cases limit with
  | none => exact absurd h (by simp [runWithin])
  | some n => exact ⟨n, rfl, h⟩

end Script

namespace World

/-- A world in which nothing has happened. -/
def start (files : Tree) : World := ⟨files, fun _ => none, [], []⟩

/-- The handles after one of them changes. -/
def setHandle (w : World) (handle : Nat) (t : Option Table) : Nat → Option Table :=
  fun h => if h = handle then t else w.handles h

/-- The world after one turn. -/
def step (root : Location) (w : World) (turn : Turn) : World :=
  match turn.event.script? turn.now w.handles with
  | none => w
  | some script =>
    let requests := w.requests ++ script.requestsWithin root turn.limit w.files
    match script.runWithin root turn.limit w.files with
    | (some (result, t), files) =>
      ⟨files, w.setHandle turn.event.handle t,
        ⟨turn.event, w.handles turn.event.handle, result, t⟩ :: w.history, requests⟩
    | (none, files) => ⟨files, w.setHandle turn.event.handle none, w.history, requests⟩

/-- The world after some turns. -/
def run (root : Location) (w : World) (turns : List Turn) : World := turns.foldl (step root) w

variable {root : Location} {w : World}

theorem run_append (turns later : List Turn) :
    run root w (turns ++ later) = run root (run root w turns) later := List.foldl_append

theorem run_concat (turns : List Turn) (turn : Turn) :
    run root w (turns ++ [turn]) = step root (run root w turns) turn := run_append turns [turn]

/-- What holds at the start and lasts through a turn holds after every run. -/
theorem run_induction {p : World → Prop} (hstart : p w) (hstep : ∀ w turn, p w → p (step root w turn))
    (turns : List Turn) : p (run root w turns) := by
  induction turns generalizing w with
  | nil => exact hstart
  | cons turn turns ih => exact ih (hstep w turn hstart)

end World

end Lakehouse
