import Lakehouse.Form.Files
import Lakehouse.Log.Replay
import Lakehouse.Store.Layout
import Lakehouse.Table.Failure

/- Sessions with a table.

   Whoever works on a table keeps the table as it was last read from the log. An
   operation may replace this copy, whether it succeeds or fails. Metadata files are
   written once under a name made from their content: if the file is there already,
   it is the same file.

   `TableM.perform` runs an operation on a tree of files; its lemmas give the outcome
   of a sequence from the outcomes of its parts. -/
namespace Lakehouse

/-- An operation on a table of which a copy is kept. -/
abbrev TableM := ExceptT TableError (StateT Table Script)

/-- Access to a table's files without a copy of the table. -/
abbrev FileM := ExceptT TableError Script

namespace TableM

variable {α : Type}

def reject (cause : Rejection) : TableM α := throw (.rejected cause)

/-- A script as a part of an operation, whatever its result. -/
def ofScript (script : Script α) : TableM α := ExceptT.lift (StateT.lift script)

/-- An access to files as a part of an operation. -/
def ofFiles (script : FileM α) : TableM α := ExceptT.mk (StateT.lift script.run)

end TableM

/-! ### Outcomes -/

/-- What an operation comes to, the copy of the table and the files afterwards. -/
def TableM.perform {α : Type} (root : Location) (operation : TableM α) (t : Table)
    (files : Tree) : (Except TableError α × Table) × Tree :=
  (operation.run.run t).run root files

namespace TableM

variable {α β : Type} (root : Location) (t : Table) (files : Tree)

@[simp] theorem perform_pure (a : α) :
    (pure a : TableM α).perform root t files = ((.ok a, t), files) := rfl

@[simp] theorem perform_throw (e : TableError) :
    (throw e : TableM α).perform root t files = ((.error e, t), files) := rfl

@[simp] theorem perform_get :
    (get : TableM Table).perform root t files = ((.ok t, t), files) := rfl

@[simp] theorem perform_set (u : Table) :
    (set u : TableM PUnit).perform root t files = ((.ok ⟨⟩, u), files) := rfl

theorem perform_ofScript (script : Script α) :
    (ofScript script).perform root t files =
      ((.ok (script.run root files).1, t), (script.run root files).2) := by
  have h : (ofScript script).run.run t =
      script >>= fun a => pure (Except.ok a, t) := by
    simp [ofScript, ExceptT.run_lift, StateT.run_map, StateT.run_lift]
  rw [perform, h, Script.run_bind, Script.run_pure]

theorem perform_ofFiles (access : FileM α) :
    (ofFiles access).perform root t files =
      (((Script.perform root access files).1, t), (Script.perform root access files).2) := by
  have h : (ofFiles access).run.run t = access.run >>= fun r => pure (r, t) := rfl
  rw [perform, h, Script.run_bind, Script.run_pure]
  rfl

theorem perform_bind (operation : TableM α) (next : α → TableM β) :
    (operation >>= next).perform root t files =
      match operation.perform root t files with
      | ((.ok a, t), files) => (next a).perform root t files
      | ((.error e, t), files) => ((.error e, t), files) := by
  simp only [perform, ExceptT.run_bind, StateT.run_bind, Script.run_bind]
  generalize (operation.run.run t).run root files = outcome
  obtain ⟨⟨result | result, t⟩, files⟩ := outcome <;> rfl

end TableM

namespace FileM

variable {α : Type}

def ofExcept (result : Except TableError α) : FileM α := ExceptT.mk (pure result)

/-- A check, of which the access takes over the rejection. -/
def check (result : Except Rejection α) : FileM α := ofExcept (result.mapError .rejected)

/-- An access to the log, whose errors become errors of the table. -/
def ofLog (script : Log.LogScript α) : FileM α := script.adapt .log

/-- The content of a metadata file, decoded, with its length. -/
def readJson (decode : Decoder α) (path : String) : FileM (α × UInt64) := do
  match ← ExceptT.lift (Script.request (.readBytes path)) with
  | .error e => throw (.storage e)
  | .ok bytes =>
    match decode.run (symbolsOfBytes bytes) with
    | .ok a => return (a, UInt64.ofNat bytes.size)
    | .error e => throw (.corruptMetadata path e)

/-- Writes a metadata file unless it is there, and gives its path and length. -/
def writeOnce (content : ByteArray) (path : String) : FileM (String × UInt64) := do
  match ← ExceptT.lift (Script.request (.create path content)) with
  | .ok () => return (path, UInt64.ofNat content.size)
  | .error (.alreadyExists _) => return (path, UInt64.ofNat content.size)
  | .error e => throw (.storage e)

def loadManifestList (path : String) : FileM ManifestList :=
  Prod.fst <$> readJson Form.readManifestList path

/-- A manifest with its record, every entry with a snapshot id. -/
def loadManifest (r : ManifestRecord) : FileM (ManifestRecord × Manifest) := do
  let (m, _) ← readJson Form.readManifest r.path
  return (r, m.inherit r.addedSnapshotId)

/-- The manifests of a snapshot in the order of its list. -/
def loadManifests (s : Snapshot) : FileM (List (ManifestRecord × Manifest)) := do
  let list ← loadManifestList s.manifestList
  list.manifests.mapM loadManifest

def manifestContent (m : Manifest) : ByteArray := (Form.manifest m).render.toUTF8

def manifestListContent (l : ManifestList) : ByteArray := (Form.manifestList l).render.toUTF8

/-- Writes a manifest and gives its record. -/
def writeManifest (m : Manifest) (spec : PartitionSpec) (id : SnapshotId) :
    FileM ManifestRecord := do
  let content := manifestContent m
  let (path, length) ← writeOnce content (Layout.manifestPath content)
  return .summarize path length m spec id

def writeManifestList (l : ManifestList) : FileM String := do
  let content := manifestListContent l
  Prod.fst <$> writeOnce content (Layout.manifestListPath l.snapshotId content)

end FileM

namespace Table

/-- The table as the log has it now. -/
def loadLatest : FileM Table := .ofLog Log.rebuild

/-- Makes a new table; there may be none yet. -/
def create (metadata : Metadata) (now : Calendar.Instant) : FileM Table := do
  let current ← FileM.ofLog Log.currentVersion
  if current ≠ 0 then
    throw (.alreadyExists current)
  else
    let version ← FileM.ofLog (Log.append 0 [.create metadata] now)
    return .new version metadata

/-- Reads a table that is there. -/
def openLatest : FileM Table := do
  let current ← FileM.ofLog Log.currentVersion
  if current = 0 then throw .emptyTable else loadLatest

/-- Reads the table again; the copy stays as it is if that fails. -/
def refresh : TableM Unit := do
  set (← TableM.ofFiles loadLatest)

/-- The current snapshot of the log, if it can be read. -/
def latestCurrentId : Script (Option SnapshotId) := do
  match ← loadLatest.run with
  | .ok t => return t.currentId
  | .error _ => return none

/-- Adds a commit after the version of the kept copy, and applies its actions to the
copy. The commit was meant for a table whose current snapshot is `expected`. -/
def commitActions (expected : Option SnapshotId) (actions : List Log.Action)
    (now : Calendar.Instant) : TableM Unit := do
  let t ← get
  match ← TableM.ofScript (Log.append t.version actions now).run with
  | .ok version =>
    match t.applyAll actions with
    | .ok t => set { t with version := version }
    | .error e => throw (.log (.corrupt e))
  | .error e =>
    if e.isConflict then
      throw (.commitConflict expected (← TableM.ofScript latestCurrentId))
    else
      throw (.log e)

end Table

end Lakehouse
