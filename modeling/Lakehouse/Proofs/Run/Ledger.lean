import Lakehouse.Proofs.Run.Commits
import Lakehouse.Proofs.Table.Catalog
import Lakehouse.Proofs.Table.Removal

/- The ledger of a table.

   A ledger knows of a table what its callers can know: the live files of each snapshot, by
   their paths, which snapshot is current, and what was staged. It goes on with every event
   that succeeds (`Ledger.after?`): a change of files adds a snapshot whose live files are
   those of its base, without those that the change removes, and with those it brings. It
   knows nothing of manifests or of the log. A history that no table can have gives no
   ledger (`ofHistory?`). -/
namespace Lakehouse

/-- A table as its callers know it. -/
structure Ledger where
  metadata : Option Metadata
  live : SortedMap SnapshotId LiveFiles
  currentId : Option SnapshotId
  staged : SortedMap String (List DataFile)

namespace Ledger

/-- No table was made. -/
def empty : Ledger := ⟨none, .empty, none, .empty⟩

/-- The live files of a snapshot that a change may be based on; there are none without one. -/
def liveAt (l : Ledger) (base : Option SnapshotId) : LiveFiles :=
  (base.bind l.live.find?).getD .empty

/-- The files that a change brings, directly or in staged manifests. -/
def brought (l : Ledger) (c : FileChanges) : List DataFile :=
  c.added ++ c.stagedPaths.flatMap fun path => (l.staged.find? path).getD []

/-- The live files after a change. -/
def liveAfter (l : Ledger) (m : Metadata) (c : Change) : LiveFiles :=
  ((l.liveAt c.base).filter fun path f => !c.changes.removes m.schema m.spec path f).insertAll
    ((l.brought c.changes).map fun f => (f.path, f))

/-- The ledger after a change made the snapshot `s`. This has to be a new one, made of the
current snapshot, which the change was meant for. -/
def change? (l : Ledger) (c : Change) (s : Snapshot) : Option Ledger :=
  match l.metadata with
  | some m =>
    if l.currentId = c.base ∧ s.parentId = c.base ∧ l.live.contains s.id = false then
      some { l with live := l.live.insert s.id (l.liveAfter m c), currentId := some s.id }
    else none
  | none => none

/-- The ledger after a registered snapshot was made current. -/
def move? (l : Ledger) (target : SnapshotId) : Option Ledger :=
  if l.live.contains target then some { l with currentId := some target } else none

/-- The ledger after a call through a handle with the copy `t`. -/
def call? (l : Ledger) (t : Table) : Call → Answer → Option Ledger
  | .refresh, _ => some l
  | .updateProperties _ _, _ => some l
  | .stage files, .path path => some { l with staged := l.staged.insert path files }
  | .rollback target, _ => l.move? target
  | .setCurrent target, _ => l.move? target
  | call, .snapshot s => (call.change? t).bind fun c => l.change? c s
  | _, _ => none

/-- The ledger after an event. -/
def after? (l : Ledger) (r : Record) : Option Ledger :=
  match r.event, r.result, r.before with
  | .create _ metadata, .ok _, _ =>
    if l.metadata.isNone then some { l with metadata := some metadata } else none
  | .call _ call, .ok answer, some t => l.call? t call answer
  | _, _, _ => some l

/-- The ledger after all that happened, the last first. -/
def ofHistory? : List Record → Option Ledger
  | [] => some empty
  | r :: before => (ofHistory? before).bind fun l => l.after? r

theorem change?_eq {l : Ledger} {m : Metadata} {c : Change} {s : Snapshot}
    (hmade : l.metadata = some m)
    (hbase : l.currentId = c.base ∧ s.parentId = c.base ∧ l.live.contains s.id = false) :
    l.change? c s =
      some { l with live := l.live.insert s.id (l.liveAfter m c), currentId := some s.id } := by
  rw [change?, hmade]
  exact if_pos hbase

/-! ### What a ledger tells about a table -/

/-- For each snapshot of the table, its files are the entries of the ledger's map, none
missing and none twice. -/
def Lists (l : Ledger) (root : Location) (files : Tree) (t : Table) : Prop :=
  ∀ id, t.snapshots.contains id = true → ∃ live listed, l.live.find? id = some live ∧
    Script.perform root (t.files (some id)) files = (.ok listed, files) ∧
    (listed.map fun f => (f.path, f)).Perm live.toList

/-- The table has the snapshots of the ledger, with the same files and the same one current. -/
structure Matches (l : Ledger) (root : Location) (files : Tree) (t : Table) : Prop where
  current : t.currentId = l.currentId
  registered : ∀ id, t.snapshots.contains id = l.live.contains id
  lists : l.Lists root files t

end Ledger

/-- The paths that calls gave for what they staged. -/
def stagedPaths (history : List Record) : List String :=
  history.filterMap fun r =>
    match r.event, r.result with
    | .call _ (.stage _), .ok (.path path) => some path
    | _, _ => none

/-- The files that an event brought are known: they were given with it, or they were staged
by calls before. -/
def Record.BringsKnown (r : Record) (before : List Record) : Prop :=
  ∀ handle call t s, r.event = .call handle call → r.before = some t → r.result = .ok (.snapshot s) →
    ∃ c, call.change? t = some c ∧ ∀ path ∈ c.changes.stagedPaths, path ∈ stagedPaths before

/-- No event took files from elsewhere than from its caller. -/
def BringKnown : List Record → Prop
  | [] => True
  | r :: before => r.BringsKnown before ∧ BringKnown before

theorem BringKnown.of_suffix {before history : List Record} (h : BringKnown history)
    (hsuffix : before <:+ history) : BringKnown before := by
  obtain ⟨later, rfl⟩ := hsuffix
  induction later with
  | nil => exact h
  | cons r later ih => exact ih h.2

end Lakehouse
