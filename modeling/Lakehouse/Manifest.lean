import Lakehouse.DataFile

/- Manifests.

   A manifest lists data files with the part each played in a change of the table:
   the file was there before, came with the change, or went with it. An entry
   names the snapshot that brought its file in or took it out; an entry without
   one inherits the id from the record that lists its manifest. -/
namespace Lakehouse

abbrev SnapshotId := Int64

/-- The part of a file in the change that its manifest describes. -/
inductive EntryStatus where
  | existing
  | added
  | deleted
  deriving DecidableEq, Repr, Inhabited

namespace EntryStatus

def name : EntryStatus → String
  | .existing => "EXISTING"
  | .added => "ADDED"
  | .deleted => "DELETED"

def code : EntryStatus → Nat
  | .existing => 0
  | .added => 1
  | .deleted => 2

/-- A deleted entry is only a note; the others stand for rows of the table. -/
def isLive : EntryStatus → Bool
  | .deleted => false
  | _ => true

end EntryStatus

/-- One line of a manifest. -/
structure ManifestEntry where
  status : EntryStatus
  snapshotId : Option SnapshotId
  file : DataFile
  deriving DecidableEq, Inhabited

namespace ManifestEntry

def isLive (e : ManifestEntry) : Bool := e.status.isLive

/-- Gives the entry a snapshot id if it has none. -/
def inherit (id : SnapshotId) (e : ManifestEntry) : ManifestEntry :=
  { e with snapshotId := some (e.snapshotId.getD id) }

end ManifestEntry

/-- The files of one change, all of one partition spec. -/
structure Manifest where
  specId : Int32
  entries : List ManifestEntry
  deriving DecidableEq, Inhabited

namespace Manifest

def liveEntries (m : Manifest) : List ManifestEntry := m.entries.filter (·.isLive)

def hasNoLiveEntries (m : Manifest) : Bool := m.liveEntries.isEmpty

/-- Gives every entry without a snapshot id the given one. -/
def inherit (id : SnapshotId) (m : Manifest) : Manifest :=
  { m with entries := m.entries.map (·.inherit id) }

end Manifest

/-! ### Records of manifests -/

/-- The values of one partition slot over the entries of a manifest. -/
structure SlotSummary where
  containsNull : Bool
  lower : Option Datum
  upper : Option Datum
  deriving DecidableEq, Repr, Inhabited

namespace SlotSummary

def empty : SlotSummary := ⟨false, none, none⟩

/-- The lesser of a value and an earlier bound. -/
def lesser (bound : Option Datum) (v : Datum) : Datum :=
  match bound with
  | some b => if v < b then v else b
  | none => v

/-- The greater of a value and an earlier bound. -/
def greater (bound : Option Datum) (v : Datum) : Datum :=
  match bound with
  | some b => if b < v then v else b
  | none => v

/-- Takes one more slot into account. -/
def cover (s : SlotSummary) : Option Datum → SlotSummary
  | none => { s with containsNull := true }
  | some v => { s with lower := some (lesser s.lower v), upper := some (greater s.upper v) }

/-- The summary of one slot over all entries. -/
def ofEntries (entries : List ManifestEntry) (slot : Nat) : SlotSummary :=
  entries.foldl (fun s e => s.cover (e.file.partition.value? slot)) empty

end SlotSummary

/-- Number of files and of rows. -/
structure Tally where
  files : UInt32
  rows : UInt64
  deriving DecidableEq, Repr, Inhabited

/-- The entries of one status, counted. -/
def Tally.ofEntries (status : EntryStatus) (entries : List ManifestEntry) : Tally :=
  let counted := entries.filter (·.status = status)
  ⟨UInt32.ofNat counted.length, DataFile.totalRecords (counted.map (·.file))⟩

/-- What a manifest list says about one of its manifests. -/
structure ManifestRecord where
  path : String
  length : UInt64
  specId : Int32
  addedSnapshotId : SnapshotId
  added : Tally
  existing : Tally
  deleted : Tally
  slots : List SlotSummary
  deriving DecidableEq, Inhabited

/-- The record of a manifest that is stored at `path` with `length` bytes. -/
def ManifestRecord.summarize (path : String) (length : UInt64) (m : Manifest)
    (spec : PartitionSpec) (addedSnapshotId : SnapshotId) : ManifestRecord where
  path := path
  length := length
  specId := m.specId
  addedSnapshotId := addedSnapshotId
  added := .ofEntries .added m.entries
  existing := .ofEntries .existing m.entries
  deleted := .ofEntries .deleted m.entries
  slots := (List.range spec.fields.length).map (SlotSummary.ofEntries m.entries)

/-- The manifests of one snapshot. -/
structure ManifestList where
  snapshotId : SnapshotId
  manifests : List ManifestRecord
  deriving DecidableEq, Inhabited

end Lakehouse
