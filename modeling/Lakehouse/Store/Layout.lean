import Lakehouse.Datum
import Lakehouse.Hash.Blake3
import Lakehouse.Snapshot

/- Where a table keeps its files.

   The log has a directory with one file for each version and a file that names the
   current version. Manifests and manifest lists are named by their content: the
   name holds a hash of what kind of object it is and of its bytes. All paths are
   relative to the table's root. -/
namespace Lakehouse.Layout

def dataDirectory : String := "data"

def logDirectory : String := "_snapshot_log"

/-- The file that names the current version. -/
def currentPath : String := logDirectory ++ "/CURRENT"

/-- Version numbers are filled up to this many digits. -/
def versionDigits : Nat := 10

def commitPath (version : UInt64) : String :=
  logDirectory ++ "/" ++ String.ofList (Text.paddedDecimal versionDigits version.toNat) ++ ".json"

def metadataDirectory : String := "metadata"

/-- The two lower-case hexadecimal digits of a byte. -/
def hexByte (b : UInt8) : List Char :=
  [Nat.digitChar (b.toNat / 16), Nat.digitChar (b.toNat % 16)]

/-- The bytes of a hash that make an object's name. -/
def contentIdBytes : Nat := 16

/-- What is hashed for an object: a zero byte separates its kind from its bytes. -/
def hashInput (kind : String) (content : ByteArray) : List UInt8 :=
  kind.toUTF8.toList ++ 0 :: content.toList

/-- Names an object by its kind and its bytes. -/
def contentId (kind : String) (content : ByteArray) : String :=
  String.ofList
    (((Hash.Blake3.hash (hashInput kind content)).take contentIdBytes).flatMap hexByte)

def manifestKind : String := "manifest-v1"

def manifestListKind : String := "manifest-list-v1"

def manifestPath (content : ByteArray) : String :=
  metadataDirectory ++ "/manifests/m-" ++ contentId manifestKind content ++ ".json"

/-- Manifests that wait to be taken into the table are kept apart. -/
def stagedPath (content : ByteArray) : String :=
  metadataDirectory ++ "/staging/m-" ++ contentId manifestKind content ++ ".json"

def manifestListPath (id : SnapshotId) (content : ByteArray) : String :=
  metadataDirectory ++ "/snap-" ++ id.display ++ "-" ++ contentId manifestListKind content ++
    ".json"

end Lakehouse.Layout
