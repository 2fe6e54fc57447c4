import Lakehouse.Form.Files
import Lakehouse.Log.Action

/- The JSON forms of snapshots, log actions and commits. -/
namespace Lakehouse.Form

def operation (o : Operation) : Json := .ofText o.name

def readOperation : Decoder Operation :=
  .named ([.append, .delete, .overwrite, .replace].map fun o : Operation => (o.name, o))

def snapshot (s : Snapshot) : Json :=
  presentFields
    [("snapshot_id", some (int64 s.id)), ("parent_snapshot_id", s.parentId.map int64),
      ("timestamp", some (instant s.timestamp)), ("manifest_list", some (.ofText s.manifestList)),
      ("operation", some (operation s.operation)), ("summary", some (textMap s.summary))]

def readSnapshot : Decoder Snapshot :=
  RecordOf.decode <|
    Snapshot.mk <$> .field "snapshot_id" .int64 <*>
      .fieldOr "parent_snapshot_id" (some none) (.option .int64) <*>
      .field "timestamp" .instant <*> .field "manifest_list" .text <*>
      .field "operation" readOperation <*> .fieldOr "summary" (some .empty) readTextMap

def action : Log.Action → Json
  | .create m => object [("CreateTable", metadata m)]
  | .updateProperties set remove =>
    object [("UpdateProperties", object [("set", textMap set), ("remove", list .ofText remove)])]
  | .addSnapshot s => object [("AddSnapshot", snapshot s)]
  | .moveCurrent target parentId madeCurrentAt =>
    object
      [("SetCurrentSnapshot", object
        [("snapshot_id", int64 target), ("parent_id", option int64 parentId),
          ("made_current_at", instant madeCurrentAt)])]

def readAction : Decoder Log.Action :=
  .tagged
    [("CreateTable", fun j => (readMetadata j).map .create),
      ("UpdateProperties",
        RecordOf.decode <|
          Log.Action.updateProperties <$> .fieldOr "set" (some .empty) readTextMap <*>
            .fieldOr "remove" (some []) (.list .text)),
      ("AddSnapshot", fun j => (readSnapshot j).map .addSnapshot),
      ("SetCurrentSnapshot",
        RecordOf.decode <|
          Log.Action.moveCurrent <$> .field "snapshot_id" .int64 <*>
            .fieldOr "parent_id" (some none) (.option .int64) <*>
            .field "made_current_at" .instant)]

def commit (c : Log.Commit) : Json :=
  object
    [("version", uint64 c.version), ("base_version", uint64 c.base),
      ("timestamp", instant c.timestamp), ("actions", list action c.actions)]

def readCommit : Decoder Log.Commit :=
  RecordOf.decode <|
    Log.Commit.mk <$> .field "version" .uint64 <*> .field "base_version" .uint64 <*>
      .field "timestamp" .instant <*> .field "actions" (.list readAction)

end Lakehouse.Form
