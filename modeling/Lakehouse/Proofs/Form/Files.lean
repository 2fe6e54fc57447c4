import Lakehouse.Form.Files
import Lakehouse.Proofs.Form.Table

/- Manifests and manifest lists through their forms and back.

   What is written for a data file, a manifest or a list is read as the same value
   (`Carries.dataFile`, `Carries.manifest`, `Carries.manifestList`). No list is read as a
   manifest (`Form.manifestList_not_manifest`). -/
namespace Lakehouse

namespace Carries

open RecordOf (Holds)

theorem int64_ne_null (i : Int64) : Form.int64 i ≠ .null := Json.noConfusion

theorem optionalId (id : Option SnapshotId) :
    Carries (Decoder.option .int64) (Form.option Form.int64 id) id :=
  option int64 int64_ne_null

theorem dataFile (f : DataFile) : Carries Form.readDataFile (Form.dataFile f) f := by
  refine RecordOf.carries_all ?_ (by decide) rfl
  refine Holds.seq (Holds.seq (Holds.seq (Holds.seq (Holds.seq (Holds.seq (Holds.seq
    (Holds.seq (Holds.seq (f := fun _ => DataFile.mk f.path) (a := ())
      (Holds.map ?_ _) ?_) ?_) ?_) ?_) ?_) ?_) ?_) ?_) ?_
  · exact Holds.present rfl (text f.path)
  · exact Holds.present rfl (named rfl)
  · exact Holds.present rfl (partitionTuple f.partition)
  · exact Holds.present rfl (uint64 f.recordCount)
  · exact Holds.present rfl (uint64 f.sizeInBytes)
  · exact Holds.present rfl (columnMap uint64)
  · exact Holds.present rfl (columnMap uint64)
  · exact Holds.present rfl (columnMap uint64)
  · exact Holds.present rfl (columnMap datum)
  · exact Holds.present rfl (columnMap datum)

theorem entryStatus (s : EntryStatus) : Carries Form.readEntryStatus (Form.entryStatus s) s := by
  apply named
  cases s <;> rfl

/-- An entry without a snapshot id is written without the field. -/
theorem manifestEntry (e : ManifestEntry) :
    Carries Form.readManifestEntry (Form.manifestEntry e) e := by
  obtain ⟨status, id, file⟩ := e
  cases id with
  | none =>
    refine RecordOf.carries ?_ (by decide) (.cons_cons _ (.cons _ (.refl _)))
    refine Holds.seq (Holds.seq (Holds.map ?_ ManifestEntry.mk) ?_) ?_
    · exact Holds.present rfl (entryStatus status)
    · exact Holds.absent rfl
    · exact Holds.present rfl (dataFile file)
  | some id =>
    refine RecordOf.carries_all ?_ (by decide) rfl
    refine Holds.seq (Holds.seq (Holds.map ?_ ManifestEntry.mk) ?_) ?_
    · exact Holds.present rfl (entryStatus status)
    · exact Holds.present rfl (optionalId (some id))
    · exact Holds.present rfl (dataFile file)

theorem manifest (m : Manifest) : Carries Form.readManifest (Form.manifest m) m := by
  refine RecordOf.carries_all ?_ (by decide) rfl
  refine Holds.seq (Holds.map ?_ Manifest.mk) ?_
  · exact Holds.present rfl (int32 m.specId)
  · exact Holds.present rfl (list fun e _ => manifestEntry e)

theorem slotSummary (s : SlotSummary) : Carries Form.readSlotSummary (Form.slotSummary s) s := by
  refine RecordOf.carries_all ?_ (by decide) rfl
  refine Holds.seq (Holds.seq (Holds.map ?_ SlotSummary.mk) ?_) ?_
  · exact Holds.present rfl (bool s.containsNull)
  · exact Holds.present rfl (slot s.lower)
  · exact Holds.present rfl (slot s.upper)

theorem manifestRecord (r : ManifestRecord) :
    Carries Form.readManifestRecord (Form.manifestRecord r) r := by
  refine RecordOf.carries_all ?_ (by decide) rfl
  refine Holds.seq (Holds.seq (Holds.seq (Holds.seq (Holds.seq (Holds.seq (Holds.seq (Holds.seq
    (Holds.seq (Holds.seq (Holds.map ?_ Form.manifestRecordOf) ?_) ?_) ?_) ?_) ?_) ?_) ?_) ?_) ?_) ?_
  · exact Holds.present rfl (text r.path)
  · exact Holds.present rfl (uint64 r.length)
  · exact Holds.present rfl (int32 r.specId)
  · exact Holds.present rfl (int64 r.addedSnapshotId)
  · exact Holds.present rfl (uint32 r.added.files)
  · exact Holds.present rfl (uint32 r.existing.files)
  · exact Holds.present rfl (uint32 r.deleted.files)
  · exact Holds.present rfl (uint64 r.added.rows)
  · exact Holds.present rfl (uint64 r.existing.rows)
  · exact Holds.present rfl (uint64 r.deleted.rows)
  · exact Holds.present rfl (list fun s _ => slotSummary s)

theorem manifestList (l : ManifestList) :
    Carries Form.readManifestList (Form.manifestList l) l := by
  refine RecordOf.carries_all ?_ (by decide) rfl
  refine Holds.seq (Holds.map ?_ ManifestList.mk) ?_
  · exact Holds.present rfl (int64 l.snapshotId)
  · exact Holds.present rfl (list fun r _ => manifestRecord r)

end Carries

namespace Form

/-- What is written without the id of a spec is read as no manifest. -/
theorem not_manifest {fields : List (String × Json)} (hregular : (object fields).Regular)
    (hlacks : fields.lookup "spec_id" = none) (m : Manifest) :
    readManifest.run (symbolsOfBytes (object fields).render.toUTF8) ≠ .ok m :=
  (((RecordOf.needs_field "spec_id" .int32).map Manifest.mk).seq _).run_bytes hregular hlacks m

theorem manifestList_not_manifest (l : ManifestList) (m : Manifest) :
    readManifest.run (symbolsOfBytes (manifestList l).render.toUTF8) ≠ .ok m :=
  not_manifest (Carries.manifestList l).regular rfl m

end Form

end Lakehouse
