import Lakehouse.Log.Journal
import Lakehouse.Proofs.Form.Files

/- Commits through their forms and back.

   A commit is read from its file as it was written, with every action of it, and the
   file for the current version names the version that was written to it. So all that a
   table stores goes through text and back (`Form.stored_values_round_trip`). -/
namespace Lakehouse

namespace Carries

open RecordOf (Holds)

theorem operation (o : Operation) : Carries Form.readOperation (Form.operation o) o := by
  apply named
  cases o <;> rfl

/-- A snapshot without a parent is written without the field. -/
theorem snapshot (s : Snapshot) : Carries Form.readSnapshot (Form.snapshot s) s := by
  obtain ⟨id, parentId, timestamp, path, operation, summary⟩ := s
  cases parentId with
  | none =>
    refine RecordOf.carries ?_ (by decide) (.cons_cons _ (.cons _ (.refl _)))
    refine Holds.seq (Holds.seq (Holds.seq (Holds.seq (Holds.seq
      (Holds.map ?_ Snapshot.mk) ?_) ?_) ?_) ?_) ?_
    · exact Holds.present rfl (int64 id)
    · exact Holds.absent rfl
    · exact Holds.present rfl (instant timestamp)
    · exact Holds.present rfl (text path)
    · exact Holds.present rfl (Carries.operation operation)
    · exact Holds.present rfl (textMap summary)
  | some parent =>
    refine RecordOf.carries_all ?_ (by decide) rfl
    refine Holds.seq (Holds.seq (Holds.seq (Holds.seq (Holds.seq
      (Holds.map ?_ Snapshot.mk) ?_) ?_) ?_) ?_) ?_
    · exact Holds.present rfl (int64 id)
    · exact Holds.present rfl (optionalId (some parent))
    · exact Holds.present rfl (instant timestamp)
    · exact Holds.present rfl (text path)
    · exact Holds.present rfl (Carries.operation operation)
    · exact Holds.present rfl (textMap summary)

theorem action (a : Log.Action) : Carries Form.readAction (Form.action a) a := by
  cases a with
  | create m => exact tagged rfl ((metadata m).map Log.Action.create)
  | updateProperties set remove =>
    refine tagged rfl (RecordOf.carries_all ?_ (by decide) rfl)
    refine Holds.seq (Holds.map ?_ Log.Action.updateProperties) ?_
    · exact Holds.present rfl (textMap set)
    · exact Holds.present rfl (list fun name _ => text name)
  | addSnapshot s => exact tagged rfl ((snapshot s).map Log.Action.addSnapshot)
  | moveCurrent target parentId madeCurrentAt =>
    refine tagged rfl (RecordOf.carries_all ?_ (by decide) rfl)
    refine Holds.seq (Holds.seq (Holds.map ?_ Log.Action.moveCurrent) ?_) ?_
    · exact Holds.present rfl (int64 target)
    · exact Holds.present rfl (optionalId parentId)
    · exact Holds.present rfl (instant madeCurrentAt)

theorem commit (c : Log.Commit) : Carries Form.readCommit (Form.commit c) c := by
  refine RecordOf.carries_all ?_ (by decide) rfl
  refine Holds.seq (Holds.seq (Holds.seq (Holds.map ?_ Log.Commit.mk) ?_) ?_) ?_
  · exact Holds.present rfl (uint64 c.version)
  · exact Holds.present rfl (uint64 c.base)
  · exact Holds.present rfl (instant c.timestamp)
  · exact Holds.present rfl (list fun a _ => action a)

end Carries

namespace Log

/-- A commit is read from the text that was written for it, whatever version the
text is looked for. -/
theorem parseCommit_render (version : Version) (c : Commit) :
    parseCommit version (Form.commit c).render = .ok c := by
  rw [parseCommit, (Carries.commit c).run_text]
  rfl

theorem commitContent_injective {c d : Commit} (h : commitContent c = commitContent d) : c = d :=
  (RoundTrips.of_carries Carries.commit).injective h

theorem commitContent_not_manifest (c : Commit) (m : Manifest) :
    Form.readManifest.run (symbolsOfBytes (commitContent c)) ≠ .ok m :=
  Form.not_manifest (Carries.commit c).regular rfl m

theorem parseCurrent_line (v : Version) : parseCurrent (versionText v ++ "\n") = .ok v := by
  have hblank : ∀ c ∈ Text.decimal v.toNat, Text.isBlank c = false := fun c hc =>
    Text.isBlank_of_isDigit (Text.isDigit_of_mem_decimal hc)
  have htrim : Text.trim (versionText v ++ "\n").toList = Text.decimal v.toNat := by
    rw [String.toList_append, versionText, String.toList_ofList]
    exact Text.trim_line hblank
  rw [parseCurrent, htrim]
  simp only [if_neg (Text.decimal_ne_nil v.toNat), Text.readUInt64_decimal]
  rfl

end Log

/-- All that a table stores goes through text and back: every commit with whatever actions, every
manifest, and every list of manifests. -/
theorem Form.stored_values_round_trip :
    RoundTrips Form.readCommit Form.commit ∧ RoundTrips Form.readManifest Form.manifest ∧
      RoundTrips Form.readManifestList Form.manifestList :=
  ⟨.of_carries Carries.commit, .of_carries Carries.manifest, .of_carries Carries.manifestList⟩

end Lakehouse
