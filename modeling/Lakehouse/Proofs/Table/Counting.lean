import Lakehouse.Proofs.Counting
import Lakehouse.Proofs.Table.Makings
import Lakehouse.Proofs.Table.Removal

/- What a change counts.

   The summary of a change is made of three lists: the files that arrive, those that leave,
   which are gathered from the manifests of the base, and the live files, which are taken from
   a map by their paths. If no path is live twice in the base, these are the files beyond
   those of the base, the files of the base beyond those in the end (`beyond`), and the files
   in the end, in some order (`Planned.counts`). What an operation may not do shows in them
   (`Planned.abides`). -/
namespace Lakehouse

open Script

open scoped List

namespace DataFile

/-- The files at whose paths there is none of the others. -/
def beyond (files others : List DataFile) : List DataFile :=
  files.filter fun f => !(others.map path).contains f.path

theorem beyond_perm {files files' others others' : List DataFile} (hfiles : files.Perm files')
    (hothers : others.Perm others') : (beyond files others).Perm (beyond files' others') := by
  have hsame : ∀ path, (others.map DataFile.path).contains path =
      (others'.map DataFile.path).contains path := by
    intro path
    rw [Bool.eq_iff_iff, List.contains_iff_mem, List.contains_iff_mem]
    exact (hothers.map _).mem_iff
  simp only [beyond, hsame]
  exact hfiles.filter _

end DataFile

open DataFile

namespace Table

variable {root : Location} {files : Tree} {u : Table} {operation : Operation}
  {changes : FileChanges} {p : Plan}

/-- The live files that a plan builds on. -/
def Plan.base (p : Plan) : List DataFile := liveFiles (p.manifests.map Prod.snd)

theorem Plan.leaving_eq (p : Plan) :
    p.leaving = p.base.filter fun f => p.removed.contains f.path := by
  rw [leaving, base, liveFiles, List.flatMap_map, List.filter_flatMap]
  refine List.flatMap_congr fun b _ => ?_
  rw [Manifest.filesAt, Manifest.liveFiles, List.filter_map]
  rfl

/-- The files that stay are those of the base that are not removed. -/
theorem Plan.perm_values_without (hbase : OncePerPath p.base) :
    (p.live.without p.removed).values.Perm
      (p.base.filter fun f => !p.removed.contains f.path) := by
  have hnodup : ((p.base.map fun f => (f.path, f)).map Prod.fst).Nodup := by
    rw [List.map_map]
    exact hbase
  have hperm := SortedMap.perm_toList_ofList hnodup
  rw [Plan.base, ← LiveFiles.ofManifests_eq] at hperm
  have hkept := ((hperm.filter fun e => !p.removed.contains e.1).map Prod.snd).symm
  refine hkept.trans (List.Perm.of_eq ?_)
  rw [List.filter_map, List.map_map]
  exact List.map_id' _

/-- The rows that a plan removes, counted path by path. -/
theorem Plan.recordsAt_removed (hbase : OncePerPath p.base) :
    p.live.recordsAt p.removed.keys = totalRecords p.leaving := by
  have hmem : ∀ path f, p.live.find? path = some f ↔ f ∈ p.base ∧ f.path = path := by
    intro path f
    exact LiveFiles.find?_ofManifests hbase
  have hkeys : (p.removed.keys.filterMap p.live.find?).Nodup := by
    refine List.Nodup.filterMap (fun path path' f hf hf' => ?_) p.removed.nodup_keys
    exact ((hmem path f).1 hf).2.symm.trans ((hmem path' f).1 hf').2
  have hperm : (p.removed.keys.filterMap p.live.find?).Perm p.leaving := by
    rw [Plan.leaving_eq]
    refine (List.perm_ext_iff_of_nodup hkeys (hbase.of_map.filter _)).2 fun f => ?_
    rw [List.mem_filterMap, List.mem_filter]
    constructor
    · rintro ⟨path, hpath, hf⟩
      obtain ⟨hin, rfl⟩ := (hmem path f).1 hf
      exact ⟨hin, SortedMap.mem_keys.1 hpath⟩
    · rintro ⟨hin, hremoved⟩
      exact ⟨f.path, SortedMap.mem_keys.2 hremoved, (hmem _ f).2 ⟨hin, rfl⟩⟩
  apply UInt64.toNat_inj.1
  rw [LiveFiles.recordsAt, toNat_totalRecords, toNat_totalRecords, rows_perm hperm]

/-- No arriving file is at a path of the base. -/
theorem Planned.fresh (h : Planned root files u operation changes p) {f : DataFile}
    (hf : f ∈ p.arriving) : f.path ∉ p.base.map DataFile.path := by
  intro hin
  obtain ⟨g, hg, hsame⟩ := List.mem_map.1 hin
  have hlive := LiveFiles.contains_ofManifests.2 ⟨g, hg, hsame⟩
  rw [← Plan.live, ((checkAdded_eq_ok.1 h.distinct).1 f hf).2.1] at hlive
  exact absurd hlive (by simp)

/-- The live files in the end, in whatever manifests. -/
def Plan.finish (p : Plan) (spec : PartitionSpec) (inherits : Bool) : List DataFile :=
  liveFiles ((p.manifestsAfter spec inherits).map Prod.snd)

/-- What arrives is live in the end and was not before. -/
theorem Planned.perm_arriving (h : Planned root files u operation changes p) (inherits : Bool) :
    p.arriving.Perm (beyond (p.finish u.spec inherits) p.base) := by
  refine List.Perm.trans (List.Perm.of_eq ?_)
    (beyond_perm (h.liveFiles_after inherits) (.refl p.base)).symm
  have hnew : beyond p.arriving p.base = p.arriving :=
    List.filter_eq_self.2 fun f hf => by simpa using h.fresh hf
  have hold : beyond (p.base.filter fun f => !p.removed.contains f.path) p.base = [] := by
    rw [beyond, List.filter_eq_nil_iff]
    intro f hf
    simpa using ⟨f, List.mem_of_mem_filter hf, rfl⟩
  calc p.arriving
      = beyond p.arriving p.base ++
          beyond (p.base.filter fun f => !p.removed.contains f.path) p.base := by
        rw [hnew, hold, List.append_nil]
    _ = beyond (p.arriving ++ p.base.filter fun f => !p.removed.contains f.path) p.base :=
        (List.filter_append _ _).symm

/-- What leaves was live before and is not in the end. -/
theorem Planned.perm_leaving (h : Planned root files u operation changes p) (inherits : Bool) :
    p.leaving.Perm (beyond p.base (p.finish u.spec inherits)) := by
  refine List.Perm.trans (List.Perm.of_eq ?_)
    (beyond_perm (.refl p.base) (h.liveFiles_after inherits)).symm
  rw [Plan.leaving_eq, beyond]
  refine List.filter_congr fun f hf => ?_
  rw [Bool.eq_iff_iff, Bool.not_eq_true', ← Bool.not_eq_true, List.contains_iff_mem, List.map_append,
    List.mem_append]
  constructor
  · rintro hremoved (harriving | hkept)
    · obtain ⟨g, hg, hsame⟩ := List.mem_map.1 harriving
      exact h.fresh hg (hsame ▸ List.mem_map.2 ⟨f, hf, rfl⟩)
    · obtain ⟨g, hg, hsame⟩ := List.mem_map.1 hkept
      have hstays := (List.mem_filter.1 hg).2
      rw [hsame, hremoved] at hstays
      exact absurd hstays (by simp)
  · intro hgone
    by_contra hstays
    exact hgone (.inr (List.mem_map.2 ⟨f, List.mem_filter.2 ⟨hf, by simpa using hstays⟩, rfl⟩))

/-- The summary of a change counts the files in the end, those that are new, and those that
are not there any more. -/
theorem Planned.counts (h : Planned root files u operation changes p)
    (hbase : OncePerPath p.base) (inherits : Bool) (current : Option SnapshotId) (list : String)
    (now : Calendar.Instant) :
    (p.snapshot current operation list now).summary.Counts
      (beyond (p.finish u.spec inherits) p.base) (beyond p.base (p.finish u.spec inherits))
      (p.finish u.spec inherits) := by
  refine (Summary.ofChange_counts _ _ _).perm (h.perm_arriving inherits) (h.perm_leaving inherits) ?_
  calc (p.live.without p.removed).values ++ p.arriving
      ~ (p.base.filter fun f => !p.removed.contains f.path) ++ p.arriving :=
        (Plan.perm_values_without hbase).append_right _
    _ ~ p.arriving ++ p.base.filter fun f => !p.removed.contains f.path := List.perm_append_comm
    _ ~ p.finish u.spec inherits := (h.liveFiles_after inherits).symm

/-- The files in the end and those that are gone are the files before and those that are new. -/
theorem Planned.balance (h : Planned root files u operation changes p) (inherits : Bool) :
    p.finish u.spec inherits ++ beyond p.base (p.finish u.spec inherits) ~
      p.base ++ beyond (p.finish u.spec inherits) p.base := by
  have hparts := List.filter_append_perm (fun f => p.removed.contains f.path) p.base
  rw [← Plan.leaving_eq] at hparts
  calc p.finish u.spec inherits ++ beyond p.base (p.finish u.spec inherits)
      ~ (p.arriving ++ p.base.filter fun f => !p.removed.contains f.path) ++ p.leaving :=
        (h.liveFiles_after inherits).append (h.perm_leaving inherits).symm
    _ ~ p.leaving ++ (p.base.filter fun f => !p.removed.contains f.path) ++ p.arriving := by
        rw [List.append_assoc, List.append_assoc]
        exact List.perm_append_comm.trans (by
          rw [List.append_assoc]
          exact List.perm_append_comm_assoc _ _ _)
    _ ~ p.base ++ beyond (p.finish u.spec inherits) p.base :=
        hparts.append (h.perm_arriving inherits)

/-- Nothing leaves with an append. -/
theorem Planned.leaving_of_append (h : Planned root files u .append changes p) : p.leaving = [] := by
  have hfits := h.fits
  obtain ⟨hpaths, hfilter⟩ : changes.deletedPaths = [] ∧ changes.rowFilter = none := by
    simpa [FileChanges.fit, FileChanges.removesFiles] using hfits
  rw [Plan.leaving_eq, removedPaths_of_no_filter hfilter h.removed, hpaths, List.filter_eq_nil_iff]
  simp [contains_pathSet]

/-- Nothing arrives with a deletion. -/
theorem Planned.arriving_of_delete (h : Planned root files u .delete changes p) :
    p.arriving = [] := by
  have hfits := h.fits
  obtain ⟨hadded, hpaths⟩ : changes.added = [] ∧ changes.stagedPaths = [] := by
    rw [FileChanges.fit, FileChanges.addsFiles] at hfits
    split at hfits
    next => exact absurd hfits (by simp)
    next hnone => simpa using hnone
  have hstaged : p.staged = [] := List.map_eq_nil_iff.1 (h.stagedPaths.symm.trans hpaths)
  rw [Plan.arriving, h.added, hadded, hstaged]
  rfl

/-- A replacement keeps the number of rows, as far as the counters tell. -/
theorem Planned.rows_of_replace (h : Planned root files u .replace changes p)
    (hbase : OncePerPath p.base) (inherits : Bool) :
    DataFile.rows p.base % 2 ^ 64 = DataFile.rows (p.finish u.spec inherits) % 2 ^ 64 := by
  have hcheck := h.rows
  rw [checkRowCount, Plan.recordsAt_removed hbase] at hcheck
  have hrows : totalRecords p.arriving = totalRecords p.leaving := by
    by_contra hne
    rw [if_pos ⟨rfl, hne⟩] at hcheck
    exact absurd hcheck (by simp)
  have hcounts := congrArg UInt64.toNat hrows
  rw [toNat_totalRecords, toNat_totalRecords, rows_perm (h.perm_arriving inherits),
    rows_perm (h.perm_leaving inherits)] at hcounts
  have hbalance := rows_perm (h.balance inherits)
  rw [rows_append, rows_append] at hbalance
  omega

/-- What a snapshot with this operation has not done to the files of its parent. -/
def Abides (operation : Operation) (before after : List DataFile) : Prop :=
  match operation with
  | .append => beyond before after = []
  | .delete => beyond after before = []
  | .replace => rows before % 2 ^ 64 = rows after % 2 ^ 64
  | .overwrite => True

theorem Planned.abides (h : Planned root files u operation changes p)
    (hbase : OncePerPath p.base) (inherits : Bool) :
    Abides operation p.base (p.finish u.spec inherits) := by
  cases operation with
  | append =>
    have hgone := h.perm_leaving inherits
    rw [h.leaving_of_append] at hgone
    exact hgone.nil_eq.symm
  | delete =>
    have hnew := h.perm_arriving inherits
    rw [h.arriving_of_delete] at hnew
    exact hnew.nil_eq.symm
  | overwrite => trivial
  | replace => exact h.rows_of_replace hbase inherits

end Table

end Lakehouse
