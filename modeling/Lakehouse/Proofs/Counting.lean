import Lakehouse.Inspect.Rows
import Lakehouse.Proofs.SortedMap
import Lakehouse.Proofs.Table.Live
import Lakehouse.Proofs.Text.Numerals
import Mathlib.Algebra.BigOperators.Group.List.Basic
import Mathlib.Algebra.GroupWithZero.Nat
import Mathlib.Algebra.Order.BigOperators.Group.List
import Mathlib.Algebra.Order.Group.Nat
import Mathlib.Data.List.Dedup
import Mathlib.Data.List.Induction

/- Files and rows counted in four ways.

   A summary counts the files and rows of a change in decimal text (`Summary.count`), the record
   of a manifest counts them by the part that they play, and partitions count them by a walk
   over the files that keeps a pair of counters for each. Machine counters hold sums below their
   size; where the sums fit, all of them give the length of the list of files and the sum of
   their rows (`rows`): `ofChange_counts`, `sum_groupByPartition`, `toNat_ofEntries_rows`. -/
namespace Lakehouse

namespace DataFile

/-- The rows of all given files together, however many. -/
def rows (files : List DataFile) : Nat := (files.map fun f => f.recordCount.toNat).sum

@[simp] theorem rows_nil : rows [] = 0 := rfl

@[simp] theorem rows_cons (f : DataFile) (files : List DataFile) :
    rows (f :: files) = f.recordCount.toNat + rows files := List.sum_cons

@[simp] theorem rows_append (files others : List DataFile) :
    rows (files ++ others) = rows files + rows others := by
  rw [rows, List.map_append, List.sum_append]
  rfl

theorem rows_perm {files others : List DataFile} (h : files.Perm others) :
    rows files = rows others := (h.map _).sum_eq

theorem rows_filter_le (p : DataFile → Bool) (files : List DataFile) :
    rows (files.filter p) ≤ rows files := by
  induction files with
  | nil => exact Nat.le_refl 0
  | cons f files ih =>
    rw [List.filter_cons]
    split
    · rw [rows_cons, rows_cons]
      omega
    · rw [rows_cons]
      omega

/-- The machine's counter of rows is the sum, up to its size. -/
theorem toNat_totalRecords (files : List DataFile) :
    (totalRecords files).toNat = rows files % 2 ^ 64 := by
  have hfold : ∀ (files : List DataFile) (n : UInt64),
      (files.foldl (fun n f => n + f.recordCount) n).toNat = (n.toNat + rows files) % 2 ^ 64 := by
    intro files
    induction files with
    | nil =>
      intro n
      rw [List.foldl_nil, rows_nil, Nat.add_zero, Nat.mod_eq_of_lt n.toNat_lt]
    | cons f files ih =>
      intro n
      rw [List.foldl_cons, ih, UInt64.toNat_add, rows_cons]
      omega
  rw [totalRecords, hfold]
  simp

end DataFile

open DataFile

/-! ### Summaries -/

namespace Summary

/-- The number under a name, zero if there is none. -/
def count (s : Summary) (name : String) : Nat :=
  (s.find? name).elim 0 fun text => Nat.ofDigitChars 10 text.toList 0

theorem count_empty (name : String) : count .empty name = 0 := rfl

theorem count_put (s : Summary) (name other : String) (n : Nat) :
    (s.put name n).count other = if other = name then n else s.count other := by
  rw [put, count]
  split
  next h =>
    rw [h, SortedMap.find?_insert_self, Option.elim_some, String.toList_ofList]
    exact Text.ofDigitChars_decimal n
  next h => rw [SortedMap.find?_insert_of_ne _ _ h, count]

theorem count_putPositive (s : Summary) (name other : String) (n : Nat) :
    (s.putPositive name n).count other = if other = name ∧ 0 < n then n else s.count other := by
  rw [putPositive]
  split
  next hpos => simp only [count_put, hpos, and_true]
  next hzero => simp only [hzero, and_false, if_false]

/-- The number of different partitions. -/
theorem partitionCount_eq (files : List DataFile) :
    partitionCount files = (files.map DataFile.partition).dedup.length := by
  have hkeys : ∀ p, p ∈ (SortedMap.ofList (files.map fun f => (f.partition, ()))).keys ↔
      p ∈ (files.map DataFile.partition).dedup := by
    intro p
    rw [SortedMap.mem_keys, SortedMap.contains_ofList, List.mem_dedup]
    simp
  have hperm := (List.perm_ext_iff_of_nodup (SortedMap.nodup_keys _) (List.nodup_dedup _)).2 hkeys
  rw [partitionCount, ← hperm.length_eq, SortedMap.toList, List.length_map]
  rfl

/-- The summary of a change counts what is added and deleted, the partitions of both, and what is
live in the end. -/
structure Counts (s : Summary) (added deleted live : List DataFile) : Prop where
  addedFiles : s.count addedDataFiles = added.length
  addedRows : s.count addedRecords = rows added % 2 ^ 64
  deletedFiles : s.count deletedDataFiles = deleted.length
  deletedRows : s.count deletedRecords = rows deleted % 2 ^ 64
  partitions : s.count changedPartitionCount =
    ((added ++ deleted).map DataFile.partition).dedup.length
  files : s.count totalDataFiles = live.length
  rows : s.count totalRecords = rows live % 2 ^ 64

theorem ofChange_counts (added deleted live : List DataFile) :
    (ofChange added deleted live).Counts added deleted live := by
  -- A count that is left out counts as zero.
  have hpositive : ∀ n : Nat, (if 0 < n then n else 0) = n := fun n => by split <;> omega
  have hcount : ∀ name, (ofChange added deleted live).count name =
      if name = totalRecords then DataFile.rows live % 2 ^ 64
      else if name = totalDataFiles then live.length
      else if name = changedPartitionCount then
        ((added ++ deleted).map DataFile.partition).dedup.length
      else if name = deletedRecords ∧ 0 < DataFile.rows deleted % 2 ^ 64 then
        DataFile.rows deleted % 2 ^ 64
      else if name = deletedDataFiles ∧ 0 < deleted.length then deleted.length
      else if name = addedRecords ∧ 0 < DataFile.rows added % 2 ^ 64 then
        DataFile.rows added % 2 ^ 64
      else if name = addedDataFiles ∧ 0 < added.length then added.length
      else 0 := by
    intro name
    simp only [ofChange, count_put, count_putPositive, count_empty, toNat_totalRecords,
      partitionCount_eq]
  refine ⟨?_, ?_, ?_, ?_, ?_, ?_, ?_⟩ <;>
    rw [hcount] <;>
    simp [addedDataFiles, addedRecords, deletedDataFiles, deletedRecords, changedPartitionCount,
      totalDataFiles, totalRecords, hpositive]

/-- The order of the files does not matter. -/
theorem Counts.perm {s : Summary} {added deleted live added' deleted' live' : List DataFile}
    (h : s.Counts added deleted live) (hadded : added.Perm added') (hdeleted : deleted.Perm deleted')
    (hlive : live.Perm live') : s.Counts added' deleted' live' where
  addedFiles := h.addedFiles.trans hadded.length_eq
  addedRows := by rw [h.addedRows, rows_perm hadded]
  deletedFiles := h.deletedFiles.trans hdeleted.length_eq
  deletedRows := by rw [h.deletedRows, rows_perm hdeleted]
  partitions := by
    rw [h.partitions]
    exact (((hadded.append hdeleted).map _).dedup).length_eq
  files := h.files.trans hlive.length_eq
  rows := by rw [h.rows, rows_perm hlive]

end Summary

/-! ### Partitions -/

namespace SortedMap

variable {κ α : Type} [Ord κ] [Std.TransOrd κ] [Std.LawfulEqOrd κ]

/-- What a value adds to a sum over a map is there instead of what its key added before. -/
theorem sum_insert (m : SortedMap κ α) (k : κ) (a : α) (g : κ × α → Nat) :
    ((m.insert k a).toList.map g).sum + (m.find? k).elim 0 (fun b => g (k, b)) =
      (m.toList.map g).sum + g (k, a) := by
  obtain ⟨entries, hsorted⟩ := m
  simp only [insert, toList, find?]
  induction entries with
  | nil => simp [place, lookup]
  | cons e entries ih =>
    obtain ⟨k', b⟩ := e
    obtain ⟨hlt, htail⟩ := List.pairwise_cons.1 hsorted
    rw [place]
    split
    next hk =>
      rw [lookup_cons_of_lt hk hlt]
      simp only [List.map_cons, List.sum_cons, Option.elim_none]
      omega
    next hk =>
      obtain rfl := Std.LawfulEqCmp.eq_of_compare hk
      rw [lookup, if_pos hk]
      simp only [List.map_cons, List.sum_cons, Option.elim_some]
      omega
    next hk =>
      rw [lookup, if_neg (by simp [hk])]
      have hrest := ih htail
      simp only [List.map_cons, List.sum_cons]
      omega

end SortedMap

/-- One more file is counted in one of the partitions, if the counters have room for it. -/
theorem sum_countFile {groups : SortedMap PartitionTuple (UInt64 × UInt64)} {f : DataFile}
    (hrows : (groups.toList.map fun e => e.2.1.toNat).sum + f.recordCount.toNat < 2 ^ 64)
    (hfiles : (groups.toList.map fun e => e.2.2.toNat).sum + 1 < 2 ^ 64) :
    ((countFile groups f).toList.map fun e => e.2.1.toNat).sum =
        (groups.toList.map fun e => e.2.1.toNat).sum + f.recordCount.toNat ∧
      ((countFile groups f).toList.map fun e => e.2.2.toNat).sum =
        (groups.toList.map fun e => e.2.2.toNat).sum + 1 := by
  -- A partition without counts yet is one that counts zero.
  obtain ⟨records, count, hcounts, hold⟩ : ∃ records count,
      (groups.find? f.partition).getD (0, 0) = (records, count) ∧
        ∀ g : UInt64 × UInt64 → Nat, g (0, 0) = 0 →
          (groups.find? f.partition).elim 0 g = g (records, count) ∧
            g (records, count) ≤ (groups.toList.map fun e => g e.2).sum := by
    cases hfind : groups.find? f.partition with
    | none => exact ⟨0, 0, rfl, fun g hg => ⟨hg.symm, by rw [hg]; exact Nat.zero_le _⟩⟩
    | some counts =>
      refine ⟨counts.1, counts.2, rfl, fun g _ => ⟨rfl, ?_⟩⟩
      exact List.le_sum_of_mem (List.mem_map.2 ⟨_, SortedMap.mem_toList.2 hfind, rfl⟩)
  obtain ⟨hrecords, hlerecords⟩ := hold (fun e => e.1.toNat) rfl
  obtain ⟨hcount, hlecount⟩ := hold (fun e => e.2.toNat) rfl
  have hcounted := groups.sum_insert f.partition (records + f.recordCount, count + 1)
  have hsumrows := hcounted fun e => e.2.1.toNat
  have hsumfiles := hcounted fun e => e.2.2.toNat
  have hone : (1 : UInt64).toNat = 1 := by decide
  simp only [countFile, hcounts]
  simp only [hrecords, UInt64.toNat_add] at hsumrows
  simp only [hcount, UInt64.toNat_add, hone] at hsumfiles
  constructor
  · rw [Nat.mod_eq_of_lt (by omega)] at hsumrows
    omega
  · rw [Nat.mod_eq_of_lt (by omega)] at hsumfiles
    omega

/-- The counts of the partitions are those of all files, if these fit. -/
theorem sum_groupByPartition {files : List DataFile} (hrows : rows files < 2 ^ 64)
    (hfiles : files.length < 2 ^ 64) :
    ((groupByPartition files).map fun p => p.recordCount.toNat).sum = rows files ∧
      ((groupByPartition files).map fun p => p.fileCount.toNat).sum = files.length := by
  simp only [groupByPartition, List.map_map, Function.comp_def]
  -- The walk has counted what it has passed; so the induction is on the last file.
  induction files using List.reverseRecOn with
  | nil => exact ⟨rfl, rfl⟩
  | append_singleton files f ih =>
    rw [rows_append, rows_cons, rows_nil, Nat.add_zero] at hrows ⊢
    rw [List.length_append, List.length_singleton] at hfiles ⊢
    obtain ⟨hsum, hlength⟩ := ih (by omega) (by omega)
    rw [List.foldl_append, List.foldl_cons, List.foldl_nil]
    rw [← hsum] at hrows ⊢
    rw [← hlength] at hfiles ⊢
    exact sum_countFile hrows hfiles

/-! ### Records -/

theorem Tally.toNat_ofEntries_rows (status : EntryStatus) (entries : List ManifestEntry) :
    (ofEntries status entries).rows.toNat =
      DataFile.rows ((entries.filter (·.status = status)).map (·.file)) % 2 ^ 64 :=
  toNat_totalRecords _

theorem Tally.toNat_ofEntries_files (status : EntryStatus) (entries : List ManifestEntry) :
    (ofEntries status entries).files.toNat =
      ((entries.filter (·.status = status)).map (·.file)).length % 2 ^ 32 := by
  rw [List.length_map]
  exact UInt32.toNat_ofNat

/-- The live files of a manifest are those added by it and those that it found. -/
theorem Manifest.perm_liveFiles (m : Manifest) :
    m.liveFiles.Perm ((m.entries.filter (·.status = .added)).map (·.file) ++
      (m.entries.filter (·.status = .existing)).map (·.file)) := by
  rw [liveFiles, liveEntries, ← List.map_append]
  refine List.Perm.map _ ?_
  induction m.entries with
  | nil => exact .nil
  | cons e entries ih =>
    obtain ⟨status, id, f⟩ := e
    cases status with
    | added => simpa [ManifestEntry.isLive, EntryStatus.isLive] using ih
    | existing =>
      simp only [ManifestEntry.isLive, EntryStatus.isLive, List.filter_cons, if_true,
        reduceCtorEq, decide_false, Bool.false_eq_true, if_false, decide_true]
      exact (ih.cons _).trans List.perm_middle.symm
    | deleted => simpa [ManifestEntry.isLive, EntryStatus.isLive] using ih

namespace ManifestRecord

/-- The live files that the record counts. -/
def liveCount (r : ManifestRecord) : Nat := r.added.files.toNat + r.existing.files.toNat

/-- The rows of the live files that the record counts. -/
def liveRows (r : ManifestRecord) : Nat := r.added.rows.toNat + r.existing.rows.toNat

variable {path : String} {length : UInt64} {m : Manifest} {spec : PartitionSpec} {id : SnapshotId}

theorem liveCount_summarize (h : m.liveFiles.length < 2 ^ 32) :
    (summarize path length m spec id).liveCount = m.liveFiles.length := by
  have hlength := m.perm_liveFiles.length_eq
  rw [List.length_append] at hlength
  simp only [liveCount, summarize, Tally.toNat_ofEntries_files]
  omega

theorem liveRows_summarize (h : rows m.liveFiles < 2 ^ 64) :
    (summarize path length m spec id).liveRows = rows m.liveFiles := by
  have hrows := rows_perm m.perm_liveFiles
  rw [rows_append] at hrows
  simp only [liveRows, summarize, Tally.toNat_ofEntries_rows]
  omega

end ManifestRecord

theorem length_liveFiles (ms : List Manifest) :
    (liveFiles ms).length = (ms.map fun m => m.liveFiles.length).sum := List.length_flatMap

theorem rows_liveFiles (ms : List Manifest) :
    rows (liveFiles ms) = (ms.map fun m => rows m.liveFiles).sum := by
  induction ms with
  | nil => rfl
  | cons m ms ih => rw [liveFiles_cons, rows_append, ih, List.map_cons, List.sum_cons]

end Lakehouse
