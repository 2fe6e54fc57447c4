import Lakehouse.Proofs.Counting
import Lakehouse.Proofs.Filter.Truth

/- Files by partition.

   Partition tuples are compared slot by slot (`PartitionTuple.Before`): an empty slot comes before
   every value, values of one type are in their usual order, and a tuple comes before those that it
   begins. The walk over the files of a snapshot keeps a pair of counters for each tuple that it has
   met, in this order (`find?_countFiles`). So there is one row for each tuple of a file, which
   counts the files with this tuple and their rows (`groups_groupByPartition`), and the order of
   the files is of no account (`groupByPartition_perm`). -/
namespace Lakehouse

open DataFile

/-! ### The order of tuples -/

/-- False comes before true, numbers are in their order, and texts in that of their characters. Of
different types, the one that is named first here comes first. -/
inductive Datum.Before : Datum → Datum → Prop where
  | boolean : Before (.boolean false) (.boolean true)
  | int {a b : Int32} (less : a.toInt < b.toInt) : Before (.int a) (.int b)
  | long {a b : Int64} (less : a.toInt < b.toInt) : Before (.long a) (.long b)
  | string {a b : String} (less : a < b) : Before (.string a) (.string b)
  | types {a b : Datum} (less : a.rank < b.rank) : Before a b

/-- An empty slot comes before every value. -/
inductive SlotBefore : Option Datum → Option Datum → Prop where
  | empty (b : Datum) : SlotBefore none (some b)
  | values {a b : Datum} (before : a.Before b) : SlotBefore (some a) (some b)

/-- The first slots that differ decide, and a tuple comes before those that go on behind it. -/
inductive PartitionTuple.Before : PartitionTuple → PartitionTuple → Prop where
  | shorter (slot : Option Datum) (rest : PartitionTuple) : Before [] (slot :: rest)
  | slots {a b : Option Datum} (before : SlotBefore a b) (s t : PartitionTuple) :
      Before (a :: s) (b :: t)
  | rest (slot : Option Datum) {s t : PartitionTuple} (before : Before s t) :
      Before (slot :: s) (slot :: t)

theorem compare_string_eq_lt {a b : String} : compare a b = .lt ↔ a < b := by
  show compareOfLessAndEq a b = .lt ↔ a < b
  unfold compareOfLessAndEq
  split
  next h => simp [h]
  next h =>
    split
    · simp [h]
    · simp [h]

theorem Datum.compare_eq_lt {a b : Datum} : compare a b = .lt ↔ a.Before b := by
  constructor
  · intro h
    rcases a with x | x | x | x <;> rcases b with y | y | y | y
    case boolean.boolean =>
      cases x <;> cases y
      case false.true => exact .boolean
      all_goals exact nomatch h
    case int.int =>
      apply Before.int
      rw [← Int.compare_eq_lt, ← compare_int32]
      exact h
    case long.long =>
      apply Before.long
      rw [← Int.compare_eq_lt, ← compare_int64]
      exact h
    case string.string => exact .string (compare_string_eq_lt.1 h)
    -- Values of different types are in the order of their types.
    all_goals exact .types (Nat.compare_eq_lt.1 h)
  · intro h
    cases h with
    | boolean => rfl
    | @int x y less =>
      show compare x y = .lt
      rw [compare_int32]
      exact Int.compare_eq_lt.2 less
    | @long x y less =>
      show compare x y = .lt
      rw [compare_int64]
      exact Int.compare_eq_lt.2 less
    | string less => exact compare_string_eq_lt.2 less
    | types less =>
      rcases a with x | x | x | x <;> rcases b with y | y | y | y <;>
        first
        | rfl
        | exact absurd less (by simp [rank])

theorem compare_slot_eq_lt {a b : Option Datum} : compare a b = .lt ↔ SlotBefore a b := by
  constructor
  · intro h
    cases a with
    | none =>
      cases b with
      | none => exact nomatch h
      | some y => exact .empty y
    | some x =>
      cases b with
      | none => exact nomatch h
      | some y => exact .values (Datum.compare_eq_lt.1 h)
  · intro h
    cases h with
    | empty => rfl
    | values before => exact Datum.compare_eq_lt.2 before

theorem PartitionTuple.compare_eq_lt {s t : PartitionTuple} : compare s t = .lt ↔ s.Before t := by
  show List.compareLex compare s t = .lt ↔ s.Before t
  induction s generalizing t with
  | nil =>
    cases t with
    | nil => exact ⟨fun h => (nomatch h), fun h => (nomatch h)⟩
    | cons slot rest => exact ⟨fun _ => .shorter slot rest, fun _ => rfl⟩
  | cons a s ih =>
    cases t with
    | nil => exact ⟨fun h => (nomatch h), fun h => (nomatch h)⟩
    | cons b t =>
      rw [List.compareLex_cons_cons, Ordering.then_eq_lt]
      constructor
      · intro h
        rcases h with hslot | ⟨heq, hrest⟩
        · exact .slots (compare_slot_eq_lt.1 hslot) s t
        · rw [Std.LawfulEqCmp.eq_of_compare heq]
          exact .rest b (ih.1 hrest)
      · intro h
        cases h with
        | slots before => exact .inl (compare_slot_eq_lt.2 before)
        | rest _ before => exact .inr ⟨Std.ReflCmp.compare_self, ih.2 before⟩

/-! ### Counters -/

/-- The files with a partition tuple. -/
def DataFile.inPartition (files : List DataFile) (tuple : PartitionTuple) : List DataFile :=
  files.filter fun f => f.partition = tuple

theorem DataFile.inPartition_perm {files others : List DataFile} (h : files.Perm others)
    (tuple : PartitionTuple) : (inPartition files tuple).Perm (inPartition others tuple) :=
  h.filter _

/-- The counters of a tuple after files that have it; there are none without a file. -/
def counters (files : List DataFile) : Option (UInt64 × UInt64) :=
  if files.isEmpty then none else some (totalRecords files, UInt64.ofNat files.length)

theorem getD_counters (files : List DataFile) :
    (counters files).getD (0, 0) = (totalRecords files, UInt64.ofNat files.length) := by
  cases files with
  | nil => rfl
  | cons f files => rfl

/-- One more file with the tuple. -/
theorem counters_concat (files : List DataFile) (f : DataFile) :
    counters (files ++ [f]) =
      some (totalRecords files + f.recordCount, UInt64.ofNat files.length + 1) := by
  have hrecords : totalRecords (files ++ [f]) = totalRecords files + f.recordCount := by
    rw [totalRecords, List.foldl_append]
    rfl
  have hcount : UInt64.ofNat (files ++ [f]).length = UInt64.ofNat files.length + 1 := by
    rw [List.length_append, List.length_singleton, UInt64.ofNat_add]
    rfl
  rw [counters, if_neg (by simp), hrecords, hcount]

/-- A file counts for the tuple that it has, and for no other. -/
theorem countFile_eq (groups : SortedMap PartitionTuple (UInt64 × UInt64)) (f : DataFile) :
    countFile groups f = groups.insert f.partition
      (((groups.find? f.partition).getD (0, 0)).1 + f.recordCount,
        ((groups.find? f.partition).getD (0, 0)).2 + 1) := by
  unfold countFile
  cases groups.find? f.partition <;> rfl

theorem counters_perm {files others : List DataFile} (h : files.Perm others) :
    counters files = counters others := by
  have hrecords : totalRecords files = totalRecords others := by
    rw [← UInt64.toNat_inj, toNat_totalRecords, toNat_totalRecords, rows_perm h]
  rw [counters, counters, h.isEmpty_eq, hrecords, h.length_eq]

/-- After a walk over files, each tuple has the counters of the files that have it. -/
theorem find?_countFiles (files : List DataFile) (tuple : PartitionTuple) :
    (files.foldl countFile .empty).find? tuple = counters (inPartition files tuple) := by
  -- The walk has counted what it has passed; so the induction is on the last file.
  induction files using List.reverseRecOn with
  | nil => rfl
  | append_singleton files f ih =>
    rw [List.foldl_append, List.foldl_cons, List.foldl_nil, inPartition, List.filter_append]
    rw [countFile_eq]
    by_cases h : f.partition = tuple
    · subst h
      rw [List.filter_cons_of_pos (by simp), List.filter_nil, counters_concat,
        SortedMap.find?_insert_self, ih, getD_counters]
      rfl
    · rw [List.filter_cons_of_neg (by simpa using h), List.filter_nil, List.append_nil,
        SortedMap.find?_insert_of_ne _ _ (Ne.symm h), ih]
      rfl

/-! ### Rows -/

/-- There is one row for each tuple of a file and no other row, the rows are in the order of their
tuples, and each counts the files with its tuple, and their rows, up to the size of a counter. -/
structure Groups (files : List DataFile) (groups : List PartitionRow) : Prop where
  ascending : groups.Pairwise fun r s => r.partition.Before s.partition
  occur : ∀ tuple, (∃ r ∈ groups, r.partition = tuple) ↔ ∃ f ∈ files, f.partition = tuple
  fileCounts : ∀ r ∈ groups, r.fileCount.toNat = (inPartition files r.partition).length % 2 ^ 64
  recordCounts : ∀ r ∈ groups, r.recordCount.toNat = rows (inPartition files r.partition) % 2 ^ 64

theorem mem_groupByPartition {files : List DataFile} {r : PartitionRow} :
    r ∈ groupByPartition files ↔
      counters (inPartition files r.partition) = some (r.recordCount, r.fileCount) := by
  rw [groupByPartition, List.mem_map, ← find?_countFiles]
  constructor
  · intro h
    obtain ⟨⟨tuple, records, count⟩, hmem, heq⟩ := h
    subst heq
    exact SortedMap.mem_toList.1 hmem
  · intro h
    exact ⟨(r.partition, r.recordCount, r.fileCount), SortedMap.mem_toList.2 h, rfl⟩

theorem groups_groupByPartition (files : List DataFile) : Groups files (groupByPartition files) := by
  have hcounters : ∀ r ∈ groupByPartition files,
      inPartition files r.partition ≠ [] ∧
        r.recordCount = totalRecords (inPartition files r.partition) ∧
        r.fileCount = UInt64.ofNat (inPartition files r.partition).length := by
    intro r hr
    have h := mem_groupByPartition.1 hr
    unfold counters at h
    split at h
    next => exact absurd h (by simp)
    next hne =>
      obtain ⟨hrecords, hcount⟩ := Prod.mk.inj (Option.some.inj h)
      exact ⟨by simpa using hne, hrecords.symm, hcount.symm⟩
  refine ⟨?_, ?_, ?_, ?_⟩
  · rw [groupByPartition, List.pairwise_map]
    exact (files.foldl countFile .empty).sorted.imp PartitionTuple.compare_eq_lt.1
  · intro tuple
    constructor
    · intro h
      obtain ⟨r, hr, rfl⟩ := h
      obtain ⟨f, hf⟩ := List.exists_mem_of_ne_nil _ (hcounters r hr).1
      obtain ⟨hmem, htuple⟩ := List.mem_filter.1 hf
      exact ⟨f, hmem, of_decide_eq_true htuple⟩
    · intro h
      obtain ⟨f, hf, htuple⟩ := h
      have hmem : f ∈ inPartition files tuple := List.mem_filter.2 ⟨hf, decide_eq_true htuple⟩
      have hne : (inPartition files tuple).isEmpty = false := by
        rw [Bool.eq_false_iff, ne_eq, List.isEmpty_iff]
        exact List.ne_nil_of_mem hmem
      refine ⟨⟨tuple, totalRecords (inPartition files tuple),
        UInt64.ofNat (inPartition files tuple).length⟩, mem_groupByPartition.2 ?_, rfl⟩
      rw [counters, hne]
      rfl
  · intro r hr
    rw [(hcounters r hr).2.2, UInt64.toNat_ofNat']
  · intro r hr
    rw [(hcounters r hr).2.1, toNat_totalRecords]

/-- The order of the files is of no account. -/
theorem groupByPartition_perm {files others : List DataFile} (h : files.Perm others) :
    groupByPartition files = groupByPartition others := by
  have hsame : files.foldl countFile .empty = others.foldl countFile .empty := by
    apply SortedMap.ext_find?
    intro tuple
    rw [find?_countFiles, find?_countFiles, counters_perm (inPartition_perm h tuple)]
  rw [groupByPartition, groupByPartition, hsame]

end Lakehouse
