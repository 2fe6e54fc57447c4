import Lakehouse.Proofs.Table.Live

/- Which files a change removes.

   A change removes the files at the paths that it deletes, and with a filter the files of
   which it is known that all rows match (`FileChanges.removes`). What is planned is just
   this, for all live files (`contains_of_removedPaths`); a plan with a filter is not made
   unless it is known of every other live file that no row matches (`spares_of_removedPaths`). -/
namespace Lakehouse

namespace FileChanges

/-- The change removes the file at this path: its path is deleted, or all its rows match. -/
def removes (c : FileChanges) (schema : Schema) (spec : PartitionSpec) (path : String)
    (f : DataFile) : Bool :=
  c.deletedPaths.contains path ||
    match c.rowFilter.map (Filter.bind schema) with
    | some (.ok bound) => bound.allRowsMatch spec f
    | _ => false

end FileChanges

namespace Table

open Script

variable {schema : Schema} {spec : PartitionSpec} {live : LiveFiles} {changes : FileChanges}
  {removed : SortedMap String Unit} {path : String} {f : DataFile}

/-- What is removed for a filter, if something is planned. -/
theorem removedPaths_of_filter {filter : Filter} (hfilter : changes.rowFilter = some filter)
    (h : removedPaths schema spec live changes = .ok removed) :
    ∃ bound matched, filter.bind schema = .ok bound ∧
      LiveFiles.matched bound spec live.toList = .ok matched ∧
      removed = pathSet (changes.deletedPaths ++ matched) := by
  rw [removedPaths, hfilter] at h
  cases hcheck : live.checkPaths changes.deletedPaths with
  | error e => rw [hcheck] at h; exact absurd h (by simp [bind, Except.bind])
  | ok u =>
    cases hbound : filter.bind schema with
    | error e =>
      rw [hcheck] at h
      simp only [hbound] at h
      exact absurd h (by simp [bind, Except.bind, throw, throwThe, MonadExceptOf.throw])
    | ok bound =>
      cases hmatched : LiveFiles.matched bound spec live.toList with
      | error e =>
        rw [hcheck] at h
        simp only [hbound, hmatched] at h
        exact absurd h (by simp [bind, Except.bind])
      | ok matched =>
        rw [hcheck] at h
        simp only [hbound, hmatched] at h
        exact ⟨bound, matched, rfl, hmatched, (Except.ok.inj h).symm⟩

theorem removedPaths_of_no_filter (hfilter : changes.rowFilter = none)
    (h : removedPaths schema spec live changes = .ok removed) :
    removed = pathSet changes.deletedPaths := by
  rw [removedPaths, hfilter] at h
  cases hcheck : live.checkPaths changes.deletedPaths with
  | error e => rw [hcheck] at h; exact absurd h (by simp [bind, Except.bind])
  | ok u =>
    rw [hcheck] at h
    exact (Except.ok.inj h).symm

/-- Of the live files, those are planned to be removed that the change removes. -/
theorem contains_of_removedPaths (h : removedPaths schema spec live changes = .ok removed)
    (hlive : live.find? path = some f) :
    removed.contains path = changes.removes schema spec path f := by
  rw [Bool.eq_iff_iff, FileChanges.removes, Bool.or_eq_true, List.contains_iff_mem]
  cases hfilter : changes.rowFilter with
  | none =>
    rw [removedPaths_of_no_filter hfilter h, contains_pathSet]
    simp
  | some filter =>
    obtain ⟨bound, matched, hbound, hmatched, rfl⟩ := removedPaths_of_filter hfilter h
    have hall := (LiveFiles.matched_eq_ok hmatched).1 path
    rw [contains_pathSet, List.mem_append, hall]
    simp only [SortedMap.mem_toList, hlive, Option.some.injEq, exists_eq_left', Option.map_some,
      hbound]

/-- No row of a live file that a filter leaves is taken to match it. -/
theorem spares_of_removedPaths {filter : Filter} (hfilter : changes.rowFilter = some filter)
    (h : removedPaths schema spec live changes = .ok removed) :
    ∃ bound, filter.bind schema = .ok bound ∧ ∀ path f, live.find? path = some f →
      bound.allRowsMatch spec f = false → bound.mightMatch spec f = false := by
  obtain ⟨bound, matched, hbound, hmatched, -⟩ := removedPaths_of_filter hfilter h
  refine ⟨bound, hbound, fun path f hlive hnot => ?_⟩
  exact (LiveFiles.matched_eq_ok hmatched).2 path f (SortedMap.mem_toList.2 hlive) hnot

/-- The files that stay are those that the change does not remove. -/
theorem without_of_removedPaths (h : removedPaths schema spec live changes = .ok removed) :
    live.without removed = live.filter fun path f => !changes.removes schema spec path f := by
  apply SortedMap.ext_find?
  intro path
  rw [LiveFiles.without, SortedMap.find?_filter, SortedMap.find?_filter]
  cases hlive : live.find? path with
  | none => rfl
  | some f => simp only [Option.filter_some, contains_of_removedPaths h hlive]

end Table

end Lakehouse
