import Lakehouse.Proofs.Counting
import Lakehouse.Proofs.Table.Removal

/- The rules for a change of files.

   A request to change files has to keep some rules, in a certain order. What comes of it is
   decided by them (`Decides`): it is granted just if all rules are kept, and otherwise the error
   reports the first that is violated (`Reports`). There is one rule for each check of a plan, and
   each check decides as its rule says; so a plan does as all its rules say, one after the other
   (`decides_plan`). -/
namespace Lakehouse

open Script

/-- A condition, and the errors by which it is reported that it does not hold. -/
structure Rule where
  kept : Prop
  reported : TableError → Prop

/-- The error reports the first rule that is not kept. -/
def Reports (rules : List Rule) (e : TableError) : Prop :=
  ∃ before rule after, rules = before ++ rule :: after ∧ (∀ r ∈ before, r.kept) ∧
    ¬ rule.kept ∧ rule.reported e

/-- There is a result just if all rules are kept, and otherwise an error for the first that is
not. -/
structure Decides {α : Type} (rules : List Rule) (result : Except TableError α) : Prop where
  granted : (∃ a, result = .ok a) ↔ ∀ r ∈ rules, r.kept
  refused : ∀ e, result = .error e → Reports rules e

/-! ### Deciding one rule after the other -/

namespace Reports

variable {rule : Rule} {rules rules' : List Rule} {e : TableError}

theorem head (h : ¬ rule.kept) (he : rule.reported e) (rules : List Rule) :
    Reports (rule :: rules) e := ⟨[], rule, rules, rfl, by simp, h, he⟩

theorem append_left (h : Reports rules e) (rules' : List Rule) : Reports (rules ++ rules') e := by
  obtain ⟨before, rule, after, rfl, hbefore, hrule, he⟩ := h
  exact ⟨before, rule, after ++ rules', by simp, hbefore, hrule, he⟩

theorem append_right (hkept : ∀ r ∈ rules, r.kept) (h : Reports rules' e) :
    Reports (rules ++ rules') e := by
  obtain ⟨before, rule, after, rfl, hbefore, hrule, he⟩ := h
  refine ⟨rules ++ before, rule, after, by simp, fun r hr => ?_, hrule, he⟩
  exact (List.mem_append.1 hr).elim (hkept r) (hbefore r)

theorem not_kept (h : Reports rules e) : ¬ ∀ r ∈ rules, r.kept := by
  obtain ⟨before, rule, after, rfl, -, hrule, -⟩ := h
  exact fun hall => hrule (hall rule (by simp))

end Reports

namespace Decides

variable {α β : Type} {rule : Rule} {rules rules' : List Rule} {result : Except TableError α}
  {e : TableError} {a : α}

theorem of_kept (h : ∀ r ∈ rules, r.kept) (a : α) : Decides rules (.ok a) :=
  ⟨⟨fun _ => h, fun _ => ⟨a, rfl⟩⟩, fun e he => absurd he (by simp)⟩

theorem of_reports (h : Reports rules e) : Decides rules (.error e : Except TableError α) := by
  refine ⟨⟨fun ⟨a, ha⟩ => absurd ha (by simp), fun hall => absurd hall h.not_kept⟩, ?_⟩
  rintro e' he'
  exact Except.error.inj he' ▸ h

theorem kept (h : Decides rules (.ok a)) : ∀ r ∈ rules, r.kept := h.granted.1 ⟨a, rfl⟩

theorem cons_of_kept (h : rule.kept) (hrest : Decides rules result) :
    Decides (rule :: rules) result := by
  have hone : ∀ r ∈ [rule], r.kept := by simpa using h
  cases result with
  | error e => exact of_reports (.append_right hone (hrest.refused e rfl))
  | ok a => exact of_kept (List.forall_mem_cons.2 ⟨h, hrest.kept⟩) a

theorem map (h : Decides rules result) (f : α → β) : Decides rules (result.map f) := by
  cases result with
  | error e => exact of_reports (h.refused e rfl)
  | ok a => exact of_kept h.kept (f a)

/-- What comes behind a decision is decided by further rules. -/
theorem bind {next : α → Except TableError β} (h : Decides rules result)
    (hnext : ∀ a, result = .ok a → Decides rules' (next a)) :
    Decides (rules ++ rules') (result >>= next) := by
  cases result with
  | error e => exact of_reports ((h.refused e rfl).append_left rules')
  | ok a =>
    have hkept := h.kept
    have hlater := hnext a rfl
    change Decides (rules ++ rules') (next a)
    cases hresult : next a with
    | error e => exact of_reports (.append_right hkept (hlater.refused e hresult))
    | ok b =>
      rw [hresult] at hlater
      exact of_kept (fun r hr => (List.mem_append.1 hr).elim (hkept r) (hlater.kept r)) b

/-- A check decides a rule if it succeeds just if the rule is kept, and its errors report it. -/
theorem single (hgranted : (∃ a, result = .ok a) ↔ rule.kept)
    (hrefused : ∀ e, result = .error e → rule.reported e) : Decides [rule] result := by
  cases result with
  | error e =>
    refine of_reports (.head (fun hkept => ?_) (hrefused e rfl) [])
    obtain ⟨a, ha⟩ := hgranted.2 hkept
    exact absurd ha (by simp)
  | ok a => exact of_kept (by simpa using hgranted.1 ⟨a, rfl⟩) a

theorem check {result : Except Rejection α} (hgranted : (∃ a, result = .ok a) ↔ rule.kept)
    (hrefused : ∀ cause, result = .error cause → rule.reported (.rejected cause)) :
    Decides [rule] (result.mapError .rejected) := by
  refine single (by simpa only [mapError_eq_ok] using hgranted) fun e h => ?_
  obtain ⟨cause, hcause, rfl⟩ := mapError_eq_error.1 h
  exact hrefused cause hcause

end Decides

section

variable {α β : Type} {rules rules' : List Rule} {root : Location} {files : Tree}

theorem Decides.bindReads {access : FileM α} {next : α → FileM β}
    (h : Decides rules (perform root access files).1) (hreads : access.run.Reads)
    (hnext : ∀ a, (perform root access files).1 = .ok a →
      Decides rules' (perform root (next a) files).1) :
    Decides (rules ++ rules') (perform root (access >>= next) files).1 := by
  have hresult : (perform root (access >>= next) files).1 =
      (perform root access files).1 >>= fun a => (perform root (next a) files).1 := by
    rcases hrun : perform root access files with ⟨e | a, files'⟩
    · rw [perform_bind, hrun]
      rfl
    · obtain rfl := hreads.eq_of_perform hrun
      rw [perform_bind, hrun]
      rfl
  rw [hresult]
  exact h.bind hnext

variable {operation : TableM α} {next : α → TableM β} {t : Table}

theorem Decides.bindPerform (h : Decides rules (operation.perform root t files).1.1)
    (hnext : ∀ a t' files', operation.perform root t files = ((.ok a, t'), files') →
      Decides rules' ((next a).perform root t' files').1.1) :
    Decides (rules ++ rules') ((operation >>= next).perform root t files).1.1 := by
  rw [TableM.perform_bind]
  rcases hrun : operation.perform root t files with ⟨⟨e | a, t'⟩, files'⟩
  · rw [hrun] at h
    exact .of_reports ((h.refused e rfl).append_left rules')
  · rw [hrun] at h
    have hlater : ∀ b, (.ok a : Except TableError α) = .ok b →
        Decides rules' ((next b).perform root t' files').1.1 := by
      intro b hb
      obtain rfl := Except.ok.inj hb
      exact hnext a t' files' hrun
    exact h.bind hlater

/-- What follows decides nothing if it cannot fail. -/
theorem Decides.bindOk (h : Decides rules (operation.perform root t files).1.1)
    (hnext : ∀ a t' files', ∃ b, ((next a).perform root t' files').1.1 = .ok b) :
    Decides rules ((operation >>= next).perform root t files).1.1 := by
  have hnothing : ∀ a t' files', Decides [] ((next a).perform root t' files').1.1 := by
    intro a t' files'
    obtain ⟨b, hb⟩ := hnext a t' files'
    rw [hb]
    exact .of_kept (by simp) b
  have hbind := h.bindPerform fun a t' files' _ => hnothing a t' files'
  rwa [List.append_nil] at hbind

end

/-! ### The rules -/

/-- The changes are of the kinds that the operation is for. -/
def FileChanges.Suits (c : FileChanges) : Operation → Prop
  | .append => c.deletedPaths = [] ∧ c.rowFilter = .none
  | .delete => (c.added = [] ∧ c.stagedPaths = []) ∧ (c.deletedPaths ≠ [] ∨ c.rowFilter ≠ .none)
  | .overwrite => True
  | .replace => c.rowFilter = .none ∧ (c.added ≠ [] ∨ c.stagedPaths ≠ []) ∧ c.deletedPaths ≠ []

/-- The files that come with changes, of which the staged manifests are given. -/
def FileChanges.arriving (c : FileChanges) (staged : List Table.Staged) : List DataFile :=
  c.added ++ staged.flatMap fun s => s.manifest.entries.map (·.file)

/-- The live files at the paths that are deleted. -/
def LiveFiles.deleted (live : LiveFiles) (c : FileChanges) : List DataFile :=
  (live.toList.filter fun entry => entry.1 ∈ c.deletedPaths).map Prod.snd

namespace Rule

/-- The current snapshot is the one that the changes are meant for. -/
def isBase (t : Table) (base : Option SnapshotId) : Rule where
  kept := t.currentId = base
  reported e := e = .commitConflict base t.currentId

def suits (c : FileChanges) (operation : Operation) : Rule where
  kept := c.Suits operation
  reported e := ∃ cause, e = .rejected cause

/-- There is an id above those of all snapshots. -/
def idLeft (t : Table) : Rule where
  kept := ∃ id : SnapshotId, ∀ other, t.snapshots.contains other = true → other < id
  reported e := e = .rejected .idsExhausted

def deletesLive (live : LiveFiles) (c : FileChanges) : Rule where
  kept := ∀ path ∈ c.deletedPaths, live.contains path = true
  reported e := ∃ path ∈ c.deletedPaths, live.contains path = false ∧ e = .rejected (.notLive path)

def binds (schema : Schema) (c : FileChanges) : Rule where
  kept := ∀ filter, c.rowFilter = some filter → ∃ bound, filter.bind schema = .ok bound
  reported e := ∃ filter cause, c.rowFilter = some filter ∧ filter.bind schema = .error cause ∧
    e = .filter cause

/-- Of no live file it is said that some rows, but not all, match the filter. -/
def matchesWhole (schema : Schema) (spec : PartitionSpec) (live : LiveFiles) (c : FileChanges) :
    Rule where
  kept := ∀ filter bound, c.rowFilter = some filter → filter.bind schema = .ok bound →
    ∀ path f, live.find? path = some f →
      ¬ (bound.mightMatch spec f = true ∧ bound.allRowsMatch spec f = false)
  reported e := ∃ filter bound path f, c.rowFilter = some filter ∧ filter.bind schema = .ok bound ∧
    live.find? path = some f ∧ bound.mightMatch spec f = true ∧ bound.allRowsMatch spec f = false ∧
    e = .rejected (.partlyMatched path)

/-- The staged manifests are for the spec and have entries for added files only. -/
def adoptable (spec : PartitionSpec) (staged : List Table.Staged) : Rule where
  kept := ∀ s ∈ staged, s.manifest.specId = spec.specId ∧
    ∀ e ∈ s.manifest.entries, e.status = .added
  reported e := ∃ s ∈ staged, e = .rejected (.foreignSpec s.path s.manifest.specId spec.specId) ∨
    e = .rejected (.notOnlyAdded s.path)

/-- The files that arrive have a slot for each field of the spec, and paths that are not live and
differ from one another. -/
def arrives (spec : PartitionSpec) (live : LiveFiles) (files : List DataFile) : Rule where
  kept := (∀ f ∈ files, f.partition.length = spec.fields.length ∧ live.contains f.path = false) ∧
    (files.map DataFile.path).Nodup
  reported e := ∃ f ∈ files,
    e = .rejected (.slotCount f.path f.partition.length spec.fields.length) ∨
    e = .rejected (.alreadyLive f.path) ∨ e = .rejected (.addedTwice f.path)

/-- A replacement adds as many rows as it removes, as far as totals of 64 bits tell. -/
def keepsTotals (operation : Operation) (live : LiveFiles) (c : FileChanges)
    (files : List DataFile) : Rule where
  kept := operation = .replace →
    DataFile.totalRecords files = DataFile.totalRecords (live.deleted c)
  reported e := e = .rejected (.rowCountChanged (DataFile.totalRecords files)
    (DataFile.totalRecords (live.deleted c)))

/-- A replacement adds as many rows as it removes; a path that is listed more than once is removed
once. -/
def keepsRows (operation : Operation) (live : LiveFiles) (c : FileChanges)
    (files : List DataFile) : Rule :=
  { keepsTotals operation live c files with
    kept := operation = .replace → DataFile.rows files = DataFile.rows (live.deleted c) }

/-- Totals of 64 bits tell how many rows a replacement adds and removes. -/
def RowsFit (operation : Operation) (live : LiveFiles) (c : FileChanges) (files : List DataFile) :
    Prop :=
  operation = .replace →
    DataFile.rows files < 2 ^ 64 ∧ DataFile.rows (live.deleted c) < 2 ^ 64

theorem keepsTotals_eq {operation : Operation} {live : LiveFiles} {c : FileChanges}
    {files : List DataFile} (h : RowsFit operation live c files) :
    keepsTotals operation live c files = keepsRows operation live c files := by
  have hkept : (operation = .replace →
      DataFile.totalRecords files = DataFile.totalRecords (live.deleted c)) ↔
      (operation = .replace → DataFile.rows files = DataFile.rows (live.deleted c)) := by
    refine forall_congr' fun hreplace => ?_
    obtain ⟨hadded, hremoved⟩ := h hreplace
    rw [← UInt64.toNat_inj, DataFile.toNat_totalRecords, DataFile.toNat_totalRecords,
      Nat.mod_eq_of_lt hadded, Nat.mod_eq_of_lt hremoved]
  rw [keepsRows, keepsTotals, hkept]

end Rule

/-- The rules for what a plan adds and removes, in their order. -/
def Table.fileRules (t : Table) (operation : Operation) (c : FileChanges) (live : LiveFiles)
    (staged : List Table.Staged) : List Rule :=
  [.suits c operation, .idLeft t, .deletesLive live c, .binds t.schema c,
    .matchesWhole t.schema t.spec live c, .adoptable t.spec staged,
    .arrives t.spec live (c.arriving staged)]

/-- The rules for a plan, in their order. -/
def Table.planRules (t : Table) (operation : Operation) (c : FileChanges) (live : LiveFiles)
    (staged : List Table.Staged) : List Rule :=
  t.fileRules operation c live staged ++ [.keepsTotals operation live c (c.arriving staged)]

/-! ### What the checks decide -/

theorem exists_eq_ok_unit {ε : Type} {x : Except ε Unit} : (∃ a, x = .ok a) ↔ x = .ok () :=
  ⟨fun ⟨_, h⟩ => h, fun h => ⟨(), h⟩⟩

theorem FileChanges.fit_eq_ok {c : FileChanges} {operation : Operation} :
    c.fit operation = .ok () ↔ c.Suits operation := by
  obtain ⟨added, deleted, filter, staged⟩ := c
  cases operation with
  | append => cases deleted <;> cases filter <;> simp [fit, Suits, removesFiles]
  | delete =>
    cases added <;> cases staged <;> cases deleted <;> cases filter <;>
      simp [fit, Suits, addsFiles, removesFiles]
  | overwrite => simp [fit, Suits]
  | replace =>
    cases added <;> cases staged <;> cases deleted <;> cases filter <;>
      simp [fit, Suits, addsFiles, removesFiles]

namespace LiveFiles

variable {live : LiveFiles}

theorem checkPaths_eq_error {paths : List String} {cause : Rejection}
    (h : live.checkPaths paths = .error cause) :
    ∃ path ∈ paths, live.contains path = false ∧ cause = .notLive path := by
  induction paths with
  | nil => exact absurd h (by simp [checkPaths])
  | cons path paths ih =>
    rw [checkPaths] at h
    split at h
    next =>
      obtain ⟨other, hother, hnot⟩ := ih h
      exact ⟨other, List.mem_cons_of_mem _ hother, hnot⟩
    next hnot =>
      exact ⟨path, List.mem_cons_self, by simpa using hnot, (Except.error.inj h).symm⟩

theorem matched_eq_error {filter : BoundFilter} {spec : PartitionSpec}
    {l : List (String × DataFile)} {cause : Rejection} (h : matched filter spec l = .error cause) :
    ∃ path f, (path, f) ∈ l ∧ filter.mightMatch spec f = true ∧
      filter.allRowsMatch spec f = false ∧ cause = .partlyMatched path := by
  induction l with
  | nil => exact absurd h (by simp [matched])
  | cons head l ih =>
    obtain ⟨path, f⟩ := head
    have hlater : matched filter spec l = .error cause → ∃ path' f', (path', f') ∈ (path, f) :: l ∧
        filter.mightMatch spec f' = true ∧ filter.allRowsMatch spec f' = false ∧
        cause = .partlyMatched path' := by
      intro hl
      obtain ⟨path', f', hmem, hrest⟩ := ih hl
      exact ⟨path', f', List.mem_cons_of_mem _ hmem, hrest⟩
    rw [matched] at h
    split at h
    next =>
      refine hlater ?_
      cases hl : matched filter spec l with
      | error e => rw [hl] at h; exact h
      | ok paths => rw [hl] at h; exact absurd h (by simp [bind, Except.bind, pure, Except.pure])
    next hall =>
      split at h
      next hmight =>
        exact ⟨path, f, List.mem_cons_self, hmight, by simpa using hall,
          (Except.error.inj h).symm⟩
      next => exact hlater h

end LiveFiles

/-- Of what arrives, some file has the wrong number of slots, or a path that is taken. -/
theorem checkAdded_eq_error {spec : PartitionSpec} {live : LiveFiles} {seen : SortedMap String Unit}
    {files : List DataFile} {cause : Rejection}
    (h : checkAdded spec live seen files = .error cause) :
    ∃ f ∈ files, cause = .slotCount f.path f.partition.length spec.fields.length ∨
      cause = .alreadyLive f.path ∨ cause = .addedTwice f.path := by
  induction files generalizing seen with
  | nil => exact absurd h (by simp [checkAdded])
  | cons f files ih =>
    rw [checkAdded] at h
    split at h
    next => exact ⟨f, List.mem_cons_self, .inl (Except.error.inj h).symm⟩
    next =>
      split at h
      next => exact ⟨f, List.mem_cons_self, .inr (.inl (Except.error.inj h).symm)⟩
      next =>
        split at h
        next => exact ⟨f, List.mem_cons_self, .inr (.inr (Except.error.inj h).symm)⟩
        next =>
          obtain ⟨g, hg, hcause⟩ := ih h
          exact ⟨g, List.mem_cons_of_mem _ hg, hcause⟩

theorem checkStaged_eq_error {spec : PartitionSpec} {path : String} {m : Manifest}
    {cause : Rejection} (h : checkStaged spec path m = .error cause) :
    cause = .foreignSpec path m.specId spec.specId ∨ cause = .notOnlyAdded path := by
  rw [checkStaged] at h
  split at h
  next => exact .inl (Except.error.inj h).symm
  next =>
    split at h
    next => exact .inr (Except.error.inj h).symm
    next => exact absurd h (by simp)

namespace Table

variable {t : Table} {operation : Operation} {changes : FileChanges} {live : LiveFiles}
  {staged : List Staged}

/-- If there is no next id, the last id is the greatest there is. -/
theorem nextId_eq_error {cause : Rejection} (h : t.nextId = .error cause) :
    cause = .idsExhausted ∧ t.snapshots.contains Int64.maxValue = true := by
  rw [nextId] at h
  split at h
  next => exact absurd h (by simp)
  next id hlast =>
    split at h
    next => exact absurd h (by simp)
    next hnone =>
      refine ⟨(Except.error.inj h).symm, ?_⟩
      rw [SnapshotId.next?] at hnone
      split at hnone
      next hmax => exact hmax ▸ SortedMap.contains_lastKey? hlast
      next => exact absurd hnone (by simp)

theorem decides_fit (operation : Operation) (changes : FileChanges) :
    Decides [.suits changes operation] ((changes.fit operation).mapError .rejected) :=
  .check (exists_eq_ok_unit.trans FileChanges.fit_eq_ok) fun cause _ => ⟨cause, rfl⟩

theorem decides_nextId (t : Table) : Decides [.idLeft t] (t.nextId.mapError .rejected) := by
  refine .check ⟨fun ⟨id, hid⟩ => ⟨id, fun other => lt_of_nextId hid⟩, fun ⟨id, hid⟩ => ?_⟩
    fun cause h => congrArg _ (nextId_eq_error h).1
  cases h : t.nextId with
  | ok next => exact ⟨next, rfl⟩
  | error cause =>
    -- The greatest id of all is taken, and so none is above it.
    have hgreatest := hid _ (nextId_eq_error h).2
    have hmax : Int64.maxValue.toInt = 2 ^ 63 - 1 := by decide
    have hlt := id.toInt_lt
    rw [Int64.lt_iff_toInt_lt] at hgreatest
    omega

/-- The files that a filter matches as a whole are found, or one that it matches in part. -/
theorem decides_matched {filter : Filter} {bound : BoundFilter} {schema : Schema}
    {spec : PartitionSpec} (hfilter : changes.rowFilter = some filter)
    (hbound : filter.bind schema = .ok bound) :
    Decides [.matchesWhole schema spec live changes]
      ((LiveFiles.matched bound spec live.toList).mapError .rejected) := by
  refine .check ⟨?_, fun hkept => ?_⟩ fun cause h => ?_
  · rintro ⟨paths, hpaths⟩ filter' bound' hfilter' hbound' path f hlive ⟨hmight, hall⟩
    obtain rfl := Option.some.inj (hfilter.symm.trans hfilter')
    obtain rfl := Except.ok.inj (hbound.symm.trans hbound')
    have hspared := (LiveFiles.matched_eq_ok hpaths).2 path f (SortedMap.mem_toList.2 hlive) hall
    exact absurd hmight (by simp [hspared])
  · cases h : LiveFiles.matched bound spec live.toList with
    | ok paths => exact ⟨paths, rfl⟩
    | error cause =>
      obtain ⟨path, f, hmem, hmight, hall, -⟩ := LiveFiles.matched_eq_error h
      exact absurd ⟨hmight, hall⟩
        (hkept filter bound hfilter hbound path f (SortedMap.mem_toList.1 hmem))
  · obtain ⟨path, f, hmem, hmight, hall, rfl⟩ := LiveFiles.matched_eq_error h
    exact ⟨filter, bound, path, f, hfilter, hbound, SortedMap.mem_toList.1 hmem, hmight, hall, rfl⟩

theorem decides_removedPaths (schema : Schema) (spec : PartitionSpec) (live : LiveFiles)
    (changes : FileChanges) :
    Decides
      [.deletesLive live changes, .binds schema changes, .matchesWhole schema spec live changes]
      (removedPaths schema spec live changes) := by
  have hpaths : Decides [.deletesLive live changes]
      ((live.checkPaths changes.deletedPaths).mapError .rejected) := by
    refine .check (exists_eq_ok_unit.trans LiveFiles.checkPaths_eq_ok) fun cause h => ?_
    obtain ⟨path, hpath, hnot, rfl⟩ := LiveFiles.checkPaths_eq_error h
    exact ⟨path, hpath, hnot, rfl⟩
  refine hpaths.bind fun _ _ => ?_
  -- Without a filter, nothing is asked of one; one that does not bind is asked no more.
  cases hfilter : changes.rowFilter with
  | none => exact .of_kept (by simp [Rule.binds, Rule.matchesWhole, hfilter]) _
  | some filter =>
    dsimp only
    cases hbound : filter.bind schema with
    | error cause =>
      have hreported : (Rule.binds schema changes).reported (.filter cause) :=
        ⟨filter, cause, hfilter, hbound, rfl⟩
      refine .of_reports (.head (fun hkept => ?_) hreported _)
      obtain ⟨bound, hok⟩ := hkept filter hfilter
      exact absurd (hbound.symm.trans hok) (by simp)
    | ok bound =>
      refine .cons_of_kept (fun filter' hfilter' => ?_) ((decides_matched hfilter hbound).map _)
      obtain rfl := Option.some.inj (hfilter.symm.trans hfilter')
      exact ⟨bound, hbound⟩

/-- A staged manifest is what its file holds. -/
def Staged.IsRead (root : Location) (files : Tree) (path : String) (s : Staged) : Prop :=
  s.path = path ∧
    perform root (FileM.readJson Form.readManifest path) files = (.ok (s.manifest, s.length), files)

variable {root : Location} {files : Tree} {paths : List String}

def Staged.check (spec : PartitionSpec) (s : Staged) : Except TableError Unit :=
  (checkStaged spec s.path s.manifest).mapError .rejected

theorem perform_readStaged_of_isRead {path : String} {s : Staged} (h : s.IsRead root files path)
    (spec : PartitionSpec) :
    perform root (readStaged spec path) files = ((s.check spec).map fun _ => s, files) := by
  obtain ⟨rfl, hread⟩ := h
  rw [readStaged, perform_bind, hread]
  dsimp only
  rw [perform_bind, FileM.perform_check, Staged.check]
  cases checkStaged spec s.path s.manifest <;> rfl

/-- Staged manifests that can be read are checked one after the other. -/
theorem perform_mapM_readStaged
    (h : List.Forall₂ (Staged.IsRead root files) paths staged)
    (spec : PartitionSpec) : perform root (paths.mapM (readStaged spec)) files =
      ((forM staged (Staged.check spec)).map fun _ => staged, files) := by
  induction h with
  | nil => rfl
  | @cons path s paths staged hread _ ih =>
    rw [List.mapM_cons, perform_bind, perform_readStaged_of_isRead hread, List.forM_cons]
    cases s.check spec with
    | error cause => rfl
    | ok _ =>
      dsimp only [Except.map]
      rw [perform_bind, ih]
      cases forM staged (Staged.check spec) <;> rfl

theorem decides_staged (spec : PartitionSpec) (staged : List Staged) :
    Decides [.adoptable spec staged] (forM staged (Staged.check spec)) := by
  refine .single (exists_eq_ok_unit.trans ?_) fun e h => ?_
  · simp only [forM_eq_ok, Staged.check, mapError_eq_ok, checkStaged_eq_ok]
    rfl
  · obtain ⟨before, s, after, rfl, -, hs⟩ := forM_eq_error.1 h
    obtain ⟨cause, hcause, rfl⟩ := mapError_eq_error.1 hs
    refine ⟨s, by simp, ?_⟩
    rcases checkStaged_eq_error hcause with rfl | rfl
    · exact .inl rfl
    · exact .inr rfl

theorem decides_arriving (spec : PartitionSpec) (live : LiveFiles) (files : List DataFile) :
    Decides [.arrives spec live files]
      ((checkAdded spec live .empty files).mapError .rejected) := by
  refine .check (exists_eq_ok_unit.trans (checkAdded_eq_ok.trans ?_)) fun cause h => ?_
  · simp [Rule.arrives, OncePerPath, SortedMap.contains]
  · obtain ⟨f, hf, hcause⟩ := checkAdded_eq_error h
    refine ⟨f, hf, ?_⟩
    rcases hcause with rfl | rfl | rfl <;> simp

/-- The rows at paths that are deleted are those of the files there, each of which counts once. -/
theorem recordsAt_pathSet (live : LiveFiles) (changes : FileChanges) :
    live.recordsAt (pathSet changes.deletedPaths).keys =
      DataFile.totalRecords (live.deleted changes) := by
  have hentries : (pathSet changes.deletedPaths).keys.filterMap live.find? =
      ((pathSet changes.deletedPaths).keys.filterMap
        fun path => (live.find? path).map (Prod.mk path)).map Prod.snd := by
    simp [List.map_filterMap, Function.comp_def]
  have hnodup : ((pathSet changes.deletedPaths).keys.filterMap
      fun path => (live.find? path).map (Prod.mk path)).Nodup := by
    refine List.Nodup.filterMap (fun path path' entry hin hin' => ?_) (SortedMap.nodup_keys _)
    obtain ⟨f, -, rfl⟩ := Option.map_eq_some_iff.1 hin
    obtain ⟨f', -, he⟩ := Option.map_eq_some_iff.1 hin'
    exact (Prod.mk.inj he).1.symm
  -- Neither list has an entry twice, and both have the same ones.
  have hperm : ((pathSet changes.deletedPaths).keys.filterMap
      fun path => (live.find? path).map (Prod.mk path)).Perm
        (live.toList.filter fun entry => entry.1 ∈ changes.deletedPaths) := by
    refine (List.perm_ext_iff_of_nodup hnodup ((SortedMap.nodup_keys live).of_map.filter _)).2 ?_
    rintro ⟨path, f⟩
    rw [List.mem_filterMap, List.mem_filter, SortedMap.mem_toList]
    constructor
    · rintro ⟨path', hpath, he⟩
      obtain ⟨f', hf, he⟩ := Option.map_eq_some_iff.1 he
      obtain ⟨rfl, rfl⟩ := Prod.mk.inj he
      exact ⟨hf, by simpa using contains_pathSet.1 (SortedMap.mem_keys.1 hpath)⟩
    · rintro ⟨hf, hpath⟩
      refine ⟨path, SortedMap.mem_keys.2 (contains_pathSet.2 (by simpa using hpath)), ?_⟩
      rw [hf]
      rfl
  apply UInt64.toNat_inj.1
  rw [LiveFiles.recordsAt, hentries, DataFile.toNat_totalRecords, DataFile.toNat_totalRecords,
    DataFile.rows_perm (hperm.map Prod.snd), LiveFiles.deleted]

/-- Changes by a replacement remove the paths that they list, and no others. -/
theorem decides_totals {removed : SortedMap String Unit} (hsuits : changes.Suits operation)
    (hremoved : removedPaths t.schema t.spec live changes = .ok removed) (files : List DataFile) :
    Decides [.keepsTotals operation live changes files]
      ((checkRowCount operation (DataFile.totalRecords files)
        (live.recordsAt removed.keys)).mapError .rejected) := by
  by_cases hreplace : operation = .replace
  · subst hreplace
    rw [removedPaths_of_no_filter hsuits.1 hremoved, recordsAt_pathSet]
    refine .check ⟨fun ⟨_, h⟩ _ => ?_, fun hkept => ?_⟩ fun cause h => ?_
    · by_contra hne
      rw [checkRowCount, if_pos ⟨rfl, hne⟩] at h
      exact absurd h (by simp)
    · exact ⟨(), by rw [checkRowCount, if_neg fun h => h.2 (hkept rfl)]⟩
    · rw [checkRowCount] at h
      split at h
      next => exact congrArg _ (Except.error.inj h).symm
      next => exact absurd h (by simp)
  · rw [checkRowCount, if_neg fun h => hreplace h.1]
    exact .of_kept (by simp [Rule.keepsTotals, hreplace]) ()

/-- A request that can be read is decided by the rules for plans. -/
theorem decides_plan {manifests : List (ManifestRecord × Manifest)}
    (hmanifests : perform root t.loadCurrent files = (.ok manifests, files))
    (hstaged : List.Forall₂ (Staged.IsRead root files) changes.stagedPaths staged)
    (operation : Operation) :
    Decides (t.planRules operation changes (.ofManifests (manifests.map Prod.snd)) staged)
      (perform root (t.plan operation changes) files).1 := by
  simp only [planRules, fileRules, List.cons_append, List.nil_append]
  rw [plan]
  refine (decides_fit operation changes).bindReads (FileM.reads_ofExcept _) fun _ hfits => ?_
  refine (decides_nextId t).bindReads (FileM.reads_ofExcept _) fun id _ => ?_
  have hcurrent : Decides [] (perform root t.loadCurrent files).1 := by
    rw [hmanifests]
    exact .of_kept (by simp) manifests
  refine hcurrent.bindReads t.reads_loadCurrent fun manifests' hread => ?_
  rw [hmanifests] at hread
  obtain rfl := Except.ok.inj hread
  refine (decides_removedPaths t.schema t.spec _ changes).bindReads (FileM.reads_ofExcept _)
    fun removed hremoved => ?_
  have hread := perform_mapM_readStaged hstaged t.spec
  have hadopted : Decides [.adoptable t.spec staged]
      (perform root (changes.stagedPaths.mapM (readStaged t.spec)) files).1 := by
    rw [hread]
    exact (decides_staged t.spec staged).map _
  refine hadopted.bindReads (Reads.mapM (reads_readStaged t.spec) _) fun staged' hstaged' => ?_
  obtain rfl : staged = staged' := by
    rw [hread] at hstaged'
    obtain ⟨_, -, hsame⟩ := map_eq_ok.1 hstaged'
    exact hsame
  refine (decides_arriving t.spec _ (changes.arriving staged)).bindReads (FileM.reads_ofExcept _)
    fun _ _ => ?_
  -- What is removed is counted by the paths that are listed, for a replacement has no filter.
  have hsuits := FileChanges.fit_eq_ok.1 (mapError_eq_ok.1 hfits)
  refine (decides_totals hsuits hremoved (changes.arriving staged)).bindReads
    (FileM.reads_ofExcept _) fun _ _ => ?_
  exact .of_kept (by simp) _

end Table

end Lakehouse
