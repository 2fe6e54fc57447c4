import Lakehouse.Proofs.Run.Lineage
import Lakehouse.Proofs.Table.Makings

/- Records in runs.

   Every snapshot that a log registers was made by a plan for an earlier table of the log, and
   this can be read from the files at the end of the run, also if the writer stopped as soon as
   the snapshot was registered (`made_of_registered`). So the records of its manifests are
   exact: those that came with it were made so, and the others are carried over from its
   parent, which is older. As carried records bear the ids of older snapshots, a record of the
   parent is not listed again once its manifest has no live entry (`records_are_exact`). -/
namespace Lakehouse

open Contract Log Script

variable {asked : Request → Prop} {root : Location} {files files' : Tree}
  {commits : List Commit} {current : Nat} {t u : Table} {s : Snapshot} {id : SnapshotId}

namespace World

variable {w w₀ : World} {turn : Turn} {turns : List Turn}

/-- A snapshot of the table that a turn has made was registered before, or is made by the turn. -/
theorem Makes.made {c : Commit} {whole : Tree}
    (h : w.Makes asked root turn commits current c t whole) (hclear : Unambiguous asked)
    (hsince : (w.step root turn).files.Grows asked root files)
    (hs : t.snapshots.find? id = some s) :
    ∃ u, tableAfter? commits = some u ∧
      (u.snapshots.find? id = some s ∨
        ∃ p, s.id = id ∧ u.Registers s t ∧ Table.Made root files u p s) := by
  obtain ⟨current', hchain'⟩ := h.chain
  have hstored := h.shelves.registered _ _ t hchain' h.table
  cases h.addition with
  | created _ hnew =>
    rw [hnew] at hs
    exact absurd hs (by simp [Table.new])
  | @changed _ _ _ _ u p r hbefore hchain hcommit hbehind =>
    refine ⟨u, hcommit.wrote.latest, ?_⟩
    have hregisters := hcommit.registers
    have hfind := hregisters.find? id
    rw [hs] at hfind
    split at hfind
    next hid =>
      obtain rfl := Option.some.inj hfind
      refine .inr ⟨p, hid.symm, hregisters, ?_⟩
      have hmade := hcommit.made hchain hbehind (h.supplied.grows h.grows) hclear
      -- What the plan builds on was there before the turn, and so is there after it.
      have hbase : p.BuildsOn root w.files u := Table.Plan.BuildsOn.of_grown
        hcommit.planned.loads_current h.ordered.chain hbefore
        (h.shelved.registered _ _ u h.ordered.chain hcommit.wrote.latest)
      have hturn := hmade.of_grown hchain' h.between (hstored id s hs)
        (hbase.grows h.ordered.chain h.advanced)
      exact hturn.grows hchain' hsince
    next => exact .inl hfind.symm
  | moved hregistered hwrote =>
    have hreturns := hwrote.returns hregistered
    exact ⟨_, hwrote.latest, .inl (hreturns.snapshots ▸ hs)⟩
  | updated hwrote => exact ⟨_, hwrote.latest, .inl (hwrote.stays.snapshots ▸ hs)⟩

/-- If all commits can be traced, every snapshot is made by a plan for an earlier table. -/
theorem made_of_registered (hclear : Unambiguous asked)
    (htraces : ∀ commits₁ c, commits₁ ++ [c] <+: commits →
      Traces asked root w₀ turns commits₁ c files) (n : Nat) :
    ∀ t, tableAfter? (commits.take n) = some t → ∀ id s, t.snapshots.find? id = some s →
      ∃ k u p, k < n ∧ tableAfter? (commits.take k) = some u ∧ s.id = id ∧
        s.parentId = u.currentId ∧ (∀ old, u.snapshots.contains old = true → old < id) ∧
        Table.Made root files u p s := by
  induction n with
  | zero =>
    intro t ht
    exact absurd (pos_of_table ht) (by simp)
  | succ n ih =>
    intro t ht id s hs
    by_cases hn : n < commits.length
    · obtain ⟨before, turn, _, _, -, hmakes, hsince⟩ := makes_of_traced htraces hn ht
      obtain ⟨u, hu, hold | ⟨p, hid, hregisters, hmade⟩⟩ := hmakes.made hclear hsince hs
      · obtain ⟨k, v, p, hk, hrest⟩ := ih u hu id s hold
        exact ⟨k, v, p, Nat.lt_succ_of_lt hk, hrest⟩
      · exact ⟨n, u, p, Nat.lt_succ_self n, hu, hid, hregisters.parent, hid ▸ hregisters.newest, hmade⟩
    · rw [List.take_of_length_le (by omega)] at ht
      obtain ⟨k, v, p, hk, hrest⟩ := ih t (by rwa [List.take_of_length_le (by omega)]) id s hs
      exact ⟨k, v, p, Nat.lt_succ_of_lt hk, hrest⟩

/-- If all commits can be traced, all records are exact, and none has a later id than the snapshot
that lists it. -/
theorem exact_of_registered (hclear : Unambiguous asked)
    (htraces : ∀ commits₁ c, commits₁ ++ [c] <+: commits →
      Traces asked root w₀ turns commits₁ c files) (n : Nat) :
    ∀ t, tableAfter? (commits.take n) = some t → ∀ id s, t.snapshots.find? id = some s →
      ∃ ms, s.Loads root files ms ∧
        ∀ b ∈ ms, b.1.IsExact root files t.spec ∧ b.1.addedSnapshotId ≤ id := by
  induction n using Nat.strongRecOn with
  | _ n ih =>
    intro t ht id s hs
    obtain ⟨k, u, p, hk, hu, hid, -, hnewest, hmade⟩ :=
      made_of_registered hclear htraces n t ht id s hs
    have hspec : t.spec = u.spec :=
      (extends_of_begins (List.take_prefix_take_left (Nat.le_of_lt hk)) hu ht).spec
    refine ⟨p.results u, hmade.loads, fun b hb => ?_⟩
    rw [hspec]
    rcases hmade.exact b hb with hcarried | ⟨hadded, hexact⟩
    · -- A record that is carried over is one of the parent, which is older.
      have hbase := List.mem_of_mem_filter hcarried
      rcases hmade.base with ⟨-, hnil⟩ | ⟨parent, hcurrent, hloads⟩
      · rw [hnil] at hbase
        exact absurd hbase List.not_mem_nil
      · obtain ⟨pid, -, hparent⟩ := Option.bind_eq_some_iff.1 hcurrent
        obtain ⟨ms, hms, hall⟩ := ih k hk u hu pid parent hparent
        obtain rfl := hms.unique hloads
        obtain ⟨hexact, hle⟩ := hall b hbase
        have hlt := hnewest pid (SortedMap.contains_iff.2 ⟨parent, hparent⟩)
        exact ⟨hexact, Int64.le_of_lt (Int64.lt_of_le_of_lt hle hlt)⟩
    · rw [hadded, ← hmade.id_eq, hid]
      exact ⟨hexact, Int64.le_refl id⟩

/-- What the snapshot of a table lists. Its records are exact and in the order of a plan, which
builds on the manifests of its parent; of these, none without a live entry is listed. -/
structure Lists (root : Location) (files : Tree) (t : Table) (s : Snapshot) (p : Table.Plan)
    (l : ManifestList) : Prop where
  read : perform root (FileM.loadManifestList s.manifestList) files = (.ok l, files)
  exact : ∀ r ∈ l.manifests, r.IsExact root files t.spec
  parent : t.ParentLoads root files s p.manifests
  order : s.id = p.id ∧ ∃ inherits, p.Orders t.spec inherits l.manifests
  dropped : ∀ b ∈ p.manifests, b.2.hasNoLiveEntries = true → b.1 ∉ l.manifests

/-- If all commits can be traced, a snapshot lists what its plan gives. -/
theorem lists_of_made (hclear : Unambiguous asked)
    (htraces : ∀ commits₁ c, commits₁ ++ [c] <+: commits →
      Traces asked root w₀ turns commits₁ c files) {k n : Nat} (hk : k ≤ n) {p : Table.Plan}
    (hu : tableAfter? (commits.take k) = some u) (ht : tableAfter? (commits.take n) = some t)
    (hs : t.snapshots.find? id = some s) (hid : s.id = id) (hparent : s.parentId = u.currentId)
    (hnewest : ∀ old, u.snapshots.contains old = true → old < id)
    (hmade : Table.Made root files u p s) : ∃ l, Lists root files t s p l := by
  have hextends := extends_of_begins (List.take_prefix_take_left hk) hu ht
  have hlineage := traced_induction htraces Table.HasLineage.new
    (fun _ _ h hfollows => h.of_follows hfollows) k u hu
  obtain ⟨ms, hms, hexact⟩ := exact_of_registered hclear htraces n t ht id s hs
  obtain rfl := hms.unique hmade.loads
  obtain ⟨l, hread, horder⟩ := hmade.orders
  obtain ⟨⟨l', hread', hrecords⟩, hloaded⟩ := FileM.perform_loadManifests_iff.1 hms
  obtain rfl : l' = l := Except.ok.inj (Prod.mk.inj (hread'.symm.trans hread)).1
  have hbase := hmade.base.parentLoads hlineage.current hparent hextends
  refine ⟨l', hread, fun r hr => ?_, hbase, ⟨hmade.id_eq, _, hextends.spec ▸ horder⟩,
    fun b hb hdead hlisted => ?_⟩
  · rw [hrecords] at hr
    obtain ⟨b, hb, rfl⟩ := List.mem_map.1 hr
    exact (hexact b hb).1
  · rw [hrecords] at hlisted
    obtain ⟨b', hb', hsame⟩ := List.mem_map.1 hlisted
    rcases hmade.base with ⟨-, hnil⟩ | ⟨parent, hcurrent, hloads⟩
    · rw [hnil] at hb
      exact absurd hb List.not_mem_nil
    · rcases hmade.exact b' hb' with hcarried | ⟨hadded, -⟩
      · -- The manifest is the one that is read from the record, so it is carried over itself.
        have hload := (FileM.perform_loadManifests_iff.1 hloads).2 b hb
        have hload' := hloaded b' hb'
        rw [hsame, hload] at hload'
        obtain rfl : b = b' := Except.ok.inj (Prod.mk.inj hload').1
        have hlive := (List.mem_filter.1 hcarried).2
        rw [hdead] at hlive
        exact absurd hlive (by simp)
      · -- The record was made with the snapshot, which is newer than its parent.
        obtain ⟨pid, -, hfind⟩ := Option.bind_eq_some_iff.1 hcurrent
        obtain ⟨ms, hms', hold⟩ := exact_of_registered hclear htraces k u hu pid parent hfind
        obtain rfl := hms'.unique hloads
        have hle := (hold b hb).2
        rw [← hsame, hadded, ← hmade.id_eq, hid] at hle
        have hlt := hnewest pid (SortedMap.contains_iff.2 ⟨parent, hfind⟩)
        exact absurd (Int64.lt_of_lt_of_le hlt hle) Int64.lt_irrefl

/-- What a turn of a run has left in the log and the files is there at the end of the run. -/
theorem begins_of_turn (hvacant : files.Vacant root) {before : List Turn}
    (hbefore : before ++ [turn] <+: turns)
    (hordered : (run root (start files) turns).Ordered root commits current)
    {commits₁ : List Commit} {current₁ : Nat}
    (hchain : Chain root ((run root (start files) before).step root turn).files commits₁ current₁) :
    commits₁ <+: commits ∧ ((run root (start files) before).step root turn).files.Grows everything
      root (run root (start files) turns).files := by
  obtain ⟨rest, rfl⟩ := hbefore
  rw [run_append, run_concat] at hordered ⊢
  obtain ⟨_, _, hturn⟩ := ordered_run hvacant (before ++ [turn])
  rw [run_concat] at hturn
  obtain ⟨_, _, hlast, hbegins, -, hproceeds⟩ := hturn.run rest
  obtain ⟨rfl, -⟩ := hturn.chain.unique hchain
  obtain ⟨rfl, -⟩ := hlast.chain.unique hordered.chain
  exact ⟨hbegins, hproceeds.grows⟩

/-- Whatever files a change of a turn began with, its snapshot lists what its plan gives, in the
files at the end of the run. -/
theorem lists_of_committed (hvacant : files.Vacant root) (hclear : Unambiguous asked)
    (hordered : (run root (start files) turns).Ordered root commits current)
    (htraces : ∀ commits₁ c, commits₁ ++ [c] <+: commits →
      Traces asked root (start files) turns commits₁ c (run root (start files) turns).files)
    {before : List Turn} (hbefore : before ++ [turn] <+: turns)
    (hsupplied : ((run root (start files) before).step root turn).files.Supplied asked root)
    {commits₀ : List Commit} {current₀ : Nat} {files₁ : Tree} {base : Option SnapshotId}
    {operation : Operation} {changes : FileChanges} {now : Calendar.Instant} {u : Table}
    {p : Table.Plan} {s : Snapshot} {t : Table} (hchain : Chain root files₁ commits₀ current₀)
    (hgrows : files₁.Grows asked root ((run root (start files) before).step root turn).files)
    (hcommit : Table.Committed asked root commits₀ current₀ base operation changes now files₁ u p s t
      ((run root (start files) before).step root turn).files) :
    t.snapshots.find? s.id = some s ∧
      ∃ l, Lists root (run root (start files) turns).files t s p l := by
  obtain ⟨c, -, hchain', htable⟩ := hcommit.wrote.written
  obtain ⟨hbegins, hsince⟩ := begins_of_turn hvacant hbefore hordered hchain'
  have hregisters := hcommit.registers
  have hs : t.snapshots.find? s.id = some s := by rw [hregisters.find?, if_pos rfl]
  have hmade := (hcommit.made hchain hgrows hsupplied hclear).grows hchain' hsince
  -- The tables before and after the change are those of two versions of the log.
  have htake : commits.take commits₀.length = commits₀ :=
    (List.prefix_iff_eq_take.1 ((List.prefix_append _ _).trans hbegins)).symm
  have htake' : commits.take (commits₀.length + 1) = commits₀ ++ [c] := by
    have hprefix := (List.prefix_iff_eq_take.1 hbegins).symm
    rwa [List.length_append, List.length_singleton] at hprefix
  have hu : tableAfter? (commits.take commits₀.length) = some u := by
    rw [htake, hcommit.wrote.latest]
  have ht : tableAfter? (commits.take (commits₀.length + 1)) = some t := by
    rw [htake', htable]
  exact ⟨hs, lists_of_made hclear htraces (Nat.le_succ _) hu ht hs rfl hregisters.parent
    hregisters.newest hmade⟩

/-- In every run, with any number of handles, failures and stops, the records of the manifests of
every snapshot are exact, in every table that is kept or replayed: they are in the order of a plan
on the manifests of the parent, from which those without live entries are dropped. If the snapshot
was given by a call that ended, the plan is the one for the change that the call asked for: its
files and staged manifests are those requested, in their order. It is assumed that the contents
which the turns ask to be stored can be told apart by their names. -/
theorem records_are_exact (hvacant : files.Vacant root) (turns : List Turn)
    (hclear : Unambiguous asked)
    (hasked : ∀ before turn, before ++ [turn] <+: turns →
      ∀ r ∈ (run root (start files) before).wants root turn, asked r) :
    (∀ t, (run root (start files) turns).Has root t → ∀ id s, t.snapshots.find? id = some s →
      ∃ p l, Lists root (run root (start files) turns).files t s p l) ∧
    ∀ before turn, before ++ [turn] <+: turns → ∀ r handle call kept s,
      ((run root (start files) before).step root turn).history =
        r :: (run root (start files) before).history →
      turn.event = .call handle call → (run root (start files) before).handles handle = some kept →
      r.result = .ok (.snapshot s) →
      ∃ t u p l, r.after = some t ∧ t.snapshots.find? s.id = some s ∧
        Lists root (run root (start files) turns).files t s p l ∧
        (∀ change, call.change? kept = some change →
          Table.Planned root (run root (start files) before).files u change.operation
            change.changes p) ∧
        ∀ directory, call = .intake directory →
          p.added = [] ∧ ∃ path, p.staged.map Table.Staged.path = [path] := by
  obtain ⟨commits, current, hordered, -, -, htraces⟩ := traced_run hvacant turns hasked
  constructor
  · intro t ht id s hs
    have htable := (hordered.table_of_has ht).2
    obtain ⟨k, u, p, hk, hu, hid, hparent, hnewest, hmade⟩ :=
      made_of_registered hclear htraces _ t htable id s hs
    obtain ⟨l, hl⟩ := lists_of_made hclear htraces (Nat.le_of_lt hk) hu htable hs hid hparent
      hnewest hmade
    exact ⟨p, l, hl⟩
  · intro before turn hbefore r handle call kept s hdone hevent hkept hresult
    have hasked' : ∀ before' turn', before' ++ [turn'] <+: before →
        ∀ r ∈ (run root (start files) before').wants root turn', asked r :=
      fun before' turn' h => hasked before' turn' (h.trans ((List.prefix_append _ _).trans hbefore))
    obtain ⟨commits₀, current₀, hordered₀, hsupplied₀, -, -⟩ := traced_run hvacant before hasked'
    obtain ⟨-, hdeed, hproceeds⟩ := hordered₀.deed_of_history hdone (hasked before turn hbefore)
    have hlists := fun {files₁ base operation changes u p t} =>
      @lists_of_committed asked root files commits current turn turns hvacant hclear hordered
        htraces before hbefore (hsupplied₀.grows hproceeds.grows) commits₀ current₀ files₁ base
        operation changes turn.now u p s t
    rw [hevent, hresult] at hdeed
    generalize r.after = after at hdeed ⊢
    generalize ((run root (start files) before).step root turn).files = files' at *
    cases hdeed with
    | opened hopens => exact absurd hopens (by simp [Event.opens])
    | @called _ _ _ _ t _ hcopy heffect =>
      obtain rfl := Option.some.inj (hkept.symm.trans hcopy)
      cases heffect with
      | @committed _ _ u p _ _ _ hasks hcommit =>
        obtain ⟨hs, l, hl⟩ := hlists hordered₀.chain hproceeds.grows hcommit
        refine ⟨t, u, p, l, rfl, hs, hl, fun change hchange => ?_, fun directory hintake => ?_⟩
        · obtain rfl := Option.some.inj (hasks.symm.trans hchange)
          exact hcommit.planned
        · rw [hintake] at hasks
          exact absurd hasks (by simp [Call.change?])
      | @tookIn _ _ _ _ _ u p _ _ _ _ _ _ hchain _ _ hcommit hbehind =>
        obtain ⟨hs, l, hl⟩ := hlists hchain hbehind.grows hcommit
        refine ⟨t, u, p, l, rfl, hs, hl, fun change hchange => ?_, fun directory hintake => ?_⟩
        · exact absurd hchange (by simp [Call.change?])
        · exact ⟨hcommit.planned.added, _, hcommit.planned.stagedPaths.symm⟩

end World

namespace Days

open World

/-- The snapshots of `carried` but the first, with their manifests: one is adopted, this is rewritten
when a file is deleted, and what was written is carried over. -/
def recorded : List (SnapshotId × List (ManifestRecord × Manifest)) :=
  [(2, begun.manifestsAfter (adding 2)), (3, filled.manifestsAfter deleting),
    (4, thinned.manifestsAfter carrying)]

theorem loads_recorded : ∀ entry ∈ recorded, ∃ s, carried.snapshots.find? entry.1 = some s ∧
    s.Loads ⟨"."⟩ (world 6).files entry.2 := by
  have hfilled : (begun.snapshotOf (adding 2) .append default).Loads ⟨"."⟩ (world 4).files _ :=
    known_filled.loads rfl rfl
  have hthinned : (filled.snapshotOf deleting .delete default).Loads ⟨"."⟩ (world 5).files _ :=
    known_thinned.loads rfl rfl
  have hcarried : (thinned.snapshotOf carrying .append default).Loads ⟨"."⟩ (world 6).files _ :=
    known_carried.loads rfl rfl
  simp only [recorded, List.forall_mem_cons, List.not_mem_nil, false_imp_iff, implies_true, and_true]
  exact ⟨⟨_, rfl, loads_later hfilled 2⟩, ⟨_, rfl, loads_later hthinned 1⟩, _, rfl, hcarried⟩

theorem records_are_exact_carried : Tree.empty.Vacant ⟨"."⟩ ∧
    run ⟨"."⟩ (start .empty) (turns.take 6) = world 6 ∧
    Unambiguous (· ∈ (world 6).requests) ∧ (world 6).handles 0 = some carried ∧
    recorded.map (fun entry => entry.2.map fun b => b.1.path) =
      [[stagedPath], [Layout.manifestPath (FileM.manifestContent rewritten)],
        [Layout.manifestPath (FileM.manifestContent rewritten)]] ∧
    ∀ entry ∈ recorded, ∃ s p l, carried.snapshots.find? entry.1 = some s ∧
      l.manifests = entry.2.map Prod.fst ∧ Lists ⟨"."⟩ (world 6).files carried s p l := by
  have hcopy := known_carried.stands.copy
  have hclear := known_carried.stands.unambiguous unambiguous
  have hrun : run ⟨"."⟩ (start .empty) (turns.take 6) = world 6 := world_eq 6
  have hlists := (@records_are_exact (· ∈ (world 6).requests) ⟨"."⟩ .empty Tree.vacant_empty
    (turns.take 6) hclear
    (fun before turn hbefore => by rw [← hrun]; exact wants_mem_requests (ends 6) hbefore)).1
  rw [hrun] at hlists
  refine ⟨Tree.vacant_empty, hrun, hclear, hcopy, rfl, fun entry hentry => ?_⟩
  obtain ⟨s, hs, hloads⟩ := loads_recorded entry hentry
  obtain ⟨p, l, hl⟩ := hlists carried (.kept hcopy) entry.1 s hs
  obtain ⟨⟨l', hread, hrecords⟩, -⟩ := FileM.perform_loadManifests_iff.1 hloads
  obtain rfl := Except.ok.inj (Prod.mk.inj (hl.read.symm.trans hread)).1
  exact ⟨s, p, l, hs, hrecords, hl⟩

end Days

end Lakehouse
