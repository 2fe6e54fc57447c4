import Lakehouse.Proofs.Run.Course
import Lakehouse.Proofs.Table.Lineage

/- Lineage in runs.

   Whatever runs, fails or stops, each commit of a log lets the table go on in one of the ways
   that keep a lineage sound (`Makes.follows`), because a change names the current snapshot of
   the table that it was planned for, and takes an id behind all others. So the lineage of
   every table is sound that is kept by a handle or replayed up to some version, and of any two
   such tables the later one goes on from the earlier one (`lineage_is_sound`). -/
namespace Lakehouse

open Contract Log Script

variable {asked : Request → Prop} {root : Location} {files files' : Tree} {commits : List Commit}
  {current : Nat} {now : Calendar.Instant} {t u : Table}

/-- A change makes a new snapshot current, of which the parent was current before. -/
theorem Table.Committed.registers {base : Option SnapshotId} {operation : Operation}
    {changes : FileChanges} {p : Plan} {s : Snapshot}
    (h : Committed asked root commits current base operation changes now files u p s t files') :
    u.Registers s t := by
  have hs : s.parentId = base ∧ s.timestamp = now := by
    rw [h.snapshot]
    exact ⟨rfl, rfl⟩
  refine ⟨fun id hid => ?_, ?_, h.snapshots_eq, h.currentId_eq, ?_⟩
  · rw [h.id_eq]
    exact lt_of_nextId h.planned.next hid
  · rw [hs.1, h.based]
  · rw [h.table_eq, hs.2, h.based]
    rfl

/-- A move of the pointer makes a registered snapshot current. -/
theorem Log.Wrote.returns {target : SnapshotId} (hregistered : u.snapshots.contains target = true)
    (h : Wrote root commits current [.moveCurrent target none now] u t files') :
    u.Returns target now t := by
  obtain ⟨v, hv, rfl⟩ := h.applied
  rw [Table.applyAll_move hregistered] at hv
  obtain rfl := Except.ok.inj hv
  exact ⟨hregistered, rfl, rfl, rfl⟩

/-- An update of properties leaves snapshots and moves alone. -/
theorem Log.Wrote.stays {set : Properties} {remove : List String}
    (h : Wrote root commits current [.updateProperties set remove] u t files') : u.Stays t := by
  obtain ⟨v, hv, rfl⟩ := h.applied
  obtain rfl := Except.ok.inj hv
  exact ⟨rfl, rfl, rfl⟩

/-- An addition to a log that has commits lets its table go on. -/
theorem Addition.follows (h : Addition asked root commits current now files t files')
    (hu : tableAfter? commits = some u) : u.Follows t := by
  have hlast : ∀ {actions v}, Wrote root commits current actions v t files' → v = u :=
    fun hwrote => Option.some.inj (hwrote.latest.symm.trans hu)
  cases h with
  | created hfirst =>
    subst hfirst
    exact absurd (pos_of_table hu) (Nat.lt_irrefl 0)
  | changed _ _ hcommit =>
    obtain rfl := hlast hcommit.wrote
    exact .registers hcommit.registers
  | moved hregistered hwrote =>
    obtain rfl := hlast hwrote
    exact .returns (hwrote.returns hregistered)
  | updated hwrote =>
    obtain rfl := hlast hwrote
    exact .stays hwrote.stays

/-- The first addition to a log makes a new table. -/
theorem Addition.new (h : Addition asked root [] current now files t files') :
    ∃ m, t = .new 1 m := by
  have hnot : ∀ {actions v}, ¬ Wrote root [] current actions v t files' :=
    fun hwrote => absurd (pos_of_table hwrote.latest) (Nat.lt_irrefl 0)
  cases h with
  | created _ hnew => exact ⟨_, hnew⟩
  | changed _ _ hcommit => exact absurd hcommit.wrote hnot
  | moved _ hwrote => exact absurd hwrote hnot
  | updated hwrote => exact absurd hwrote hnot

namespace Event.Deed

variable {handles : Nat → Option Table} {handle : Nat} {call : Call} {after : Option Table}

/-- A call that gives a snapshot has registered it. -/
theorem registers {s : Snapshot} (h : Chain root files commits current)
    (hdeed : (Event.call handle call).Deed asked root commits current now handles files
      (.ok (.snapshot s), after) files') :
    ∃ u t, perform root rebuild files = (.ok u, files) ∧ after = some t ∧ u.Registers s t := by
  cases hdeed with
  | called _ heffect =>
    cases heffect with
    | committed _ hcommit =>
      exact ⟨_, _, Table.perform_loadLatest hcommit.read, rfl, hcommit.registers⟩
    | tookIn _ _ _ hchain _ _ hcommit _ =>
      have hread := Table.perform_loadLatest_of_chain h hchain hcommit.read
      exact ⟨_, _, Table.perform_loadLatest hread, rfl, hcommit.registers⟩
  | opened hopens => exact absurd hopens (by simp [opens])

/-- A call that goes back to a snapshot has moved the pointer there. -/
theorem returns {target : SnapshotId} {a : Answer}
    (hcall : call = .rollback target ∨ call = .setCurrent target)
    (hdeed : (Event.call handle call).Deed asked root commits current now handles files
      (.ok a, after) files') :
    ∃ u t, perform root rebuild files = (.ok u, files) ∧ after = some t ∧
      u.Returns target now t := by
  cases hdeed with
  | called _ heffect =>
    rcases hcall with rfl | rfl
    · cases heffect with
      | committed hasks => exact absurd hasks (by simp [Call.change?])
      | rolledBack hread hregistered _ hwrote =>
        exact ⟨_, _, Table.perform_loadLatest hread, rfl, hwrote.returns hregistered⟩
    · cases heffect with
      | committed hasks => exact absurd hasks (by simp [Call.change?])
      | moved hread hregistered hwrote =>
        exact ⟨_, _, Table.perform_loadLatest hread, rfl, hwrote.returns hregistered⟩
  | opened hopens => exact absurd hopens (by simp [opens])

end Event.Deed

namespace World

variable {w w₀ : World} {turns : List Turn}

/-- A handle keeps the table, or it can be replayed up to some version. -/
inductive Has (root : Location) (w : World) (t : Table) : Prop where
  | kept {handle : Nat} (h : w.handles handle = some t)
  | replayed {v : Version} (h : perform root (rebuildAt v) w.files = (.ok t, w.files))

theorem Ordered.table_of_has (h : w.Ordered root commits current) (ht : w.Has root t) :
    t.version.toNat ≤ commits.length ∧ tableAfter? (commits.take t.version.toNat) = some t := by
  cases ht with
  | kept hhandle =>
    have hreplica := h.replicas _ t hhandle
    exact ⟨Nat.le_trans hreplica.version_le h.chain.current_le, hreplica.table⟩
  | @replayed v hread =>
    obtain ⟨hle, htable⟩ := table_of_rebuildAt h.chain hread
    obtain ⟨u, -, rfl⟩ := tableAfter?_eq_some htable
    have hversion : UInt64.ofNat (commits.take v.toNat).length = v := by
      rw [List.length_take, Nat.min_eq_left hle, UInt64.ofNat_toNat]
    rw [hversion] at htable ⊢
    exact ⟨hle, htable⟩

/-- If all commits can be traced, what is new at first and lasts when tables go on holds of every
table of the log. -/
theorem traced_induction {p : Table → Prop}
    (htraces : ∀ commits₁ c, commits₁ ++ [c] <+: commits →
      Traces asked root w₀ turns commits₁ c files)
    (hnew : ∀ version m, p (.new version m)) (hfollows : ∀ t t', p t → t.Follows t' → p t')
    (n : Nat) : ∀ t, tableAfter? (commits.take n) = some t → p t := by
  induction n with
  | zero =>
    intro t ht
    exact absurd (pos_of_table ht) (by simp)
  | succ n ih =>
    intro t ht
    by_cases hn : n < commits.length
    · obtain ⟨_, _, _, _, -, hmakes, -⟩ := makes_of_traced htraces hn ht
      -- Behind the first commit there is a table, which goes on.
      cases hcommits : commits.take n with
      | nil =>
        have hadds := hmakes.addition
        rw [hcommits] at hadds
        obtain ⟨m, rfl⟩ := hadds.new
        exact hnew 1 m
      | cons c rest =>
        have hpos : 0 < n := by
          rw [Nat.pos_iff_ne_zero]
          rintro rfl
          exact absurd hcommits (by simp)
        obtain ⟨u, hu⟩ := hmakes.ordered.chain.replays n hpos (by simp; omega)
        rw [List.take_take, Nat.min_self] at hu
        exact hfollows u t (ih u hu) (hmakes.addition.follows hu)
    · rw [List.take_of_length_le (by omega)] at ht
      exact ih t (by rwa [List.take_of_length_le (by omega)])

/-- If all commits can be traced, tables of consecutive versions follow each other. -/
theorem follows_of_traced
    (htraces : ∀ commits₁ c, commits₁ ++ [c] <+: commits →
      Traces asked root w₀ turns commits₁ c files) {n : Nat} {t t' : Table}
    (hn : n < commits.length) (ht : tableAfter? (commits.take n) = some t)
    (ht' : tableAfter? (commits.take (n + 1)) = some t') : t.Follows t' := by
  obtain ⟨_, _, _, _, -, hmakes, -⟩ := makes_of_traced htraces hn ht'
  exact hmakes.addition.follows ht

/-- If all commits can be traced, a table goes on from that of every earlier version. -/
theorem precedes_of_traced
    (htraces : ∀ commits₁ c, commits₁ ++ [c] <+: commits →
      Traces asked root w₀ turns commits₁ c files)
    (hreplays : ∀ n, 0 < n → n ≤ commits.length → ∃ t, tableAfter? (commits.take n) = some t)
    {n : Nat} {t : Table} (ht : tableAfter? (commits.take n) = some t) (more : Nat) :
    n + more ≤ commits.length →
    ∀ t', tableAfter? (commits.take (n + more)) = some t' → t.Precedes t' := by
  induction more with
  | zero =>
    intro _ t' ht'
    obtain rfl := Option.some.inj (ht.symm.trans ht')
    exact .refl t
  | succ more ih =>
    intro hle t' ht'
    have hpos := pos_of_table ht
    rw [List.length_take] at hpos
    obtain ⟨u, hu⟩ := hreplays (n + more) (by omega) (by omega)
    exact (ih (by omega) u hu).trans (follows_of_traced htraces hle hu ht').precedes

/-- In every run, with any number of handles, failures and stops, the lineage is sound of every
table that is kept by a handle or replayed up to some version, and parent links come to an end.
A table of a later version, now or after more turns, has the moves of the pointer and the
snapshots of an earlier one, with new moves behind them, and snapshots with greater ids; from
one version to the next, a new snapshot becomes current, or a registered one, or nothing of this
changes. A change that succeeds registers the snapshot that it gives, with the current one as
its parent; going back to a snapshot is a move without a parent. -/
theorem lineage_is_sound (hvacant : files.Vacant root) (turns : List Turn) :
    (∀ t, (run root (start files) turns).Has root t →
      t.HasLineage ∧ WellFounded fun parent id => t.snapshots.Links id parent) ∧
    (∀ later t t', (run root (start files) turns).Has root t →
      (run root (start files) (turns ++ later)).Has root t' → t.version ≤ t'.version →
      t.Precedes t') ∧
    (∀ t t', (run root (start files) turns).Has root t →
      (run root (start files) turns).Has root t' → t'.version = t.version + 1 → t.Follows t') ∧
    ∀ turn r handle call, ((run root (start files) turns).step root turn).history =
        r :: (run root (start files) turns).history → r.event = .call handle call →
      (∀ s, r.result = .ok (.snapshot s) → ∃ u t,
        perform root rebuild (run root (start files) turns).files =
          (.ok u, (run root (start files) turns).files) ∧
        r.after = some t ∧ u.Registers s t) ∧
      ∀ target a, call = .rollback target ∨ call = .setCurrent target → r.result = .ok a →
        ∃ u t, perform root rebuild (run root (start files) turns).files =
          (.ok u, (run root (start files) turns).files) ∧
        r.after = some t ∧ u.Returns target turn.now t := by
  have hasked : ∀ turns' : List Turn, ∀ before turn, before ++ [turn] <+: turns' →
      ∀ r ∈ (run root (start files) before).wants root turn, everything r :=
    fun _ _ _ _ _ _ => trivial
  obtain ⟨commits, current, hordered, -, -, htraces⟩ := traced_run hvacant turns (hasked turns)
  refine ⟨fun t ht => ?_, fun later t t' ht ht' hle => ?_, fun t t' ht ht' hnext => ?_,
    fun turn r handle call hdone hcall => ?_⟩
  · have hlineage := traced_induction htraces Table.HasLineage.new
      (fun _ _ h hfollows => h.of_follows hfollows) _ t (hordered.table_of_has ht).2
    exact ⟨hlineage, hlineage.wellFounded⟩
  · obtain ⟨commits', current', hordered', -, -, htraces'⟩ :=
      traced_run hvacant (turns ++ later) (hasked (turns ++ later))
    -- The log has gone on, so the earlier table is one of the longer log.
    obtain ⟨_, _, hlast, hbegins, -⟩ := hordered.run later
    rw [← run_append] at hlast
    obtain ⟨rfl, rfl⟩ := hlast.chain.unique hordered'.chain
    obtain ⟨hshort, htable⟩ := hordered.table_of_has ht
    obtain ⟨hshort', htable'⟩ := hordered'.table_of_has ht'
    rw [UInt64.le_iff_toNat_le] at hle
    obtain ⟨more, hmore⟩ := Nat.exists_eq_add_of_le hle
    obtain ⟨rest, rfl⟩ := hbegins
    rw [hmore] at htable' hshort'
    refine precedes_of_traced htraces' hordered'.chain.replays ?_ more hshort' t' htable'
    rwa [List.take_append_of_le_length hshort]
  · obtain ⟨hshort, htable⟩ := hordered.table_of_has ht
    obtain ⟨hshort', htable'⟩ := hordered.table_of_has ht'
    have hpos := pos_of_table htable'
    have hlt := hordered.chain.length_lt
    have hversion : t'.version.toNat = t.version.toNat + 1 := by
      rw [hnext, UInt64.toNat_add]
      rw [hnext, UInt64.toNat_add, List.length_take] at hpos
      -- The version after the greatest would be zero, and there is no table then.
      have hone : (1 : Version).toNat = 1 := rfl
      rw [hone] at hpos ⊢
      have hbound := t.version.toNat_lt
      omega
    rw [hversion] at htable' hshort'
    exact follows_of_traced htraces hshort' htable htable'
  · obtain ⟨hevent, hdeed, -⟩ := hordered.deed_of_history hdone (fun _ _ => (trivial : everything _))
    rw [← hevent, hcall] at hdeed
    refine ⟨fun s hs => ?_, fun target a hback ha => ?_⟩
    · rw [hs] at hdeed
      exact hdeed.registers hordered.chain
    · rw [ha] at hdeed
      exact hdeed.returns hback

end World

open Days World in
/-- Four snapshots, each with the one before as its parent; then the first is made current again, and
a fifth is made of it. -/
theorem Days.lineage_is_sound_carried : Tree.empty.Vacant ⟨"."⟩ ∧
    run ⟨"."⟩ (start .empty) (turns.take 6) = world 6 ∧ (world 6).handles 0 = some carried ∧
    carried.HasLineage ∧
    carried.snapshots.toList.map (fun entry => (entry.1, entry.2.parentId)) =
      [(1, none), (2, some 1), (3, some 2), (4, some 3)] ∧
    run ⟨"."⟩ (start .empty) (turns.take 6 ++ (turns.drop 6).take 2) = world 8 ∧
    (world 8).handles 0 = some refilled ∧ carried.Precedes refilled ∧
    (refilled.snapshots.find? 5).map Snapshot.parentId = some (some 1) ∧
    (world 6).step ⟨"."⟩ ⟨.call 0 (.setCurrent SnapshotId.first), default, none⟩ = world 7 ∧
    carried.Returns SnapshotId.first default returned := by
  have hcopy := known_carried.stands.copy
  have hcopy' := known_refilled.stands.copy
  have hrun : run ⟨"."⟩ (start .empty) (turns.take 6) = world 6 := world_eq 6
  have hrun' : run ⟨"."⟩ (start .empty) (turns.take 6 ++ (turns.drop 6).take 2) = world 8 :=
    world_add 6 2
  have hstep : (world 6).step ⟨"."⟩ ⟨.call 0 (.setCurrent SnapshotId.first), default, none⟩ =
      world 7 := (world_succ (turns_eq 6)).symm
  have hdone : (world 7).history = _ :: (world 6).history :=
    known_returned.remembered.trans (congrArg (_ :: ·) known_carried.remembered.symm)
  obtain ⟨hlineage, hprecedes, -, hcalls⟩ := lineage_is_sound Tree.vacant_empty (turns.take 6)
  have hprecedes := hprecedes ((turns.drop 6).take 2)
  rw [hrun] at hlineage hprecedes hcalls
  rw [hrun'] at hprecedes
  have hreturns := (hcalls ⟨.call 0 (.setCurrent SnapshotId.first), default, none⟩ _ 0 _
    (by rw [hstep]; exact hdone) rfl).2 SnapshotId.first .done (.inr rfl) rfl
  obtain ⟨u, t, hread, ht, hreturns⟩ := hreturns
  obtain rfl := Except.ok.inj (Prod.mk.inj (known_carried.stands.rebuilt.symm.trans hread)).1
  obtain rfl := Option.some.inj ht
  exact ⟨Tree.vacant_empty, hrun, hcopy, (hlineage carried (.kept hcopy)).1, rfl, hrun', hcopy',
    hprecedes carried refilled (.kept hcopy) (.kept hcopy') (by decide), rfl, hstep, hreturns⟩

end Lakehouse
