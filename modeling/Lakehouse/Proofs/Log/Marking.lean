import Lakehouse.Proofs.Log.Acceptance

/- When the marks of moves are right.

   Each move of the pointer marks all moves anew, by the parent links of the snapshots that are
   registered by then. A snapshot that is registered behind the last move adds its own link to
   these, and no mark is changed (`Table.MarkedWith.step`). So what is marked is an ancestor of
   the current snapshot, but an ancestor is not marked if all parent links that lead to it go
   through such a snapshot, and then only (`mark_wrong_iff`). This does happen if a parent is
   registered behind its child (`late_parent_leaves_mark`). -/
namespace Lakehouse

open Log

namespace Log

/-- The snapshots that the actions register behind the last move of the pointer. -/
def registeredLast (actions : List Action) : List Snapshot :=
  registered (actions.reverse.takeWhile fun a => a.moves?.isNone)

theorem registeredLast_concat (actions : List Action) (a : Action) :
    registeredLast (actions ++ [a]) =
      if a.moves?.isNone then registered [a] ++ registeredLast actions else [] := by
  rw [registeredLast, List.reverse_concat, List.takeWhile_cons]
  split
  · rw [← List.singleton_append, registered_append]
    rfl
  · rfl

end Log

/-- What is reached by more links is reached by the old ones, or by way of where a new one begins. -/
theorem Snapshots.Reaches.by_way {old new : Snapshots} {late : List Snapshot} {id target : SnapshotId}
    (hlinks : ∀ id parent, new.Links id parent →
      old.Links id parent ∨ ∃ s ∈ late, s.id = id ∧ s.parentId = some parent)
    (h : new.Reaches id target) :
    old.Reaches id target ∨ ∃ s ∈ late, new.Reaches id s.id ∧ new.Reaches s.id target := by
  induction h with
  | refl => exact .inl .refl
  | tail hreaches hlink ih =>
    rcases ih with hold | ⟨s, hs, hto, hfrom⟩
    · rcases hlinks _ _ hlink with hlink' | ⟨s, hs, rfl, -⟩
      · exact .inl (hold.tail hlink')
      · exact .inr ⟨s, hs, hreaches, .single hlink⟩
    · exact .inr ⟨s, hs, hto, hfrom.tail hlink⟩

namespace Table

variable {t u : Table} {a : Action} {actions : List Action} {old : Snapshots} {late : List Snapshot}

/-- The moves of the table are marked by the links of the old snapshots. The links of the late ones
are all there is besides. -/
structure MarkedWith (old : Snapshots) (late : List Snapshot) (t : Table) : Prop where
  marked : ∀ m ∈ t.history, m.isCurrentAncestor = true ↔
    ∃ id, t.currentId = some id ∧ old.Reaches id m.snapshotId
  links : ∀ id parent, t.snapshots.Links id parent ↔
    old.Links id parent ∨ ∃ s ∈ late, s.id = id ∧ s.parentId = some parent

/-- A snapshot that is registered brings its own link. -/
theorem links_insert {s : Snapshot} (hfresh : t.snapshots.contains s.id = false)
    (id parent : SnapshotId) : Snapshots.Links (t.snapshots.insert s.id s) id parent ↔
      (s.id = id ∧ s.parentId = some parent) ∨ t.snapshots.Links id parent := by
  unfold Snapshots.Links Snapshots.parent?
  rw [SortedMap.find?_insert_eq]
  by_cases hid : id = s.id
  · subst hid
    have hnone : t.snapshots.find? s.id = none := by simpa [SortedMap.contains] using hfresh
    simp [hnone]
  · simp [hid, Ne.symm hid]

/-- One more action: a move marks anew, by all snapshots that are registered; anything else leaves
the marks, and a registration adds one more late snapshot. -/
theorem MarkedWith.step (h : t.MarkedWith old (registeredLast actions)) (ha : t.apply a = .ok u) :
    ∃ old', u.MarkedWith old' (registeredLast (actions ++ [a])) := by
  rw [registeredLast_concat]
  cases a with
  | create m => exact absurd ha (by simp [apply])
  | updateProperties set remove =>
    obtain rfl := Except.ok.inj ha
    exact ⟨old, h.marked, h.links⟩
  | addSnapshot s =>
    have hfresh := (exists_apply_iff.1 ⟨u, ha⟩).fresh s rfl
    rw [apply, hfresh] at ha
    obtain rfl := Except.ok.inj ha
    refine ⟨old, h.marked, fun id parent => ?_⟩
    rw [links_insert hfresh, h.links, or_left_comm]
    simp [registered, Action.registers?, Action.moves?]
  | moveCurrent target parentId time =>
    have hknown := (exists_apply_iff.1 ⟨u, ha⟩).known _ rfl
    rw [apply, if_pos hknown] at ha
    obtain rfl := Except.ok.inj ha
    exact ⟨t.snapshots, fun m hm => marked_iff hm, fun id parent => by simp [moveCurrent, Action.moves?]⟩

/-- Many more actions. -/
theorem MarkedWith.steps (h : t.MarkedWith old (registeredLast actions)) {later : List Action}
    (hall : t.applyAll later = .ok u) : ∃ old', u.MarkedWith old' (registeredLast (actions ++ later)) := by
  induction later generalizing t old actions with
  | nil =>
    obtain rfl := Except.ok.inj hall
    exact ⟨old, by rwa [List.append_nil]⟩
  | cons a later ih =>
    obtain ⟨v, ha, hrest⟩ := applyAll_cons_eq_ok.1 hall
    obtain ⟨old', hv⟩ := h.step ha
    rw [List.append_cons]
    exact ih hv hrest

/-- What is marked is an ancestor. -/
theorem MarkedWith.sound (h : t.MarkedWith old late) {m : PointerMove} (hm : m ∈ t.history)
    (hmarked : m.isCurrentAncestor = true) : t.isCurrentAncestor m.snapshotId = true := by
  obtain ⟨id, hid, hreaches⟩ := (h.marked m hm).1 hmarked
  refine isCurrentAncestor_iff.2 ⟨id, hid, ?_⟩
  exact Relation.ReflTransGen.mono (fun id parent hlink => (h.links id parent).2 (.inl hlink)) _ _ hreaches

/-- An ancestor that is not marked is reached by way of a late snapshot. -/
theorem MarkedWith.complete (h : t.MarkedWith old late) {m : PointerMove} (hm : m ∈ t.history)
    (hin : t.isCurrentAncestor m.snapshotId = true) :
    m.isCurrentAncestor = true ∨
      ∃ s ∈ late, t.isCurrentAncestor s.id = true ∧ t.snapshots.Reaches s.id m.snapshotId := by
  obtain ⟨id, hid, hreaches⟩ := isCurrentAncestor_iff.1 hin
  rcases hreaches.by_way fun id parent => (h.links id parent).1 with hold | ⟨s, hs, hto, hfrom⟩
  · exact .inl ((h.marked m hm).2 ⟨id, hid, hold⟩)
  · exact .inr ⟨s, hs, isCurrentAncestor_iff.2 ⟨id, hid, hto⟩, hfrom⟩

/-- What an ancestor reaches is an ancestor. -/
theorem isCurrentAncestor_trans {id target : SnapshotId} (hid : t.isCurrentAncestor id = true)
    (h : t.snapshots.Reaches id target) : t.isCurrentAncestor target = true := by
  obtain ⟨current, hcurrent, hreaches⟩ := isCurrentAncestor_iff.1 hid
  exact isCurrentAncestor_iff.2 ⟨current, hcurrent, hreaches.trans h⟩

/-- Marking anew changes nothing if and only if each mark says whether its snapshot is an ancestor. -/
theorem markAncestors_eq_iff : markAncestors t.history t.currentId t.snapshots = t.history ↔
    ∀ m ∈ t.history, m.isCurrentAncestor = t.isCurrentAncestor m.snapshotId := by
  rw [markAncestors]
  conv_lhs => rhs; rw [← List.map_id t.history]
  rw [List.map_inj_left]
  refine forall₂_congr fun m _ => ?_
  constructor
  · intro h
    exact (congrArg PointerMove.isCurrentAncestor h).symm
  · intro h
    cases m
    exact congrArg _ h.symm

end Table

namespace Log

variable {root : Location} {files : Tree} {t : Table} {v : Version} {commits : List Commit}

/-- The table that is read from a log is marked by the links of the snapshots that were registered
before the last move. -/
theorem exists_markedWith (hread : Script.perform root rebuild files = (.ok t, files))
    (hlogged : Logged root files v commits) :
    ∃ old, t.MarkedWith old (registeredLast (actionsOf commits)) := by
  obtain ⟨-, w, commits', hlogged', htable⟩ := perform_rebuild_iff.1 hread
  obtain ⟨-, rfl⟩ := hlogged.unique hlogged'
  obtain ⟨m, actions, hactions, hall⟩ := tableAfter?_eq_some_iff.1 htable
  rw [hactions]
  have hnone : registeredLast [.create m] = [] := rfl
  have hnew : (Table.new (UInt64.ofNat commits.length) m).MarkedWith .empty
      (registeredLast [.create m]) :=
    ⟨fun _ hm => absurd hm List.not_mem_nil, fun id parent => by simp [hnone, Table.new]⟩
  exact hnew.steps hall

/-- Whatever the log is, as long as it can be read: the mark of a move in its table is wrong if and
only if it is not set, and parent links lead from the current snapshot to that of the move by way
of one that was registered behind the last move; and marking anew changes nothing if and only if no
mark is wrong. -/
theorem mark_wrong_iff (hread : Script.perform root rebuild files = (.ok t, files))
    (hlogged : Logged root files v commits) :
    (∀ m ∈ t.history, m.isCurrentAncestor ≠ t.isCurrentAncestor m.snapshotId ↔
      m.isCurrentAncestor = false ∧ ∃ s ∈ registeredLast (actionsOf commits),
        t.isCurrentAncestor s.id = true ∧ t.snapshots.Reaches s.id m.snapshotId) ∧
    (markAncestors t.history t.currentId t.snapshots = t.history ↔
      ∀ m ∈ t.history, m.isCurrentAncestor = t.isCurrentAncestor m.snapshotId) := by
  obtain ⟨old, hmarked⟩ := exists_markedWith hread hlogged
  refine ⟨fun m hm => ⟨fun hwrong => ?_, ?_⟩, Table.markAncestors_eq_iff⟩
  · cases hmark : m.isCurrentAncestor with
    | true => exact absurd (hmark.trans (hmarked.sound hm hmark).symm) hwrong
    | false =>
      have hin : t.isCurrentAncestor m.snapshotId = true := by simpa [hmark] using hwrong
      exact ⟨rfl, (hmarked.complete hm hin).resolve_left (by simp [hmark])⟩
  · rintro ⟨hmark, s, -, hs, hreaches⟩ hright
    exact absurd (hmark.symm.trans hright) (by simp [Table.isCurrentAncestor_trans hs hreaches])

/-! ### Logs with snapshots that do not become current -/

/-- A first commit that makes a table without columns and goes on with the actions. -/
def creating (actions : List Action) : Commit :=
  ⟨1, 0, default, .create ⟨⟨[], .nil⟩, .unpartitioned, .empty, default, 1⟩ :: actions⟩

/-- The child of the current snapshot is registered and does not become current: it is no ancestor,
and the mark of the one move is right. -/
theorem mark_wrong_iff_child :
    let c := creating [.addSnapshot (bare 1 none), .moveCurrent 1 none default,
      .addSnapshot (bare 2 (some 1))]
    ∃ t, Script.perform ⟨"."⟩ rebuild (oneCommit c) = (.ok t, oneCommit c) ∧
      Logged ⟨"."⟩ (oneCommit c) 1 [c] ∧ registeredLast (actionsOf [c]) = [bare 2 (some 1)] ∧
      markAncestors t.history t.currentId t.snapshots = t.history := by
  intro c
  have hlogged : Logged ⟨"."⟩ (oneCommit c) 1 [c] := logged_oneCommit rfl
  have htable : tableAfter? [c] = some ((tableAfter? [c]).get (by decide)) := by decide
  have hread := perform_rebuild_iff.2 ⟨rfl, 1, [c], hlogged, htable⟩
  obtain ⟨hwrong, hiff⟩ := mark_wrong_iff hread hlogged
  refine ⟨_, hread, hlogged, rfl, hiff.2 fun m hm => Decidable.not_not.1 fun h => ?_⟩
  obtain ⟨-, s, hs, hin, -⟩ := (hwrong m hm).1 h
  obtain rfl := List.mem_singleton.1 hs
  exact absurd hin (by decide)

/-- The parent of the current snapshot is registered behind it, and is a child of the one that was
current before. The first move is to an ancestor now, and not marked. -/
theorem late_parent_leaves_mark :
    let c := creating [.addSnapshot (bare 3 none), .moveCurrent 3 none default,
      .addSnapshot (bare 2 (some 1)), .moveCurrent 2 (some 3) default,
      .addSnapshot (bare 1 (some 3))]
    ∃ t, Script.perform ⟨"."⟩ rebuild (oneCommit c) = (.ok t, oneCommit c) ∧
      t.history.map (fun m => (m.snapshotId, m.isCurrentAncestor)) = [(3, false), (2, true)] ∧
      t.isCurrentAncestor 3 = true ∧
      markAncestors t.history t.currentId t.snapshots ≠ t.history := by
  intro c
  have hlogged : Logged ⟨"."⟩ (oneCommit c) 1 [c] := logged_oneCommit rfl
  have htable : tableAfter? [c] = some ((tableAfter? [c]).get (by decide)) := by decide
  exact ⟨_, perform_rebuild_iff.2 ⟨rfl, 1, [c], hlogged, htable⟩, by decide, by decide, by decide⟩

end Log

end Lakehouse
