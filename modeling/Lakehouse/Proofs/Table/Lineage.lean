import Lakehouse.Log.Replay
import Lakehouse.Proofs.Lineage

/- The lineage of a table.

   In a table of which the lineage is sound (`HasLineage`), parents are registered and older,
   the last move of the pointer is to the current snapshot, and a move is marked if parent
   links lead to its snapshot from the current one. A new table is sound. A table may go on in
   three ways (`Follows`): a new snapshot becomes current, a registered one does, or nothing
   of this changes; each keeps the lineage sound, adds at most one move behind the others, and
   registers at most one snapshot, which is newer than all there are. -/
namespace Lakehouse

open Calendar (Instant)

namespace PointerMove

/-- The move without its mark. -/
def unmarked (m : PointerMove) : PointerMove := { m with isCurrentAncestor := false }

end PointerMove

section Marks

variable {history : List PointerMove} {current : Option SnapshotId} {snapshots : Snapshots}

/-- Marking changes nothing but the marks. -/
theorem unmarked_markAncestors :
    (markAncestors history current snapshots).map PointerMove.unmarked =
      history.map PointerMove.unmarked := by
  rw [markAncestors, List.map_map]
  rfl

/-- A move is marked if parent links lead to its snapshot from the current one. -/
theorem marked_iff {m : PointerMove} (h : m ∈ markAncestors history current snapshots) :
    m.isCurrentAncestor = true ↔
      ∃ id, current = some id ∧ snapshots.Reaches id m.snapshotId := by
  obtain ⟨m', -, rfl⟩ := List.mem_map.1 h
  exact Snapshots.contains_ancestors

/-- The last move that is marked is the last one. -/
theorem last_markAncestors {m : PointerMove} :
    (markAncestors (history ++ [m]) current snapshots).getLast?.map PointerMove.snapshotId =
      some m.snapshotId := by
  rw [markAncestors, List.map_append, List.map_singleton, List.getLast?_concat]
  rfl

end Marks

namespace Table

/-- The moves of the pointer to the current snapshot, without their marks. -/
def moves (t : Table) : List PointerMove := t.history.map PointerMove.unmarked

/-- Snapshots have the ids under which they are registered, their parents are registered and have
smaller ids, the last move was to the current snapshot, and the marks are right. -/
structure HasLineage (t : Table) : Prop where
  named : ∀ id s, t.snapshots.find? id = some s → s.id = id
  parents : ∀ id s parent, t.snapshots.find? id = some s → s.parentId = some parent →
    t.snapshots.contains parent = true ∧ parent < id
  current : ∀ id, t.currentId = some id → t.snapshots.contains id = true
  last : t.history.getLast?.map PointerMove.snapshotId = t.currentId
  marked : ∀ m ∈ t.history, m.isCurrentAncestor = true ↔
    ∃ id, t.currentId = some id ∧ t.snapshots.Reaches id m.snapshotId

/-- The table goes on to `t'`, in which the new snapshot `s` is current. -/
structure Registers (t : Table) (s : Snapshot) (t' : Table) : Prop where
  newest : ∀ id, t.snapshots.contains id = true → id < s.id
  parent : s.parentId = t.currentId
  snapshots : t'.snapshots = t.snapshots.insert s.id s
  current : t'.currentId = some s.id
  history : t'.history = markAncestors
    (t.history ++ [⟨s.timestamp, s.id, t.currentId, false⟩]) (some s.id) t'.snapshots

/-- The table goes on to `t'`, in which the registered snapshot `target` is current. -/
structure Returns (t : Table) (target : SnapshotId) (now : Instant) (t' : Table) : Prop where
  registered : t.snapshots.contains target = true
  snapshots : t'.snapshots = t.snapshots
  current : t'.currentId = some target
  history : t'.history = markAncestors
    (t.history ++ [⟨now, target, none, false⟩]) (some target) t'.snapshots

/-- The table goes on to `t'`, which has the same snapshots and moves. -/
structure Stays (t t' : Table) : Prop where
  snapshots : t'.snapshots = t.snapshots
  current : t'.currentId = t.currentId
  history : t'.history = t.history

/-- The table goes on to `t'` by one commit. -/
inductive Follows (t t' : Table) : Prop where
  | registers {s : Snapshot} (h : t.Registers s t')
  | returns {target : SnapshotId} {now : Instant} (h : t.Returns target now t')
  | stays (h : t.Stays t')

/-- The table `t'` has the moves and snapshots of `t`, and any others are later and newer. -/
structure Precedes (t t' : Table) : Prop where
  moves : t.moves <+: t'.moves
  kept : ∀ id s, t.snapshots.find? id = some s → t'.snapshots.find? id = some s
  newer : ∀ id, t'.snapshots.contains id = true → t.snapshots.contains id = true ∨
    ∀ old, t.snapshots.contains old = true → old < id

variable {t t' t'' : Table}

theorem isCurrentAncestor_iff {id : SnapshotId} : t.isCurrentAncestor id = true ↔
    ∃ current, t.currentId = some current ∧ t.snapshots.Reaches current id :=
  Snapshots.contains_ancestors

/-! ### One step -/

section Registering

variable {s : Snapshot}

theorem Registers.find? (h : t.Registers s t') (id : SnapshotId) :
    t'.snapshots.find? id = if id = s.id then some s else t.snapshots.find? id := by
  rw [h.snapshots, SortedMap.find?_insert_eq]

/-- All snapshots stay registered. -/
theorem Registers.kept (h : t.Registers s t') {id : SnapshotId} {r : Snapshot}
    (hr : t.snapshots.find? id = some r) : t'.snapshots.find? id = some r := by
  have hlt := h.newest id (SortedMap.contains_iff.2 ⟨r, hr⟩)
  have hne : id ≠ s.id := by
    rintro rfl
    rw [Int64.lt_iff_toInt_lt] at hlt
    omega
  rw [h.find?, if_neg hne, hr]

theorem HasLineage.of_registers (ht : t.HasLineage) (h : t.Registers s t') : t'.HasLineage := by
  have hkept : ∀ id, t.snapshots.contains id = true → t'.snapshots.contains id = true := by
    intro id hid
    obtain ⟨r, hr⟩ := SortedMap.contains_iff.1 hid
    exact SortedMap.contains_iff.2 ⟨r, h.kept hr⟩
  refine ⟨fun id r hr => ?_, fun id r parent hr hparent => ?_, fun id hid => ?_, ?_, ?_⟩
  · rw [h.find?] at hr
    split at hr
    next he => exact Option.some.inj hr ▸ he.symm
    next => exact ht.named id r hr
  · rw [h.find?] at hr
    split at hr
    next he =>
      -- The parent of the new snapshot is the one that was current.
      obtain rfl := Option.some.inj hr
      have hin := ht.current parent (h.parent.symm.trans hparent)
      exact ⟨hkept parent hin, he ▸ h.newest parent hin⟩
    next =>
      obtain ⟨hin, hlt⟩ := ht.parents id r parent hr hparent
      exact ⟨hkept parent hin, hlt⟩
  · obtain rfl := Option.some.inj (h.current.symm.trans hid)
    exact SortedMap.contains_iff.2 ⟨s, by rw [h.find?, if_pos rfl]⟩
  · rw [h.history, h.current, last_markAncestors]
  · intro m hm
    rw [h.history] at hm
    rw [h.current]
    exact marked_iff hm

theorem Registers.precedes (h : t.Registers s t') : t.Precedes t' := by
  refine ⟨?_, fun id r hr => h.kept hr, fun id hid => ?_⟩
  · rw [moves, moves, h.history, unmarked_markAncestors, List.map_append]
    exact List.prefix_append _ _
  · obtain ⟨r, hr⟩ := SortedMap.contains_iff.1 hid
    rw [h.find?] at hr
    split at hr
    next he => exact .inr (he ▸ h.newest)
    next => exact .inl (SortedMap.contains_iff.2 ⟨r, hr⟩)

end Registering

section Returning

variable {target : SnapshotId} {now : Instant}

theorem HasLineage.of_returns (ht : t.HasLineage) (h : t.Returns target now t') :
    t'.HasLineage := by
  refine ⟨?_, ?_, fun id hid => ?_, ?_, fun m hm => ?_⟩
  · rw [h.snapshots]
    exact ht.named
  · rw [h.snapshots]
    exact ht.parents
  · obtain rfl := Option.some.inj (h.current.symm.trans hid)
    rw [h.snapshots]
    exact h.registered
  · rw [h.history, h.current, last_markAncestors]
  · rw [h.history] at hm
    rw [h.current]
    exact marked_iff hm

theorem Returns.precedes (h : t.Returns target now t') : t.Precedes t' := by
  refine ⟨?_, ?_, ?_⟩
  · rw [moves, moves, h.history, unmarked_markAncestors, List.map_append]
    exact List.prefix_append _ _
  · rw [h.snapshots]
    exact fun _ _ hr => hr
  · rw [h.snapshots]
    exact fun _ hid => .inl hid

end Returning

theorem HasLineage.of_stays (ht : t.HasLineage) (h : t.Stays t') : t'.HasLineage := by
  refine ⟨?_, ?_, ?_, ?_, ?_⟩
  · rw [h.snapshots]
    exact ht.named
  · rw [h.snapshots]
    exact ht.parents
  · rw [h.snapshots, h.current]
    exact ht.current
  · rw [h.history, h.current]
    exact ht.last
  · rw [h.history, h.snapshots, h.current]
    exact ht.marked

theorem Stays.precedes (h : t.Stays t') : t.Precedes t' := by
  refine ⟨?_, ?_, ?_⟩
  · have hmoves : t.moves = t'.moves := by rw [moves, moves, h.history]
    exact hmoves ▸ List.prefix_refl _
  · rw [h.snapshots]
    exact fun _ _ hr => hr
  · rw [h.snapshots]
    exact fun _ hid => .inl hid

/-! ### Many steps -/

theorem HasLineage.new (version : Log.Version) (m : Metadata) : (new version m).HasLineage := by
  refine ⟨?_, ?_, ?_, rfl, ?_⟩
  · exact fun id s hs => absurd hs (by simp [Table.new])
  · exact fun id s parent hs => absurd hs (by simp [Table.new])
  · exact fun id hid => absurd hid (by simp [Table.new])
  · exact fun m hm => absurd hm List.not_mem_nil

theorem HasLineage.of_follows (ht : t.HasLineage) (h : t.Follows t') : t'.HasLineage := by
  cases h with
  | registers h => exact ht.of_registers h
  | returns h => exact ht.of_returns h
  | stays h => exact ht.of_stays h

theorem Follows.precedes (h : t.Follows t') : t.Precedes t' := by
  cases h with
  | registers h => exact h.precedes
  | returns h => exact h.precedes
  | stays h => exact h.precedes

theorem Precedes.refl (t : Table) : t.Precedes t :=
  ⟨List.prefix_refl _, fun _ _ h => h, fun _ h => .inl h⟩

theorem Precedes.trans (h : t.Precedes t') (h' : t'.Precedes t'') : t.Precedes t'' := by
  refine ⟨h.moves.trans h'.moves, fun id s hs => h'.kept id s (h.kept id s hs), fun id hid => ?_⟩
  rcases h'.newer id hid with hid | hnewer
  · exact h.newer id hid
  · refine .inr fun old hold => hnewer old ?_
    obtain ⟨s, hs⟩ := SortedMap.contains_iff.1 hold
    exact SortedMap.contains_iff.2 ⟨s, h.kept old s hs⟩

/-- As parents have smaller ids, parent links come to an end. -/
theorem HasLineage.wellFounded (h : t.HasLineage) :
    WellFounded fun parent id => t.snapshots.Links id parent := by
  refine Subrelation.wf ?_ (measure fun id : SnapshotId => (id.toInt + 2 ^ 63).toNat).wf
  intro parent id hlinks
  obtain ⟨s, hs, hparent⟩ := Option.bind_eq_some_iff.1 hlinks
  have hlt := (h.parents id s parent hs hparent).2
  have hlow := parent.le_toInt
  rw [Int64.lt_iff_toInt_lt] at hlt
  show (parent.toInt + 2 ^ 63).toNat < (id.toInt + 2 ^ 63).toNat
  omega

end Table

end Lakehouse
