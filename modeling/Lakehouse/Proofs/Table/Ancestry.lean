import Lakehouse.Proofs.Table.Lineage

/- The marks of a history, on any parent links.

   The walk along parent links has no bound of its own: it goes on until the links end, or come
   back to a snapshot that was seen (`Walks`). Whatever the links are, it ends, and with what the
   bounded walk finds (`walks_walk`), since each step but the last sees a registered snapshot that
   was not seen before. So the ancestors are what the links lead to, and the marks of a history say
   of each move, apart from all others, whether its snapshot is among them
   (`ancestors_are_reached`). -/
namespace Lakehouse

namespace Snapshots

/-- The walk that has seen `seen` and stands at `cursor` ends, and has seen `found` then. -/
inductive Walks (snapshots : Snapshots) :
    SortedMap SnapshotId Unit → Option SnapshotId → SortedMap SnapshotId Unit → Prop
  | ended {seen : SortedMap SnapshotId Unit} : Walks snapshots seen none seen
  | round {seen : SortedMap SnapshotId Unit} {id : SnapshotId} (hseen : seen.contains id = true) :
      Walks snapshots seen (some id) seen
  | on {seen found : SortedMap SnapshotId Unit} {id : SnapshotId}
      (hnew : seen.contains id = false)
      (hrest : Walks snapshots (seen.insert id ()) (snapshots.parent? id) found) :
      Walks snapshots seen (some id) found

variable {snapshots : Snapshots} {seen found found' : SortedMap SnapshotId Unit}
  {cursor : Option SnapshotId} {id : SnapshotId}

/-- There is one way to walk. -/
theorem Walks.unique (h : snapshots.Walks seen cursor found)
    (h' : snapshots.Walks seen cursor found') : found = found' := by
  induction h with
  | ended =>
    cases h'
    rfl
  | round hseen =>
    cases h' with
    | round _ => rfl
    | on hnew _ => exact absurd (hseen.symm.trans hnew) (by simp)
  | on hnew _ ih =>
    cases h' with
    | round hseen => exact absurd (hseen.symm.trans hnew) (by simp)
    | on _ hrest => exact ih hrest

/-- With a step for each snapshot that was not seen and one more, the bounded walk is the whole
walk. -/
theorem walks_walk {steps : Nat} (hsteps : snapshots.unseen seen < steps) :
    snapshots.Walks seen cursor (snapshots.walk steps seen cursor) := by
  induction steps generalizing seen cursor with
  | zero => exact absurd hsteps (Nat.not_lt_zero _)
  | succ steps ih =>
    cases cursor with
    | none => exact .ended
    | some id =>
      rw [walk]
      split
      next hseen => exact .round hseen
      next hnew =>
        rw [Bool.not_eq_true] at hnew
        refine .on hnew ?_
        cases hparent : snapshots.parent? id with
        | none =>
          rw [walk_none]
          exact .ended
        | some parent =>
          -- Only the walk from a registered snapshot goes on, and that is one less to be seen.
          have hfewer := unseen_insert (mem_keys_of_links hparent) hnew
          exact ih (by omega)

/-- The ancestors of a snapshot are what the walk from it finds. -/
theorem walks_iff {start : Option SnapshotId} :
    snapshots.Walks .empty start found ↔ found = snapshots.ancestors start := by
  have hwalks : snapshots.Walks .empty start (snapshots.ancestors start) := by
    refine walks_walk (Nat.lt_succ_of_le ?_)
    have hle : snapshots.unseen .empty ≤ snapshots.keys.length := List.length_filter_le _ _
    rwa [SortedMap.keys, List.length_map] at hle
  constructor
  · intro h
    exact h.unique hwalks
  · rintro rfl
    exact hwalks

end Snapshots

variable {history history' : List PointerMove} {start : Option SnapshotId} {snapshots : Snapshots}

/-- The marks do not depend on those before. -/
theorem markAncestors_congr (h : history.map PointerMove.unmarked = history'.map PointerMove.unmarked) :
    markAncestors history start snapshots = markAncestors history' start snapshots := by
  have hmark : ∀ history : List PointerMove, markAncestors history start snapshots =
      markAncestors (history.map PointerMove.unmarked) start snapshots := by
    intro history
    rw [markAncestors, markAncestors, List.map_map]
    rfl
  rw [hmark history, hmark history', h]

/-- On any parent links, that end, come round or lead to snapshots that are not registered, and
from any snapshot, registered or not, the walk ends; it finds the ids to which the links lead, and
no others. The mark of each move of a history then says whether its snapshot is among them,
whatever the marks were before and whatever moves stand beside it; so marking a second time changes
nothing. -/
theorem ancestors_are_reached (snapshots : Snapshots) (start : Option SnapshotId) :
    (∀ found, snapshots.Walks .empty start found ↔ found = snapshots.ancestors start) ∧
    (∀ id, (snapshots.ancestors start).contains id = true ↔
      ∃ first, start = some first ∧ snapshots.Reaches first id) ∧
    ∀ history : List PointerMove,
      (∀ i : Nat, ((markAncestors history start snapshots)[i]?).map PointerMove.unmarked =
        history[i]?.map PointerMove.unmarked) ∧
      (∀ (i : Nat) (m : PointerMove), (markAncestors history start snapshots)[i]? = some m →
        (m.isCurrentAncestor = true ↔
          ∃ first, start = some first ∧ snapshots.Reaches first m.snapshotId)) ∧
      (∀ history', history.map PointerMove.unmarked = history'.map PointerMove.unmarked →
        markAncestors history start snapshots = markAncestors history' start snapshots) ∧
      markAncestors (markAncestors history start snapshots) start snapshots =
        markAncestors history start snapshots := by
  refine ⟨fun _ => Snapshots.walks_iff, fun _ => Snapshots.contains_ancestors, fun history => ?_⟩
  refine ⟨fun i => ?_, fun i m hm => ?_, fun history' => markAncestors_congr, ?_⟩
  · rw [← List.getElem?_map, ← List.getElem?_map, unmarked_markAncestors]
  · exact marked_iff (List.mem_of_getElem? hm)
  · exact markAncestors_congr unmarked_markAncestors

end Lakehouse
