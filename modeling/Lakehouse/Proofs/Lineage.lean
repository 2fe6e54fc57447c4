import Lakehouse.Lineage
import Lakehouse.Proofs.SortedMap
import Mathlib.Logic.Relation

/- What the walk along parent links finds.

   The walk from the current snapshot has a step for each registered snapshot and one more.
   Each step on a registered snapshot uses up one that was not seen (`unseen_insert`), so
   the steps suffice until the links end or come round, whatever the links are. What was
   seen by then is closed under parents, and each of it was reached by parent links: so the
   walk finds the snapshots that are reached, and no others (`contains_ancestors`). -/
namespace Lakehouse

open SortedMap

namespace Snapshots

/-- The parent link of a registered snapshot leads from the first id to the second. -/
def Links (snapshots : Snapshots) (id parent : SnapshotId) : Prop :=
  snapshots.parent? id = some parent

/-- Zero or more parent links lead from the first id to the second. -/
def Reaches (snapshots : Snapshots) : SnapshotId → SnapshotId → Prop :=
  Relation.ReflTransGen snapshots.Links

variable {snapshots : Snapshots} {seen : SortedMap SnapshotId Unit} {id target : SnapshotId}

/-- The number of registered snapshots that were not seen. -/
def unseen (snapshots : Snapshots) (seen : SortedMap SnapshotId Unit) : Nat :=
  (snapshots.keys.filter fun id => !seen.contains id).length

theorem mem_keys_of_links {parent : SnapshotId} (h : snapshots.Links id parent) :
    id ∈ snapshots.keys := by
  obtain ⟨s, hs, -⟩ := Option.bind_eq_some_iff.1 h
  exact List.mem_map.2 ⟨(id, s), mem_toList.2 hs, rfl⟩

theorem unseen_insert (hin : id ∈ snapshots.keys) (hnew : seen.contains id = false) :
    snapshots.unseen (seen.insert id ()) < snapshots.unseen seen := by
  rw [unseen, unseen]
  have hsub : (snapshots.keys.filter fun other => !(seen.insert id ()).contains other) =
      (snapshots.keys.filter fun other => !seen.contains other).filter fun other => other ≠ id := by
    rw [List.filter_filter]
    refine List.filter_congr fun other _ => ?_
    rw [contains_insert]
    by_cases h : other = id <;> simp [h]
  rw [hsub]
  refine List.length_filter_lt_length_iff_exists.2 ⟨id, ?_, by simp⟩
  exact List.mem_filter.2 ⟨hin, by simp [hnew]⟩

theorem walk_none (steps : Nat) : snapshots.walk steps seen none = seen := by
  cases steps <;> rfl

/-- The walk keeps what was seen. -/
theorem contains_walk_of_seen (steps : Nat) (cursor : Option SnapshotId)
    (h : seen.contains id = true) : (snapshots.walk steps seen cursor).contains id = true := by
  induction steps generalizing seen cursor with
  | zero => exact h
  | succ steps ih =>
    cases cursor with
    | none => exact h
    | some next =>
      rw [walk]
      split
      · exact h
      · exact ih _ (by rw [contains_insert, h, Bool.or_true])

/-- What the walk finds was seen before or is reached from where the walk begins. -/
theorem reaches_of_contains_walk {steps : Nat} {cursor : Option SnapshotId}
    (h : (snapshots.walk steps seen cursor).contains target = true) :
    seen.contains target = true ∨ ∃ next, cursor = some next ∧ snapshots.Reaches next target := by
  induction steps generalizing seen cursor with
  | zero => exact .inl h
  | succ steps ih =>
    cases cursor with
    | none => exact .inl h
    | some next =>
      rw [walk] at h
      split at h
      · exact .inl h
      · rcases ih h with hseen | ⟨parent, hparent, hreaches⟩
        · rw [contains_insert, Bool.or_eq_true, decide_eq_true_iff] at hseen
          rcases hseen with rfl | hseen
          · exact .inr ⟨target, rfl, .refl⟩
          · exact .inl hseen
        · exact .inr ⟨next, rfl, .head hparent hreaches⟩

/-- With a step for each snapshot that was not seen and one more, the walk finds where it begins
and all parents of what it finds. The parents of what was seen before must have been seen, but
for where it begins. -/
theorem walk_closed {steps : Nat} {cursor : Option SnapshotId}
    (hsteps : snapshots.unseen seen < steps)
    (hclosed : ∀ id parent, seen.contains id = true → snapshots.Links id parent →
      seen.contains parent = true ∨ cursor = some parent) :
    (∀ id, cursor = some id → (snapshots.walk steps seen cursor).contains id = true) ∧
    ∀ id parent, (snapshots.walk steps seen cursor).contains id = true →
      snapshots.Links id parent → (snapshots.walk steps seen cursor).contains parent = true := by
  induction steps generalizing seen cursor with
  | zero => exact absurd hsteps (Nat.not_lt_zero _)
  | succ steps ih =>
    cases cursor with
    | none =>
      refine ⟨fun id hid => absurd hid (by simp), fun id parent hid hlinks => ?_⟩
      exact (hclosed id parent hid hlinks).resolve_right (by simp)
    | some next =>
      rw [walk]
      split
      next hseen =>
        -- The links have come round.
        refine ⟨fun id hid => Option.some.inj hid ▸ hseen, fun id parent hid hlinks => ?_⟩
        rcases hclosed id parent hid hlinks with hparent | hparent
        · exact hparent
        · exact Option.some.inj hparent ▸ hseen
      next hnew =>
        have hin : (seen.insert next ()).contains next = true := by simp [contains_insert]
        have hclosed' : ∀ id parent, (seen.insert next ()).contains id = true →
            snapshots.Links id parent →
            (seen.insert next ()).contains parent = true ∨ snapshots.parent? next = some parent := by
          intro id parent hid hlinks
          rw [contains_insert, Bool.or_eq_true, decide_eq_true_iff] at hid
          rcases hid with rfl | hid
          · exact .inr hlinks
          · rcases hclosed id parent hid hlinks with hparent | hparent
            · exact .inl (by rw [contains_insert, hparent, Bool.or_true])
            · exact .inl (Option.some.inj hparent ▸ hin)
        refine ⟨fun id hid => ?_, ?_⟩
        · obtain rfl := Option.some.inj hid
          exact contains_walk_of_seen steps _ hin
        · cases hparent : snapshots.parent? next with
          | none =>
            rw [walk_none]
            intro id parent hid hlinks
            exact (hclosed' id parent hid hlinks).resolve_right (by simp [hparent])
          | some parent =>
            have hfewer := unseen_insert (mem_keys_of_links hparent) (by simpa using hnew)
            exact (ih (by omega) (hparent ▸ hclosed')).2

/-- The ancestors of the current snapshot, itself included, are the ids to which parent links
lead from it. -/
theorem contains_ancestors {current : Option SnapshotId} :
    (snapshots.ancestors current).contains target = true ↔
      ∃ id, current = some id ∧ snapshots.Reaches id target := by
  rw [ancestors]
  constructor
  · intro h
    exact (reaches_of_contains_walk h).resolve_left (by simp [contains])
  · rintro ⟨id, rfl, hreaches⟩
    have hsteps : snapshots.unseen .empty < snapshots.size + 1 := by
      have hle : snapshots.unseen .empty ≤ snapshots.keys.length := List.length_filter_le _ _
      rw [keys, List.length_map] at hle
      exact Nat.lt_succ_of_le hle
    obtain ⟨hfirst, hparents⟩ := @walk_closed snapshots .empty (snapshots.size + 1) (some id) hsteps
      fun _ _ hseen => absurd hseen (by simp [contains])
    induction hreaches with
    | refl => exact hfirst id rfl
    | tail _ hlinks ih => exact hparents _ _ ih hlinks

end Snapshots

end Lakehouse
