import Lakehouse.Proofs.Table.Sessions
import Lakehouse.Proofs.SortedMap
import Lakehouse.Table.Operations
import Mathlib.Data.List.Forall2

/- What a change is checked against.

   A change is planned without writing anything, so a plan is a fact about the files as
   they are (`Planned`): the request fits, the manifests of the current snapshot and the
   staged ones can be read, and every check comes out well; and whenever this is so, there
   is a plan (`perform_plan_iff`). The id of a new snapshot is greater than all ids of the
   table (`lt_of_nextId`). -/
namespace Lakehouse

/-- Lists that are related item by item, where the second item determines the first. -/
theorem forall₂_iff_map {α β : Type} {related : α → β → Prop} {g : β → α}
    (hg : ∀ a b, related a b → a = g b) {l : List α} {l' : List β} :
    List.Forall₂ related l l' ↔ l = l'.map g ∧ ∀ b ∈ l', related (g b) b := by
  constructor
  · intro h
    have hl : l = l'.map g := by
      rw [← List.forall₂_eq_eq_eq, List.forall₂_map_right_iff]
      exact h.imp hg
    rw [hl, List.forall₂_map_left_iff, List.forall₂_same] at h
    exact ⟨hl, h⟩
  · rintro ⟨rfl, h⟩
    rw [List.forall₂_map_left_iff, List.forall₂_same]
    exact h

namespace Script

variable {α β ε : Type} {root : Location} {t t' : Tree}

/-- A sequence succeeds if its parts do, one after the other. -/
theorem perform_bind_ok {x : ExceptT ε Script α} {f : α → ExceptT ε Script β} {b : β} :
    perform root (x >>= f) t = (.ok b, t') ↔
      ∃ a t₁, perform root x t = (.ok a, t₁) ∧ perform root (f a) t₁ = (.ok b, t') := by
  rw [perform_bind]
  rcases perform root x t with ⟨e | a, t₁⟩
  · simp
  · constructor
    · intro h
      exact ⟨a, t₁, rfl, h⟩
    · rintro ⟨a', t₁', h, h'⟩
      cases h
      exact h'

/-- One thing after the other succeeds if each does and leaves the files as they are. -/
theorem perform_mapM_of_forall₂ {f : α → ExceptT ε Script β} {l : List α} {bs : List β}
    (h : List.Forall₂ (fun a b => perform root (f a) t = (.ok b, t)) l bs) :
    perform root (l.mapM f) t = (.ok bs, t) := by
  induction h with
  | nil => rfl
  | cons hb _ ih =>
    rw [List.mapM_cons]
    exact perform_bind_ok.2 ⟨_, t, hb, perform_bind_ok.2 ⟨_, t, ih, rfl⟩⟩

/-- Reading one thing after the other succeeds if each can be read. -/
theorem perform_mapM_ok {f : α → ExceptT ε Script β} (h : ∀ a, (f a).run.Reads) {l : List α}
    {bs : List β} : perform root (l.mapM f) t = (.ok bs, t') ↔
      t' = t ∧ List.Forall₂ (fun a b => perform root (f a) t = (.ok b, t)) l bs := by
  constructor
  · intro hl
    induction l generalizing bs t t' with
    | nil =>
      rw [List.mapM_nil, perform_pure] at hl
      cases hl
      exact ⟨rfl, .nil⟩
    | cons a l ih =>
      rw [List.mapM_cons, perform_bind_ok] at hl
      obtain ⟨b, t₁, hb, hl⟩ := hl
      obtain rfl := (h a).eq_of_perform hb
      obtain ⟨bs', t₂, hbs, he⟩ := perform_bind_ok.1 hl
      obtain ⟨rfl, hall⟩ := ih hbs
      rw [perform_pure] at he
      cases he
      exact ⟨rfl, .cons hb hall⟩
  · rintro ⟨rfl, hall⟩
    exact perform_mapM_of_forall₂ hall

end Script

namespace FileM

variable {α : Type}

theorem reads_ofExcept (result : Except TableError α) : (ofExcept result).run.Reads :=
  Script.Reads.pure _

@[simp] theorem perform_ofExcept (root : Location) (result : Except TableError α) (t : Tree) :
    Script.perform root (ofExcept result) t = (result, t) := rfl

@[simp] theorem perform_check (root : Location) (result : Except Rejection α) (t : Tree) :
    Script.perform root (check result) t = (result.mapError .rejected, t) := rfl

theorem reads_readJson (decode : Decoder α) (path : String) : (readJson decode path).run.Reads := by
  refine Script.Reads.bindE (Script.Reads.lift (Script.Reads.request trivial)) fun reply => ?_
  cases reply with
  | error e => exact Script.Reads.pure _
  | ok bytes =>
    dsimp only
    split <;> exact Script.Reads.pure _

theorem reads_loadManifest (r : ManifestRecord) : (loadManifest r).run.Reads :=
  Script.Reads.bindE (reads_readJson _ _) fun _ => Script.Reads.pure _

theorem reads_loadManifests (s : Snapshot) : (loadManifests s).run.Reads := by
  refine Script.Reads.bindE ?_ fun l => Script.Reads.mapM reads_loadManifest _
  rw [loadManifestList, ← bind_pure_comp]
  exact Script.Reads.bindE (reads_readJson _ _) fun _ => Script.Reads.pure _

end FileM

namespace Table

open Script

theorem reads_readStaged (spec : PartitionSpec) (path : String) : (readStaged spec path).run.Reads :=
  Reads.bindE (FileM.reads_readJson _ _) fun _ => Reads.bindE (FileM.reads_ofExcept _)
    fun _ => Reads.pure _

theorem reads_loadCurrent (t : Table) : t.loadCurrent.run.Reads := by
  rw [loadCurrent]
  split
  · exact FileM.reads_loadManifests _
  · exact Reads.pure _

theorem reads_plan (t : Table) (operation : Operation) (changes : FileChanges) :
    (t.plan operation changes).run.Reads := by
  refine Reads.bindE (FileM.reads_ofExcept _) fun _ => Reads.bindE (FileM.reads_ofExcept _)
    fun _ => Reads.bindE t.reads_loadCurrent fun _ => Reads.bindE (FileM.reads_ofExcept _)
    fun _ => Reads.bindE (Reads.mapM (reads_readStaged t.spec) _) fun _ => ?_
  exact Reads.bindE (FileM.reads_ofExcept _) fun _ => Reads.bindE (FileM.reads_ofExcept _)
    fun _ => Reads.pure _

/-- The plan is one for the request to the table with these files. -/
structure Planned (root : Location) (files : Tree) (t : Table) (operation : Operation)
    (changes : FileChanges) (p : Plan) : Prop where
  fits : changes.fit operation = .ok ()
  next : t.nextId = .ok p.id
  manifests : perform root t.loadCurrent files = (.ok p.manifests, files)
  removed : removedPaths t.schema t.spec p.live changes = .ok p.removed
  added : p.added = changes.added
  stagedPaths : changes.stagedPaths = p.staged.map Staged.path
  staged : ∀ s ∈ p.staged, perform root (readStaged t.spec s.path) files = (.ok s, files)
  distinct : checkAdded t.spec p.live .empty p.arriving = .ok ()
  rows : checkRowCount operation (DataFile.totalRecords p.arriving)
    (p.live.recordsAt p.removed.keys) = .ok ()

variable {root : Location} {files : Tree} {t : Table} {operation : Operation}
  {changes : FileChanges} {p : Plan}

/-- A staged manifest is what its file has. -/
theorem perform_readStaged_iff {spec : PartitionSpec} {path : String} {s : Staged} :
    perform root (readStaged spec path) files = (.ok s, files) ↔
      perform root (FileM.readJson Form.readManifest path) files = (.ok (s.manifest, s.length), files) ∧
        path = s.path ∧ checkStaged spec path s.manifest = .ok () := by
  simp only [readStaged, perform_bind_ok, FileM.perform_check, perform_pure, Prod.mk.injEq,
    mapError_eq_ok]
  constructor
  · rintro ⟨⟨m, n⟩, files₁, hread, _, _, ⟨hcheck, rfl⟩, hs, rfl⟩
    obtain rfl := Except.ok.inj hs
    exact ⟨hread, rfl, hcheck⟩
  · rintro ⟨hread, rfl, hcheck⟩
    exact ⟨(s.manifest, s.length), files, hread, ⟨⟩, files, ⟨hcheck, rfl⟩, rfl, rfl⟩

theorem forall₂_readStaged_iff {spec : PartitionSpec} {paths : List String} {staged : List Staged} :
    List.Forall₂ (fun path s => perform root (readStaged spec path) files = (.ok s, files)) paths
        staged ↔
      paths = staged.map Staged.path ∧
        ∀ s ∈ staged, perform root (readStaged spec s.path) files = (.ok s, files) :=
  forall₂_iff_map (g := Staged.path) fun _ _ h => (perform_readStaged_iff.1 h).2.1

theorem perform_plan_iff : perform root (t.plan operation changes) files = (.ok p, files) ↔
    Planned root files t operation changes p := by
  simp only [plan, perform_bind_ok, perform_mapM_ok (reads_readStaged t.spec),
    FileM.perform_check, FileM.perform_ofExcept, perform_pure, Prod.mk.injEq, mapError_eq_ok]
  constructor
  · rintro ⟨_, _, ⟨hfits, rfl⟩, id, _, ⟨hnext, rfl⟩, manifests, files₁, hmanifests, removed, _,
      ⟨hremoved, rfl⟩, staged, _, ⟨rfl, hstaged⟩, _, _, ⟨hdistinct, rfl⟩, _, _, ⟨hrows, rfl⟩, hp, rfl⟩
    obtain rfl := Except.ok.inj hp
    obtain ⟨hpaths, hstaged⟩ := forall₂_readStaged_iff.1 hstaged
    exact ⟨hfits, hnext, hmanifests, hremoved, rfl, hpaths, hstaged, hdistinct, hrows⟩
  · rintro ⟨hfits, hnext, hmanifests, hremoved, hadded, hpaths, hstaged, hdistinct, hrows⟩
    obtain ⟨id, manifests, removed, added, staged⟩ := p
    obtain rfl := hadded
    exact ⟨_, _, ⟨hfits, rfl⟩, id, _, ⟨hnext, rfl⟩, manifests, _, hmanifests, removed, _,
      ⟨hremoved, rfl⟩, staged, _, ⟨rfl, forall₂_readStaged_iff.2 ⟨hpaths, hstaged⟩⟩, _, _,
      ⟨hdistinct, rfl⟩, _, _, ⟨hrows, rfl⟩, rfl, rfl⟩

/-- There is one plan at most. -/
theorem Planned.unique {q : Plan} (hp : Planned root files t operation changes p)
    (hq : Planned root files t operation changes q) : p = q := by
  have hsame := (perform_plan_iff.2 hp).symm.trans (perform_plan_iff.2 hq)
  exact Except.ok.inj (Prod.mk.inj hsame).1

/-! ### New ids -/

theorem SnapshotId.lt_succ {a b : SnapshotId} (hle : (compare a b).isLE = true)
    (hlast : b ≠ Int64.maxValue) : a < b + 1 := by
  have hab : a ≤ b := (Std.LawfulOrderOrd.isLE_compare a b).mp hle
  have hb : b.toInt ≠ Int64.maxValue.toInt := fun h => hlast (Int64.toInt_inj.1 h)
  have hmax : Int64.maxValue.toInt = 2 ^ 63 - 1 := by decide
  have hlow := b.le_toInt
  have hhigh := b.toInt_lt
  rw [Int64.lt_iff_toInt_lt, Int64.toInt_add]
  rw [Int64.le_iff_toInt_le] at hab
  have hone : (1 : Int64).toInt = 1 := by decide
  rw [hone, Int.bmod_eq_of_le] <;> omega

/-- The next id is greater than all there are. -/
theorem lt_of_nextId {id other : SnapshotId} (h : t.nextId = .ok id)
    (hother : t.snapshots.contains other = true) : other < id := by
  rw [nextId, lastId?] at h
  cases hlast : t.snapshots.lastKey? with
  | none =>
    rw [SortedMap.lastKey?_eq_none hlast] at hother
    exact absurd hother (by simp [SortedMap.contains])
  | some last =>
    simp only [hlast, SnapshotId.next?] at h
    split at h
    next next hnext =>
      split at hnext
      · exact absurd hnext (by simp)
      next hmax =>
        obtain rfl := Except.ok.inj h
        obtain rfl := Option.some.inj hnext
        exact SnapshotId.lt_succ (SortedMap.le_lastKey? hother hlast) hmax
    next => exact absurd h (by simp)

theorem nextId_fresh {id : SnapshotId} (h : t.nextId = .ok id) : t.snapshots.contains id = false := by
  rw [Bool.eq_false_iff]
  intro hin
  have hlt := lt_of_nextId h hin
  rw [Int64.lt_iff_toInt_lt] at hlt
  omega

end Table

end Lakehouse
