import Lakehouse.Proofs.Success
import Lakehouse.Proofs.Table.Sessions

/- Tables that go on.

   No action takes a snapshot away, and none changes the schema or the partition spec. So
   the table of a log extends that of every beginning of the log, and with it every copy
   that was read at some time (`Replica.extends`); and it has all the snapshots that commits
   of the log have registered (`find?_of_registered`). -/
namespace Lakehouse

/-- A table with the same schema and spec, that has all the snapshots and maybe more. -/
structure Table.Extends (t t' : Table) : Prop where
  schema : t'.schema = t.schema
  spec : t'.spec = t.spec
  kept : ∀ id s, t.snapshots.find? id = some s → t'.snapshots.find? id = some s

namespace Table.Extends

variable {t t' t'' : Table}

theorem refl (t : Table) : t.Extends t := ⟨rfl, rfl, fun _ _ h => h⟩

theorem trans (h : t.Extends t') (h' : t'.Extends t'') : t.Extends t'' :=
  ⟨h'.schema.trans h.schema, h'.spec.trans h.spec, fun id s hs => h'.kept id s (h.kept id s hs)⟩

theorem of_apply {a : Log.Action} (h : t.apply a = .ok t') : t.Extends t' := by
  cases a with
  | create m => exact absurd h (by simp [apply])
  | updateProperties set remove =>
    obtain rfl := Except.ok.inj h
    exact ⟨rfl, rfl, fun _ _ hs => hs⟩
  | addSnapshot s =>
    rw [apply] at h
    split at h
    · exact absurd h (by simp)
    next hfresh =>
      obtain rfl := Except.ok.inj h
      refine ⟨rfl, rfl, fun id r hr => ?_⟩
      have hne : id ≠ s.id := by
        rintro rfl
        exact hfresh (SortedMap.contains_iff.2 ⟨r, hr⟩)
      exact (SortedMap.find?_insert_of_ne _ _ hne).trans hr
  | moveCurrent target parentId madeCurrentAt =>
    rw [apply] at h
    split at h
    next =>
      obtain rfl := Except.ok.inj h
      exact ⟨rfl, rfl, fun _ _ hs => hs⟩
    next => exact absurd h (by simp)

theorem of_applyAll {actions : List Log.Action} (h : t.applyAll actions = .ok t') :
    t.Extends t' := by
  induction actions generalizing t with
  | nil =>
    obtain rfl := Except.ok.inj h
    exact refl t
  | cons a actions ih =>
    rw [applyAll, List.foldlM_cons] at h
    cases ha : t.apply a with
    | error e =>
      rw [ha] at h
      exact absurd h (by simp [bind, Except.bind])
    | ok u =>
      rw [ha] at h
      exact (of_apply ha).trans (ih h)

end Table.Extends

namespace Log

variable {t t' : Table} {commits commits' : List Commit} {current : Nat}

/-- Commits behind the one that created the table extend it. -/
theorem extends_of_replayed {r : Option Table} (h : replayed (some t) commits = .ok r) :
    ∃ t', r = some t' ∧ t.Extends t' := by
  induction commits generalizing t with
  | nil =>
    obtain rfl := Except.ok.inj h
    exact ⟨t, rfl, .refl t⟩
  | cons c commits ih =>
    rw [replayed, List.foldlM_cons, replayCommit, if_pos rfl, foldlM_replayAction] at h
    cases hc : t.applyAll c.actions with
    | error e =>
      rw [hc] at h
      exact absurd h (by simp [bind, Except.bind, Except.map])
    | ok u =>
      rw [hc] at h
      obtain ⟨t', hr, hextends⟩ := ih h
      exact ⟨t', hr, (Table.Extends.of_applyAll hc).trans hextends⟩

theorem extends_of_begins (hbegins : commits <+: commits') (h : tableAfter? commits = some t)
    (h' : tableAfter? commits' = some t') : t.Extends t' := by
  obtain ⟨rest, rfl⟩ := hbegins
  obtain ⟨u, hu, rfl⟩ := tableAfter?_eq_some h
  obtain ⟨u', hu', rfl⟩ := tableAfter?_eq_some h'
  rw [replayed, List.foldlM_append, ← replayed, hu] at hu'
  have hrest : replayed (some u) rest = .ok (some u') := hu'
  obtain ⟨v, hv, hextends⟩ := extends_of_replayed hrest
  obtain rfl := Option.some.inj hv
  exact ⟨hextends.schema, hextends.spec, hextends.kept⟩

/-- The table of the whole log extends that of every beginning. -/
theorem Chain.exists_last {root : Location} {files : Tree} (h : Chain root files commits current)
    {n : Nat} (ht : tableAfter? (commits.take n) = some t) :
    ∃ u, tableAfter? commits = some u ∧ t.Extends u := by
  have hpos := pos_of_table ht
  rw [List.length_take] at hpos
  obtain ⟨u, hu⟩ := h.replays commits.length (by omega) (Nat.le_refl _)
  rw [List.take_length] at hu
  exact ⟨u, hu, extends_of_begins (List.take_prefix _ _) ht hu⟩

/-- Actions that can be replayed leave a table with the snapshots that they register. -/
theorem find?_of_replayAction {version : Version} {actions : List Action} {r r' : Option Table}
    {s : Snapshot} (h : actions.foldlM (replayAction version) r = .ok r')
    (hs : .addSnapshot s ∈ actions) :
    ∃ t', r' = some t' ∧ t'.snapshots.find? s.id = some s := by
  induction actions generalizing r with
  | nil => exact absurd hs (by simp)
  | cons a actions ih =>
    rw [List.foldlM_cons] at h
    obtain ⟨r₁, ha, hrest⟩ := bind_eq_ok.1 h
    rcases List.mem_cons.1 hs with rfl | hs
    · -- It is registered now, and what follows keeps it.
      cases r with
      | none => exact absurd ha (by simp [replayAction])
      | some t =>
        obtain ⟨u, hu, rfl⟩ := map_eq_ok.1 ha
        rw [foldlM_replayAction] at hrest
        obtain ⟨t', ht', rfl⟩ := map_eq_ok.1 hrest
        refine ⟨t', rfl, (Table.Extends.of_applyAll ht').kept _ _ ?_⟩
        rw [Table.apply] at hu
        split at hu
        next => exact absurd hu (by simp)
        next =>
          obtain rfl := Except.ok.inj hu
          exact SortedMap.find?_insert_self _ _ _
    · exact ih hrest hs

/-- The table of a log has every snapshot that a commit of the log registers. -/
theorem find?_of_registered {c : Commit} {s : Snapshot} (h : tableAfter? commits = some t)
    (hc : c ∈ commits) (hs : .addSnapshot s ∈ c.actions) : t.snapshots.find? s.id = some s := by
  obtain ⟨u, hu, rfl⟩ := tableAfter?_eq_some h
  obtain ⟨before, behind, rfl⟩ := List.append_of_mem hc
  rw [replayed, List.foldlM_append] at hu
  obtain ⟨r, -, hrest⟩ := bind_eq_ok.1 hu
  rw [List.foldlM_cons, replayCommit, if_pos rfl] at hrest
  obtain ⟨r₁, hone, hbehind⟩ := bind_eq_ok.1 hrest
  obtain ⟨t₁, rfl, hfind⟩ := find?_of_replayAction hone hs
  obtain ⟨v, hv, hextends⟩ := extends_of_replayed hbehind
  obtain rfl := Option.some.inj hv
  exact hextends.kept _ _ hfind

/-- The table of the whole log extends every copy. -/
theorem Replica.extends (h : Replica commits current t) (h' : tableAfter? commits = some t') :
    t.Extends t' :=
  extends_of_begins (List.take_prefix _ _) h.table h'

end Log

end Lakehouse
