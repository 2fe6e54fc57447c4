import Lakehouse.Proofs.Log.Chain
import Lakehouse.Proofs.SortedMap
import Lakehouse.Proofs.Table.Lineage

/- Sequences of actions.

   A sequence of actions is that of a log (`WellFormed`) if its first action creates the table
   and no other does, if no snapshot is registered twice, and if the pointer moves only to
   snapshots that were registered before. It does not matter how the actions are distributed
   over commits: the commits describe a table if and only if their actions, one behind the
   other, are such a sequence (`exists_tableAfter?_iff`), and then the table is what the
   sequence says (`Describes`). Both follow from what one action needs of a table
   (`Table.exists_apply_iff`) and what it does to it (`Table.Gains.of_apply`). -/
namespace Lakehouse

namespace Log

/-- The actions of the commits, one behind the other. -/
def actionsOf (commits : List Commit) : List Action := commits.flatMap Commit.actions

def Action.registers? : Action → Option Snapshot
  | .addSnapshot s => some s
  | _ => none

def Action.moves? : Action → Option PointerMove
  | .moveCurrent target parentId madeCurrentAt => some ⟨madeCurrentAt, target, parentId, false⟩
  | _ => none

/-- The properties that the action sets, and those that it removes. -/
def Action.updates? : Action → Option (Properties × List String)
  | .updateProperties set remove => some (set, remove)
  | _ => none

/-- The snapshots that the actions register. -/
def registered (actions : List Action) : List Snapshot := actions.filterMap Action.registers?

/-- The ids under which the actions register snapshots. -/
def registeredIds (actions : List Action) : List SnapshotId := (registered actions).map Snapshot.id

/-- The moves of the pointer to the current snapshot. -/
def movesOf (actions : List Action) : List PointerMove := actions.filterMap Action.moves?

/-- The changes of properties. -/
def updates (actions : List Action) : List (Properties × List String) :=
  actions.filterMap Action.updates?

/-- What a change of properties leaves of the value of one: it is removed first, and then set. -/
def settled (key : String) (value : Option String) (change : Properties × List String) :
    Option String :=
  (change.1.find? key).or (if key ∈ change.2 then none else value)

/-- The rules for the actions of a log. -/
structure WellFormed (actions : List Action) : Prop where
  first : ∃ m, actions.head? = some (.create m)
  only : ∀ m, .create m ∉ actions.tail
  once : (registeredIds actions).Nodup
  known : ∀ before target parentId time after,
    actions = before ++ .moveCurrent target parentId time :: after → target ∈ registeredIds before

/-- The table has just what the actions say: the snapshots that they register, one move for
each of theirs, the target of the last one as its current snapshot, and the metadata of its
creation with all changes of properties. -/
structure Describes (actions : List Action) (t : Table) : Prop where
  snapshots : ∀ id s, t.snapshots.find? id = some s ↔ s ∈ registered actions ∧ s.id = id
  history : t.history.map PointerMove.unmarked = movesOf actions
  current : t.currentId = (movesOf actions).getLast?.map PointerMove.snapshotId
  created : ∃ m, actions.head? = some (.create m) ∧
    t.metadata = { m with properties := t.metadata.properties } ∧
    ∀ key, t.metadata.properties.find? key =
      (updates actions).foldl (settled key) (m.properties.find? key)

theorem actionsOf_cons (c : Commit) (commits : List Commit) :
    actionsOf (c :: commits) = c.actions ++ actionsOf commits := List.flatMap_cons

theorem registered_append (actions later : List Action) :
    registered (actions ++ later) = registered actions ++ registered later := List.filterMap_append

theorem movesOf_append (actions later : List Action) :
    movesOf (actions ++ later) = movesOf actions ++ movesOf later := List.filterMap_append

theorem updates_append (actions later : List Action) :
    updates (actions ++ later) = updates actions ++ updates later := List.filterMap_append

theorem registeredIds_cons (a : Action) (actions : List Action) :
    registeredIds (a :: actions) = registeredIds [a] ++ registeredIds actions := by
  rw [registeredIds, ← List.singleton_append, registered_append, List.map_append]
  rfl

theorem mem_registeredIds {actions : List Action} {id : SnapshotId} :
    id ∈ registeredIds actions ↔ ∃ s ∈ registered actions, s.id = id := List.mem_map

end Log

/-- A removed property has no value, and one that is set has the value it is set to. -/
theorem Properties.find?_update (props set : Properties) (remove : List String) (key : String) :
    (props.update set remove).find? key = Log.settled key (props.find? key) (set, remove) := by
  have herased : ∀ (remove : List String) (props : Properties),
      (remove.foldl SortedMap.erase props).find? key = if key ∈ remove then none else props.find? key := by
    intro remove
    induction remove with
    | nil => intro props; rfl
    | cons k remove ih =>
      intro props
      rw [List.foldl_cons, ih, SortedMap.find?_erase]
      by_cases hin : key ∈ remove
      · simp [hin]
      · simp only [Std.LawfulEqOrd.compare_eq_iff_eq, List.mem_cons, hin, or_false, if_false]
  rw [update, Log.settled]
  cases hset : set.find? key with
  | none =>
    rw [SortedMap.find?_insertAll_of_not_mem, herased, Option.none_or]
    intro value hin
    exact absurd ((SortedMap.mem_toList.1 hin).symm.trans hset) (by simp)
  | some value =>
    rw [SortedMap.find?_insertAll_of_mem (SortedMap.nodup_keys set) (SortedMap.mem_toList.2 hset)]
    rfl

namespace Table

open Log

variable {t u v : Table} {a : Action} {actions later : List Action}

/-! ### What one action needs and does -/

/-- What an action needs of the table that it is applied to. -/
structure Admits (t : Table) (a : Action) : Prop where
  only : ∀ m, a ≠ .create m
  fresh : ∀ s, a.registers? = some s → t.snapshots.contains s.id = false
  known : ∀ m, a.moves? = some m → t.snapshots.contains m.snapshotId = true

theorem exists_apply_iff : (∃ u, t.apply a = .ok u) ↔ t.Admits a := by
  cases a with
  | create m =>
    constructor
    · rintro ⟨u, hu⟩
      exact absurd hu (by simp [apply])
    · exact fun h => absurd rfl (h.only m)
  | updateProperties set remove =>
    exact ⟨fun _ => ⟨by simp, by simp [Action.registers?], by simp [Action.moves?]⟩, fun _ => ⟨_, rfl⟩⟩
  | addSnapshot s =>
    rw [apply]
    split
    next hin =>
      constructor
      · rintro ⟨u, hu⟩
        exact absurd hu (by simp)
      · intro h
        exact absurd (hin.symm.trans (h.fresh s rfl)) (by simp)
    next hnew =>
      refine ⟨fun _ => ⟨by simp, fun r hr => ?_, by simp [Action.moves?]⟩, fun _ => ⟨_, rfl⟩⟩
      obtain rfl := Option.some.inj hr
      exact Bool.eq_false_iff.2 hnew
  | moveCurrent target parentId time =>
    rw [apply]
    split
    next hin =>
      refine ⟨fun _ => ⟨by simp, by simp [Action.registers?], fun m hm => ?_⟩, fun _ => ⟨_, rfl⟩⟩
      obtain rfl := Option.some.inj hm
      exact hin
    next hnew =>
      constructor
      · rintro ⟨u, hu⟩
        exact absurd hu (by simp)
      · exact fun h => absurd (h.known _ rfl) hnew

/-- The table `u` is `t` with what the actions add to it. -/
structure Gains (t : Table) (actions : List Action) (u : Table) : Prop where
  snapshots : ∀ id s, u.snapshots.find? id = some s ↔
    t.snapshots.find? id = some s ∨ s ∈ registered actions ∧ s.id = id
  history : u.history.map PointerMove.unmarked = t.history.map PointerMove.unmarked ++ movesOf actions
  current : u.currentId = ((movesOf actions).getLast?.map PointerMove.snapshotId).or t.currentId
  metadata : u.metadata = { t.metadata with properties := u.metadata.properties }
  properties : ∀ key, u.metadata.properties.find? key =
    (updates actions).foldl (settled key) (t.metadata.properties.find? key)

theorem Gains.refl (t : Table) : t.Gains [] t :=
  ⟨by simp [registered], by simp [movesOf], rfl, rfl, fun _ => rfl⟩

theorem Gains.trans (h : t.Gains actions u) (h' : u.Gains later v) : t.Gains (actions ++ later) v := by
  refine ⟨fun id s => ?_, ?_, ?_, ?_, fun key => ?_⟩
  · rw [h'.snapshots, h.snapshots, registered_append, List.mem_append, or_and_right, or_assoc]
  · rw [h'.history, h.history, movesOf_append, List.append_assoc]
  · rw [h'.current, h.current, movesOf_append, List.getLast?_append, Option.map_or, Option.or_assoc]
  · rw [h'.metadata, h.metadata]
  · rw [h'.properties, h.properties, updates_append, List.foldl_append]

/-- One action adds to the table what it says. -/
theorem Gains.of_apply (h : t.apply a = .ok u) : t.Gains [a] u := by
  cases a with
  | create m => exact absurd h (by simp [apply])
  | updateProperties set remove =>
    obtain rfl := Except.ok.inj h
    exact ⟨by simp [registered, Action.registers?], by simp [movesOf, Action.moves?], rfl, rfl,
      fun key => Properties.find?_update _ set remove key⟩
  | addSnapshot s =>
    have hfresh := (exists_apply_iff.1 ⟨u, h⟩).fresh s rfl
    rw [apply, hfresh] at h
    obtain rfl := Except.ok.inj h
    refine ⟨fun id r => ?_, by simp [movesOf, Action.moves?], rfl, rfl, fun key => rfl⟩
    have hone : registered [.addSnapshot s] = [s] := rfl
    rw [hone, List.mem_singleton]
    by_cases hid : id = s.id
    · subst hid
      -- The id is new, so its snapshot is the registered one.
      have hnone : t.snapshots.find? s.id = none := by simpa [SortedMap.contains] using hfresh
      rw [SortedMap.find?_insert_self, hnone]
      exact ⟨fun hr => .inr ⟨(Option.some.inj hr).symm, by rw [Option.some.inj hr]⟩,
        fun hr => by rw [(hr.resolve_left (by simp)).1]⟩
    · rw [SortedMap.find?_insert_of_ne _ _ hid]
      refine ⟨.inl, fun hr => hr.resolve_right ?_⟩
      rintro ⟨rfl, rfl⟩
      exact hid rfl
  | moveCurrent target parentId time =>
    have hknown := (exists_apply_iff.1 ⟨u, h⟩).known _ rfl
    rw [apply, if_pos hknown] at h
    obtain rfl := Except.ok.inj h
    refine ⟨by simp [registered, Action.registers?, moveCurrent], ?_, rfl, rfl, fun key => rfl⟩
    rw [moveCurrent, unmarked_markAncestors, List.map_append]
    rfl

theorem Gains.contains (h : t.Gains actions u) (id : SnapshotId) :
    u.snapshots.contains id = true ↔
      t.snapshots.contains id = true ∨ id ∈ registeredIds actions := by
  simp only [SortedMap.contains_iff, mem_registeredIds, h.snapshots, exists_or]

/-! ### Many actions -/

theorem applyAll_append : t.applyAll (actions ++ later) = t.applyAll actions >>= (applyAll · later) :=
  List.foldlM_append

theorem applyAll_cons_eq_ok : t.applyAll (a :: actions) = .ok v ↔
    ∃ u, t.apply a = .ok u ∧ u.applyAll actions = .ok v := by
  rw [applyAll, List.foldlM_cons]
  exact bind_eq_ok

theorem Gains.of_applyAll (h : t.applyAll actions = .ok u) : t.Gains actions u := by
  induction actions generalizing t with
  | nil =>
    obtain rfl := Except.ok.inj h
    exact .refl t
  | cons a actions ih =>
    obtain ⟨t₁, ha, hrest⟩ := applyAll_cons_eq_ok.1 h
    exact (Gains.of_apply ha).trans (ih hrest)

/-- The rules for actions behind those that led to the table. -/
structure Continues (t : Table) (actions : List Action) : Prop where
  only : ∀ m, .create m ∉ actions
  once : (registeredIds actions).Nodup
  fresh : ∀ id ∈ registeredIds actions, t.snapshots.contains id = false
  known : ∀ before target parentId time after,
    actions = before ++ .moveCurrent target parentId time :: after →
      t.snapshots.contains target = true ∨ target ∈ registeredIds before

theorem Continues.head (h : t.Continues (a :: actions)) : t.Admits a := by
  refine ⟨fun m ha => h.only m (by simp [ha]), fun s hs => h.fresh s.id ?_, fun m hm => ?_⟩
  · rw [registeredIds_cons]
    simp [registeredIds, registered, hs]
  · cases a with
    | moveCurrent target parentId time =>
      obtain rfl := Option.some.inj hm
      exact (h.known [] target parentId time actions rfl).resolve_right (by simp [registeredIds, registered])
    | _ => exact absurd hm (by simp [Action.moves?])

/-- What continues a table continues it behind its first action. -/
theorem Continues.behind (h : t.Continues (a :: actions)) (ha : t.Gains [a] u) :
    u.Continues actions := by
  have honce := h.once
  rw [registeredIds_cons, List.nodup_append'] at honce
  refine ⟨fun m hm => h.only m (by simp [hm]), honce.2.1, fun id hid => ?_, ?_⟩
  · rw [Bool.eq_false_iff, ne_eq, ha.contains]
    rintro (hold | hnew)
    · have hfresh := h.fresh id (by rw [registeredIds_cons]; simp [hid])
      exact absurd (hold.symm.trans hfresh) (by simp)
    · exact honce.2.2 hnew hid
  · rintro before target parentId time after rfl
    have hknown := h.known (a :: before) target parentId time after rfl
    rwa [registeredIds_cons, List.mem_append, ← or_assoc, ← ha.contains] at hknown

theorem Continues.cons (ha : t.apply a = .ok u) (h : u.Continues actions) :
    t.Continues (a :: actions) := by
  have hadmits := exists_apply_iff.1 ⟨u, ha⟩
  have hgains := Gains.of_apply ha
  -- What the first action registers is new to the table, and not registered again.
  have hfirst : ∀ id ∈ registeredIds [a], t.snapshots.contains id = false ∧ id ∉ registeredIds actions := by
    intro id hid
    have hin := (hgains.contains id).2 (.inr hid)
    refine ⟨?_, fun hlater => absurd (hin.symm.trans (h.fresh id hlater)) (by simp)⟩
    obtain ⟨s, hs, rfl⟩ := mem_registeredIds.1 hid
    obtain ⟨b, hb, hb'⟩ := List.mem_filterMap.1 hs
    obtain rfl := List.mem_singleton.1 hb
    exact hadmits.fresh s hb'
  refine ⟨fun m hm => ?_, ?_, fun id hid => ?_, ?_⟩
  · rcases List.mem_cons.1 hm with rfl | hm
    · exact hadmits.only m rfl
    · exact h.only m hm
  · rw [registeredIds_cons, List.nodup_append']
    refine ⟨?_, h.once, fun id hid => (hfirst id hid).2⟩
    cases a <;> simp [registeredIds, registered, List.filterMap_cons, Action.registers?]
  · rw [registeredIds_cons, List.mem_append] at hid
    rcases hid with hid | hid
    · exact (hfirst id hid).1
    · rw [Bool.eq_false_iff]
      intro hold
      exact absurd (((hgains.contains id).2 (.inl hold)).symm.trans (h.fresh id hid)) (by simp)
  · intro before target parentId time after heq
    cases before with
    | nil =>
      obtain ⟨rfl, -⟩ := List.cons.inj heq
      exact .inl (hadmits.known _ rfl)
    | cons b before =>
      obtain ⟨rfl, rfl⟩ := List.cons.inj heq
      have hknown := h.known before target parentId time after rfl
      rwa [hgains.contains, or_assoc, ← List.mem_append, ← registeredIds_cons] at hknown

/-- Actions can be applied to a table if and only if they keep the rules. -/
theorem exists_applyAll_iff : (∃ u, t.applyAll actions = .ok u) ↔ t.Continues actions := by
  induction actions generalizing t with
  | nil =>
    refine ⟨fun _ => ⟨by simp, by simp [registeredIds, registered], ?_, by simp⟩, fun _ => ⟨t, rfl⟩⟩
    simp [registeredIds, registered]
  | cons a actions ih =>
    constructor
    · rintro ⟨v, hv⟩
      obtain ⟨u, ha, hrest⟩ := applyAll_cons_eq_ok.1 hv
      exact .cons ha (ih.1 ⟨v, hrest⟩)
    · intro h
      obtain ⟨u, ha⟩ := exists_apply_iff.2 h.head
      obtain ⟨v, hv⟩ := ih.2 (h.behind (.of_apply ha))
      exact ⟨v, applyAll_cons_eq_ok.2 ⟨u, ha, hv⟩⟩

end Table

namespace Log

variable {t : Table} {m : Metadata} {actions : List Action} {commits : List Commit}

/-! ### Whole logs -/

theorem wellFormed_create_cons (version : Version) :
    WellFormed (.create m :: actions) ↔ (Table.new version m).Continues actions := by
  constructor
  · intro h
    refine ⟨h.only, h.once, fun _ _ => rfl, ?_⟩
    rintro before target parentId time after rfl
    exact .inr (h.known (.create m :: before) target parentId time after rfl)
  · intro h
    refine ⟨⟨m, rfl⟩, h.only, h.once, fun before target parentId time after heq => ?_⟩
    cases before with
    | nil => exact absurd (List.cons.inj heq).1 (by simp)
    | cons b before =>
      obtain ⟨rfl, rfl⟩ := List.cons.inj heq
      exact (h.known before target parentId time after rfl).resolve_left Bool.false_ne_true

theorem describes_of_gains {version : Version} (h : (Table.new version m).Gains actions t) :
    Describes (.create m :: actions) t := by
  refine ⟨fun id s => ?_, h.history, ?_, m, rfl, h.metadata, h.properties⟩
  · rw [h.snapshots]
    exact or_iff_right (by simp [Table.new])
  · rw [h.current]
    exact Option.or_none

/-- The table goes on with the actions of further commits, however they are distributed. -/
theorem replayed_some (t : Table) (commits : List Commit) :
    replayed (some t) commits = (t.applyAll (actionsOf commits)).map some := by
  induction commits generalizing t with
  | nil => rfl
  | cons c commits ih =>
    rw [replayed, List.foldlM_cons, replayCommit, if_pos rfl, foldlM_replayAction, actionsOf_cons,
      Table.applyAll_append]
    cases t.applyAll c.actions with
    | error e => rfl
    | ok u => exact ih u

/-- Commits without actions do nothing before the table is created. -/
theorem replayed_none_cons_of_nil {c : Commit} (h : c.actions = []) :
    replayed none (c :: commits) = replayed none commits := by
  rw [replayed, List.foldlM_cons, replayCommit, if_pos rfl, h]
  rfl

/-- Behind the action that creates the table, the table goes on. -/
theorem replayed_none_cons {c : Commit} {a : Action} {rest : List Action} {t : Option Table}
    (h : c.actions = a :: rest) (ha : replayAction c.version none a = .ok t) :
    replayed none (c :: commits) =
      rest.foldlM (replayAction c.version) t >>= fun t => replayed t commits := by
  rw [replayed, List.foldlM_cons, replayCommit, if_pos rfl, h, List.foldlM_cons, ha]
  rfl

theorem replayed_of_create (h : actionsOf commits = .create m :: actions) :
    ∃ version, replayed none commits = ((Table.new version m).applyAll actions).map some := by
  induction commits with
  | nil => exact absurd h (by simp [actionsOf])
  | cons c commits ih =>
    rw [actionsOf_cons] at h
    cases hc : c.actions with
    | nil =>
      rw [replayed_none_cons_of_nil hc]
      exact ih (by rwa [hc] at h)
    | cons a rest =>
      rw [hc, List.cons_append] at h
      obtain ⟨rfl, rfl⟩ := List.cons.inj h
      refine ⟨c.version, ?_⟩
      rw [replayed_none_cons hc rfl, foldlM_replayAction, Table.applyAll_append]
      cases (Table.new c.version m).applyAll rest with
      | error e => rfl
      | ok u => exact replayed_some u commits

theorem create_of_replayed (h : replayed none commits = .ok (some t)) :
    ∃ m actions, actionsOf commits = .create m :: actions := by
  induction commits with
  | nil => exact absurd (Except.ok.inj h) (by simp)
  | cons c commits ih =>
    rw [actionsOf_cons]
    cases hc : c.actions with
    | nil => exact ih (by rwa [replayed_none_cons_of_nil hc] at h)
    | cons a rest =>
      cases a with
      | create m => exact ⟨m, _, rfl⟩
      | _ =>
        -- Nothing else can be done before there is a table.
        rw [replayed, List.foldlM_cons, replayCommit, if_pos rfl, hc] at h
        exact absurd h (by simp [replayAction, bind, Except.bind])

/-- The table of the commits is that of their actions. -/
theorem tableAfter?_eq_some_iff : tableAfter? commits = some t ↔
    ∃ m actions, actionsOf commits = .create m :: actions ∧
      (Table.new (UInt64.ofNat commits.length) m).applyAll actions = .ok t := by
  have hversion : ∀ (version : Version) (m : Metadata) (actions : List Action),
      (Table.new (UInt64.ofNat commits.length) m).applyAll actions =
        ((Table.new version m).applyAll actions).map fun t =>
          { t with version := UInt64.ofNat commits.length } := fun version m actions =>
    Table.applyAll_version (.new version m) (UInt64.ofNat commits.length) actions
  constructor
  · intro h
    obtain ⟨u, hu, rfl⟩ := tableAfter?_eq_some h
    obtain ⟨m, actions, hactions⟩ := create_of_replayed hu
    obtain ⟨version, hreplayed⟩ := replayed_of_create hactions
    obtain ⟨w, hw, hsame⟩ := map_eq_ok.1 (hreplayed.symm.trans hu)
    obtain rfl := Option.some.inj hsame
    exact ⟨m, actions, hactions, by rw [hversion version, hw]; rfl⟩
  · rintro ⟨m, actions, hactions, h⟩
    obtain ⟨version, hreplayed⟩ := replayed_of_create hactions
    rw [hversion version] at h
    obtain ⟨u, hu, rfl⟩ := map_eq_ok.1 h
    rw [tableAfter?, hreplayed, hu]
    rfl

/-- Commits describe a table if and only if their actions are those of a log. -/
theorem exists_tableAfter?_iff : (∃ t, tableAfter? commits = some t) ↔ WellFormed (actionsOf commits) := by
  constructor
  · rintro ⟨t, ht⟩
    obtain ⟨m, actions, hactions, h⟩ := tableAfter?_eq_some_iff.1 ht
    rw [hactions, wellFormed_create_cons (UInt64.ofNat commits.length)]
    exact Table.exists_applyAll_iff.1 ⟨t, h⟩
  · intro h
    obtain ⟨m, hm⟩ := h.first
    obtain ⟨actions, hactions⟩ := List.head?_eq_some_iff.1 hm
    rw [hactions, wellFormed_create_cons (UInt64.ofNat commits.length)] at h
    obtain ⟨t, ht⟩ := Table.exists_applyAll_iff.2 h
    exact ⟨t, tableAfter?_eq_some_iff.2 ⟨m, actions, hactions, ht⟩⟩

theorem describes_of_tableAfter? (h : tableAfter? commits = some t) :
    Describes (actionsOf commits) t := by
  obtain ⟨m, actions, hactions, hall⟩ := tableAfter?_eq_some_iff.1 h
  rw [hactions]
  exact describes_of_gains (.of_applyAll hall)

end Log

end Lakehouse
