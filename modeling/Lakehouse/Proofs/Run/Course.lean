import Lakehouse.Proofs.Run.Moves
import Lakehouse.Proofs.Run.Origins

/- Runs whose course is known.

   Where a table is changed through one handle, which always has the latest copy, each change that
   can be planned comes about as it was planned: the copy afterwards and the manifests of its
   current snapshot are told by the plan (`Table.afterPlan`, `Stands.change`), and so are those
   after files were staged (`Stands.stage`) or an older snapshot was made current again
   (`Stands.setCurrent`). So of a run that is made of such steps all is known, though nothing of it
   is evaluated: neither the requests nor the hashes in the names of what is stored. -/
namespace Lakehouse

open Calendar (Instant)
open Contract Log Script

variable {admitted : String → ByteArray → Prop} {root : Location} {files files' : Tree} {n : Nat}
  {t : Table} {p : Table.Plan} {operation : Operation} {changes : FileChanges}

namespace Table

/-- The snapshot that a plan makes of the current one. -/
def snapshotOf (t : Table) (p : Plan) (operation : Operation) (now : Instant) : Snapshot :=
  p.snapshot t.currentId operation
    (p.listPath t.spec t.metadata.properties.inheritsSnapshotIds) now

/-- The table after a plan has been carried out. -/
def afterPlan (t : Table) (p : Plan) (operation : Operation) (now : Instant) : Table :=
  { moveCurrent { t with snapshots := t.snapshots.insert p.id (t.snapshotOf p operation now) }
      ⟨now, p.id, t.currentId, false⟩ with version := t.version + 1 }

/-- The table after a snapshot was made current again. -/
def afterMove (t : Table) (target : SnapshotId) (now : Instant) : Table :=
  { t.moveCurrent ⟨now, target, none, false⟩ with version := t.version + 1 }

/-- The manifests of the current snapshot after a plan has been carried out. -/
def manifestsAfter (t : Table) (p : Plan) : List (ManifestRecord × Manifest) :=
  p.manifestsAfter t.spec t.metadata.properties.inheritsSnapshotIds

end Table

namespace World

variable {w : World} {call : Call} {ms ms' : List (ManifestRecord × Manifest)} {now : Instant}

/-- Handle 0 has the latest copy `t` of a table with `n` commits, of which the current snapshot has
the manifests `ms`; all that has been stored is admitted. -/
structure Stands (admitted : String → ByteArray → Prop) (root : Location) (w : World) (n : Nat)
    (t : Table) (ms : List (ManifestRecord × Manifest)) : Prop where
  latest : ∃ commits, commits.length = n ∧
    w.Latest (Request.StoresOnly admitted) root 0 commits t
  loads : perform root t.loadCurrent w.files = (.ok ms, w.files)

/-- What happened is remembered with the copy that it left. -/
theorem history_complete {event : Event} {w₁ : World} {result : Except TableError Answer}
    (h : w.complete root event now = (w₁, some result)) :
    ∃ u, w₁.history = ⟨event, w.handles event.handle, result, u⟩ :: w.history ∧
      w₁.handles event.handle = u := by
  cases hscript : event.script? now w.handles with
  | none =>
    rw [complete_of_no_script hscript] at h
    exact absurd (Prod.mk.inj h).2 (by simp)
  | some script =>
    rcases hrun : script.run root w.files with ⟨⟨result', u⟩, after⟩
    rw [complete_of_script hscript hrun] at h
    obtain ⟨rfl, hresult⟩ := Prod.mk.inj h
    obtain rfl := Option.some.inj hresult
    exact ⟨u, rfl, if_pos rfl⟩

namespace Stands

theorem copy (h : w.Stands admitted root n t ms) : w.handles 0 = some t := by
  obtain ⟨_, -, hlatest⟩ := h.latest
  exact hlatest.copy

theorem version_eq (h : w.Stands admitted root n t ms) : t.version = UInt64.ofNat n := by
  obtain ⟨_, rfl, hlatest⟩ := h.latest
  obtain ⟨_, -, rfl⟩ := tableAfter?_eq_some hlatest.table
  rfl

theorem rebuilt (h : w.Stands admitted root n t ms) :
    perform root rebuild w.files = (.ok t, w.files) := by
  obtain ⟨_, -, hlatest⟩ := h.latest
  exact Table.perform_loadLatest hlatest.read

theorem asks (h : w.Stands admitted root n t ms) : ∀ r ∈ w.requests, r.StoresOnly admitted := by
  obtain ⟨_, -, hlatest⟩ := h.latest
  exact hlatest.asks

/-- What was stored can be told apart if all that is admitted can. -/
theorem unambiguous (h : w.Stands admitted root n t ms)
    (hclear : Unambiguous (Request.StoresOnly admitted)) : Unambiguous (· ∈ w.requests) :=
  fun kind path a b ha hb => hclear kind path a b (h.asks _ ha) (h.asks _ hb)

theorem loads_current (h : w.Stands admitted root n t ms) {id : SnapshotId} {s : Snapshot}
    (hid : t.currentId = some id) (hfind : t.snapshots.find? id = some s) :
    s.Loads root w.files ms := by
  have hcurrent : t.current? = some s := by rw [Table.current?, hid]; exact hfind
  have hload := h.loads
  rwa [Table.loadCurrent, hcurrent] at hload

/-- A table that has just been made has no manifests. -/
theorem create (hvacant : files.Vacant root) (hroom : root.Roomy) (m : Metadata) (now : Instant) :
    ((start files).step root ⟨.create 0 m, now, none⟩).Stands admitted root 1 (.new 1 m) [] ∧
      ((start files).step root ⟨.create 0 m, now, none⟩).history =
        [⟨.create 0 m, none, .ok .done, some (.new 1 m)⟩] := by
  obtain ⟨w, c, hcomplete, hlatest⟩ := complete_create (Chain.of_vacant hvacant) hroom
    (.of_vacant hvacant) (fun _ hr => absurd hr List.not_mem_nil) 0 m
    (@wants_create root admitted (start files) now 0 m)
  obtain ⟨after, hhistory, hafter⟩ := history_complete hcomplete
  obtain rfl : some (.new 1 m) = after := hlatest.copy.symm.trans hafter
  rw [complete] at hcomplete
  obtain ⟨rfl, -⟩ := Prod.mk.inj hcomplete
  exact ⟨⟨⟨[c], rfl, hlatest⟩, rfl⟩, hhistory⟩

/-- Files that are staged change nothing else. -/
theorem stage (h : w.Stands admitted root n t ms) (hroom : root.Roomy)
    (hclear : Unambiguous (Request.StoresOnly admitted)) {added : List DataFile} {m : Manifest}
    (hmanifest : Table.stagedManifest t.spec added = m)
    (hstores : admitted (Layout.stagedPath (FileM.manifestContent m)) (FileM.manifestContent m))
    (now : Instant) :
    (w.step root ⟨.call 0 (.stage added), now, none⟩).Stands admitted root n t ms ∧
      (w.step root ⟨.call 0 (.stage added), now, none⟩).history = ⟨.call 0 (.stage added), some t,
        .ok (.path (Layout.stagedPath (FileM.manifestContent m))), some t⟩ :: w.history ∧
      (w.step root ⟨.call 0 (.stage added), now, none⟩).files.content? root
        (Layout.stagedPath (FileM.manifestContent m)) = some (FileM.manifestContent m) := by
  subst hmanifest
  obtain ⟨commits, rfl, hlatest⟩ := h.latest
  have hwants : ∀ r ∈ w.wants root ⟨.call 0 (.stage added), now, none⟩, r.StoresOnly admitted :=
    storesOnly_wants hlatest.copy (.map (Table.stage_asks hstores))
  obtain ⟨w₁, hcomplete, hlatest₁, hgrows, hcontent⟩ := hlatest.stage hroom hclear hwants
  obtain ⟨after, hhistory, hafter⟩ := history_complete hcomplete
  obtain rfl : some t = after := hlatest₁.copy.symm.trans hafter
  rw [complete] at hcomplete
  obtain ⟨rfl, -⟩ := Prod.mk.inj hcomplete
  refine ⟨⟨⟨commits, rfl, hlatest₁⟩, ?_⟩, hlatest.copy ▸ hhistory, hcontent⟩
  exact Table.perform_loadCurrent_grows hlatest.chain hgrows h.loads

/-- A change that is planned comes about as it was planned. -/
theorem change (h : w.Stands admitted root n t ms) (call : Call) (hroom : root.Roomy)
    (hclear : Unambiguous (Request.StoresOnly admitted)) (hmore : n + 1 < UInt64.size)
    (hchange : call.change? t = some ⟨t.currentId, operation, changes⟩)
    (hplanned : Table.Planned root w.files t operation changes p)
    (hstores : ∀ path content,
      p.Stores t.spec t.metadata.properties.inheritsSnapshotIds path content →
      admitted path content) (now : Instant) :
    (w.step root ⟨.call 0 call, now, none⟩).Stands admitted root (n + 1)
        (t.afterPlan p operation now) (t.manifestsAfter p) ∧
      (w.step root ⟨.call 0 call, now, none⟩).history = ⟨.call 0 call, some t,
        .ok (.snapshot (t.snapshotOf p operation now)), some (t.afterPlan p operation now)⟩ ::
          w.history := by
  have hversion := h.version_eq
  obtain ⟨commits, rfl, hlatest⟩ := h.latest
  have hwants : ∀ r ∈ w.wants root ⟨.call 0 call, now, none⟩, r.StoresOnly admitted := by
    refine wants_change hlatest.copy hchange fun u q hread hq path content hq' => ?_
    obtain rfl := Except.ok.inj (Prod.mk.inj (hread.symm.trans hlatest.read)).1
    obtain rfl := hplanned.unique hq
    exact hstores path content hq'
  obtain ⟨s, u, w₁, c, hcomplete, hlatest₁, hgrows, hcommitted⟩ :=
    hlatest.change hroom hmore hchange rfl hplanned hwants
  obtain ⟨after, hhistory, hafter⟩ := history_complete hcomplete
  obtain rfl : some u = after := hlatest₁.copy.symm.trans hafter
  obtain rfl : s = t.snapshotOf p operation now := hcommitted.snapshot
  obtain rfl : u = t.afterPlan p operation now := by
    rw [hcommitted.table_eq, Table.afterPlan, hversion, ← ofNat_succ]
    rfl
  have hloads := hcommitted.loads hlatest.chain hgrows hlatest₁.supplied hclear
  rw [complete] at hcomplete
  obtain ⟨rfl, -⟩ := Prod.mk.inj hcomplete
  refine ⟨⟨⟨_, by simp, hlatest₁⟩, ?_⟩, hlatest.copy ▸ hhistory⟩
  rw [Table.loadCurrent, hcommitted.current?_eq]
  exact hloads

/-- A registered snapshot comes back as it was. -/
theorem setCurrent (h : w.Stands admitted root n t ms) (hroom : root.Roomy)
    (hmore : n + 1 < UInt64.size) {target : SnapshotId} {s : Snapshot}
    (hfind : t.snapshots.find? target = some s) (hloads : s.Loads root w.files ms')
    (now : Instant) :
    (w.step root ⟨.call 0 (.setCurrent target), now, none⟩).Stands admitted root (n + 1)
        (t.afterMove target now) ms' ∧
      (w.step root ⟨.call 0 (.setCurrent target), now, none⟩).history =
        ⟨.call 0 (.setCurrent target), some t, .ok .done, some (t.afterMove target now)⟩ ::
          w.history := by
  have hversion := h.version_eq
  obtain ⟨commits, rfl, hlatest⟩ := h.latest
  have hin : t.snapshots.contains target = true := SortedMap.contains_iff.2 ⟨s, hfind⟩
  have hwants : ∀ r ∈ w.wants root ⟨.call 0 (.setCurrent target), now, none⟩,
      r.StoresOnly admitted := storesOnly_wants hlatest.copy (.map (Table.setCurrent_asks _ _))
  obtain ⟨u, w₁, c, hcomplete, hlatest₁, hgrows, hwrote⟩ :=
    hlatest.setCurrent hroom hmore hin hwants
  obtain ⟨after, hhistory, hafter⟩ := history_complete hcomplete
  obtain rfl : some u = after := hlatest₁.copy.symm.trans hafter
  obtain rfl : u = t.afterMove target now := by
    obtain ⟨v, hv, rfl⟩ := hwrote.applied
    rw [Table.applyAll_move hin] at hv
    rw [← Except.ok.inj hv, Table.afterMove, hversion, ← ofNat_succ]
  rw [complete] at hcomplete
  obtain ⟨rfl, -⟩ := Prod.mk.inj hcomplete
  refine ⟨⟨⟨_, by simp, hlatest₁⟩, ?_⟩, hlatest.copy ▸ hhistory⟩
  have hcurrent : (t.afterMove target now).current? = some s := hfind
  rw [Table.loadCurrent, hcurrent]
  exact FileM.loadManifests_grows hlatest.chain hgrows hloads

end Stands

end World

/-! ### A table of days -/

namespace Days

/-- What a table is made with that has two columns, is partitioned by one of them, and lets snapshot
ids be inherited. -/
def metadata : Metadata :=
  ⟨⟨[⟨1, "id", .int, true⟩, ⟨2, "day", .int, false⟩], by simp [Field.Distinct]⟩,
    ⟨0, [⟨2, 1000, "day"⟩]⟩, SortedMap.empty.insert Properties.inheritanceKey "true", default, 1⟩

/-- A file of two rows of one day, with all metrics. -/
def dated : DataFile :=
  ((DataFile.withoutMetrics "data/day=1/a.parquet" [some (.int 1)] 2 100).addMetrics 1 2 0
    (some (.int 10, .int 20))).addMetrics 2 2 0 (some (.int 1, .int 1))

/-- A file of one row without a day, of which no more is known. -/
def undated : DataFile := .withoutMetrics "data/b.parquet" [none] 1 50

/-- Of two columns something is known. -/
theorem find?_columns {α : Type} {x y v : α} {c : FieldId}
    (h : ((SortedMap.empty.insert 1 x).insert 2 y).find? c = some v) :
    c = 1 ∧ v = x ∨ c = 2 ∧ v = y := by
  rw [SortedMap.find?_insert, SortedMap.find?_insert] at h
  split at h
  next hc => exact .inr ⟨Std.LawfulEqCmp.eq_of_compare hc, (Option.some.inj h).symm⟩
  next =>
    split at h
    next hc => exact .inl ⟨Std.LawfulEqCmp.eq_of_compare hc, (Option.some.inj h).symm⟩
    next => exact absurd h (by simp)

/-- The rows of the day. -/
def ofDay : Filter := .compare .eq "day" (.int 1)

/-- The manifest in which both files are staged. -/
def staged : Manifest := Table.stagedManifest metadata.spec [dated, undated]

def stagedPath : String := Layout.stagedPath (FileM.manifestContent staged)

/-- Behind an empty first snapshot, both files are added; then the rows of the day are deleted, and
a snapshot is made that carries on what is left. After the first snapshot was made current again,
both files are added once more. -/
@[irreducible]
def turns : List Turn := [
  ⟨.create 0 metadata, default, none⟩,
  ⟨.call 0 (.stage [dated, undated]), default, none⟩,
  ⟨.call 0 (.append []), default, none⟩,
  ⟨.call 0 (.appendManifests [stagedPath]), default, none⟩,
  ⟨.call 0 (.deleteWhere ofDay), default, none⟩,
  ⟨.call 0 (.append []), default, none⟩,
  ⟨.call 0 (.setCurrent SnapshotId.first), default, none⟩,
  ⟨.call 0 (.appendManifests [stagedPath]), default, none⟩]

/-- The plan by which both files are added, of which none is live. -/
def adding (id : SnapshotId) : Table.Plan :=
  ⟨id, [], .empty, [],
    [⟨stagedPath, staged, UInt64.ofNat (FileM.manifestContent staged).size⟩]⟩

def begun : Table := (Table.new 1 metadata).afterPlan (.first []) .append default

def filled : Table := begun.afterPlan (adding 2) .append default

def deleting : Table.Plan :=
  ⟨3, begun.manifestsAfter (adding 2), pathSet [dated.path], [], []⟩

def thinned : Table := filled.afterPlan deleting .delete default

def carrying : Table.Plan := ⟨4, filled.manifestsAfter deleting, .empty, [], []⟩

def carried : Table := thinned.afterPlan carrying .append default

def returned : Table := carried.afterMove SnapshotId.first default

def refilled : Table := returned.afterPlan (adding 5) .append default

def plans : List Table.Plan := [.first [], adding 2, deleting, carrying, adding 5]

/-- What is left of the staged manifest when the rows of the day are deleted. -/
def rewritten : Manifest :=
  ⟨0, [⟨.deleted, some 3, dated⟩, ⟨.existing, some 2, undated⟩]⟩

/-- The world after the first `k` turns. -/
@[irreducible]
def world (k : Nat) : World := World.run ⟨"."⟩ (World.start .empty) (turns.take k)

def Stores : String → ByteArray → Prop :=
  Table.StoresStaged metadata.spec true staged plans

theorem unambiguous : Unambiguous (Request.StoresOnly Stores) := by
  refine Table.unambiguous_storesStaged (m := rewritten) (by decide) (fun p hp m hm => ?_) _
  simp only [plans, List.mem_cons, List.not_mem_nil, or_false] at hp
  rcases hp with rfl | rfl | rfl | rfl | rfl
  · exact absurd hm List.not_mem_nil
  · exact absurd hm List.not_mem_nil
  · exact List.mem_singleton.1 hm
  · exact absurd hm List.not_mem_nil
  · exact absurd hm List.not_mem_nil

/-- All that happens, the last first. -/
def history : List Record := [
  ⟨.call 0 (.appendManifests [stagedPath]), some returned,
    .ok (.snapshot (returned.snapshotOf (adding 5) .append default)), some refilled⟩,
  ⟨.call 0 (.setCurrent SnapshotId.first), some carried, .ok .done, some returned⟩,
  ⟨.call 0 (.append []), some thinned,
    .ok (.snapshot (thinned.snapshotOf carrying .append default)), some carried⟩,
  ⟨.call 0 (.deleteWhere ofDay), some filled,
    .ok (.snapshot (filled.snapshotOf deleting .delete default)), some thinned⟩,
  ⟨.call 0 (.appendManifests [stagedPath]), some begun,
    .ok (.snapshot (begun.snapshotOf (adding 2) .append default)), some filled⟩,
  ⟨.call 0 (.append []), some (.new 1 metadata),
    .ok (.snapshot ((Table.new 1 metadata).snapshotOf (.first []) .append default)), some begun⟩,
  ⟨.call 0 (.stage [dated, undated]), some (.new 1 metadata), .ok (.path stagedPath),
    some (.new 1 metadata)⟩,
  ⟨.create 0 metadata, none, .ok .done, some (.new 1 metadata)⟩]

/-- After `k` turns there are `n` commits, and the latest table is `t`, of which the current snapshot
has the manifests `ms`. -/
structure Known (k n : Nat) (t : Table) (ms : List (ManifestRecord × Manifest)) : Prop where
  stands : (world k).Stands Stores ⟨"."⟩ n t ms
  metadata_eq : t.metadata = metadata
  remembered : (world k).history = history.drop (8 - k)

/-! #### Turns -/

theorem world_eq (k : Nat) : World.run ⟨"."⟩ (World.start .empty) (turns.take k) = world k := by
  rw [world]

theorem world_add (k l : Nat) :
    World.run ⟨"."⟩ (World.start .empty) (turns.take k ++ (turns.drop k).take l) = world (k + l) := by
  rw [← List.take_add, world_eq]

/-- Of the turns before some turn, one knows how many there are. -/
theorem turn_of_prefix {k : Nat} {before : List Turn} {turn : Turn}
    (h : before ++ [turn] <+: turns.take k) :
    ∃ j < k, before = turns.take j ∧ turns[j]? = some turn := by
  obtain ⟨rest, hrest⟩ := h
  have hall : turns = before ++ turn :: (rest ++ turns.drop k) := by
    have hsplit := (List.take_append_drop k turns).symm
    rw [← hrest] at hsplit
    simpa using hsplit
  have hlt : before.length < k := by
    have hlength := congrArg List.length hrest
    simp only [List.length_append, List.length_cons, List.length_take] at hlength
    omega
  refine ⟨before.length, hlt, ?_, ?_⟩
  · rw [hall, List.take_left]
  · rw [hall, List.getElem?_append_right (Nat.le_refl _), Nat.sub_self]
    rfl

theorem ends (k : Nat) : ∀ turn ∈ turns.take k, turn.limit = none := by
  have hall : ∀ turn ∈ turns, turn.limit = none := by simp [turns]
  exact fun turn hturn => hall turn (List.mem_of_mem_take hturn)

theorem world_succ {k : Nat} {turn : Turn} (h : turns[k]? = some turn) :
    world (k + 1) = (world k).step ⟨"."⟩ turn := by
  rw [world, world, List.take_add_one, h, Option.toList_some, World.run_concat]

theorem turns_eq (k : Nat) : turns[k]? = [
    ⟨.create 0 metadata, default, none⟩,
    ⟨.call 0 (.stage [dated, undated]), default, none⟩,
    ⟨.call 0 (.append []), default, none⟩,
    ⟨.call 0 (.appendManifests [stagedPath]), default, none⟩,
    ⟨.call 0 (.deleteWhere ofDay), default, none⟩,
    ⟨.call 0 (.append []), default, none⟩,
    ⟨.call 0 (.setCurrent SnapshotId.first), default, none⟩,
    (⟨.call 0 (.appendManifests [stagedPath]), default, none⟩ : Turn)][k]? := by
  unfold turns
  rfl

theorem stores {p : Table.Plan} (hp : p ∈ plans) {t : Table} (ht : t.metadata = metadata)
    (path : String) (content : ByteArray)
    (h : p.Stores t.spec t.metadata.properties.inheritsSnapshotIds path content) :
    Stores path content := by
  have hspec : t.spec = metadata.spec := congrArg Metadata.spec ht
  have hinherits : t.metadata.properties.inheritsSnapshotIds = true := by
    rw [ht]
    decide
  rw [hspec, hinherits] at h
  exact .inl ⟨p, hp, h⟩

/-- The files after some turns are there after more of them. -/
theorem grows (k more : Nat) : ∃ commits current, Chain ⟨"."⟩ (world k).files commits current ∧
    (world k).files.Grows World.everything ⟨"."⟩ (world (k + more)).files := by
  obtain ⟨commits, current, hordered⟩ := World.ordered_run Tree.vacant_empty (turns.take k)
  obtain ⟨_, _, -, -, -, hproceeds⟩ := hordered.run ((turns.drop k).take more)
  rw [← World.run_append, world_add, world_eq] at hproceeds
  rw [world_eq] at hordered
  exact ⟨commits, current, hordered.chain, hproceeds.grows⟩

/-- The manifests of a snapshot are read later as they were. -/
theorem loads_later {k : Nat} {s : Snapshot} {ms : List (ManifestRecord × Manifest)}
    (h : s.Loads ⟨"."⟩ (world k).files ms) (more : Nat) :
    s.Loads ⟨"."⟩ (world (k + more)).files ms := by
  obtain ⟨_, _, hchain, hgrows⟩ := grows k more
  exact FileM.loadManifests_grows hchain hgrows h

namespace Known

variable {k n : Nat} {t : Table} {ms : List (ManifestRecord × Manifest)} {p : Table.Plan}
  {operation : Operation} {changes : FileChanges}

theorem loads (h : Known k n t ms) {id : SnapshotId} {s : Snapshot} (hid : t.currentId = some id)
    (hfind : t.snapshots.find? id = some s) : s.Loads ⟨"."⟩ (world k).files ms :=
  h.stands.loads_current hid hfind

theorem change (h : Known k n t ms) (call : Call)
    (hturn : turns[k]? = some ⟨.call 0 call, default, none⟩) (hmore : n + 1 < UInt64.size)
    (hchange : call.change? t = some ⟨t.currentId, operation, changes⟩)
    (hplanned : Table.Planned ⟨"."⟩ (world k).files t operation changes p) (hp : p ∈ plans)
    (hhistory : history.drop (8 - (k + 1)) = ⟨.call 0 call, some t,
      .ok (.snapshot (t.snapshotOf p operation default)),
      some (t.afterPlan p operation default)⟩ :: history.drop (8 - k)) :
    Known (k + 1) (n + 1) (t.afterPlan p operation default) (t.manifestsAfter p) := by
  obtain ⟨hstands, hremembered⟩ := h.stands.change call roomy_here unambiguous hmore hchange hplanned
    (stores hp h.metadata_eq) default
  rw [← world_succ hturn] at hstands hremembered
  exact ⟨hstands, h.metadata_eq, by rw [hremembered, h.remembered, hhistory]⟩

end Known

/-! #### What is known after each turn -/

theorem known_made : Known 1 1 (.new 1 metadata) [] := by
  have hzero : world 0 = World.start .empty := by
    rw [world, List.take_zero]
    rfl
  obtain ⟨hstands, hremembered⟩ := World.Stands.create Tree.vacant_empty roomy_here metadata default
  rw [← hzero, ← world_succ (turns_eq 0)] at hstands hremembered
  exact ⟨hstands, rfl, hremembered⟩

theorem known_staged : Known 2 1 (.new 1 metadata) [] ∧
    (world 2).files.content? ⟨"."⟩ stagedPath = some (FileM.manifestContent staged) := by
  obtain ⟨hstands, hremembered, hcontent⟩ := known_made.stands.stage roomy_here unambiguous
    (rfl : Table.stagedManifest _ [dated, undated] = staged) (.inr ⟨rfl, rfl⟩) default
  rw [← world_succ (turns_eq 1)] at hstands hremembered hcontent
  exact ⟨⟨hstands, rfl, by rw [hremembered, known_made.remembered]; rfl⟩, hcontent⟩

/-- What was staged can be adopted later. -/
theorem readStaged (id : SnapshotId) (more : Nat) : ∀ s ∈ (adding id).staged,
    perform ⟨"."⟩ (Table.readStaged metadata.spec s.path) (world (2 + more)).files =
      (.ok s, (world (2 + more)).files) := by
  intro s hs
  obtain rfl := List.mem_singleton.1 hs
  obtain ⟨_, _, hchain, hgrows⟩ := grows 2 more
  exact Table.perform_readStaged_staged (hchain.content_grows Form.isRecord_manifest hgrows
    known_staged.2 (Carries.manifest staged).run_bytes)

theorem known_begun : Known 3 2 begun [] := by
  have h := known_staged.1
  exact h.change (.append []) (turns_eq 2) (by decide) rfl
    (.first rfl Operation.noConfusion rfl rfl rfl) (by simp [plans]) rfl

theorem known_filled : Known 4 3 filled (begun.manifestsAfter (adding 2)) := by
  have h := known_begun
  exact h.change (.appendManifests [stagedPath]) (turns_eq 3) (by decide) rfl
    ⟨rfl, rfl, h.stands.loads, rfl, rfl, rfl, readStaged 2 1, rfl, rfl⟩ (by simp [plans]) rfl

theorem known_thinned : Known 5 4 thinned (filled.manifestsAfter deleting) := by
  have h := known_filled
  exact h.change (.deleteWhere ofDay) (turns_eq 4) (by decide) rfl
    ⟨rfl, rfl, h.stands.loads, rfl, rfl, rfl, fun _ hs => absurd hs List.not_mem_nil, rfl, rfl⟩
    (by simp [plans]) rfl

theorem known_carried : Known 6 5 carried (thinned.manifestsAfter carrying) := by
  have h := known_thinned
  exact h.change (.append []) (turns_eq 5) (by decide) rfl
    ⟨rfl, rfl, h.stands.loads, rfl, rfl, rfl, fun _ hs => absurd hs List.not_mem_nil, rfl, rfl⟩
    (by simp [plans]) rfl

theorem known_returned : Known 7 6 returned [] := by
  have h := known_carried
  have hbegun : begun.currentId = some SnapshotId.first := rfl
  have hfirst : begun.snapshots.find? SnapshotId.first =
      some ((Table.new 1 metadata).snapshotOf (.first []) .append default) := rfl
  have hfind : carried.snapshots.find? SnapshotId.first =
      some ((Table.new 1 metadata).snapshotOf (.first []) .append default) := rfl
  obtain ⟨hstands, hremembered⟩ := h.stands.setCurrent roomy_here (by decide) hfind
    (loads_later (known_begun.loads hbegun hfirst) 3) default
  rw [← world_succ (turns_eq 6)] at hstands hremembered
  exact ⟨hstands, rfl, by rw [hremembered, h.remembered]; rfl⟩

theorem known_refilled : Known 8 7 refilled (returned.manifestsAfter (adding 5)) := by
  have h := known_returned
  exact h.change (.appendManifests [stagedPath]) (turns_eq 7) (by decide) rfl
    ⟨rfl, rfl, h.stands.loads, rfl, rfl, rfl, readStaged 5 5, rfl, rfl⟩ (by simp [plans]) rfl

end Days

end Lakehouse
