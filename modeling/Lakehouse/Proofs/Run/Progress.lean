import Lakehouse.Proofs.Run.Keeping
import Lakehouse.Proofs.Table.Asking

/- What succeeds.

   Nothing stands in the way of an event if the table's root has room for all paths, all
   commits are current, and versions do not run out (`Log.Open`). Then a table can be made
   where there is none (`Event.create_ensures`), and a change succeeds if it can be
   planned for the current snapshot (`Call.change_succeeds`). What these events ask to
   be stored is known beforehand: nothing but a commit, or the manifests and the list of
   the plan (`World.wants_create`, `World.wants_change`). If plans have different ids and
   write one manifest at most, what is stored can be told apart
   (`Table.unambiguous_storesStaged`). -/
namespace Lakehouse

open Contract Log Script

variable {asked : Request → Prop} {root : Location} {files files' : Tree} {commits : List Commit}
  {current : Nat} {t u : Table} {admitted : String → ByteArray → Prop}

/-- No name is ambiguous if under each path only one content is admitted. -/
theorem Unambiguous.of_storesOnly (hasked : ∀ r, asked r → r.StoresOnly admitted)
    (hone : ∀ path a b, admitted path a → admitted path b → a = b) : Unambiguous asked := by
  intro kind path a b ha hb hname hname'
  exact hone path a b ((hasked _ ha).admits hname) ((hasked _ hb).admits hname')

/-! ### Plans -/

namespace Table

variable {spec : PartitionSpec} {inherits : Bool} {operation : Operation} {changes : FileChanges}

/-- Where nothing is live, a change is planned if it is of the kind of its operation, takes nothing
out, and brings only files that fit. -/
theorem Planned.onEmpty {u : Table} {id : SnapshotId} {staged : List Staged}
    (hfit : changes.fit operation = .ok ()) (hreplaces : operation ≠ .replace)
    (hnext : u.nextId = .ok id) (hbase : perform root u.loadCurrent files = (.ok [], files))
    (hremoved : removedPaths u.schema u.spec (.ofManifests []) changes = .ok .empty)
    (hpaths : changes.stagedPaths = staged.map Staged.path)
    (hstaged : ∀ s ∈ staged, perform root (readStaged u.spec s.path) files = (.ok s, files))
    (hdistinct : checkAdded u.spec (.ofManifests []) .empty
      (changes.added ++ staged.flatMap fun s => s.manifest.entries.map (·.file)) = .ok ()) :
    Planned root files u operation changes ⟨id, [], .empty, changes.added, staged⟩ := by
  refine ⟨hfit, hnext, hbase, hremoved, rfl, hpaths, hstaged, hdistinct, ?_⟩
  rw [checkRowCount, if_neg fun h => hreplaces h.1]

/-- A plan by which files are added to a table that has no snapshots. -/
def Plan.first (added : List DataFile) : Plan := ⟨SnapshotId.first, [], .empty, added, []⟩

/-- In a table without snapshots, a change is planned if it is of the kind of its operation, takes
nothing out, and brings only files that are given with it and fit. -/
theorem Planned.first {version : Version} {m : Metadata} (hfit : changes.fit operation = .ok ())
    (hreplaces : operation ≠ .replace)
    (hremoved : removedPaths m.schema m.spec (.ofManifests []) changes = .ok .empty)
    (hstaged : changes.stagedPaths = [])
    (hdistinct : checkAdded m.spec (.ofManifests []) .empty changes.added = .ok ()) :
    Planned root files (.new version m) operation changes (.first changes.added) := by
  refine .onEmpty hfit hreplaces rfl rfl hremoved hstaged (fun s hs => absurd hs List.not_mem_nil) ?_
  rw [List.flatMap_nil, List.append_nil]
  exact hdistinct

theorem Plan.written_first (added : List DataFile) :
    (Plan.first added).written spec inherits = (Plan.first added).additions spec := by
  cases inherits <;> simp [Plan.written, Plan.first, Plan.rewritten, Plan.touched]

/-- Plans with different ids store one content under each path if they write one manifest at
most. -/
theorem Plan.Stores.unique {plans : List Plan} (hids : (plans.map Plan.id).Nodup) {m : Manifest}
    (hone : ∀ p ∈ plans, ∀ m' ∈ p.written spec inherits, m' = m) {path : String} {a b : ByteArray}
    (ha : ∃ p ∈ plans, p.Stores spec inherits path a)
    (hb : ∃ p ∈ plans, p.Stores spec inherits path b) : a = b := by
  obtain ⟨p, hp, ⟨m₁, hm₁, hpath, rfl⟩ | ⟨hpath, rfl⟩⟩ := ha <;>
    obtain ⟨q, hq, ⟨m₂, hm₂, hpath', rfl⟩ | ⟨hpath', rfl⟩⟩ := hb
  · rw [hone p hp m₁ hm₁, hone q hq m₂ hm₂]
  · exact absurd (hpath'.symm.trans hpath) (Layout.manifestListPath_ne_manifestPath _ _ _)
  · exact absurd (hpath.symm.trans hpath') (Layout.manifestListPath_ne_manifestPath _ _ _)
  · have hid : p.id = q.id := Layout.id_eq_of_manifestListPath (hpath.symm.trans hpath')
    rw [List.inj_on_of_nodup_map hids hp hq hid]

/-- What is stored when a manifest is staged and plans are carried out. -/
def StoresStaged (spec : PartitionSpec) (inherits : Bool) (staged : Manifest) (plans : List Plan)
    (path : String) (content : ByteArray) : Prop :=
  (∃ p ∈ plans, p.Stores spec inherits path content) ∨
    path = Layout.stagedPath (FileM.manifestContent staged) ∧ content = FileM.manifestContent staged

theorem unambiguous_storesStaged {plans : List Plan} (hids : (plans.map Plan.id).Nodup) {m : Manifest}
    (hone : ∀ p ∈ plans, ∀ m' ∈ p.written spec inherits, m' = m) (staged : Manifest) :
    Unambiguous (Request.StoresOnly (StoresStaged spec inherits staged plans)) := by
  -- Nothing that a plan stores is among what is staged.
  have hapart : ∀ path content, (∃ p ∈ plans, p.Stores spec inherits path content) →
      path ≠ Layout.stagedPath (FileM.manifestContent staged) := by
    rintro path content ⟨p, -, ⟨m', -, rfl, -⟩ | ⟨rfl, -⟩⟩
    · exact Layout.manifestPath_ne_stagedPath _ _
    · exact Layout.manifestListPath_ne_stagedPath _ _ _
  refine .of_storesOnly (fun _ h => h) fun path a b ha hb => ?_
  rcases ha with ha | ⟨hpath, rfl⟩ <;> rcases hb with hb | ⟨hpath', rfl⟩
  · exact Plan.Stores.unique hids hone ha hb
  · exact absurd hpath' (hapart path a ha)
  · exact absurd hpath (hapart path b hb)
  · rfl

/-- Such a plan stores one content under each path. -/
theorem Plan.Stores.unique_first {added : List DataFile} {path : String} {a b : ByteArray}
    (ha : (Plan.first added).Stores spec inherits path a)
    (hb : (Plan.first added).Stores spec inherits path b) : a = b := by
  have hids : ([Plan.first added].map Plan.id).Nodup := List.nodup_singleton _
  refine Plan.Stores.unique hids
    (m := ⟨spec.specId, added.map fun f => ⟨.added, some SnapshotId.first, f⟩⟩) (fun p hp m hm => ?_)
    ⟨_, List.mem_cons_self, ha⟩ ⟨_, List.mem_cons_self, hb⟩
  obtain rfl := List.mem_singleton.1 hp
  rw [Plan.written_first, Plan.additions] at hm
  split at hm
  · exact absurd hm List.not_mem_nil
  · exact List.mem_singleton.1 hm

end Table

/-! ### Events -/

namespace Event

variable {now : Calendar.Instant} {handles : Nat → Option Table}

theorem handleOf_yields {before : Option Table} {access : FileM Table} {q : Table → Prop}
    (h : Script.Asks admitted access q) :
    (handleOf before access).Yields (Request.StoresOnly admitted) fun _ => True := by
  refine Yields.bind h fun r _ => ?_
  cases r <;> exact Yields.pure trivial

/-- Making a table succeeds where there is none and nothing is in the way. -/
theorem create_ensures (h : Chain root files [] 0) (hopen : Open root [] 0) (metadata : Metadata)
    (before : Option Table) :
    (contract asked root).Ensures (handleOf before (Table.create metadata now)) files
      fun result files' => result = (.ok .done, some (.new 1 metadata)) ∧
        ∃ c, Chain root files' [c] 1 ∧ tableAfter? [c] = some (.new 1 metadata) := by
  refine Ensures.bind (Ensures.mono (Table.create_attempts h metadata now) fun r files' hr => ?_)
  cases r with
  | ok t =>
    obtain ⟨-, rfl, c, -, hchain, htable⟩ := hr
    exact Ensures.pure ⟨rfl, c, hchain, htable⟩
  | error e => exact absurd rfl (hr.late hopen)

end Event

namespace Call

variable {now : Calendar.Instant} {call : Call} {change : Change} {p : Table.Plan}

/-- A change that is planned succeeds if nothing is in the way. -/
theorem change_succeeds (h : Chain root files commits current)
    (hopen : Open root commits current) (hchange : call.change? t = some change)
    (hread : perform root Table.loadLatest files = (.ok u, files))
    (hbase : u.currentId = change.base)
    (hplanned : Table.Planned root files u change.operation change.changes p) :
    (contract asked root).Performs (call.run now) t files
      (fun a t' files' => ∃ s, a = .snapshot s ∧ Table.Committed asked root commits current change.base
        change.operation change.changes now files u p s t' files')
      (fun _ _ _ => False) := by
  refine (performs_change h hchange).mono ?_ fun _ _ _ hfailed =>
    hfailed.2 hopen u p hread hbase hplanned
  rintro a t' files' ⟨s, u', p', rfl, hcommitted⟩
  obtain rfl := Except.ok.inj (Prod.mk.inj (hread.symm.trans hcommitted.read)).1
  obtain rfl := hplanned.unique hcommitted.planned
  exact ⟨s, rfl, hcommitted⟩

end Call

namespace World

variable {w : World} {turn : Turn} {now : Calendar.Instant} {handle : Nat}

theorem wants_of_script {script : Script (Except TableError Answer × Option Table)}
    (hscript : turn.event.script? turn.now w.handles = some script) :
    w.wants root turn = script.requests root w.files := by
  rw [wants, hscript]

/-! ### New tables -/

/-- What a table without columns is made with. -/
def columnless : Metadata := ⟨⟨[], .nil⟩, .unpartitioned, .empty, default, 1⟩

/-- A new table asks for nothing but its commit. -/
theorem wants_create (metadata : Metadata) :
    ∀ r ∈ w.wants root ⟨.create handle metadata, now, none⟩, r.StoresOnly admitted :=
  (Event.handleOf_yields (Table.create_asks metadata now)).of_mem_requests

/-! ### Changes -/

variable {call : Call} {change : Change} {p : Table.Plan}

/-- Through a handle with a copy, the script of a call is run on this copy. -/
theorem script?_of_call (ht : w.handles handle = some t) :
    (Event.call handle call).script? now w.handles =
      some ((call.run now).run.run t >>= fun r => pure (r.1, some r.2)) := by
  rw [Event.script?, ht]
  rfl

/-- A change asks for nothing but a commit and what its plan stores, if there is one. -/
theorem wants_change (ht : w.handles handle = some t) (hchange : call.change? t = some change)
    (h : ∀ u p, perform root Table.loadLatest w.files = (.ok u, w.files) →
      Table.Planned root w.files u change.operation change.changes p → ∀ path content,
        p.Stores u.spec u.metadata.properties.inheritsSnapshotIds path content →
        admitted path content) :
    ∀ r ∈ w.wants root ⟨.call handle call, now, none⟩, r.StoresOnly admitted := by
  intro r hr
  rw [wants_of_script (script?_of_call ht), requests_bind, Call.run_of_change hchange,
    ← bind_pure_comp] at hr
  rcases List.mem_append.1 hr with hr | hr
  · exact TableM.Asks.bind (Table.commit_asks h) (fun _ _ _ _ => .pure) r hr
  · exact absurd hr List.not_mem_nil

end World

end Lakehouse
