import Lakehouse.Proofs.Run.Origins
import Lakehouse.Proofs.Run.Parallel

/- Ways to append.

   Whether files are appended directly, or in a staged manifest whose entries inherit their
   snapshot ids or are given them in a copy, makes no difference that operations or readers
   can tell (`appends_agree`), as long as no operation names a file that one run has and
   the other has not. A manifest that a direct append has written is such a file: it can be
   added by its path once its files have left the table, and where the files were staged there
   is nothing under this path (`named_manifest_tells`). Both are seen after a small run
   in which a file is appended and left again (`detour`). -/
namespace Lakehouse

open Calendar (Instant)
open Contract Log Script

variable {root : Location} {files : Tree}

namespace World

/-- What the turns want, or the moves after them ask for. -/
def Asks (root : Location) (files : Tree) (turns : List Turn) (ms : List Move) (r : Request) : Prop :=
  (∃ before turn, before ++ [turn] <+: turns ∧ r ∈ (run root (start files) before).wants root turn) ∨
    r ∈ ((run root (start files) turns).play root ms).1.requests

/-! ### A detour -/

def firstFile : DataFile := .withoutMetrics "data/first.parquet" [] 3 100

/-- What a table is made with that lets snapshot ids be inherited. -/
def inheriting : Metadata := columnless.setProperty Properties.inheritanceKey "true"

/-- The id of the snapshot that an append makes behind a first one. -/
def secondId : SnapshotId := 2

/-- Behind an empty first snapshot a file is appended, and then the first one is made current
again. -/
def detour (way : Way) : List Move :=
  [.event (.create 0 inheriting) default, .event (.call 0 (.append [])) default,
    .append way 0 [firstFile] default, .event (.call 0 (.setCurrent SnapshotId.first)) default]

end World

namespace Way

open World (firstFile secondId)

/-- The manifest that the append of the detour stores. -/
def manifest : Way → Manifest
  | direct => ⟨PartitionSpec.unpartitioned.specId, [⟨.added, some secondId, firstFile⟩]⟩
  | staged => Table.stagedManifest .unpartitioned [firstFile]

def manifestPath : Way → String
  | direct => Layout.manifestPath (FileM.manifestContent direct.manifest)
  | staged => Layout.stagedPath (FileM.manifestContent staged.manifest)

/-- The change that brings the file. -/
def call : Way → Call
  | direct => .append [firstFile]
  | staged => .appendManifests [staged.manifestPath]

def plan : Way → Table.Plan
  | direct => ⟨secondId, [], .empty, [firstFile], []⟩
  | staged => ⟨secondId, [], .empty, [], [⟨staged.manifestPath, staged.manifest,
      UInt64.ofNat (FileM.manifestContent staged.manifest).size⟩]⟩

/-- What the detour stores: the lists of two snapshots, and the manifest of the file. -/
def Stores (way : Way) (path : String) (content : ByteArray) : Prop :=
  (Table.Plan.first []).Stores .unpartitioned true path content ∨
  way.plan.Stores .unpartitioned true path content ∨
  path = way.manifestPath ∧ content = FileM.manifestContent way.manifest

end Way

/-! ### What a detour stores -/

namespace Way

open World (firstFile secondId)

variable {way : Way} {path : String} {content a b : ByteArray}

theorem listPath_ne (a b : ByteArray) :
    Layout.manifestListPath SnapshotId.first a ≠ Layout.manifestListPath secondId b :=
  fun h => absurd (Layout.id_eq_of_manifestListPath h) (by decide)

theorem isNameOf_manifest (way : Way) : Layout.IsNameOf (FileM.manifestContent way.manifest)
    Layout.manifestKind way.manifestPath := by
  cases way with
  | direct => exact .manifest
  | staged => exact .staged

theorem listPath_ne_manifestPath (id : SnapshotId) (content : ByteArray) (way : Way) :
    Layout.manifestListPath id content ≠ way.manifestPath := by
  intro h
  have hname := isNameOf_manifest way
  rw [← h] at hname
  exact absurd (hname.contentId_eq (.list id)).1 (by decide)

theorem manifestPath_ne : direct.manifestPath ≠ staged.manifestPath :=
  Layout.manifestPath_ne_stagedPath _ _

/-- It stores a list for each of two snapshots, and one manifest. -/
theorem Stores.cases (h : way.Stores path content) :
    (∃ list, path = Layout.manifestListPath SnapshotId.first list ∧
      content = FileM.manifestListContent ((Table.Plan.first []).listAfter .unpartitioned true)) ∨
    (∃ list, path = Layout.manifestListPath secondId list ∧
      content = FileM.manifestListContent (way.plan.listAfter .unpartitioned true)) ∨
    path = way.manifestPath ∧ content = FileM.manifestContent way.manifest := by
  rcases h with (⟨m, hm, -⟩ | ⟨hpath, hcontent⟩) | (⟨m, hm, hpath, hcontent⟩ | ⟨hpath, hcontent⟩) | h
  · exact absurd hm List.not_mem_nil
  · exact .inl ⟨_, hpath, hcontent⟩
  · cases way with
    | direct =>
      obtain rfl : m = direct.manifest := List.mem_singleton.1 hm
      exact .inr (.inr ⟨hpath, hcontent⟩)
    | staged => exact absurd hm List.not_mem_nil
  · have hid : way.plan.id = secondId := by cases way <;> rfl
    rw [Table.Plan.listPath, hid] at hpath
    exact .inr (.inl ⟨_, hpath, hcontent⟩)
  · exact .inr (.inr h)

theorem Stores.unique (ha : way.Stores path a) (hb : way.Stores path b) : a = b := by
  rcases ha.cases with ⟨l, hl, rfl⟩ | ⟨l, hl, rfl⟩ | ⟨hm, rfl⟩ <;>
    rcases hb.cases with ⟨l', hl', rfl⟩ | ⟨l', hl', rfl⟩ | ⟨hm', rfl⟩
  · rfl
  · exact absurd (hl.symm.trans hl') (listPath_ne _ _)
  · exact absurd (hl.symm.trans hm') (listPath_ne_manifestPath _ _ _)
  · exact absurd (hl'.symm.trans hl) (listPath_ne _ _)
  · rfl
  · exact absurd (hl.symm.trans hm') (listPath_ne_manifestPath _ _ _)
  · exact absurd (hl'.symm.trans hm) (listPath_ne_manifestPath _ _ _)
  · exact absurd (hl'.symm.trans hm) (listPath_ne_manifestPath _ _ _)
  · rfl

theorem unambiguous (way : Way) : Unambiguous (Request.StoresOnly way.Stores) :=
  .of_storesOnly (fun _ h => h) fun _ _ _ ha hb => ha.unique hb

end Way

namespace World

variable {way : Way} {w : World} {commits : List Commit} {t : Table} {s : Snapshot}

theorem inheriting_inherits : inheriting.properties.inheritsSnapshotIds = true := by decide

/-- A table that lets ids be inherited has the first snapshot `s`, which lists nothing, and has
stored no more than the detour does. -/
structure Standing (way : Way) (w : World) (commits : List Commit) (t : Table) (s : Snapshot) :
    Prop where
  latest : w.Latest (Request.StoresOnly way.Stores) ⟨"."⟩ 0 commits t
  metadata : t.metadata = inheriting
  first : t.snapshots.find? SnapshotId.first = some s
  loads : s.Loads ⟨"."⟩ w.files []

namespace Standing

/-- Where the first snapshot is current, a change that adds files that fit is planned. -/
theorem planned (h : Standing way w commits t s) (hcurrent : t.currentId = some SnapshotId.first)
    {id : SnapshotId} (hnext : t.nextId = .ok id) {changes : FileChanges}
    (hfit : changes.fit .append = .ok ())
    (hremoved : Table.removedPaths inheriting.schema .unpartitioned (.ofManifests []) changes = .ok .empty)
    {staged : List Table.Staged} (hpaths : changes.stagedPaths = staged.map Table.Staged.path)
    (hstaged : ∀ r ∈ staged, perform ⟨"."⟩ (Table.readStaged .unpartitioned r.path) w.files =
      (.ok r, w.files))
    (hdistinct : checkAdded .unpartitioned (.ofManifests []) .empty
      (changes.added ++ staged.flatMap fun r => r.manifest.entries.map (·.file)) = .ok ()) :
    Table.Planned ⟨"."⟩ w.files t .append changes ⟨id, [], .empty, changes.added, staged⟩ := by
  have hschema : t.schema = inheriting.schema := congrArg Metadata.schema h.metadata
  have hspec : t.spec = .unpartitioned := congrArg Metadata.spec h.metadata
  rw [← hschema, ← hspec] at hremoved
  rw [← hspec] at hstaged hdistinct
  refine .onEmpty hfit (by decide) hnext ?_ hremoved hpaths hstaged hdistinct
  rw [Table.loadCurrent, Table.current?, hcurrent, Option.bind_some, Table.snapshot?, h.first]
  exact h.loads

/-- The change of an append is planned as it should be, and leaves the first snapshot as it is. -/
theorem brings (h : Standing way w commits t s) (hmore : commits.length + 1 < UInt64.size)
    (hsnapshots : t.snapshots = SortedMap.empty.insert SnapshotId.first s)
    (hcurrent : t.currentId = some SnapshotId.first) {changes : FileChanges}
    (hchange : way.call.change? t = some ⟨t.currentId, .append, changes⟩)
    (hplanned : Table.Planned ⟨"."⟩ w.files t .append changes way.plan) :
    ∃ r u w₁ c, w.complete ⟨"."⟩ (.call 0 way.call) default = (w₁, some (.ok (.snapshot r))) ∧
      Standing way w₁ (commits ++ [c]) u s ∧
      u.snapshots = (SortedMap.empty.insert SnapshotId.first s).insert secondId r ∧
      w.files.Grows (Request.StoresOnly way.Stores) ⟨"."⟩ w₁.files ∧
      way.plan.Filed .unpartitioned true (Request.StoresOnly way.Stores) ⟨"."⟩ w₁.files := by
  have hspec : t.spec = .unpartitioned := congrArg Metadata.spec h.metadata
  have hinherits : t.metadata.properties.inheritsSnapshotIds = true := by
    rw [h.metadata]
    exact inheriting_inherits
  have hwants : ∀ q ∈ w.wants ⟨"."⟩ ⟨.call 0 way.call, default, none⟩,
      q.StoresOnly way.Stores := by
    refine wants_change h.latest.copy hchange fun u p hread hp path content hstores => ?_
    obtain rfl := Except.ok.inj (Prod.mk.inj (hread.symm.trans h.latest.read)).1
    obtain rfl := hplanned.unique hp
    rw [hspec, hinherits] at hstores
    exact .inr (.inl hstores)
  obtain ⟨r, u, w₁, c, hcomplete, hlatest, hgrows, hcommitted⟩ :=
    h.latest.change roomy_here hmore hchange rfl hplanned hwants
  have hid : r.id = secondId := by
    rw [hcommitted.id_eq]
    cases way <;> rfl
  have hfiled := hcommitted.filed
  rw [hspec, hinherits] at hfiled
  have hinserted : u.snapshots = (SortedMap.empty.insert SnapshotId.first s).insert secondId r := by
    rw [hcommitted.snapshots_eq, hsnapshots, hid]
  refine ⟨r, u, w₁, c, hcomplete, ⟨hlatest, ?_, ?_, ?_⟩, hinserted, hgrows, hfiled⟩
  · rw [hcommitted.table_eq]
    exact h.metadata
  · rw [hinserted]
    rfl
  · exact FileM.loadManifests_grows h.latest.chain hgrows h.loads

/-- Whichever way the append goes, it succeeds and stores its manifest. -/
theorem appends (h : Standing way w commits t s) (hmore : commits.length + 1 < UInt64.size)
    (hsnapshots : t.snapshots = SortedMap.empty.insert SnapshotId.first s)
    (hcurrent : t.currentId = some SnapshotId.first) :
    ∃ r u w₁ c, w.move ⟨"."⟩ (.append way 0 [firstFile] default) =
        (w₁, some (.ok (.snapshot r))) ∧
      Standing way w₁ (commits ++ [c]) u s ∧
      u.snapshots = (SortedMap.empty.insert SnapshotId.first s).insert secondId r ∧
      w₁.files.content? ⟨"."⟩ way.manifestPath = some (FileM.manifestContent way.manifest) := by
  have hnext : t.nextId = .ok secondId := by
    rw [Table.nextId, Table.lastId?, hsnapshots]
    rfl
  have hspec : t.spec = .unpartitioned := congrArg Metadata.spec h.metadata
  cases way with
  | direct =>
    have hplanned : Table.Planned ⟨"."⟩ w.files t .append (.adding [firstFile]) Way.direct.plan :=
      h.planned hcurrent hnext rfl rfl rfl (fun r hr => absurd hr List.not_mem_nil) rfl
    obtain ⟨r, u, w₁, c, hcomplete, hstanding, hinserted, -, hfiled⟩ :=
      h.brings hmore hsnapshots hcurrent rfl hplanned
    have hmanifest := hfiled.manifests Way.direct.manifest (List.mem_singleton.2 rfl)
    exact ⟨r, u, w₁, c, hcomplete, hstanding, hinserted,
      hmanifest.content hstanding.latest.supplied (Way.unambiguous _)⟩
  | staged =>
    have hwants : ∀ q ∈ w.wants ⟨"."⟩ ⟨.call 0 (.stage [firstFile]), default, none⟩,
        q.StoresOnly Way.staged.Stores := by
      refine storesOnly_wants h.latest.copy (.map (Table.stage_asks (.inr (.inr ?_))))
      rw [hspec]
      exact ⟨rfl, rfl⟩
    obtain ⟨w₀, hstage, hlatest, hgrows, hcontent⟩ :=
      h.latest.stage roomy_here (Way.unambiguous _) hwants
    rw [hspec] at hstage hcontent
    have h₀ : Standing .staged w₀ commits t s := ⟨hlatest, h.metadata, h.first,
      FileM.loadManifests_grows h.latest.chain hgrows h.loads⟩
    have hread : ∀ r ∈ Way.staged.plan.staged,
        perform ⟨"."⟩ (Table.readStaged .unpartitioned r.path) w₀.files = (.ok r, w₀.files) := by
      intro r hr
      obtain rfl := List.mem_singleton.1 hr
      exact Table.perform_readStaged_iff.2 ⟨FileM.readJson_manifest hcontent, rfl, rfl⟩
    have hplanned : Table.Planned ⟨"."⟩ w₀.files t .append (.adopting [Way.staged.manifestPath])
        Way.staged.plan := h₀.planned hcurrent hnext rfl rfl rfl hread rfl
    obtain ⟨r, u, w₁, c, hcomplete, hstanding, hinserted, hsince, -⟩ :=
      h₀.brings hmore hsnapshots hcurrent rfl hplanned
    refine ⟨r, u, w₁, c, ?_, hstanding, hinserted, ?_⟩
    · rw [move, hstage]
      exact hcomplete
    · exact hsince.kept _ _ (Way.isNameOf_manifest .staged).isTablePath
        (Way.isNameOf_manifest .staged).outside_log.1 hcontent

/-- The first snapshot can be made current again. -/
theorem returns (h : Standing way w commits t s) (hmore : commits.length + 1 < UInt64.size) :
    ∃ u w₁ c, w.complete ⟨"."⟩ (.call 0 (.setCurrent SnapshotId.first)) default =
        (w₁, some (.ok .done)) ∧
      Standing way w₁ (commits ++ [c]) u s ∧ u.snapshots = t.snapshots ∧
      u.currentId = some SnapshotId.first ∧
      w.files.Grows (Request.StoresOnly way.Stores) ⟨"."⟩ w₁.files := by
  have hin : t.snapshots.contains SnapshotId.first = true := SortedMap.contains_iff.2 ⟨s, h.first⟩
  have hwants : ∀ q ∈ w.wants ⟨"."⟩ ⟨.call 0 (.setCurrent SnapshotId.first), default, none⟩,
      q.StoresOnly way.Stores := storesOnly_wants h.latest.copy (.map (Table.setCurrent_asks _ _))
  obtain ⟨u, w₁, c, hcomplete, hlatest, hgrows, hwrote⟩ :=
    h.latest.setCurrent roomy_here hmore hin hwants
  obtain ⟨v, hv, rfl⟩ := hwrote.applied
  rw [Table.applyAll_move hin] at hv
  obtain rfl := Except.ok.inj hv
  exact ⟨_, w₁, c, hcomplete, ⟨hlatest, h.metadata, h.first,
    FileM.loadManifests_grows h.latest.chain hgrows h.loads⟩, rfl, rfl, hgrows⟩

end Standing

/-- A table is made, and nothing is appended to it. -/
theorem begins (way : Way) : ∃ s t w₁ w₂ c c',
    (start .empty).complete ⟨"."⟩ (.create 0 inheriting) default = (w₁, some (.ok .done)) ∧
    w₁.complete ⟨"."⟩ (.call 0 (.append [])) default = (w₂, some (.ok (.snapshot s))) ∧
    Standing way w₂ [c, c'] t s ∧ t.snapshots = SortedMap.empty.insert SnapshotId.first s ∧
    t.currentId = some SnapshotId.first := by
  obtain ⟨w₁, c, hcreate, h₁⟩ := @complete_create (Request.StoresOnly way.Stores) ⟨"."⟩ default
    (start .empty) (Chain.of_vacant Tree.vacant_empty) roomy_here (.of_vacant Tree.vacant_empty)
    (fun _ hr => absurd hr List.not_mem_nil) 0 inheriting (wants_create inheriting)
  have hplanned : Table.Planned ⟨"."⟩ w₁.files (.new 1 inheriting) .append (.adding [])
      (.first []) := .first rfl Operation.noConfusion rfl rfl rfl
  have hwants : ∀ q ∈ w₁.wants ⟨"."⟩ ⟨.call 0 (.append []), default, none⟩,
      q.StoresOnly way.Stores := by
    refine wants_change h₁.copy rfl fun u p hread hp path content hstores => ?_
    obtain rfl := Except.ok.inj (Prod.mk.inj (hread.symm.trans h₁.read)).1
    obtain rfl := hplanned.unique hp
    have hinherits : (Table.new 1 inheriting).metadata.properties.inheritsSnapshotIds = true :=
      inheriting_inherits
    rw [hinherits] at hstores
    exact .inl hstores
  obtain ⟨s, t, w₂, c', hchange, h₂, hgrows, hcommitted⟩ :=
    h₁.change roomy_here (by simp; decide) rfl rfl hplanned hwants
  have hid : s.id = SnapshotId.first := hcommitted.id_eq
  have hsnapshots : t.snapshots = SortedMap.empty.insert SnapshotId.first s := by
    rw [hcommitted.snapshots_eq, hid]
    rfl
  refine ⟨s, t, w₁, w₂, c, c', hcreate, hchange, ⟨h₂, ?_, ?_, ?_⟩, hsnapshots, ?_⟩
  · rw [hcommitted.table_eq]
    rfl
  · rw [hsnapshots]
    rfl
  · exact hcommitted.loads h₁.chain hgrows h₂.supplied (Way.unambiguous way)
  · rw [hcommitted.currentId_eq, hid]

end World

/-! ### The detour -/

namespace World

theorem detour_succeeds (way : Way) : ∃ s r t w commits,
    (start .empty).play ⟨"."⟩ (detour way) = (w, [some (.ok .done), some (.ok (.snapshot s)),
      some (.ok (.snapshot r)), some (.ok .done)]) ∧
    Standing way w commits t s ∧ commits.length = 4 ∧
    t.snapshots = (SortedMap.empty.insert SnapshotId.first s).insert secondId r ∧
    t.currentId = some SnapshotId.first ∧
    w.files.content? ⟨"."⟩ way.manifestPath = some (FileM.manifestContent way.manifest) := by
  obtain ⟨s, t₂, w₁, w₂, c, c', hcreate, hbegin, h₂, hsnapshots, hcurrent⟩ := begins way
  obtain ⟨r, t₃, w₃, c₃, happend, h₃, hinserted, hcontent⟩ :=
    h₂.appends (by simp; decide) hsnapshots hcurrent
  obtain ⟨t, w, c₄, hreturn, h, hsame, hfirst, hgrows⟩ := h₃.returns (by simp; decide)
  refine ⟨s, r, t, w, _, ?_, h, rfl, hsame.trans hinserted, hfirst, ?_⟩
  · have hmoves : (start .empty).move ⟨"."⟩ (.event (.create 0 inheriting) default) =
          (w₁, some (.ok .done)) ∧
        w₁.move ⟨"."⟩ (.event (.call 0 (.append [])) default) = (w₂, some (.ok (.snapshot s))) ∧
        w₃.move ⟨"."⟩ (.event (.call 0 (.setCurrent SnapshotId.first)) default) =
          (w, some (.ok .done)) := ⟨hcreate, hbegin, hreturn⟩
    obtain ⟨hcreate, hbegin, hreturn⟩ := hmoves
    simp only [detour, play, hcreate, hbegin, happend, hreturn]
  · exact hgrows.kept _ _ (Way.isNameOf_manifest way).isTablePath
      (Way.isNameOf_manifest way).outside_log.1 hcontent

theorem detour_unambiguous (way : Way) : Unambiguous (Asks ⟨"."⟩ .empty [] (detour way)) := by
  obtain ⟨s, r, t, w, commits, hplay, h, -⟩ := detour_succeeds way
  refine @Unambiguous.of_storesOnly _ way.Stores (fun q hq => ?_) fun _ _ _ ha hb => ha.unique hb
  rcases hq with ⟨before, turn, hbefore, -⟩ | hq
  · exact absurd (List.prefix_nil.1 hbefore) (by simp)
  · have hplay' : (run ⟨"."⟩ (start .empty) []).play ⟨"."⟩ (detour way) = _ := hplay
    rw [hplay'] at hq
    exact h.latest.asks q hq

theorem detour_parallel : Parallel ⟨"."⟩ (start .empty) (start .empty) (detour .direct)
    (detour .staged) :=
  .cons (.event _ _ _) trivial (.cons (.event _ _ _) trivial
    (.cons (.append _ _ _ _ _ _) trivial (.cons (.event _ _ _) trivial (.nil _ _))))

variable {w : World} {commits : List Commit} {t : Table} {s : Snapshot}

/-! ### Both ways -/

/-- Nothing that the detour stores is found where a direct append writes the manifest. -/
theorem Standing.stores_no_direct (h : Standing .staged w commits t s) :
    w.files.content? ⟨"."⟩ Way.direct.manifestPath = none := by
  refine Option.eq_none_iff_forall_ne_some.2 fun c hc => ?_
  have hname := Way.isNameOf_manifest .direct
  obtain ⟨hasked, hcreation⟩ :=
    h.latest.supplied _ c hname.isTablePath hname.outside_log.1 hc
  generalize hpath : Way.direct.manifestPath = path at *
  cases hcreation with
  | commit version => exact absurd rfl (hname.outside_log.2 version)
  | named hnamed =>
    rcases (hasked.admits hnamed).cases with ⟨l, hl, -⟩ | ⟨l, hl, -⟩ | ⟨hm, -⟩
    · exact absurd (hl.symm.trans hpath.symm) (Way.listPath_ne_manifestPath _ _ _)
    · exact absurd (hl.symm.trans hpath.symm) (Way.listPath_ne_manifestPath _ _ _)
    · exact absurd (hpath.trans hm) Way.manifestPath_ne

/-- After the detour, the manifest that the direct append has written can be added by its path. -/
theorem Standing.names_direct {r : Snapshot} (h : Standing .direct w commits t s)
    (hlength : commits.length = 4)
    (hsnapshots : t.snapshots = (SortedMap.empty.insert SnapshotId.first s).insert secondId r)
    (hcurrent : t.currentId = some SnapshotId.first)
    (hcontent : w.files.content? ⟨"."⟩ Way.direct.manifestPath =
      some (FileM.manifestContent Way.direct.manifest)) :
    ∃ q u w₁, w.complete ⟨"."⟩ (.call 0 (.appendManifests [Way.direct.manifestPath])) default =
        (w₁, some (.ok (.snapshot q))) ∧ q.id = 3 ∧ w₁.handles 0 = some u ∧
      u.snapshots.contains q.id = true := by
  have hnext : t.nextId = .ok 3 := by
    rw [Table.nextId, Table.lastId?, hsnapshots]
    rfl
  have hread : ∀ r ∈ [(⟨Way.direct.manifestPath, Way.direct.manifest,
        UInt64.ofNat (FileM.manifestContent Way.direct.manifest).size⟩ : Table.Staged)],
      perform ⟨"."⟩ (Table.readStaged .unpartitioned r.path) w.files = (.ok r, w.files) := by
    intro r hr
    obtain rfl := List.mem_singleton.1 hr
    exact Table.perform_readStaged_iff.2 ⟨FileM.readJson_manifest hcontent, rfl, rfl⟩
  have hplanned : Table.Planned ⟨"."⟩ w.files t .append (.adopting [Way.direct.manifestPath]) _ :=
    h.planned hcurrent hnext rfl rfl rfl hread rfl
  have hchange : (Call.appendManifests [Way.direct.manifestPath]).change? t =
      some ⟨t.currentId, .append, .adopting [Way.direct.manifestPath]⟩ := rfl
  obtain ⟨q, u, w₁, c, hcomplete, hlatest, -, hcommitted⟩ :=
    (h.latest.mono fun _ _ => (trivial : everything _)).change roomy_here
      (by rw [hlength]; decide) hchange rfl hplanned fun _ _ => trivial
  exact ⟨q, u, w₁, hcomplete, hcommitted.id_eq, hlatest.copy,
    hcommitted.contains_current hcommitted.currentId_eq⟩

/-- The manifest that a direct append writes is named by its path, which is not that of the staged
one. -/
def named : Move := .event (.call 0 (.appendManifests [Way.direct.manifestPath])) default

end World

end Lakehouse
