import Lakehouse.Proofs.Run.Appends
import Lakehouse.Proofs.Run.Deciding
import Lakehouse.Proofs.Table.Intake

/- Intakes in runs.

   In every run, an intake through a handle comes to one of two ends (`intake_is_exact`). It
   succeeds, and then every importable file below the directory has been taken in, as one snapshot
   that appends to the current one (`Table.TookIn`); once more, it would fail. Or it fails, and
   whatever fails because there was no plan for it leaves the log as it was (`Log.Untouched`). There
   is none if nothing is importable, or one of the files cannot be described or is live already
   (`Table.Unfit`); otherwise the directory is taken in through the latest copy, if it can be read
   and there is room (`Latest.intake_succeeds`). -/
namespace Lakehouse

open Calendar (Instant)
open Contract Log Script

variable {asked : Request → Prop} {root : Location} {files files' : Tree} {commits : List Commit}
  {current : Nat} {t : Table} {now : Instant} {handle : Nat} {directory : String} {upper : Place}

/-- Nothing in the log has changed, and it refers to nothing that is new; the table is read as it
was. -/
structure Log.Untouched (root : Location) (files files' : Tree) : Prop where
  invisible : Invisible root files files' False
  reads : ∀ u, perform root rebuild files = (.ok u, files) →
    perform root rebuild files' = (.ok u, files')

theorem Log.Chain.untouched (h : Chain root files commits current) (hshelved : Shelved root files)
    (hgrows : files.Grows asked root files') (h' : Chain root files' commits current) :
    Untouched root files files' := by
  refine ⟨h.invisible hshelved hgrows h'.settled (.inr h'), fun u hu => ?_⟩
  obtain ⟨hpos, htable⟩ := table_of_rebuild h hu
  exact perform_rebuild h' hpos htable

/-- What a call takes in is all that is importable. -/
theorem Call.Effect.takesIn {a : Answer} {t' : Table}
    (h : Call.Effect asked root commits current now t files (.intake directory) a t' files')
    (hchain : Chain root files commits current) (hshelved : Shelved root files)
    (hsupplied : files.Supplied asked root) (hclear : Unambiguous asked)
    (haddresses : files.Addresses root directory upper) (hnames : files.NamesImportable root upper) :
    ∃ u s found added, a = .snapshot s ∧ perform root rebuild files = (.ok u, files) ∧
      Table.TookIn root t u upper found added files s t' files' := by
  cases h with
  | tookIn find load proceeds chain name filed commit proceeds' =>
    have hgathers := Table.gathers_of_performs haddresses hnames find load
    refine ⟨_, _, _, _, rfl, ?_,
      commit.tookIn hshelved hchain hsupplied hclear hgathers proceeds chain filed proceeds'⟩
    exact Table.perform_loadLatest (Table.perform_loadLatest_of_chain hchain chain commit.read)
  | committed asks => exact absurd asks (by simp [Call.change?])

namespace Table

variable {spec : PartitionSpec} {added : List DataFile}

/-- The plan by which files that have been staged are added to a table without snapshots. -/
def Plan.firstStaged (spec : PartitionSpec) (added : List DataFile) : Plan :=
  ⟨SnapshotId.first, [], .empty, [],
    [⟨Layout.stagedPath (FileM.manifestContent (stagedManifest spec added)), stagedManifest spec added,
      UInt64.ofNat (FileM.manifestContent (stagedManifest spec added)).size⟩]⟩

theorem Planned.firstStaged {version : Version} {m : Metadata}
    (hcontent : files.content? root
        (Layout.stagedPath (FileM.manifestContent (stagedManifest m.spec added))) =
      some (FileM.manifestContent (stagedManifest m.spec added)))
    (hfits : checkAdded m.spec (.ofManifests []) .empty added = .ok ()) :
    Planned root files (.new version m) .append
      (.adopting [Layout.stagedPath (FileM.manifestContent (stagedManifest m.spec added))])
      (.firstStaged m.spec added) := by
  refine .onEmpty rfl (by decide) rfl rfl rfl rfl (fun s hs => ?_) ?_
  · obtain rfl := List.mem_singleton.1 hs
    exact perform_readStaged_staged hcontent
  · rw [List.flatMap_singleton, files_stagedManifest]
    exact hfits

/-- What is stored when files are staged and adopted so: their manifest, and a list that has it. -/
def StoresIntake (spec : PartitionSpec) (added : List DataFile) : String → ByteArray → Prop :=
  StoresStaged spec true (stagedManifest spec added) [.firstStaged spec added]

theorem unambiguous_storesIntake (spec : PartitionSpec) (added : List DataFile) :
    Unambiguous (Request.StoresOnly (StoresIntake spec added)) := by
  have hids : ([Plan.firstStaged spec added].map Plan.id).Nodup := List.nodup_singleton _
  refine unambiguous_storesStaged hids (m := default) (fun p hp m hm => ?_) _
  obtain rfl := List.mem_singleton.1 hp
  exact absurd hm List.not_mem_nil

end Table

namespace World

variable {w : World}

/-- If there is no plan for what is below the directory, the intake fails and does not touch the
log. -/
theorem Ordered.intake_refused (h : w.Ordered root commits current) (hshelved : Shelved root w.files)
    (ht : w.handles handle = some t)
    (hno : ∀ found added files₁ path u p, ¬ Table.IntakePlanned asked root commits current t directory
      w.files found added files₁ path u p)
    (hasked : ∀ r ∈ w.wants root ⟨.call handle (.intake directory), now, none⟩, asked r) :
    ∃ w' e, w.complete root (.call handle (.intake directory)) now = (w', some (.error e)) ∧
      Untouched root w.files w'.files := by
  rw [requests_call ht] at hasked
  have hperforms : (contract asked root).Performs (Call.run now (.intake directory)) t w.files
      (fun _ _ _ => False) (fun _ _ files' => Chain root files' commits current) :=
    Performs.map (Table.intake_refuses h.chain hno now)
  obtain ⟨e, u, files', hrun, h', hproceeds⟩ :=
    hperforms.proceeds.fails hasked fun _ _ _ hnever => hnever.1
  simp only [contract] at hrun
  exact ⟨_, e, complete_call ht hrun, h.chain.untouched hshelved hproceeds.grows h'⟩

/-- Through the latest copy, below a root with room, what can be listed and read is taken in, unless
there is a reason why it cannot. -/
theorem Latest.intake_succeeds (h : w.Latest asked root handle commits t) (hroom : root.Roomy)
    (hmore : commits.length + 1 < UInt64.size) (hclear : Unambiguous asked)
    (hshelved : Shelved root w.files) {id : SnapshotId} (hnext : t.nextId = .ok id)
    (haddresses : w.files.Addresses root directory upper)
    (hnames : w.files.NamesImportable root upper)
    (hlegible : Table.Legible root directory upper w.files) (hfit : ¬ t.Unfit root upper w.files)
    (hwants : ∀ r ∈ w.wants root ⟨.call handle (.intake directory), now, none⟩, asked r) :
    ∃ s w', w.complete root (.call handle (.intake directory)) now =
      (w', some (.ok (.snapshot s))) := by
  have hsome : ∃ names bytes, w.files.HasImportable root upper names bytes := by
    by_contra hnone
    exact hfit (.nothing fun names bytes hthere => hnone ⟨names, bytes, hthere⟩)
  have hall : ∀ names bytes, w.files.HasImportable root upper names bytes →
      ∃ f, t.TakesAs upper names bytes f := by
    intro names bytes hthere
    by_contra hnever
    exact hfit (.bad hthere fun f hf => hnever ⟨f, hf⟩)
  obtain ⟨found, added, hfind, hload⟩ :=
    Table.exists_gathered haddresses hnames hlegible hsome hall
  have hgathers := Table.gathers_of_performs haddresses hnames hfind hload
  have hstored : t.IsStored root w.files := fun id s hs =>
    hshelved.registered commits _ t h.chain h.table id s hs
  obtain ⟨ms, hms⟩ := hstored.exists_current
  have hlisted := Table.perform_files_of_loadCurrent hms
  -- What was gathered is at different paths, and none of them is live.
  have hfits : checkAdded t.spec (.ofManifests (ms.map Prod.snd)) .empty added = .ok () := by
    refine checkAdded_eq_ok.2 ⟨fun f hf => ⟨hgathers.slots f hf, ?_, rfl⟩,
      hgathers.oncePerPath haddresses.plain hnames⟩
    rw [Bool.eq_false_iff]
    intro hlive
    obtain ⟨g, hg, hpath⟩ := LiveFiles.contains_ofManifests.1 hlive
    obtain ⟨names, -, bytes, hthere, htakes⟩ := exists_of_forall₂ hgathers.described.flip hf
    exact hfit (.live hthere (.inl rfl) hlisted hg (hpath.trans htakes.path))
  have hperforms : (contract asked root).Performs (Call.run now (.intake directory)) t w.files
      (fun a _ _ => ∃ s, a = .snapshot s) (fun _ _ _ => False) :=
    Performs.map ((Table.intake_succeeds h.chain ⟨hroom, rfl, hmore⟩ h.supplied hclear h.read hfind
      hload hnext hms hfits now).mono (fun s _ _ _ => ⟨s, rfl⟩) fun _ _ _ hnever => hnever)
  rw [requests_call h.copy] at hwants
  obtain ⟨_, u, files', hrun, s, rfl⟩ := hperforms.succeeds hwants fun _ _ _ hnever => hnever
  exact ⟨s, _, complete_call h.copy hrun⟩

/-- A table that is made where there is none is the latest. -/
theorem latest_create {admitted : String → ByteArray → Prop} (hvacant : files.Vacant root)
    (hroom : root.Roomy) (handle : Nat) (m : Metadata) :
    ∃ c, (run root (start files) [⟨.create handle m, now, none⟩]).Latest
      (Request.StoresOnly admitted) root handle [c] (.new 1 m) := by
  obtain ⟨w, c, hcomplete, hlatest⟩ := complete_create (Chain.of_vacant hvacant) hroom
    (.of_vacant hvacant) (fun _ hr => absurd hr List.not_mem_nil) handle m
    (@wants_create root admitted (start files) now handle m)
  have hrun : run root (start files) [⟨.create handle m, now, none⟩] = w :=
    congrArg Prod.fst hcomplete
  exact ⟨c, hrun ▸ hlatest⟩

/-- An intake asks for nothing but what it stages and what its plan stores. -/
theorem Latest.wants_intake {admitted : String → ByteArray → Prop}
    (h : w.Latest (Request.StoresOnly admitted) root handle commits t) (hroom : root.Roomy)
    (hclear : Unambiguous (Request.StoresOnly admitted)) {found : List Place} {added : List DataFile}
    (hfind : perform root (Table.findImportable directory) w.files = (.ok found, w.files))
    (hload : perform root (found.mapM (Table.loadFile t.schema t.spec directory)) w.files =
      (.ok added, w.files))
    (hstaged : admitted (Layout.stagedPath (FileM.manifestContent (Table.stagedManifest t.spec added)))
      (FileM.manifestContent (Table.stagedManifest t.spec added)))
    (hstores : ∀ files₁ p, files₁.content? root
        (Layout.stagedPath (FileM.manifestContent (Table.stagedManifest t.spec added))) =
          some (FileM.manifestContent (Table.stagedManifest t.spec added)) →
      Table.Planned root files₁ t .append (.adopting
        [Layout.stagedPath (FileM.manifestContent (Table.stagedManifest t.spec added))]) p →
      ∀ path content, p.Stores t.spec t.metadata.properties.inheritsSnapshotIds path content →
        admitted path content) :
    ∀ r ∈ w.wants root ⟨.call handle (.intake directory), now, none⟩, r.StoresOnly admitted := by
  refine storesOnly_wants h.copy (.map ?_)
  rw [Table.intake]
  refine .ofReads (Table.reads_findImportable directory) fun found' hfind' => .get ?_
  obtain rfl := Except.ok.inj (Prod.mk.inj (hfind.symm.trans hfind')).1
  refine .ofReads (Reads.mapM (Table.reads_loadFile t.schema t.spec directory) found)
    fun added' hload' => ?_
  obtain rfl := Except.ok.inj (Prod.mk.inj (hload.symm.trans hload')).1
  refine .bind (Table.stage_asks hstaged) fun path t₁ files₁ hperform => .get ?_
  refine Table.commit_asks fun u p hread hplanned => ?_
  have hstage : TableM.Asks admitted root (Table.stage added) t w.files := Table.stage_asks hstaged
  obtain ⟨path', t', files', hrun, rfl, h₁, rfl, hcontent⟩ :=
    (@Table.stage_performs_of_room (Request.StoresOnly admitted) root commits _ w.files t h.chain hroom
      h.supplied hclear added).succeeds hstage fun _ _ _ hnever => hnever
  simp only [contract, hperform] at hrun
  obtain ⟨hsame, rfl⟩ := Prod.mk.inj hrun
  obtain ⟨hpath, rfl⟩ := Prod.mk.inj hsame
  obtain rfl := Except.ok.inj hpath
  obtain rfl := Except.ok.inj (Prod.mk.inj
    (h.read.symm.trans (Table.perform_loadLatest_of_chain h.chain h₁ hread))).1
  exact hstores files₁ p hcontent hplanned

/-- So an intake into a new table in which ids are inherited stores a manifest and a list. -/
theorem Latest.wants_firstIntake {m : Metadata} (hinherits : m.properties.inheritsSnapshotIds = true)
    {found : List Place} {added : List DataFile}
    (h : w.Latest (Request.StoresOnly (Table.StoresIntake m.spec added)) root handle commits (.new 1 m))
    (hroom : root.Roomy)
    (hfind : perform root (Table.findImportable directory) w.files = (.ok found, w.files))
    (hload : perform root (found.mapM (Table.loadFile m.schema m.spec directory)) w.files =
      (.ok added, w.files))
    (hfits : checkAdded m.spec (.ofManifests []) .empty added = .ok ()) :
    ∀ r ∈ w.wants root ⟨.call handle (.intake directory), now, none⟩,
      r.StoresOnly (Table.StoresIntake m.spec added) := by
  have hclear := Table.unambiguous_storesIntake m.spec added
  refine h.wants_intake hroom hclear hfind hload (.inr ⟨rfl, rfl⟩) ?_
  intro files₁ p hcontent hplanned path content hstores
  obtain rfl := hplanned.unique (.firstStaged hcontent hfits)
  have hsame : (Table.new 1 m).metadata.properties.inheritsSnapshotIds = true := hinherits
  rw [hsame] at hstores
  exact .inl ⟨_, List.mem_cons_self, hstores⟩

/-- An intake of a directory, in whatever run, succeeds only if something below it is importable and
all that is can be described; then all of it has been taken in and nothing else, and cannot be taken
in again. If nothing is importable, or something that is cannot be described or is live already, the
intake fails, and the log is as it was. -/
theorem intake_is_exact (hvacant : files.Vacant root) (turns : List Turn)
    (hclear : Unambiguous asked)
    (hasked : ∀ before turn, before ++ [turn] <+:
        turns ++ [⟨.call handle (.intake directory), now, none⟩] →
      ∀ r ∈ (run root (start files) before).wants root turn, asked r)
    {w : World} (hrun : run root (start files) turns = w) (ht : w.handles handle = some t)
    (hp : Path.Plain directory upper) (hupper : ∀ name ∈ upper, '\\' ∉ name.toList)
    (hnames : ∀ names bytes, w.files.HasImportable root upper names bytes →
      ∀ name ∈ names, Path.IsEntry name) :
    ∃ w' result, w.complete root (.call handle (.intake directory)) now = (w', some result) ∧
      (∀ a, result = .ok a → ∃ u s t' found added, a = .snapshot s ∧
        perform root rebuild w.files = (.ok u, w.files) ∧ w'.handles handle = some t' ∧
        Table.TookIn root t u upper found added w.files s t' w'.files ∧
        ∀ later, (∀ r ∈ w'.wants root ⟨.call handle (.intake directory), later, none⟩, asked r) →
          ∃ w'' e, w'.complete root (.call handle (.intake directory)) later =
            (w'', some (.error e)) ∧ Untouched root w'.files w''.files) ∧
      (t.Unfit root upper w.files → ∃ e, result = .error e ∧ Untouched root w.files w'.files) := by
  have hwants := hasked turns _ (List.prefix_refl _)
  obtain ⟨commits, current, hordered, hsupplied, hshelved, -⟩ := traced_run hvacant turns
    fun before turn hbefore => hasked before turn (hbefore.trans (List.prefix_append _ _))
  obtain ⟨commits', current', hordered', hsupplied', hshelved', -⟩ := traced_run hvacant _ hasked
  have hgrounded := @grounded_run root files hvacant.grounded turns
  have hgrounded' := @grounded_run root files hvacant.grounded
    (turns ++ [⟨.call handle (.intake directory), now, none⟩])
  rw [run_concat, hrun] at hordered' hsupplied' hshelved' hgrounded'
  rw [hrun] at hwants hordered hsupplied hshelved hgrounded
  have hreplica := hordered.replicas handle t ht
  have haddresses : w.files.Addresses root directory upper :=
    ⟨hgrounded, hordered.chain.hosts.located, hp, hupper⟩
  rcases hperf : (Call.run now (.intake directory)).perform root t w.files with ⟨⟨result, t'⟩, files'⟩
  have hcomplete := complete_call ht hperf
  refine ⟨_, result, hcomplete, ?_, fun hunfit => ?_⟩
  · rintro a rfl
    have hdone := Ensures.run (Call.performs hordered.chain hreplica).proceeds
      (requests_call ht ▸ hwants)
    rw [TableM.perform] at hperf
    simp only [contract, hperf] at hdone
    obtain ⟨heffect, hproceeds⟩ := hdone
    obtain ⟨u, s, found, added, rfl, hu, htook⟩ :=
      heffect.takesIn hordered.chain hshelved hsupplied hclear haddresses hnames
    have hstep : w.step root ⟨.call handle (.intake directory), now, none⟩ = _ :=
      congrArg Prod.fst hcomplete
    rw [hstep] at hordered' hsupplied' hshelved' hgrounded'
    have ht' : w.setHandle handle (some t') handle = some t' := if_pos rfl
    have haddresses' : files'.Addresses root directory upper :=
      ⟨hgrounded', hordered'.chain.hosts.located, hp, hupper⟩
    refine ⟨u, s, t', found, added, rfl, hu, ht', htook, fun later hagain => ?_⟩
    exact hordered'.intake_refused hshelved' ht'
      (htook.not_intakePlanned hproceeds.grows hordered'.chain (hordered'.replicas handle t' ht')
        hsupplied' hclear haddresses' hnames) hagain
  · obtain ⟨w', e, hrefused, huntouched⟩ := hordered.intake_refused hshelved ht
      (hunfit.not_intakePlanned hordered.chain hreplica hsupplied hclear haddresses hnames) hwants
    rw [hcomplete] at hrefused
    obtain ⟨rfl, hresult⟩ := Prod.mk.inj hrefused
    exact ⟨e, Option.some.inj hresult, huntouched⟩

end World

/-! ### A directory of days -/

namespace Days

open World

/-- A Parquet file with one column, `id`, and two rows, of which the bounds are known. -/
def twoRows : ByteArray :=
  ⟨#[0x50, 0x41, 0x52, 0x31, 0x15, 0x02, 0x19, 0x2c, 0x48, 0x01, 0x73, 0x15, 0x02, 0x00, 0x15, 0x02,
  0x25, 0x00, 0x18, 0x02, 0x69, 0x64, 0x00, 0x16, 0x04, 0x19, 0x1c, 0x19, 0x1c, 0x26, 0x00, 0x1c,
  0x15, 0x02, 0x19, 0x15, 0x00, 0x19, 0x18, 0x02, 0x69, 0x64, 0x15, 0x00, 0x16, 0x04, 0x16, 0x10,
  0x16, 0x10, 0x26, 0x08, 0x3c, 0x36, 0x00, 0x28, 0x04, 0x14, 0x00, 0x00, 0x00, 0x18, 0x04, 0x0a,
  0x00, 0x00, 0x00, 0x00, 0x00, 0x00, 0x16, 0x10, 0x16, 0x04, 0x00, 0x00, 0x48, 0x00, 0x00, 0x00,
  0x50, 0x41, 0x52, 0x31]⟩

/-- A Parquet file with the same column and one row, without statistics. -/
def oneRow : ByteArray :=
  ⟨#[0x50, 0x41, 0x52, 0x31, 0x15, 0x02, 0x19, 0x2c, 0x48, 0x01, 0x73, 0x15, 0x02, 0x00, 0x15, 0x02,
  0x25, 0x00, 0x18, 0x02, 0x69, 0x64, 0x00, 0x16, 0x02, 0x19, 0x1c, 0x19, 0x1c, 0x26, 0x00, 0x1c,
  0x15, 0x02, 0x19, 0x15, 0x00, 0x19, 0x18, 0x02, 0x69, 0x64, 0x15, 0x00, 0x16, 0x02, 0x16, 0x10,
  0x16, 0x10, 0x26, 0x08, 0x00, 0x00, 0x16, 0x10, 0x16, 0x02, 0x00, 0x00, 0x38, 0x00, 0x00, 0x00,
  0x50, 0x41, 0x52, 0x31]⟩

/-- A directory for each day is beside the place of a table, and a file that is not importable. -/
def beside : Tree :=
  (((((Tree.empty.put ["data"] .directory).put ["data", "_SUCCESS"] (.file .empty)).put
    ["data", "day=1"] .directory).put ["data", "day=1", "a.parquet"] (.file twoRows)).put
    ["data", "day=__HIVE_DEFAULT_PARTITION__"] .directory).put
    ["data", "day=__HIVE_DEFAULT_PARTITION__", "b.parquet"] (.file oneRow)

theorem vacant_beside : beside.Vacant ⟨"."⟩ :=
  (((((Tree.vacant_empty.put (p := []) rfl (by decide) (by decide) .directory).put (p := ["data"]) rfl
    (by decide) (by decide) (.file .empty)).put (p := ["data"]) rfl (by decide) (by decide)
    .directory).put (p := ["data", "day=1"]) rfl (by decide) (by decide) (.file twoRows)).put
    (p := ["data"]) rfl (by decide) (by decide) .directory).put
    (p := ["data", "day=__HIVE_DEFAULT_PARTITION__"]) rfl (by decide) (by decide) (.file oneRow)

/-- The ways to the importable files. -/
def found : List Place :=
  [["day=1", "a.parquet"], ["day=__HIVE_DEFAULT_PARTITION__", "b.parquet"]]

/-- How they are described. -/
def taken : List DataFile := [
  { DataFile.withoutMetrics "data/day=1/a.parquet" [some (.int 1)] 2 84 with
    columnSizes := SortedMap.empty.insert 1 8
    valueCounts := SortedMap.empty.insert 1 2
    nullCounts := SortedMap.empty.insert 1 0
    lowerBounds := SortedMap.empty.insert 1 (.int 10)
    upperBounds := SortedMap.empty.insert 1 (.int 20) },
  { DataFile.withoutMetrics "data/day=__HIVE_DEFAULT_PARTITION__/b.parquet" [none] 1 68 with
    columnSizes := SortedMap.empty.insert 1 8
    valueCounts := SortedMap.empty.insert 1 1 }]

/-- The table is made beside the directory. What this comes to is mostly to be proved and not
evaluated. -/
@[irreducible]
def besideNew : World := run ⟨"."⟩ (start beside) [⟨.create 0 metadata, default, none⟩]

/-- What is stored when the directory is taken into the new table. -/
def TakenStores : String → ByteArray → Prop := Table.StoresIntake metadata.spec taken

theorem besideNew_latest :
    ∃ c, besideNew.Latest (Request.StoresOnly TakenStores) ⟨"."⟩ 0 [c] (.new 1 metadata) := by
  unfold besideNew
  exact latest_create vacant_beside roomy_here 0 metadata

theorem besideNew_grounded : besideNew.files.Grounded := by
  unfold besideNew
  exact grounded_run vacant_beside.grounded _

theorem besideNew_shelved : Shelved ⟨"."⟩ besideNew.files := by
  unfold besideNew
  obtain ⟨-, -, -, hshelved⟩ := shelved_run vacant_beside [⟨.create 0 metadata, default, none⟩]
  exact hshelved

theorem plain_data : Path.Plain "data" ["data"] := by
  refine ⟨by decide, fun name hname => ?_⟩
  obtain rfl := List.mem_singleton.1 hname
  exact ⟨by decide, by decide, by decide, by decide⟩

theorem list_besideNew : besideNew.files.list (Path.join "." "data") = .ok (["_SUCCESS"] :: found) := by
  -- The directory that comes last is entered first.
  have hwalk : besideNew.files.walk (Path.join "." "data") ["data"] (fun _ entries => entries)
      (besideNew.files.nodes.size + 1) [["data"]] [] =
        .ok ((["_SUCCESS"] :: found.reverse).map fun names => "data" :: names) := by
    decide +kernel
  have hperm : ((["_SUCCESS"] :: found.reverse).map fun names => "data" :: names).Perm
      ((["_SUCCESS"] :: found).map fun names => "data" :: names) := by decide
  exact Tree.list_of_walk (by decide +kernel) (by decide +kernel) hwalk hperm (by decide)

theorem addresses_besideNew : besideNew.files.Addresses ⟨"."⟩ "data" ["data"] := by
  obtain ⟨c, hlatest⟩ := besideNew_latest
  exact ⟨besideNew_grounded, hlatest.chain.hosts.located, plain_data, by decide⟩

/-- The two files are all that is importable. -/
theorem hasImportable_besideNew {names : Place} {bytes : ByteArray} :
    besideNew.files.HasImportable ⟨"."⟩ ["data"] names bytes ↔
      names = ["day=1", "a.parquet"] ∧ bytes = twoRows ∨
        names = ["day=__HIVE_DEFAULT_PARTITION__", "b.parquet"] ∧ bytes = oneRow := by
  have hplace : (⟨"."⟩ : Location).place = [] := by decide +kernel
  have hfirst : besideNew.files.node? ["data", "day=1", "a.parquet"] = some (.file twoRows) := by
    decide +kernel
  have hsecond : besideNew.files.node? ["data", "day=__HIVE_DEFAULT_PARTITION__", "b.parquet"] =
      some (.file oneRow) := by decide +kernel
  constructor
  · rintro ⟨hthere, himportable⟩
    have hin : names ∈ ["_SUCCESS"] :: found :=
      (Table.mem_of_list addresses_besideNew list_besideNew names).2 ⟨bytes, hthere⟩
    rw [hplace] at hthere
    simp only [found, List.mem_cons, List.not_mem_nil, or_false] at hin
    rcases hin with rfl | rfl | rfl
    · exact absurd himportable (by decide)
    · exact .inl ⟨rfl, (Node.file.inj (Option.some.inj (hfirst.symm.trans hthere))).symm⟩
    · exact .inr ⟨rfl, (Node.file.inj (Option.some.inj (hsecond.symm.trans hthere))).symm⟩
  · rintro (⟨rfl, rfl⟩ | ⟨rfl, rfl⟩)
    · exact ⟨by rw [hplace]; exact hfirst, by decide⟩
    · exact ⟨by rw [hplace]; exact hsecond, by decide⟩

theorem isEntry_found : ∀ names ∈ found, ∀ name ∈ names, Path.IsEntry name := by
  simp only [found, List.mem_cons, List.not_mem_nil, or_false, forall_eq_or_imp, forall_eq]
  refine ⟨⟨?_, ?_⟩, ?_, ?_⟩ <;>
    exact ⟨⟨by decide, by decide, by decide, by decide⟩, by decide, by decide⟩

/-- No other file is importable. -/
theorem mem_found {names : Place} {bytes : ByteArray}
    (h : besideNew.files.HasImportable ⟨"."⟩ ["data"] names bytes) : names ∈ found := by
  rcases hasImportable_besideNew.1 h with ⟨rfl, -⟩ | ⟨rfl, -⟩ <;> simp [found]

theorem namesImportable_besideNew : besideNew.files.NamesImportable ⟨"."⟩ ["data"] :=
  fun names _ hthere => isEntry_found names (mem_found hthere)

theorem legible_besideNew : Table.Legible ⟨"."⟩ "data" ["data"] besideNew.files := by
  refine ⟨⟨_, list_besideNew⟩, fun names bytes hthere => ?_⟩
  rcases hasImportable_besideNew.1 hthere with ⟨rfl, rfl⟩ | ⟨rfl, rfl⟩ <;> decide +kernel

/-- Each importable file is described as one of those that are taken in. -/
theorem described_besideNew : List.Forall₂ (fun names f => ∃ bytes,
    besideNew.files.HasImportable ⟨"."⟩ ["data"] names bytes ∧
      Table.describeFile metadata.schema metadata.spec "data" names bytes = .ok f) found taken :=
  .cons ⟨_, hasImportable_besideNew.2 (.inl ⟨rfl, rfl⟩), by decide +kernel⟩
    (.cons ⟨_, hasImportable_besideNew.2 (.inr ⟨rfl, rfl⟩), by decide +kernel⟩ .nil)

/-- Nothing is in the way of the directory. -/
theorem not_unfit_besideNew : ¬ (Table.new 1 metadata).Unfit ⟨"."⟩ ["data"] besideNew.files := by
  intro hunfit
  cases hunfit with
  | nothing hnone => exact hnone _ _ (hasImportable_besideNew.2 (.inl ⟨rfl, rfl⟩))
  | @bad names bytes hthere hnever =>
    obtain ⟨f, -, bytes', hthere', hdescribed⟩ :=
      exists_of_forall₂ described_besideNew (mem_found hthere)
    obtain rfl : bytes' = bytes :=
      Node.file.inj (Option.some.inj (hthere'.there.symm.trans hthere.there))
    exact hnever f ((Table.describeFile_eq_ok plain_data (by decide)
      (Table.ne_nil_of_isImportable hthere.importable)
      (isEntry_found _ (mem_found hthere))).1 hdescribed)
  | @live _ _ v _ _ _ htable hlisted hin =>
    -- The table has no snapshots, and lists nothing.
    obtain ⟨c, hlatest⟩ := besideNew_latest
    obtain rfl : v = .new 1 metadata := htable.elim id fun hrebuild =>
      Except.ok.inj (Prod.mk.inj (hrebuild.symm.trans (Table.perform_loadLatest hlatest.read))).1
    rw [Table.perform_files_none rfl] at hlisted
    rw [← Except.ok.inj (Prod.mk.inj hlisted).1] at hin
    exact absurd hin List.not_mem_nil

theorem metadata_inherits : metadata.properties.inheritsSnapshotIds = true := by decide

/-- Two files are taken in, one of a day and one without, and another file is left where it is. -/
theorem intake_is_exact_twoDays : beside.Vacant ⟨"."⟩ ∧
    Unambiguous (Request.StoresOnly TakenStores) ∧ Path.Plain "data" ["data"] ∧
    besideNew.handles 0 = some (.new 1 metadata) ∧
    ∃ u s t' w', besideNew.complete ⟨"."⟩ (.call 0 (.intake "data")) default =
        (w', some (.ok (.snapshot s))) ∧
      Table.TookIn ⟨"."⟩ (.new 1 metadata) u ["data"] found taken besideNew.files s t' w'.files := by
  have hrun : run ⟨"."⟩ (start beside) [⟨.create 0 metadata, default, none⟩] = besideNew := by
    unfold besideNew
    rfl
  have hclear := Table.unambiguous_storesIntake metadata.spec taken
  have hnext : (Table.new 1 metadata).nextId = .ok SnapshotId.first := rfl
  obtain ⟨c, hlatest⟩ := besideNew_latest
  have hfind : perform ⟨"."⟩ (Table.findImportable "data") besideNew.files =
      (.ok found, besideNew.files) := Table.perform_findImportable_of_list list_besideNew (by decide)
  have hload := (perform_mapM_ok (Table.reads_loadFile metadata.schema metadata.spec "data")).2
    ⟨rfl, described_besideNew.imp fun names f ⟨bytes, hthere, hdescribed⟩ =>
      Table.perform_loadFile_iff.2 ⟨bytes, legible_besideNew.reads names bytes hthere, hdescribed⟩⟩
  have hwants := @Latest.wants_firstIntake ⟨"."⟩ [c] default 0 "data" besideNew metadata
    metadata_inherits _ _ hlatest roomy_here hfind hload rfl
  obtain ⟨s, w', hcomplete⟩ := hlatest.intake_succeeds roomy_here (by decide : 1 + 1 < UInt64.size)
    hclear besideNew_shelved hnext addresses_besideNew namesImportable_besideNew
    legible_besideNew not_unfit_besideNew hwants
  have hfirst : ∀ before turn, before ++ [turn] <+: [] ++ [⟨.create 0 metadata, default, none⟩] →
      ∀ r ∈ (run ⟨"."⟩ (start beside) before).wants ⟨"."⟩ turn, r.StoresOnly TakenStores :=
    wants_concat wants_nil (wants_create metadata)
  obtain ⟨_, _, hcomplete', hsuccess, -⟩ := intake_is_exact vacant_beside
    [⟨.create 0 metadata, default, none⟩] hclear (wants_concat hfirst (hrun ▸ hwants)) hrun
    hlatest.copy plain_data (by decide) namesImportable_besideNew
  rw [hcomplete] at hcomplete'
  obtain ⟨rfl, hresult⟩ := Prod.mk.inj hcomplete'
  obtain ⟨u, s', t', found, added, hs, -, -, htook, -⟩ := hsuccess _ (Option.some.inj hresult).symm
  obtain rfl := Answer.snapshot.inj hs
  obtain ⟨rfl, rfl⟩ := htook.gathers.unique
    (Table.gathers_of_performs addresses_besideNew namesImportable_besideNew hfind hload)
  exact ⟨vacant_beside, hclear, plain_data, hlatest.copy, u, s, t', w', hcomplete, htook⟩

end Days

end Lakehouse
