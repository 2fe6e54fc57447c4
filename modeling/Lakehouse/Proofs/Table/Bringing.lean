import Lakehouse.Proofs.Table.Alike

/- What changes bring.

   Whether files are added directly or in a manifest that is staged for them, the change
   brings these files and nothing else (`Brings.adding`, `Brings.adopting`), so either way is
   alike to the other (`ChangesAlike.of_brings`). Any other change is alike to itself in
   other files where the manifests that it names are the same (`ChangesAlike.of_reads`). -/
namespace Lakehouse

open Script

variable {root : Location} {files files' : Tree}

/-! ### The same readings of different files -/

/-- Under the path the same is read, or refused for the same reason. -/
def Tree.ReadsAlike (root : Location) (files files' : Tree) (path : String) : Prop :=
  files.readBytes (Path.join root.path path) = files'.readBytes (Path.join root.path path)

namespace Script

variable {α β ε : Type}

theorem perform_bind_congr {x : ExceptT ε Script α} {f : α → ExceptT ε Script β}
    (hx : x.run.Reads) (h : (perform root x files).1 = (perform root x files').1)
    (hf : ∀ a, (perform root (f a) files).1 = (perform root (f a) files').1) :
    (perform root (x >>= f) files).1 = (perform root (x >>= f) files').1 := by
  rw [perform_bind, perform_bind]
  rcases hrun : perform root x files with ⟨result, after⟩
  rcases hrun' : perform root x files' with ⟨result', after'⟩
  obtain rfl : after = files := hx.eq_of_perform hrun
  obtain rfl : after' = files' := hx.eq_of_perform hrun'
  rw [hrun, hrun'] at h
  obtain rfl : result = result' := h
  cases result with
  | error e => rfl
  | ok a => exact hf a

theorem perform_mapM_congr {f : α → ExceptT ε Script β} (hf : ∀ a, (f a).run.Reads) {l : List α}
    (h : ∀ a ∈ l, (perform root (f a) files).1 = (perform root (f a) files').1) :
    (perform root (l.mapM f) files).1 = (perform root (l.mapM f) files').1 := by
  induction l with
  | nil => rfl
  | cons a l ih =>
    rw [List.mapM_cons]
    refine perform_bind_congr (hf a) (h a (by simp)) fun b => ?_
    exact perform_bind_congr (Reads.mapM hf l) (ih fun a ha => h a (by simp [ha])) fun bs => rfl

end Script

theorem Script.perform_readBytes_congr {ε : Type} {path : String}
    (h : files.ReadsAlike root files' path) :
    (perform root (ExceptT.lift (request (.readBytes path)) : ExceptT ε Script _) files).1 =
      (perform root (ExceptT.lift (request (.readBytes path)) : ExceptT ε Script _) files').1 := by
  rw [perform_lift, perform_lift]
  exact congrArg Except.ok h

theorem FileM.readJson_congr {α : Type} (decode : Decoder α) {path : String}
    (h : files.ReadsAlike root files' path) :
    (perform root (readJson decode path) files).1 =
      (perform root (readJson decode path) files').1 := by
  refine perform_bind_congr (Reads.lift (Reads.request trivial)) (perform_readBytes_congr h) ?_
  intro reply
  cases reply with
  | error e => rfl
  | ok bytes =>
    dsimp only
    split <;> rfl

namespace Table

theorem readStaged_congr (spec : PartitionSpec) {path : String}
    (h : files.ReadsAlike root files' path) :
    (perform root (readStaged spec path) files).1 =
      (perform root (readStaged spec path) files').1 := by
  refine perform_bind_congr (FileM.reads_readJson _ _) (FileM.readJson_congr _ h) fun r => ?_
  exact perform_bind_congr (FileM.reads_ofExcept _) rfl fun _ => rfl

theorem loadFile_congr (schema : Schema) (spec : PartitionSpec) {directory : String} {names : Place}
    (h : files.ReadsAlike root files' (Path.below directory names)) :
    (perform root (loadFile schema spec directory names) files).1 =
      (perform root (loadFile schema spec directory names) files').1 := by
  refine perform_bind_congr (Reads.lift (Reads.request trivial)) (perform_readBytes_congr h) ?_
  intro reply
  cases reply with
  | error e => rfl
  | ok bytes =>
    dsimp only
    split <;> rfl

/-! ### Directories -/

/-- The directory has the same files in both. -/
structure SameDirectory (root : Location) (files files' : Tree) (directory : String) : Prop where
  list : files.list (Path.join root.path directory) = files'.list (Path.join root.path directory)
  reads : ∀ found, files.list (Path.join root.path directory) = .ok found → ∀ names ∈ found,
    files.ReadsAlike root files' (Path.below directory names)

theorem SameDirectory.findImportable {directory : String}
    (h : SameDirectory root files files' directory) :
    (perform root (findImportable directory) files).1 =
      (perform root (Table.findImportable directory) files').1 := by
  refine perform_bind_congr (Reads.lift (Reads.request trivial)) ?_ fun reply => ?_
  · rw [perform_lift, perform_lift, run_request, run_request]
    simp only [Tree.answer, h.list]
  · cases reply with
    | error e => rfl
    | ok found =>
      dsimp only
      split <;> rfl

theorem SameDirectory.loadFiles {directory : String}
    (h : SameDirectory root files files' directory) {found : List Place}
    (hfound : perform root (Table.findImportable directory) files = (.ok found, files))
    (schema : Schema) (spec : PartitionSpec) :
    (perform root (found.mapM (loadFile schema spec directory)) files).1 =
      (perform root (found.mapM (loadFile schema spec directory)) files').1 := by
  obtain ⟨reply, after, hreply, hfound⟩ := perform_bind_ok.1 hfound
  rw [perform_lift, run_request] at hreply
  cases hlist : files.list (Path.join root.path directory) with
  | error e =>
    simp only [Tree.answer, hlist, Prod.mk.injEq, Except.ok.injEq] at hreply
    rw [← hreply.1] at hfound
    exact absurd hfound (by simp)
  | ok listed =>
    simp only [Tree.answer, hlist, Prod.mk.injEq, Except.ok.injEq] at hreply
    rw [← hreply.1] at hfound
    simp only at hfound
    split at hfound
    next => exact absurd hfound (by simp)
    next =>
      obtain rfl := Except.ok.inj (Prod.mk.inj hfound).1
      exact perform_mapM_congr (reads_loadFile schema spec directory) fun names hnames =>
        loadFile_congr schema spec (h.reads listed hlist names (List.mem_of_mem_filter hnames))

/-! ### Changes -/

variable {spec : PartitionSpec} {added : List DataFile} {changes changes' : FileChanges}

/-- The change adds these files, directly or in staged manifests, and nothing else. -/
structure Brings (root : Location) (files : Tree) (spec : PartitionSpec) (added : List DataFile)
    (changes : FileChanges) : Prop where
  fit : changes.fit .append = .ok ()
  deletedPaths : changes.deletedPaths = []
  rowFilter : changes.rowFilter = none
  arrives : ∃ staged,
    perform root (changes.stagedPaths.mapM (readStaged spec)) files = (.ok staged, files) ∧
      ∀ id, arrivals spec id changes.added staged = arrivals spec id added []

theorem Brings.adding (root : Location) (files : Tree) (spec : PartitionSpec)
    (added : List DataFile) : Brings root files spec added (.adding added) :=
  ⟨rfl, rfl, rfl, [], rfl, fun _ => rfl⟩

/-- What has been staged is read as it was staged, and passes its checks. -/
theorem perform_readStaged_staged {path : String}
    (h : files.content? root path = some (FileM.manifestContent (stagedManifest spec added))) :
    perform root (readStaged spec path) files = (.ok ⟨path, stagedManifest spec added,
      UInt64.ofNat (FileM.manifestContent (stagedManifest spec added)).size⟩, files) := by
  have hcheck : checkStaged spec path (stagedManifest spec added) = .ok () := by
    have hspec : (stagedManifest spec added).specId = spec.specId := rfl
    rw [checkStaged, if_neg (not_not_intro hspec), if_neg]
    simp [stagedManifest]
  exact perform_readStaged_iff.2 ⟨FileM.readJson_manifest h, rfl, hcheck⟩

theorem Brings.adopting {path : String}
    (h : files.content? root path = some (FileM.manifestContent (stagedManifest spec added))) :
    Brings root files spec added (.adopting [path]) := by
  have hread := perform_readStaged_staged h
  refine ⟨rfl, rfl, rfl, _, (perform_mapM_ok (reads_readStaged spec)).2 ⟨rfl, .cons hread .nil⟩, ?_⟩
  intro id
  have hinherit : (stagedManifest spec added).inherit id =
      ⟨spec.specId, added.map fun f => ⟨.added, some id, f⟩⟩ := by
    rw [Manifest.inherit, stagedManifest, List.map_map]
    rfl
  -- Nothing is added directly, so the manifest for it lists nothing.
  show arrivals spec id [] [⟨path, stagedManifest spec added, _⟩] = _
  rw [arrivals, arrivals, List.map_singleton, hinherit]
  rfl

/-- Changes that bring the same files ask for the same. -/
theorem ChangesAlike.of_brings (h : Brings root files spec added changes)
    (h' : Brings root files' spec added changes') :
    ChangesAlike root files files' spec .append changes changes' := by
  obtain ⟨staged, hread, harrives⟩ := h.arrives
  obtain ⟨staged', hread', harrives'⟩ := h'.arrives
  refine ⟨h.fit.trans h'.fit.symm, h.deletedPaths.trans h'.deletedPaths.symm,
    h.rowFilter.trans h'.rowFilter.symm, ?_⟩
  rw [hread, hread']
  exact .ok fun id => (harrives id).trans (harrives' id).symm

/-- A change asks for the same where the manifests that it names are the same. -/
theorem ChangesAlike.of_reads (operation : Operation)
    (h : ∀ path ∈ changes.stagedPaths, files.ReadsAlike root files' path) :
    ChangesAlike root files files' spec operation changes changes := by
  refine ⟨rfl, rfl, rfl, (SameOutcome.of_eq (perform_mapM_congr (reads_readStaged spec)
    fun path hpath => readStaged_congr spec (h path hpath))).mono ?_⟩
  rintro staged _ rfl id
  rfl

end Table

end Lakehouse
