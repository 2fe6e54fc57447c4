import Lakehouse.Proofs.Log.Appending
import Lakehouse.Table.Operations

/- What a change writes.

   A metadata file that is written is there afterwards under the name made from its
   content, and the log stays as it is (`writeOnce_attempts`). Which manifests a change
   writes and which records its list has is already settled by its plan (`Plan.written`,
   `Plan.manifestsAfter`): writing gives the path of this list, after all of them are
   filed (`writeSnapshot_attempts`). -/
namespace Lakehouse

open Contract Log

variable {asked : Request → Prop} {root : Location} {files : Tree} {commits : List Commit}
  {current : Nat}

namespace FileM

open Layout

theorem writeOnce_attempts (h : Chain root files commits current) {content : ByteArray}
    {kind path : String} (hname : IsNameOf content kind path)
    (hshelf : Shelved root files → ∀ files', Chain root files' commits current →
      files.Grows asked root files' → files'.content? root path = some content →
      files'.Shelf root path kind) :
    (contract asked root).Attempts (writeOnce content path) files
      (fun r files' => r = (path, UInt64.ofNat content.size) ∧ Chain root files' commits current ∧
        files'.Filed asked root content path)
      (fun _ files' => Chain root files' commits current ∧ ¬ root.Roomy) := by
  obtain ⟨hosts, hkeep, houtcome⟩ := Tree.create_outcome h.hosts hname.isTablePath content
  refine Attempts.bind (Attempts.lift (Ensures.request fun hasked => ?_))
  simp only [contract, Tree.answer]
  generalize files.create (Path.join root.path path) content = reply at hosts hkeep houtcome ⊢
  obtain ⟨result, after⟩ := reply
  cases houtcome with
  | done fresh free now =>
    have hafter : Chain root after commits current := h.of_same hosts
      (fun v => now.elsewhere _ (isTablePath_commit v) (hname.outside_log.2 v).symm)
      (now.elsewhere _ isTablePath_current hname.outside_log.1.symm)
      fun _ hd => now.node_current hname.outside_log.1 hd
    have hgrows : files.Grows asked root after :=
      .of_created hkeep fresh free now hasked (.named hname)
    refine ⟨⟨.of_chain h hafter (List.prefix_refl _) (Nat.le_refl _), hgrows, fun hshelved =>
      hshelved.of_shelved h hgrows hafter hname now (hshelf hshelved after hafter hgrows now.here)⟩, ?_⟩
    exact Attempts.pure ⟨rfl, hafter, ⟨kind, hname⟩, hasked, by rw [now.here]; rfl⟩
  | taken p old there same =>
    have hafter := h.of_sameFiles hosts same
    refine ⟨.of_same h hafter (fun q n hq => .inl (hkeep q n hq)) same, ?_⟩
    exact Attempts.pure ⟨rfl, hafter, ⟨kind, hname⟩, hasked,
      by rw [same.contents path hname.isTablePath, there]; rfl⟩
  | failed p cause refused same =>
    have hafter := h.of_sameFiles hosts same
    exact ⟨.of_same h hafter (fun q n hq => .inl (hkeep q n hq)) same, hafter,
      fun hroom => refused (hroom.named hname)⟩

end FileM

/-- The record of a manifest that is stored under the name made from its content. -/
def ManifestRecord.stored (m : Manifest) (spec : PartitionSpec) (id : SnapshotId) :
    ManifestRecord :=
  .summarize (Layout.manifestPath (FileM.manifestContent m))
    (UInt64.ofNat (FileM.manifestContent m).size) m spec id

/-- The manifest is filed where records look for it. -/
def Manifest.Filed (asked : Request → Prop) (root : Location) (files : Tree) (m : Manifest) :
    Prop :=
  files.Filed asked root (FileM.manifestContent m) (Layout.manifestPath (FileM.manifestContent m))

namespace FileM

theorem writeManifest_attempts (h : Chain root files commits current) (m : Manifest)
    (spec : PartitionSpec) (id : SnapshotId) :
    (contract asked root).Attempts (writeManifest m spec id) files
      (fun r files' => r = .stored m spec id ∧ Chain root files' commits current ∧
        m.Filed asked root files')
      (fun _ files' => Chain root files' commits current ∧ ¬ root.Roomy) := by
  refine Attempts.bind ((writeOnce_attempts h .manifest ?_).mono ?_ fun _ _ h' => h')
  · intro _ files' _ _ hcontent
    exact .manifest (Tree.hasManifest_of_content hcontent)
  rintro r files' ⟨rfl, h'⟩
  exact Attempts.pure ⟨rfl, h'⟩

theorem writeManifestList_attempts (h : Chain root files commits current) (l : ManifestList)
    (hrecords : Shelved root files → ∀ r ∈ l.manifests, files.HasManifest root r.path) :
    (contract asked root).Attempts (writeManifestList l) files
      (fun path files' => path = Layout.manifestListPath l.snapshotId (manifestListContent l) ∧
        Chain root files' commits current ∧ files'.Filed asked root (manifestListContent l) path)
      (fun _ files' => Chain root files' commits current ∧ ¬ root.Roomy) := by
  refine Attempts.map ((writeOnce_attempts h (.list l.snapshotId) ?_).mono ?_ fun _ _ h' => h')
  · intro hshelved files' _ hgrows hcontent
    refine .list (Tree.hasList_of_content hcontent fun r hr => ?_)
    exact (hrecords hshelved r hr).grows h hgrows
  rintro r files' ⟨rfl, h'⟩
  exact ⟨rfl, h'⟩

end FileM

/-! ### The manifests of a new snapshot -/

namespace Table

namespace Plan

variable (p : Plan) (spec : PartitionSpec) (inherits : Bool)

/-- The manifest of the files added directly, if there are any. -/
def additions : List Manifest :=
  if p.added.isEmpty then []
  else [⟨spec.specId, p.added.map fun f => ⟨.added, some p.id, f⟩⟩]

/-- The manifests of the base snapshot from which files are deleted. -/
def touched : List (ManifestRecord × Manifest) :=
  p.manifests.filter fun b => b.2.mentions p.removed

/-- The manifests of the base snapshot that stay as they are. -/
def carried : List (ManifestRecord × Manifest) :=
  p.manifests.filter fun b => !b.2.hasNoLiveEntries && !b.2.mentions p.removed

def rewritten : List Manifest := p.touched.map fun b => b.2.removing p.removed p.id

/-- The record of a manifest that is adopted. -/
def adoptedRecord (s : Staged) : ManifestRecord :=
  if inherits then .summarize s.path s.length s.manifest spec p.id
  else .stored (s.manifest.inherit p.id) spec p.id

/-- The manifests that are written. -/
def written : List Manifest :=
  p.additions spec ++ (if inherits then [] else p.staged.map (·.manifest.inherit p.id)) ++
    p.rewritten

/-- The manifests of the new snapshot with their records, in the order of its list. -/
def manifestsAfter : List (ManifestRecord × Manifest) :=
  (p.additions spec).map (fun m => (.stored m spec p.id, m)) ++
    p.staged.map (fun s => (p.adoptedRecord spec inherits s, s.manifest.inherit p.id)) ++
    p.rewritten.map (fun m => (.stored m spec p.id, m)) ++ p.carried

theorem map_manifestsAfter : (p.manifestsAfter spec inherits).map Prod.snd =
    p.additions spec ++ p.staged.map (fun s => s.manifest.inherit p.id) ++
      (p.rewritten ++ p.carried.map Prod.snd) := by
  simp [manifestsAfter, Function.comp_def]

def listAfter : ManifestList := ⟨p.id, (p.manifestsAfter spec inherits).map Prod.fst⟩

/-- The list has the records that are given for what is written, adopted and carried over. -/
theorem listAfter_eq : (⟨p.id, (p.additions spec).map (.stored · spec p.id) ++
    p.staged.map (p.adoptedRecord spec inherits) ++
    p.touched.map (fun b => .stored (b.2.removing p.removed p.id) spec p.id) ++
    p.carried.map Prod.fst⟩ : ManifestList) = p.listAfter spec inherits := by
  simp [listAfter, manifestsAfter, rewritten, Function.comp_def]

def listPath : String :=
  Layout.manifestListPath p.id (FileM.manifestListContent (p.listAfter spec inherits))

/-- The list of the new snapshot is filed, and so are the manifests that are written. -/
structure Filed (asked : Request → Prop) (root : Location) (files : Tree) : Prop where
  list : files.Filed asked root (FileM.manifestListContent (p.listAfter spec inherits))
    (p.listPath spec inherits)
  manifests : ∀ m ∈ p.written spec inherits, m.Filed asked root files

theorem Filed.grows {p : Plan} {spec : PartitionSpec} {inherits : Bool} {files' : Tree}
    (h : p.Filed spec inherits asked root files) (hgrows : files.Grows asked root files') :
    p.Filed spec inherits asked root files' :=
  ⟨h.list.grows hgrows, fun m hm => (h.manifests m hm).grows hgrows⟩

end Plan

variable (spec : PartitionSpec) (p : Plan)

theorem writeAdded_attempts (h : Chain root files commits current) :
    (contract asked root).Attempts (writeAdded spec p.id p.added) files
      (fun rs files' => rs = (p.additions spec).map (.stored · spec p.id) ∧
        Chain root files' commits current ∧ ∀ m ∈ p.additions spec, m.Filed asked root files')
      (fun _ files' => Chain root files' commits current ∧ ¬ root.Roomy) := by
  rw [writeAdded, Plan.additions]
  split
  · exact Attempts.pure ⟨rfl, h, by simp⟩
  · refine Attempts.bind ((FileM.writeManifest_attempts h _ spec p.id).mono ?_ fun _ _ h' => h')
    rintro r files' ⟨rfl, h', hfiled⟩
    refine Attempts.pure ⟨rfl, h', fun m hm => ?_⟩
    obtain rfl := List.mem_singleton.1 hm
    exact hfiled

theorem adopt_attempts (h : Chain root files commits current) (inherits : Bool) (s : Staged) :
    (contract asked root).Attempts (adopt spec p.id inherits s) files
      (fun r files' => r = p.adoptedRecord spec inherits s ∧ Chain root files' commits current ∧
        (inherits = false → (s.manifest.inherit p.id).Filed asked root files'))
      (fun _ files' => Chain root files' commits current ∧ ¬ root.Roomy) := by
  rw [adopt, Plan.adoptedRecord]
  split
  next hinherits => exact Attempts.pure ⟨rfl, h, by simp [hinherits]⟩
  next =>
    refine (FileM.writeManifest_attempts h _ spec p.id).mono ?_ fun _ _ h' => h'
    rintro r files' ⟨rfl, h', hfiled⟩
    exact ⟨rfl, h', fun _ => hfiled⟩

/-- A walk through a list that writes beside the log. -/
theorem mapM_attempts {α β : Type} {f : α → FileM β} {g : α → β} {m : α → Manifest} {q : Prop}
    {l : List α} (h : Chain root files commits current)
    (hstep : ∀ a ∈ l, ∀ files, Chain root files commits current →
      (contract asked root).Attempts (f a) files
        (fun b files' => b = g a ∧ Chain root files' commits current ∧
          (q → (m a).Filed asked root files'))
        (fun _ files' => Chain root files' commits current ∧ ¬ root.Roomy)) :
    (contract asked root).Attempts (l.mapM f) files
      (fun bs files' => (bs = l.map g ∧ Chain root files' commits current ∧
        ∀ a ∈ l, q → (m a).Filed asked root files') ∧ Proceeds asked root files files')
      (fun _ files' => Chain root files' commits current ∧ ¬ root.Roomy) := by
  have hmap := Attempts.mapM (c := contract asked root)
    (fun files => Chain root files commits current) (Proceeds.refl asked root)
    (fun _ _ _ => Proceeds.trans) (fun a t t' hproceeds hfiled hq => (hfiled hq).grows hproceeds.grows)
    hstep files h
  exact hmap.proceeds.mono (fun _ _ h' => h') fun _ _ h' => h'.1

/-- The list of a plan names what is there before, and what is written. -/
theorem Plan.hasManifest_of_filed (hshelved : Shelved root files) {p : Plan} {inherits : Bool}
    (hwritten : ∀ m ∈ p.written spec inherits, m.Filed asked root files)
    (hstaged : inherits = true → ∀ s ∈ p.staged, files.HasManifest root s.path)
    (hcarried : ∀ b ∈ p.carried, files.HasManifest root b.1.path) :
    ∀ r ∈ (p.listAfter spec inherits).manifests, files.HasManifest root r.path := by
  have hstored : ∀ m ∈ p.written spec inherits,
      files.HasManifest root (ManifestRecord.stored m spec p.id).path := by
    intro m hm
    exact (hshelved.shelf _ _ _ .manifest (hwritten m hm).there).hasManifest
  intro r hr
  obtain ⟨b, hb, rfl⟩ := List.mem_map.1 hr
  rw [Plan.manifestsAfter, List.mem_append, List.mem_append, List.mem_append] at hb
  rcases hb with ((hb | hb) | hb) | hb
  · obtain ⟨m, hm, rfl⟩ := List.mem_map.1 hb
    exact hstored m (by simp [Plan.written, hm])
  · obtain ⟨s, hs, rfl⟩ := List.mem_map.1 hb
    cases inherits with
    | false =>
      refine hstored _ ?_
      rw [Plan.written, List.mem_append, List.mem_append]
      exact .inl (.inr (List.mem_map.2 ⟨s, hs, rfl⟩))
    | true => exact hstaged rfl s hs
  · obtain ⟨m, hm, rfl⟩ := List.mem_map.1 hb
    exact hstored m (by simp [Plan.written, hm])
  · exact hcarried b hb

/-- Writing files all manifests, and then their list. -/
theorem writeSnapshot_attempts (h : Chain root files commits current) (inherits : Bool)
    (hstaged : inherits = true → ∀ s ∈ p.staged, files.HasManifest root s.path)
    (hcarried : ∀ b ∈ p.carried, files.HasManifest root b.1.path) :
    (contract asked root).Attempts (writeSnapshot spec inherits p) files
      (fun path files' => path = p.listPath spec inherits ∧ Chain root files' commits current ∧
        p.Filed spec inherits asked root files')
      (fun _ files' => Chain root files' commits current ∧ ¬ root.Roomy) := by
  refine Attempts.bind ((writeAdded_attempts spec p h).proceeds.mono ?_ fun _ _ h' => h'.1)
  rintro added files₁ ⟨⟨rfl, h₁, hadded⟩, hproceeds₁⟩
  refine Attempts.bind ((mapM_attempts h₁ fun s _ t ht =>
    adopt_attempts spec p ht inherits s).mono ?_ fun _ _ h' => h')
  rintro adopted files₂ ⟨⟨rfl, h₂, hadopted⟩, hproceeds₂⟩
  refine Attempts.bind ((mapM_attempts (q := True) h₂ fun b _ t ht =>
    (FileM.writeManifest_attempts ht (b.2.removing p.removed p.id) spec p.id).mono
      (fun _ _ h' => ⟨h'.1, h'.2.1, fun _ => h'.2.2⟩) fun _ _ h' => h').mono ?_ fun _ _ h' => h')
  rintro records files₃ ⟨⟨rfl, h₃, hrewritten⟩, hproceeds₃⟩
  -- Each manifest is still filed when those after it have been written.
  have hwritten : ∀ m ∈ p.written spec inherits, m.Filed asked root files₃ := by
    intro m hm
    rw [Plan.written, List.mem_append, List.mem_append] at hm
    rcases hm with (hm | hm) | hm
    · exact (hadded m hm).grows (hproceeds₂.trans hproceeds₃).grows
    · split at hm
      next => exact absurd hm (by simp)
      next hinherits =>
        obtain ⟨s, hs, rfl⟩ := List.mem_map.1 hm
        exact (hadopted s hs (by simpa using hinherits)).grows hproceeds₃.grows
    · obtain ⟨b, hb, rfl⟩ := List.mem_map.1 hm
      exact hrewritten b hb trivial
  have hbefore := (hproceeds₁.trans (hproceeds₂.trans hproceeds₃)).grows
  -- All that the list names is there, so it can be filed.
  have hwrite := (@FileM.writeManifestList_attempts asked root _ _ _ h₃
    (p.listAfter spec inherits) fun hshelved => p.hasManifest_of_filed spec hshelved hwritten
      (fun hinherits s hs => (hstaged hinherits s hs).grows h hbefore)
      fun b hb => (hcarried b hb).grows h hbefore).proceeds
  rw [← p.listAfter_eq] at hwrite
  refine hwrite.mono ?_ fun _ _ h' => h'.1
  rw [p.listAfter_eq]
  rintro path files₄ ⟨⟨rfl, h₄, hfiled⟩, hproceeds₄⟩
  exact ⟨rfl, h₄, hfiled, fun m hm => (hwritten m hm).grows hproceeds₄.grows⟩

end Table

end Lakehouse
