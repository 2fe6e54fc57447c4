import Lakehouse.Proofs.Store.Contract
import Lakehouse.Proofs.Store.Layout
import Lakehouse.Proofs.Success
import Lakehouse.Table.Intake

/- Accesses beside the log.

   Before an operation comes to the log, it only reads, and creates files under names made from
   their content. So what every such creation keeps is kept as long (`FileM.Beside`). A failure up
   to there says nothing about the log (`TableError.concernsLog`): the request is refused, or a
   metadata file cannot be read, or it cannot be written. -/
namespace Lakehouse

open Contract Script

/-- The error says what was found when a commit was to be added, or the table to be read. -/
def TableError.concernsLog : TableError → Bool
  | .commitConflict _ _ => true
  | .log _ => true
  | _ => false

/-- Creating content under a name made from it keeps the condition, and if it fails though nothing
is there, it fails as it should. -/
structure Contract.Files (c : Contract) (inv : Tree → Prop) (fail : TableError → Prop) : Prop where
  read : ∀ files, inv files → c.keeps files files
  filed : ∀ files content kind path, inv files → Layout.IsNameOf content kind path →
    c.keeps files (files.create (Path.join c.root.path path) content).2 ∧
      inv (files.create (Path.join c.root.path path) content).2
  refused : ∀ files content kind path e, inv files → Layout.IsNameOf content kind path →
    (files.create (Path.join c.root.path path) content).1 = .error e →
    (∀ p, e ≠ .alreadyExists p) → fail (.storage e)

/-- Begun under a condition, the access keeps it and fails only in a certain way. -/
def FileM.Beside {α : Type} (c : Contract) (inv : Tree → Prop) (fail : TableError → Prop)
    (access : FileM α) : Prop :=
  ∀ files, inv files →
    c.Attempts access files (fun _ files' => inv files') fun e files' => fail e ∧ inv files'

namespace FileM

variable {α β : Type} {c : Contract} {inv : Tree → Prop} {fail : TableError → Prop}

namespace Beside

theorem pure (a : α) : Beside c inv fail (Pure.pure a : FileM α) := fun _ h => Attempts.pure h

theorem throw {e : TableError} (he : fail e) : Beside c inv fail (throw e : FileM α) :=
  fun _ h => Attempts.throw ⟨he, h⟩

theorem bind {access : FileM α} {next : α → FileM β} (h : Beside c inv fail access)
    (hnext : ∀ a, Beside c inv fail (next a)) : Beside c inv fail (access >>= next) :=
  fun files hinv => Attempts.bind ((h files hinv).mono (fun a files' => hnext a files') fun _ _ he => he)

theorem map {access : FileM α} (h : Beside c inv fail access) (f : α → β) :
    Beside c inv fail (f <$> access) := by
  rw [← bind_pure_comp]
  exact h.bind fun a => pure (f a)

theorem mapM {f : α → FileM β} (h : ∀ a, Beside c inv fail (f a)) (l : List α) :
    Beside c inv fail (l.mapM f) := by
  induction l with
  | nil =>
    rw [List.mapM_nil]
    exact pure []
  | cons a l ih =>
    rw [List.mapM_cons]
    exact (h a).bind fun b => ih.bind fun bs => pure (b :: bs)

theorem request {r : Request} (h : ∀ files, inv files →
    c.keeps files (files.answer c.root r).2 ∧ inv (files.answer c.root r).2) :
    Beside c inv fail (ExceptT.lift (Script.request r)) :=
  fun files hinv => Attempts.lift (Ensures.request fun _ => h files hinv)

end Beside

/-! ### Reading -/

section

variable (hread : ∀ files, inv files → c.keeps files files)
  (hfail : ∀ e, e.concernsLog = false → fail e)

include hfail in
theorem beside_ofExcept {result : Except TableError α}
    (h : ∀ e, result = .error e → e.concernsLog = false) :
    Beside c inv fail (ofExcept result) := by
  intro files hinv
  cases result with
  | ok a => exact hinv
  | error e => exact ⟨hfail e (h e rfl), hinv⟩

include hfail in
theorem beside_check (result : Except Rejection α) : Beside c inv fail (check result) := by
  refine beside_ofExcept hfail fun e he => ?_
  obtain ⟨cause, -, rfl⟩ := mapError_eq_error.1 he
  rfl

include hread hfail

theorem beside_readJson (decode : Decoder α) (path : String) :
    Beside c inv fail (readJson decode path) := by
  refine Beside.bind (Beside.request fun files hinv => ⟨hread files hinv, hinv⟩) fun reply => ?_
  cases reply with
  | error e => exact Beside.throw (hfail _ rfl)
  | ok bytes =>
    dsimp only
    split
    · exact Beside.pure _
    · exact Beside.throw (hfail _ rfl)

theorem beside_loadManifests (s : Snapshot) : Beside c inv fail (loadManifests s) := by
  refine Beside.bind ((beside_readJson hread hfail _ _).map _) fun l => Beside.mapM (fun r => ?_) _
  exact (beside_readJson hread hfail _ _).bind fun _ => Beside.pure _

end

/-! ### Writing -/

section

variable (h : c.Files inv fail)
include h

theorem beside_writeOnce {content : ByteArray} {kind path : String}
    (hname : Layout.IsNameOf content kind path) : Beside c inv fail (writeOnce content path) := by
  intro files hinv
  refine Attempts.bind (Attempts.lift (Ensures.request fun _ => ?_))
  have hfiled := h.filed files content kind path hinv hname
  have hrefused := h.refused files content kind path
  simp only [Tree.answer]
  generalize files.create (Path.join c.root.path path) content = reply at hfiled hrefused ⊢
  obtain ⟨result, after⟩ := reply
  refine ⟨hfiled.1, ?_⟩
  cases result with
  | ok _ => exact Attempts.pure hfiled.2
  | error e =>
    cases e with
    | alreadyExists p => exact Attempts.pure hfiled.2
    | notFound p => exact Attempts.throw ⟨hrefused _ hinv hname rfl (by simp), hfiled.2⟩
    | fault p cause => exact Attempts.throw ⟨hrefused _ hinv hname rfl (by simp), hfiled.2⟩

theorem beside_writeManifest (m : Manifest) (spec : PartitionSpec) (id : SnapshotId) :
    Beside c inv fail (writeManifest m spec id) :=
  (beside_writeOnce h .manifest).bind fun _ => Beside.pure _

theorem beside_writeManifestList (l : ManifestList) : Beside c inv fail (writeManifestList l) :=
  (beside_writeOnce h (.list l.snapshotId)).map _

end

end FileM

/-! ### Operations -/

namespace Table

open FileM

variable {c : Contract} {inv : Tree → Prop} {fail : TableError → Prop}

section

variable (hread : ∀ files, inv files → c.keeps files files)
  (hfail : ∀ e, e.concernsLog = false → fail e)

theorem concernsLog_of_removedPaths {schema : Schema} {spec : PartitionSpec} {live : LiveFiles}
    {changes : FileChanges} {e : TableError}
    (h : removedPaths schema spec live changes = .error e) : e.concernsLog = false := by
  rw [removedPaths] at h
  cases hlive : live.checkPaths changes.deletedPaths with
  | error cause =>
    rw [hlive] at h
    obtain rfl := Except.error.inj h
    rfl
  | ok _ =>
    rw [hlive] at h
    simp only [Except.mapError, bind, Except.bind] at h
    split at h
    next => exact absurd h (by simp [pure, Except.pure])
    next filter _ =>
      split at h
      next =>
        obtain rfl := Except.error.inj h
        rfl
      next bound _ =>
        cases hmatched : LiveFiles.matched bound spec live.toList with
        | error cause =>
          rw [hmatched] at h
          obtain rfl := Except.error.inj h
          rfl
        | ok paths =>
          rw [hmatched] at h
          exact absurd h (by simp [pure, Except.pure])

include hread hfail

theorem beside_plan (t : Table) (operation : Operation) (changes : FileChanges) :
    Beside c inv fail (t.plan operation changes) := by
  have hcurrent : Beside c inv fail t.loadCurrent := by
    rw [loadCurrent]
    split
    · exact beside_loadManifests hread hfail _
    · exact Beside.pure _
  have hstaged : ∀ path, Beside c inv fail (readStaged t.spec path) := fun path =>
    (beside_readJson hread hfail _ _).bind fun _ => (beside_check hfail _).bind fun _ => Beside.pure _
  refine (beside_check hfail _).bind fun _ => (beside_check hfail _).bind fun _ =>
    hcurrent.bind fun _ => (beside_ofExcept hfail fun _ => concernsLog_of_removedPaths).bind fun _ =>
      (Beside.mapM hstaged _).bind fun _ => ?_
  exact (beside_check hfail _).bind fun _ => (beside_check hfail _).bind fun _ => Beside.pure _

theorem beside_findImportable (directory : String) :
    Beside c inv fail (findImportable directory) := by
  refine Beside.bind (Beside.request fun files hinv => ⟨hread files hinv, hinv⟩) fun reply => ?_
  cases reply with
  | error e => exact Beside.throw (hfail _ rfl)
  | ok found =>
    dsimp only
    split
    · exact Beside.throw (hfail _ rfl)
    · exact Beside.pure _

theorem beside_loadFile (schema : Schema) (spec : PartitionSpec) (directory : String)
    (names : Place) : Beside c inv fail (loadFile schema spec directory names) := by
  refine Beside.bind (Beside.request fun files hinv => ⟨hread files hinv, hinv⟩) fun reply => ?_
  cases reply with
  | error e => exact Beside.throw (hfail _ rfl)
  | ok bytes =>
    dsimp only
    split
    · exact Beside.pure _
    · exact Beside.throw (hfail _ rfl)

end

/-- A snapshot is written by filing its manifests and their list. -/
theorem beside_writeSnapshot (h : c.Files inv fail) (spec : PartitionSpec) (inherits : Bool)
    (p : Plan) : Beside c inv fail (writeSnapshot spec inherits p) := by
  have hadded : Beside c inv fail (writeAdded spec p.id p.added) := by
    rw [writeAdded]
    split
    · exact Beside.pure _
    · exact (beside_writeManifest h _ spec p.id).bind fun _ => Beside.pure _
  have hadopt : ∀ s, Beside c inv fail (adopt spec p.id inherits s) := by
    intro s
    rw [adopt]
    split
    · exact Beside.pure _
    · exact beside_writeManifest h _ spec p.id
  exact hadded.bind fun _ => (Beside.mapM hadopt p.staged).bind fun _ =>
    (Beside.mapM (fun _ => beside_writeManifest h _ spec p.id) _).bind fun _ =>
      beside_writeManifestList h _

end Table

end Lakehouse
