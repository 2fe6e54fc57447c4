import Lakehouse.Proofs.Table.Catalog

/- What a change asks for.

   Beside the files of the log, a change asks only for the manifests and the list of its plan
   to be stored, whatever the store replies (`Table.writeSnapshot_asks`, `Table.commit_asks`).
   So whether the contents of a run can be told apart by their names depends on the plans
   of its changes alone. -/
namespace Lakehouse

open Log Script

/-- The request reads, writes to the log, or stores what is admitted under a name made from it. -/
inductive Request.StoresOnly (admitted : String → ByteArray → Prop) : Request → Prop where
  | read {r : Request} (h : r.IsRead) : StoresOnly admitted r
  | commit (version : Version) (c : Commit) :
      StoresOnly admitted (.create (Layout.commitPath version) (commitContent c))
  | pointer (version : Version) :
      StoresOnly admitted (.replace Layout.currentPath (currentContent version))
  | named {content : ByteArray} {kind path : String} (name : Layout.IsNameOf content kind path)
      (h : admitted path content) : StoresOnly admitted (.create path content)

/-- Whatever the replies are, the script stores only what is admitted, and if it succeeds, its
result satisfies `q`. -/
def Script.Asks {ε α : Type} (admitted : String → ByteArray → Prop) (x : ExceptT ε Script α)
    (q : α → Prop) : Prop :=
  x.run.Yields (Request.StoresOnly admitted) fun r => ∀ a, r = .ok a → q a

variable {ε ε' α β : Type} {admitted : String → ByteArray → Prop} {root : Location}
  {files : Tree}

theorem Request.StoresOnly.admits {path : String} {content : ByteArray} {kind : String}
    (h : (Request.create path content).StoresOnly admitted)
    (hname : Layout.IsNameOf content kind path) : admitted path content := by
  cases h with
  | read hread => exact absurd hread id
  | commit version => exact absurd rfl (hname.outside_log.2 version)
  | named _ hadmitted => exact hadmitted

theorem Script.Reads.yields {s : Script α} (h : s.Reads) :
    s.Yields (Request.StoresOnly admitted) fun _ => True :=
  Yields.weaken h fun _ => .read

namespace Script.Asks

theorem pure {a : α} {q : α → Prop} (h : q a) :
    Asks admitted (Pure.pure a : ExceptT ε Script α) q := by
  intro b hb
  exact Except.ok.inj hb ▸ h

theorem throw {e : ε} {q : α → Prop} : Asks admitted (throw e : ExceptT ε Script α) q :=
  fun _ h => absurd h (by simp)

theorem of_reads {x : ExceptT ε Script α} (h : x.run.Reads) : Asks admitted x fun _ => True :=
  Yields.mono h.yields fun _ _ _ _ => trivial

theorem mono {x : ExceptT ε Script α} {q q' : α → Prop} (h : Asks admitted x q)
    (hq : ∀ a, q a → q' a) : Asks admitted x q' :=
  Yields.mono h fun _ hr a ha => hq a (hr a ha)

theorem bind {x : ExceptT ε Script α} {f : α → ExceptT ε Script β} {q : α → Prop} {q' : β → Prop}
    (h : Asks admitted x q) (hf : ∀ a, q a → Asks admitted (f a) q') :
    Asks admitted (x >>= f) q' := by
  refine Yields.bind h fun r hr => ?_
  cases r with
  | ok a => exact hf a (hr a rfl)
  | error e => exact fun _ h => absurd h (by simp)

theorem map {x : ExceptT ε Script α} {f : α → β} {q : β → Prop}
    (h : Asks admitted x fun a => q (f a)) : Asks admitted (f <$> x) q := by
  rw [← bind_pure_comp]
  exact bind h fun a ha => pure ha

theorem adapt {x : ExceptT ε Script α} {f : ε → ε'} {q : α → Prop} (h : Asks admitted x q) :
    Asks admitted (x.adapt f) q := by
  refine Yields.bind h fun r hr => ?_
  cases r with
  | ok a => exact fun b hb => hr b (by simpa using hb)
  | error e => exact fun _ hb => absurd hb (by simp)

theorem lift {s : Script α} (h : s.Yields (Request.StoresOnly admitted) fun _ => True) :
    Asks admitted (ExceptT.lift s : ExceptT ε Script α) fun _ => True :=
  Yields.bind h fun _ _ _ _ => trivial

/-- A walk through a list, of which each step gives a certain result. -/
theorem mapM {f : α → ExceptT ε Script β} {g : α → β} {l : List α}
    (h : ∀ a ∈ l, Asks admitted (f a) (· = g a)) : Asks admitted (l.mapM f) (· = l.map g) := by
  induction l with
  | nil =>
    rw [List.mapM_nil]
    exact pure rfl
  | cons a l ih =>
    rw [List.mapM_cons]
    refine bind (h a (by simp)) fun b hb => ?_
    refine bind (ih fun a ha => h a (by simp [ha])) fun bs hbs => ?_
    exact pure (by rw [hb, hbs, List.map_cons])

end Script.Asks

/-! ### The log -/

namespace Log

/-- The log stores commits and names versions, and nothing else. -/
theorem asks_append (expected : Version) (actions : List Action) (now : Calendar.Instant) :
    Asks admitted (append expected actions now) fun _ => True := by
  have hcurrent : ∀ v, Asks admitted (writeCurrent v) fun _ => True := fun v =>
    Yields.bind (Yields.request (.pointer v)) fun _ _ _ _ => trivial
  have hread : Asks admitted currentVersion fun _ => True := .of_reads reads_currentVersion
  refine .bind hread fun v _ => ?_
  split
  · exact .throw
  · split
    · exact .throw
    · refine .bind (.lift (.request (.commit _ _))) fun reply _ => ?_
      split
      · exact .bind (hcurrent _) fun _ _ => .pure trivial
      · refine .bind (q := fun _ => True) ?_ fun _ _ => .throw
        refine .bind (.of_reads (reads_loadCommit _)) fun found _ => ?_
        split
        · refine .bind hread fun v _ => ?_
          split
          · exact hcurrent _
          · exact .pure trivial
        · exact .throw
      · exact .throw

end Log

/-! ### Metadata files -/

namespace FileM

theorem asks_writeOnce {content : ByteArray} {kind path : String}
    (hname : Layout.IsNameOf content kind path) (h : admitted path content) :
    Asks admitted (writeOnce content path) (· = (path, UInt64.ofNat content.size)) := by
  refine .bind (.lift (.request (.named hname h))) fun reply _ => ?_
  split
  · exact .pure rfl
  · exact .pure rfl
  · exact .throw

theorem asks_writeManifest {m : Manifest}
    (h : admitted (Layout.manifestPath (manifestContent m)) (manifestContent m)) (spec : PartitionSpec)
    (id : SnapshotId) : Asks admitted (writeManifest m spec id) (· = .stored m spec id) := by
  refine .bind (asks_writeOnce .manifest h) ?_
  rintro r rfl
  exact .pure rfl

theorem asks_writeManifestList {l : ManifestList}
    (h : admitted (Layout.manifestListPath l.snapshotId (manifestListContent l))
      (manifestListContent l)) :
    Asks admitted (writeManifestList l) fun _ => True :=
  .map ((asks_writeOnce (.list l.snapshotId) h).mono fun _ _ => trivial)

end FileM

namespace Table

variable {spec : PartitionSpec} {inherits : Bool} {p : Plan}

/-- The contents that a plan has stored: its manifests and its list, each under its path. -/
def Plan.Stores (p : Plan) (spec : PartitionSpec) (inherits : Bool) (path : String)
    (content : ByteArray) : Prop :=
  (∃ m ∈ p.written spec inherits, path = Layout.manifestPath (FileM.manifestContent m) ∧
    content = FileM.manifestContent m) ∨
  path = p.listPath spec inherits ∧ content = FileM.manifestListContent (p.listAfter spec inherits)

theorem writeSnapshot_asks (h : ∀ path content, p.Stores spec inherits path content →
    admitted path content) : Asks admitted (writeSnapshot spec inherits p) fun _ => True := by
  have hwritten : ∀ m ∈ p.written spec inherits,
      Asks admitted (FileM.writeManifest m spec p.id) (· = .stored m spec p.id) := fun m hm =>
    FileM.asks_writeManifest (h _ _ (.inl ⟨m, hm, rfl, rfl⟩)) spec p.id
  have hadded : Asks admitted (writeAdded spec p.id p.added)
      (· = (p.additions spec).map (.stored · spec p.id)) := by
    rw [writeAdded]
    split
    next hempty => exact .pure (by rw [Plan.additions, if_pos hempty]; rfl)
    next hsome =>
      have hadditions : p.additions spec =
          [⟨spec.specId, p.added.map fun f => ⟨.added, some p.id, f⟩⟩] := by
        rw [Plan.additions, if_neg hsome]
      refine .bind (hwritten _ (by simp [Plan.written, hadditions])) ?_
      rintro r rfl
      exact .pure (by rw [hadditions]; rfl)
  have hadopted : Asks admitted (p.staged.mapM (adopt spec p.id inherits))
      (· = p.staged.map (p.adoptedRecord spec inherits)) := by
    refine .mapM fun s hs => ?_
    rw [adopt, Plan.adoptedRecord]
    split
    next => exact .pure rfl
    next hinherits =>
      refine hwritten _ ?_
      rw [Plan.written, if_neg hinherits, List.mem_append, List.mem_append]
      exact .inl (.inr (List.mem_map.2 ⟨s, hs, rfl⟩))
  have hrewritten : Asks admitted (p.touched.mapM fun b =>
      FileM.writeManifest (b.2.removing p.removed p.id) spec p.id)
      (· = p.touched.map fun b => .stored (b.2.removing p.removed p.id) spec p.id) := by
    refine .mapM fun b hb => hwritten _ ?_
    rw [Plan.written, List.mem_append]
    exact .inr (List.mem_map.2 ⟨b, hb, rfl⟩)
  refine .bind hadded ?_
  rintro added rfl
  refine .bind hadopted ?_
  rintro adopted rfl
  refine .bind hrewritten ?_
  rintro rewritten rfl
  have hlist := FileM.asks_writeManifestList (l := p.listAfter spec inherits) (h _ _ (.inr ⟨rfl, rfl⟩))
  rwa [← p.listAfter_eq] at hlist

end Table

/-! ### Operations -/

theorem Script.Yields.of_mem_requests {p : Request → Prop} {s : Script α} {q : α → Prop}
    (h : s.Yields p q) : ∀ r ∈ s.requests root files, p r := by
  induction s generalizing files with
  | done a => simp [requests]
  | ask r next ih =>
    rw [requests]
    intro r' hr'
    rcases List.mem_cons.1 hr' with rfl | hr'
    · exact h.1
    · exact ih _ (h.2 _) r' hr'

/-- The operation, as it is run through a copy of the table, stores only what is admitted. -/
def TableM.Asks (admitted : String → ByteArray → Prop) (root : Location) (operation : TableM α)
    (t : Table) (files : Tree) : Prop :=
  ∀ r ∈ (operation.run.run t).requests root files, r.StoresOnly admitted

namespace TableM.Asks

variable {t : Table}

theorem pure {a : α} : TableM.Asks admitted root (Pure.pure a) t files :=
  fun _ hr => absurd hr List.not_mem_nil

theorem throw {e : TableError} : TableM.Asks admitted root (throw e : TableM α) t files :=
  fun _ hr => absurd hr List.not_mem_nil

theorem get {next : Table → TableM β} (h : TableM.Asks admitted root (next t) t files) :
    TableM.Asks admitted root (MonadState.get >>= next) t files := h

theorem set {u : Table} {next : PUnit → TableM β}
    (h : TableM.Asks admitted root (next ⟨⟩) u files) :
    TableM.Asks admitted root (MonadStateOf.set u >>= next) t files := h

/-- What comes behind an operation is run only if the operation succeeds. -/
theorem bind {operation : TableM α} {next : α → TableM β}
    (h : TableM.Asks admitted root operation t files)
    (hnext : ∀ a t' files', operation.perform root t files = ((.ok a, t'), files') →
      TableM.Asks admitted root (next a) t' files') :
    TableM.Asks admitted root (operation >>= next) t files := by
  intro r hr
  simp only [ExceptT.run_bind, StateT.run_bind, requests_bind] at hr
  rcases List.mem_append.1 hr with hr | hr
  · exact h r hr
  · rcases hrun : (operation.run.run t).run root files with ⟨⟨e | a, t'⟩, files'⟩
    · rw [hrun] at hr
      exact absurd hr List.not_mem_nil
    · rw [hrun] at hr
      exact hnext a t' files' hrun r hr

theorem map {operation : TableM α} {f : α → β} (h : TableM.Asks admitted root operation t files) :
    TableM.Asks admitted root (f <$> operation) t files := by
  rw [← bind_pure_comp]
  exact bind h fun _ _ _ _ => pure

/-- What comes behind a check is run only if the check is passed. -/
theorem guard {condition : Prop} [Decidable condition] {cause : Rejection}
    {next : PUnit → TableM β} (h : TableM.Asks admitted root (next ⟨⟩) t files) :
    TableM.Asks admitted root (if condition then TableM.reject cause >>= next else next ⟨⟩)
      t files := by
  split
  · exact bind throw fun _ _ _ hpassed => absurd hpassed (by simp [TableM.reject])
  · exact h

theorem ofScript {script : Script α}
    (h : script.Yields (Request.StoresOnly admitted) fun _ => True) :
    TableM.Asks admitted root (TableM.ofScript script) t files := by
  have hrun : (TableM.ofScript script).run.run t =
      script >>= fun a => Pure.pure (Except.ok a, t) := by
    simp [TableM.ofScript, ExceptT.run_lift, StateT.run_map, StateT.run_lift]
  have hyields : Yields (Request.StoresOnly admitted) (fun _ => True)
      (script >>= fun a => Pure.pure ((Except.ok a : Except TableError α), t)) :=
    Yields.bind h fun _ _ => Yields.pure trivial
  intro r hr
  rw [hrun] at hr
  exact hyields.of_mem_requests r hr

theorem ofFiles {access : FileM α} {q : α → Prop} (h : Script.Asks admitted access q) :
    TableM.Asks admitted root (TableM.ofFiles access) t files := by
  have hyields : Yields (Request.StoresOnly admitted) (fun _ => True)
      (access.run >>= fun r => Pure.pure (r, t)) := Yields.bind h fun _ _ => Yields.pure trivial
  exact hyields.of_mem_requests

/-- An access that only reads leaves the copy and the files. -/
theorem ofReads {access : FileM α} {next : α → TableM β} (hreads : access.run.Reads)
    (hnext : ∀ a, Script.perform root access files = (.ok a, files) →
      TableM.Asks admitted root (next a) t files) :
    TableM.Asks admitted root (TableM.ofFiles access >>= next) t files := by
  refine bind (ofFiles (.of_reads hreads)) fun a t' files' hperform => ?_
  rw [TableM.perform_ofFiles] at hperform
  obtain ⟨hresult, rfl⟩ := Prod.mk.inj hperform
  obtain ⟨ha, rfl⟩ := Prod.mk.inj hresult
  have hsame := hreads.eq_of_perform (Prod.ext ha rfl : Script.perform root access files =
    (.ok a, (Script.perform root access files).2))
  rw [hsame]
  exact hnext a (Prod.ext ha hsame)

end TableM.Asks

namespace Table

variable {t u : Table}

theorem commitActions_asks (expected : Option SnapshotId) (actions : List Action)
    (now : Calendar.Instant) :
    TableM.Asks admitted root (commitActions expected actions now) t files := by
  refine .get ?_
  refine .bind (.ofScript (Yields.mono (asks_append _ _ _) fun _ _ => trivial)) fun r _ _ _ => ?_
  cases r with
  | ok version =>
    dsimp only
    split
    · exact TableM.Asks.pure
    · exact .throw
  | error e =>
    dsimp only
    split
    · exact .bind (.ofScript reads_latestCurrentId.yields) fun _ _ _ _ => .throw
    · exact .throw

theorem create_asks (metadata : Metadata) (now : Calendar.Instant) :
    Asks admitted (create metadata now) fun _ => True := by
  refine .bind (.of_reads (Reads.adapt reads_currentVersion)) fun v _ => ?_
  split
  · exact .throw
  · exact .bind (.adapt (asks_append _ _ _)) fun _ _ => .pure trivial

/-- Staging stores the manifest of the files, and nothing else. -/
theorem stage_asks {added : List DataFile}
    (h : admitted (Layout.stagedPath (FileM.manifestContent (stagedManifest t.spec added)))
      (FileM.manifestContent (stagedManifest t.spec added))) :
    TableM.Asks admitted root (stage added) t files :=
  .get (.ofFiles (q := fun _ => True) (.map ((FileM.asks_writeOnce .staged h).mono
    fun _ _ => trivial)))

theorem refresh_asks : TableM.Asks admitted root refresh t files :=
  .ofReads reads_loadLatest fun _ _ => .set .pure

/-- Moving the pointer stores nothing but a commit. -/
theorem setCurrent_asks (target : SnapshotId) (now : Calendar.Instant) :
    TableM.Asks admitted root (setCurrent target now) t files := by
  refine .bind refresh_asks fun _ u _ _ => .get ?_
  exact .guard (.get (commitActions_asks _ _ _))

theorem rollback_asks (target : SnapshotId) (now : Calendar.Instant) :
    TableM.Asks admitted root (rollback target now) t files := by
  refine .bind refresh_asks fun _ u _ _ => .get ?_
  exact .guard (.guard (.get (commitActions_asks _ _ _)))

/-- A change stores only the manifests and the list of its plan, if there is one. -/
theorem commit_asks {base : Option SnapshotId} {operation : Operation} {changes : FileChanges}
    {now : Calendar.Instant}
    (h : ∀ u p, perform root loadLatest files = (.ok u, files) →
      Planned root files u operation changes p → ∀ path content,
        p.Stores u.spec u.metadata.properties.inheritsSnapshotIds path content →
        admitted path content) :
    TableM.Asks admitted root (commit base operation changes now) t files := by
  refine .ofReads reads_loadLatest fun u hread => ?_
  split
  · exact .throw
  · refine .set (.ofReads (u.reads_plan _ _) fun p hplan => ?_)
    have hstores := h u p hread (perform_plan_iff.1 hplan)
    refine .bind (.ofFiles (writeSnapshot_asks hstores)) fun list _ _ _ => ?_
    exact .bind (commitActions_asks _ _ _) fun _ _ _ _ => .pure

end Table

end Lakehouse
