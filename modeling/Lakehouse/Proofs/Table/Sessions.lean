import Lakehouse.Proofs.Log.Appending
import Lakehouse.Table.Session

/- Sessions and the log.

   An operation on a kept copy of a table meets a contract with one postcondition for
   success and one for failure (`Contract.Performs`); the rules follow the ways in which
   operations are put together. A copy is a `Replica` if it is the table that a beginning
   of the log describes. Reading the table again gives such a copy, and a commit of
   actions that can be applied to it either is the next one of the log, and then the copy
   is the table of the whole log, or leaves the copy and the commits as they are
   (`commitActions_performs`). In particular the actions never fail to be applied after
   they are written. -/
namespace Lakehouse

namespace Contract

open Script

variable {α β : Type} {c : Contract} {t : Table} {files : Tree}

/-- A success satisfies `post`, and a failure satisfies `fail`. -/
def Performs (c : Contract) (operation : TableM α) (t : Table) (files : Tree)
    (post : α → Table → Tree → Prop) (fail : TableError → Table → Tree → Prop) : Prop :=
  c.Ensures (operation.run.run t) files fun
    | (.ok a, t), files => post a t files
    | (.error e, t), files => fail e t files

namespace Performs

variable {post : α → Table → Tree → Prop} {fail : TableError → Table → Tree → Prop}

theorem pure {a : α} (h : post a t files) : c.Performs (Pure.pure a) t files post fail := h

theorem throw {e : TableError} (h : fail e t files) :
    c.Performs (throw e : TableM α) t files post fail := h

theorem get {post : Table → Table → Tree → Prop} (h : post t t files) :
    c.Performs (MonadState.get : TableM Table) t files post fail := h

theorem set {post : PUnit → Table → Tree → Prop} {u : Table} (h : post ⟨⟩ u files) :
    c.Performs (MonadStateOf.set u : TableM PUnit) t files post fail := h

theorem mono {operation : TableM α} {post' : α → Table → Tree → Prop}
    {fail' : TableError → Table → Tree → Prop} (h : c.Performs operation t files post fail)
    (hpost : ∀ a t files, post a t files → post' a t files)
    (hfail : ∀ e t files, fail e t files → fail' e t files) :
    c.Performs operation t files post' fail' := by
  refine Ensures.mono h fun r files hr => ?_
  obtain ⟨a | e, t⟩ := r
  · exact hfail _ t files hr
  · exact hpost _ t files hr

theorem bind {operation : TableM α} {next : α → TableM β} {post : β → Table → Tree → Prop}
    (h : c.Performs operation t files (fun a t files => c.Performs (next a) t files post fail) fail) :
    c.Performs (operation >>= next) t files post fail := by
  refine Ensures.bind (Ensures.mono h fun r files hr => ?_)
  obtain ⟨a | e, t⟩ := r
  · exact hr
  · exact hr

theorem map {operation : TableM α} {f : α → β} {post : β → Table → Tree → Prop}
    (h : c.Performs operation t files (fun a t files => post (f a) t files) fail) :
    c.Performs (f <$> operation) t files post fail := by
  rw [← bind_pure_comp]
  exact bind (h.mono (fun _ _ _ ha => pure ha) fun _ _ _ he => he)

/-- What comes behind a check starts where the check did. -/
theorem guard {condition : Prop} [Decidable condition] {cause : Rejection} {next : PUnit → TableM α}
    (hfail : condition → fail (.rejected cause) t files)
    (hnext : ¬ condition → c.Performs (next ⟨⟩) t files post fail) :
    c.Performs (if condition then TableM.reject cause >>= next else next ⟨⟩) t files post fail := by
  split
  next h => exact bind (throw (hfail h))
  next h => exact hnext h

/-- What every access keeps is kept by the whole. -/
theorem keep {operation : TableM α} (h : c.Performs operation t files post fail)
    (hrefl : ∀ files, c.keeps files files)
    (htrans : ∀ a b d, c.keeps a b → c.keeps b d → c.keeps a d) :
    c.Performs operation t files (fun a t files' => post a t files' ∧ c.keeps files files')
      fun e t files' => fail e t files' ∧ c.keeps files files' := by
  refine (Ensures.keep h hrefl htrans).mono ?_
  rintro ⟨a | e, t⟩ files' h'
  · exact h'
  · exact h'

/-- Whatever an operation comes to, the log goes on. -/
theorem proceeds {asked : Request → Prop} {root : Location} {operation : TableM α}
    (h : (Log.contract asked root).Performs operation t files post fail) :
    (Log.contract asked root).Performs operation t files
      (fun a t files' => post a t files' ∧ Log.Proceeds asked root files files')
      fun e t files' => fail e t files' ∧ Log.Proceeds asked root files files' :=
  h.keep (Log.Proceeds.refl asked root) fun _ _ _ => Log.Proceeds.trans

/-- What comes of a run whose requests are admitted. -/
theorem outcome {operation : TableM α} (h : c.Performs operation t files post fail)
    (hadmits : ∀ r ∈ (operation.run.run t).requests c.root files, c.admits r) :
    (∃ a t' files', operation.perform c.root t files = ((.ok a, t'), files') ∧ post a t' files') ∨
    ∃ e t' files', operation.perform c.root t files = ((.error e, t'), files') ∧ fail e t' files' := by
  have hresult := Ensures.run h hadmits
  rw [TableM.perform]
  rcases hrun : (operation.run.run t).run c.root files with ⟨⟨e | a, t'⟩, files'⟩
  · rw [hrun] at hresult
    exact .inr ⟨e, t', files', rfl, hresult⟩
  · rw [hrun] at hresult
    exact .inl ⟨a, t', files', rfl, hresult⟩

/-- What cannot fail gives a result. -/
theorem succeeds {operation : TableM α} (h : c.Performs operation t files post fail)
    (hadmits : ∀ r ∈ (operation.run.run t).requests c.root files, c.admits r)
    (hnever : ∀ e t' files', ¬ fail e t' files') :
    ∃ a t' files', operation.perform c.root t files = ((.ok a, t'), files') ∧ post a t' files' :=
  (h.outcome hadmits).resolve_right fun ⟨e, t', files', _, hfail⟩ => hnever e t' files' hfail

/-- What cannot succeed gives an error. -/
theorem fails {operation : TableM α} (h : c.Performs operation t files post fail)
    (hadmits : ∀ r ∈ (operation.run.run t).requests c.root files, c.admits r)
    (hnever : ∀ a t' files', ¬ post a t' files') :
    ∃ e t' files', operation.perform c.root t files = ((.error e, t'), files') ∧ fail e t' files' :=
  (h.outcome hadmits).resolve_left fun ⟨a, t', files', _, hpost⟩ => hnever a t' files' hpost

theorem ofScript {script : Script α}
    (h : c.Ensures script files fun a files => post a t files) :
    c.Performs (TableM.ofScript script) t files post fail := by
  have hrun : (TableM.ofScript script).run.run t =
      script >>= fun a => Pure.pure (Except.ok a, t) := by
    simp [TableM.ofScript, ExceptT.run_lift, StateT.run_map, StateT.run_lift]
  rw [Performs, hrun]
  exact Ensures.bind h

theorem ofFiles {access : FileM α}
    (h : c.Attempts access files (fun a files => post a t files) fun e files => fail e t files) :
    c.Performs (TableM.ofFiles access) t files post fail := by
  have hrun : (TableM.ofFiles access).run.run t = access.run >>= fun r => Pure.pure (r, t) := rfl
  rw [Performs, hrun]
  refine Ensures.bind (Ensures.mono h fun r files hr => ?_)
  cases r with
  | ok a => exact hr
  | error e => exact hr

end Performs

end Contract

namespace Log

variable {root : Location} {files : Tree} {commits : List Commit} {current : Nat}

/-! ### Copies of the table -/

/-- The copy is the table that the commits up to its version describe, and this version
is or was current. -/
structure Replica (commits : List Commit) (current : Nat) (t : Table) : Prop where
  version_le : t.version.toNat ≤ current
  table : tableAfter? (commits.take t.version.toNat) = some t

theorem Replica.mono {commits' : List Commit} {current' : Nat} {t : Table}
    (h : Replica commits current t) (hlength : current ≤ commits.length)
    (hbegins : commits <+: commits') (hle : current ≤ current') : Replica commits' current' t := by
  refine ⟨Nat.le_trans h.version_le hle, ?_⟩
  have hshort := h.version_le
  obtain ⟨rest, rfl⟩ := hbegins
  rw [List.take_append_of_le_length (by omega)]
  exact h.table

/-- A log of which there is a copy has a current version. -/
theorem Replica.current_pos {t : Table} (h : Replica commits current t) : 0 < current := by
  have hlength := pos_of_table h.table
  have hle := h.version_le
  rw [List.length_take] at hlength
  omega

/-- The table that is read is a copy as of the current version. -/
theorem Chain.replica_of_rebuild (h : Chain root files commits current) {t : Table}
    (hread : Script.perform root rebuild files = (.ok t, files)) :
    Replica commits current t ∧ t.version.toNat = current := by
  obtain ⟨hpos, ht⟩ := table_of_rebuild h hread
  obtain ⟨u, -, hu⟩ := tableAfter?_eq_some ht
  have hversion : t.version.toNat = current := by
    have hlength : (commits.take current).length = current := by
      rw [List.length_take, Nat.min_eq_left h.current_le]
    rw [hu, hlength, h.toNat_current]
  exact ⟨⟨Nat.le_of_eq hversion, by rw [hversion]; exact ht⟩, hversion⟩

/-- The table of a whole log, all of which is current. -/
theorem Chain.replica_of_last (h : Chain root files commits commits.length) {t : Table}
    (htable : tableAfter? commits = some t) :
    Replica commits commits.length t ∧ t.version.toNat = commits.length := by
  obtain ⟨u, -, rfl⟩ := tableAfter?_eq_some htable
  have hversion : (UInt64.ofNat commits.length).toNat = commits.length := h.toNat_current
  refine ⟨⟨Nat.le_of_eq hversion, ?_⟩, hversion⟩
  rw [show ({ u with version := UInt64.ofNat commits.length } : Table).version.toNat =
    commits.length from hversion, List.take_length]
  exact htable

/-- The actions were applied to the table `t` of the whole log, and are a new commit behind
all others, which is current; `t'` is the table of the log with it. -/
structure Wrote (root : Location) (commits : List Commit) (current : Nat) (actions : List Action)
    (t t' : Table) (files : Tree) : Prop where
  current_eq : current = commits.length
  latest : tableAfter? commits = some t
  applied : ∃ u, t.applyAll actions = .ok u ∧
    t' = { u with version := UInt64.ofNat (commits.length + 1) }
  written : ∃ c, c.actions = actions ∧ Chain root files (commits ++ [c]) (commits.length + 1) ∧
    tableAfter? (commits ++ [c]) = some t'

end Log

namespace Table

open Contract Log

variable {asked : Request → Prop} {root : Location} {files : Tree} {commits : List Commit}
  {current : Nat} {t : Table}

theorem reads_loadLatest : loadLatest.run.Reads := Script.Reads.adapt reads_rebuild

theorem reads_latestCurrentId : latestCurrentId.Reads := by
  refine Script.Reads.bind reads_loadLatest fun r => ?_
  cases r <;> exact Script.Reads.pure _

/-- What a commit of actions that failed has left: the same commits, and the same version as
current unless it lost to another writer. The copy was not the table of the whole log. -/
structure Unwritten (root : Location) (commits : List Commit) (current : Nat) (version : Version)
    (e : TableError) (files : Tree) : Prop where
  settled : Settled root commits current files
  still : (∃ expected found, e = .commitConflict expected found) ∨ Chain root files commits current
  late : Open root commits current → version.toNat ≠ current

theorem commitActions_performs (h : Chain root files commits current)
    (hreplica : Replica commits current t) {actions : List Action}
    (hvalid : ∃ u, t.applyAll actions = .ok u ∧
      (Shelved root files → t.IsStored root files → u.IsStored root files))
    (expected : Option SnapshotId) (now : Calendar.Instant) :
    (contract asked root).Performs (commitActions expected actions now) t files
      (fun _ t' files' => Wrote root commits current actions t t' files')
      (fun e t' files' => t' = t ∧ Unwritten root commits current t.version e files') := by
  obtain ⟨u, hu, hstored⟩ := hvalid
  have hlast : t.version.toNat = commits.length → tableAfter? commits = some t := by
    intro hlength
    have htable := hreplica.table
    rwa [hlength, List.take_length] at htable
  have hnext : t.version.toNat = commits.length →
      tableAfter? (commits ++ [nextCommit t.version actions now]) =
        some { u with version := UInt64.ofNat (commits.length + 1) } :=
    fun hlength => tableAfter?_append (hlast hlength) hu
  -- A commit on a copy that is behind is refused, so nothing has to be known of it.
  have happend := @append_attempts asked _ _ _ _ h t.version actions now
    fun hlength => ⟨_, hnext hlength, fun hshelved =>
      hstored hshelved (hshelved.registered commits current t h (hlast hlength))⟩
  refine Performs.bind (Performs.get (Performs.bind (Performs.ofScript
    (Ensures.mono happend fun r files' hr => ?_))))
  cases r with
  | ok v =>
    obtain ⟨hlength, hcurrent, rfl, hchain⟩ := hr
    have hversion : UInt64.ofNat (commits.length + 1) = t.version + 1 := by
      rw [← hlength, ofNat_succ, UInt64.ofNat_toNat]
    simp only [hu]
    refine Performs.set ⟨hcurrent, hlast hlength, ⟨u, hu, by rw [hversion]⟩,
      nextCommit t.version actions now, rfl, hchain, ?_⟩
    rw [hnext hlength, hversion]
  | error e =>
    simp only
    split
    · -- To say what it lost to, the writer reads which snapshot is current by now.
      refine Performs.bind (Performs.ofScript ((ensures_of_reads (c := contract asked root)
        reads_latestCurrentId (Proceeds.refl asked root files')).mono ?_))
      rintro found files'' ⟨-, rfl⟩
      exact Performs.throw ⟨rfl, hr.settled, .inl ⟨_, _, rfl⟩, hr.late⟩
    next hnoConflict =>
      refine Performs.throw ⟨rfl, hr.settled, .inr (hr.still.resolve_left ?_), hr.late⟩
      rintro ⟨v, w, rfl⟩
      exact hnoConflict rfl

end Table

end Lakehouse
