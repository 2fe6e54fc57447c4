import Lakehouse.Proofs.Log.Extension
import Lakehouse.Proofs.Table.Abreast
import Lakehouse.Proofs.Table.Bringing

/- Tables that are worked on in the same way.

   Two logs are twins if they are equally long, and at every version their tables mirror each
   other (`Log.Twins`); copies of both are peers if they are of the same version (`Log.Peers`). Through
   peers, the same operation is refused for the same reason or done, and then the logs are
   twins again: a commit of actions (`commitActions_abreast`), so a change of files, whether its
   files come with it or are staged first (`commit_abreast`), a move of the pointer, and an
   update of properties, which need not be the same (`updateProperties_abreast`). -/
namespace Lakehouse

open Contract Log Script

variable {asked asked' : Request → Prop} {root : Location} {commits commits' : List Commit}
  {current : Nat} {files files' after after' : Tree} {t t' u u' : Table}

namespace Log

/-- The logs are equally long and have the same version as current, and their tables mirror each
other at every version. -/
structure Twins (asked asked' : Request → Prop) (root : Location) (commits commits' : List Commit)
    (current : Nat) (files files' : Tree) : Prop where
  chain : Chain root files commits current
  chain' : Chain root files' commits' current
  supplied : files.Supplied asked root
  supplied' : files'.Supplied asked' root
  length : commits.length = commits'.length
  tables : ∀ n, Option.Rel (Table.Mirrors root files files') (tableAfter? (commits.take n))
    (tableAfter? (commits'.take n))

/-- The copies are of the same version of both logs. -/
structure Peers (commits commits' : List Commit) (current : Nat) (t t' : Table) : Prop where
  replica : Replica commits current t
  replica' : Replica commits' current t'
  version : t.version = t'.version

/-- All copies of a log have the same spec. -/
theorem Replica.spec_eq (h : Replica commits current t) (hchain : Chain root files commits current)
    (h' : Replica commits current u) : t.spec = u.spec := by
  obtain ⟨v, hv, hextends⟩ := hchain.exists_last h.table
  exact hextends.spec.symm.trans (h'.extends hv).spec

/-- Both logs have gone on to be twins, and the copies are peers. -/
def GoneOn (asked asked' : Request → Prop) (root : Location) (commits commits' : List Commit)
    (current : Nat) (a b : Session) : Prop :=
  ∃ commits₁ commits₁' current₁, commits <+: commits₁ ∧ commits' <+: commits₁' ∧
    current ≤ current₁ ∧ Twins asked asked' root commits₁ commits₁' current₁ a.files b.files ∧
    Peers commits₁ commits₁' current₁ a.copy b.copy

theorem Peers.mono (h : Peers commits commits' current t t')
    (htwins : Twins asked asked' root commits commits' current files files')
    {commits₁ commits₁' : List Commit} {current₁ : Nat} (hbegins : commits <+: commits₁)
    (hbegins' : commits' <+: commits₁') (hle : current ≤ current₁) :
    Peers commits₁ commits₁' current₁ t t' :=
  ⟨h.replica.mono htwins.chain.current_le hbegins hle,
    h.replica'.mono htwins.chain'.current_le hbegins' hle, h.version⟩

namespace Twins

/-- The tables mirror each other in files that have grown. -/
theorem tables_grow (h : Twins asked asked' root commits commits' current files files')
    (hgrows : files.Grows asked root after) (hgrows' : files'.Grows asked' root after') (n : Nat) :
    Option.Rel (Table.Mirrors root after after') (tableAfter? (commits.take n))
      (tableAfter? (commits'.take n)) := by
  have htables := h.tables n
  generalize tableAfter? (commits.take n) = table at *
  generalize tableAfter? (commits'.take n) = table' at *
  cases htables with
  | none => exact .none
  | some hmirrors => exact .some (hmirrors.grows h.chain hgrows h.chain' hgrows')

/-- Files that are written beside the logs do not matter. -/
theorem grows (h : Twins asked asked' root commits commits' current files files')
    {current₁ : Nat} (hchain : Chain root after commits current₁)
    (hgrows : files.Grows asked root after) (hchain' : Chain root after' commits' current₁)
    (hgrows' : files'.Grows asked' root after') :
    Twins asked asked' root commits commits' current₁ after after' :=
  ⟨hchain, hchain', h.supplied.grows hgrows, h.supplied'.grows hgrows', h.length,
    h.tables_grow hgrows hgrows'⟩

theorem mirrors_of_table (h : Twins asked asked' root commits commits' current files files') {n : Nat}
    (ht : tableAfter? (commits.take n) = some t) (ht' : tableAfter? (commits'.take n) = some t') :
    Table.Mirrors root files files' t t' := by
  have htables := h.tables n
  rw [ht, ht'] at htables
  cases htables with
  | some hmirrors => exact hmirrors

theorem mirrors (h : Twins asked asked' root commits commits' current files files')
    (hpeers : Peers commits commits' current t t') : Table.Mirrors root files files' t t' := by
  have htable := hpeers.replica'.table
  rw [← hpeers.version] at htable
  exact h.mirrors_of_table hpeers.replica.table htable

/-- Where commits are current, both logs have a table to be read. -/
theorem exists_current (h : Twins asked asked' root commits commits' current files files')
    (hpos : 0 < current) : ∃ u u', perform root Table.loadLatest files = (.ok u, files) ∧
      perform root Table.loadLatest files' = (.ok u', files') ∧
      Peers commits commits' current u u' := by
  obtain ⟨u, hu⟩ := h.chain.replays current hpos h.chain.current_le
  obtain ⟨u', hu'⟩ := h.chain'.replays current hpos h.chain'.current_le
  have hread := h.chain.perform_loadLatest hpos hu
  have hread' := h.chain'.perform_loadLatest hpos hu'
  obtain ⟨hreplica, hversion⟩ := h.chain.replica_of_rebuild (Table.perform_loadLatest hread)
  obtain ⟨hreplica', hversion'⟩ := h.chain'.replica_of_rebuild (Table.perform_loadLatest hread')
  exact ⟨u, u', hread, hread',
    hreplica, hreplica', UInt64.toNat_inj.1 (hversion.trans hversion'.symm)⟩

/-- Where there are commits, both logs have a last table. -/
theorem exists_last (h : Twins asked asked' root commits commits' current files files')
    (hpos : 0 < commits.length) : ∃ u u', tableAfter? commits = some u ∧
      tableAfter? commits' = some u' ∧ Table.Mirrors root files files' u u' := by
  obtain ⟨u, hu⟩ := h.chain.replays commits.length hpos (Nat.le_refl _)
  obtain ⟨u', hu'⟩ := h.chain'.replays commits.length (by omega) (Nat.le_of_eq h.length)
  have hmirrors := h.mirrors_of_table hu hu'
  rw [List.take_length] at hu
  rw [h.length, List.take_length] at hu'
  exact ⟨u, u', hu, hu', hmirrors⟩

/-- Nothing was written, and the copies are peers. -/
theorem stay (h : Twins asked asked' root commits commits' current files files')
    (hpeers : Peers commits commits' current t t') :
    GoneOn asked asked' root commits commits' current ⟨t, files⟩ ⟨t', files'⟩ :=
  ⟨commits, commits', current, List.prefix_refl _, List.prefix_refl _, Nat.le_refl _, h, hpeers⟩

/-- Twins stay twins with one more commit each, if the tables behind them mirror each other. -/
theorem goneOn_of_added (h : Twins asked asked' root commits commits' current files files')
    {c c' : Commit} (hchain : Chain root after (commits ++ [c]) (commits.length + 1))
    (hchain' : Chain root after' (commits' ++ [c']) (commits'.length + 1))
    (ht : tableAfter? (commits ++ [c]) = some u) (ht' : tableAfter? (commits' ++ [c']) = some u')
    (hgrows : files.Grows asked root after) (hgrows' : files'.Grows asked' root after')
    (hmirrors : Table.Mirrors root after after' u u') :
    GoneOn asked asked' root commits commits' current ⟨u, after⟩ ⟨u', after'⟩ := by
  have hlength : (commits ++ [c]).length = commits.length + 1 := by simp
  have hlength' : (commits' ++ [c']).length = commits.length + 1 := by simp [h.length]
  have hle := h.chain.current_le
  rw [← h.length] at hchain'
  have hreplica : Replica (commits ++ [c]) (commits.length + 1) u := by
    rw [← hlength] at hchain ⊢
    exact (hchain.replica_of_last ht).1
  have hreplica' : Replica (commits' ++ [c']) (commits.length + 1) u' := by
    rw [← hlength'] at hchain' ⊢
    exact (hchain'.replica_of_last ht').1
  refine ⟨commits ++ [c], commits' ++ [c'], commits.length + 1, List.prefix_append _ _,
    List.prefix_append _ _, by omega, ⟨hchain, hchain', h.supplied.grows hgrows,
      h.supplied'.grows hgrows', hlength.trans hlength'.symm, fun n => ?_⟩,
    hreplica, hreplica', hmirrors.alike.version⟩
  by_cases hn : n ≤ commits.length
  · rw [List.take_append_of_le_length hn, List.take_append_of_le_length (h.length ▸ hn)]
    exact h.tables_grow hgrows hgrows' n
  · rw [List.take_of_length_le (by omega), List.take_of_length_le (by omega), ht, ht']
    exact .some hmirrors

end Twins

end Log

namespace Table

/-! ### Commits of actions -/

/-- Where nothing stands in the way of either, both add their commits. The tables that they leave
have to mirror each other. -/
theorem commitActions_abreast_open
    (h : Twins asked asked' root commits commits' current files files')
    (hpeers : Peers commits commits' current t t') (hopen : Open root commits current)
    (hnext : t.version.toNat = current) {actions actions' : List Action}
    (hvalid : ∃ u, t.applyAll actions = .ok u ∧
      (Shelved root files → t.IsStored root files → u.IsStored root files))
    (hvalid' : ∃ u, t'.applyAll actions' = .ok u ∧
      (Shelved root files' → t'.IsStored root files' → u.IsStored root files'))
    (hmirrors : ∀ after after', files.Grows asked root after → files'.Grows asked' root after' →
      ∀ u u' version, t.applyAll actions = .ok u → t'.applyAll actions' = .ok u' →
      Mirrors root after after' { u with version := version } { u' with version := version })
    (expected : Option SnapshotId) (now now' : Calendar.Instant) :
    Abreast asked asked' root (commitActions expected actions now)
      (commitActions expected actions' now') ⟨t, files⟩ ⟨t', files'⟩
      (fun _ _ => GoneOn asked asked' root commits commits' current)
      (GoneOn asked asked' root commits commits' current) := by
  have hopen' : Open root commits' current := ⟨hopen.room, hopen.last.trans h.length, hopen.next⟩
  have hwrites := (@commitActions_performs asked _ _ _ _ _ h.chain hpeers.replica _ hvalid expected
    now).mono (fun _ _ _ hwrote => hwrote) fun _ _ _ hfailed => hfailed.2.late hopen hnext
  have hwrites' := (@commitActions_performs asked' _ _ _ _ _ h.chain' hpeers.replica' _ hvalid'
    expected now').mono (fun _ _ _ hwrote => hwrote) fun _ _ _ hfailed =>
      hfailed.2.late hopen' (hpeers.version ▸ hnext)
  refine Abreast.of_performs hwrites hwrites' ?_
  rintro _ _ ⟨u, after⟩ ⟨u', after'⟩ hwrote hwrote' hproceeds hproceeds'
  obtain ⟨v, hv, hu⟩ := hwrote.applied
  obtain ⟨v', hv', hu'⟩ := hwrote'.applied
  have hmirror := hmirrors after after' hproceeds.grows hproceeds'.grows v v'
    (UInt64.ofNat (commits.length + 1)) hv hv'
  rw [← hu, h.length, ← hu'] at hmirror
  obtain ⟨c, -, hchain, ht⟩ := hwrote.written
  obtain ⟨c', -, hchain', ht'⟩ := hwrote'.written
  exact h.goneOn_of_added hchain hchain' ht ht' hproceeds.grows hproceeds'.grows hmirror

/-- Where the last commit is not current yet, both make it current, and lose to it. -/
theorem commitActions_abreast_behind
    (h : Twins asked asked' root commits commits' current files files') (hroom : root.Roomy)
    (hpeers : Peers commits commits' current t t') (hbehind : current + 1 = commits.length)
    (hnext : t.version.toNat = current) (expected : Option SnapshotId)
    (actions actions' : List Action) (now now' : Calendar.Instant) :
    Abreast asked asked' root (commitActions expected actions now)
      (commitActions expected actions' now') ⟨t, files⟩ ⟨t', files'⟩
      (fun _ _ => GoneOn asked asked' root commits commits' current)
      (GoneOn asked asked' root commits commits' current) := by
  obtain ⟨u, u', hu, hu', hlasts⟩ := h.exists_last (by omega)
  have hrefused := @commitActions_performs_behind asked _ _ _ _ _ _ h.chain hroom hnext hbehind hu
    expected actions now
  have hrefused' := @commitActions_performs_behind asked' _ _ _ _ _ _ h.chain' hroom
    (hpeers.version ▸ hnext) (hbehind.trans h.length) hu' expected actions' now'
  rw [← hlasts.alike.currentId] at hrefused'
  refine Abreast.of_refused hrefused hrefused' ?_
  rintro ⟨_, after⟩ ⟨_, after'⟩ ⟨rfl, hchain⟩ ⟨rfl, hchain'⟩ hproceeds hproceeds'
  exact ⟨commits, commits', current + 1, List.prefix_refl _, List.prefix_refl _,
    Nat.le_succ _, h.grows hchain hproceeds.grows hchain' hproceeds'.grows,
    hpeers.mono h (List.prefix_refl _) (List.prefix_refl _) (Nat.le_succ _)⟩

/-- The same commit of actions is refused for both for the same reason, or done. The tables that it
leaves have to mirror each other. -/
theorem commitActions_abreast
    (h : Twins asked asked' root commits commits' current files files') (hroom : root.Roomy)
    (hpeers : Peers commits commits' current t t') {actions actions' : List Action}
    (hvalid : ∃ u, t.applyAll actions = .ok u ∧
      (Shelved root files → t.IsStored root files → u.IsStored root files))
    (hvalid' : ∃ u, t'.applyAll actions' = .ok u ∧
      (Shelved root files' → t'.IsStored root files' → u.IsStored root files'))
    (hmirrors : ∀ after after', files.Grows asked root after → files'.Grows asked' root after' →
      ∀ u u' version, t.applyAll actions = .ok u → t'.applyAll actions' = .ok u' →
      Mirrors root after after' { u with version := version } { u' with version := version })
    (expected : Option SnapshotId) (now now' : Calendar.Instant) :
    Abreast asked asked' root (commitActions expected actions now)
      (commitActions expected actions' now') ⟨t, files⟩ ⟨t', files'⟩
      (fun _ _ => GoneOn asked asked' root commits commits' current)
      (GoneOn asked asked' root commits commits' current) := by
  have hversion := hpeers.version
  by_cases hnext : t.version.toNat = current
  · by_cases hlast : current + 1 = UInt64.size
    · -- There is no further version.
      have hrefused := perform_commitActions_last h.chain hroom hnext hlast expected actions now
      have hrefused' := perform_commitActions_last h.chain' hroom (hversion ▸ hnext) hlast expected
        actions' now'
      rw [← hversion] at hrefused'
      exact .of_perform_error hrefused hrefused' (h.stay hpeers)
    · rcases h.chain.named with hall | hbehind
      · have hopen : Open root commits current :=
          ⟨hroom, hall, by have := h.chain.length_lt; omega⟩
        exact commitActions_abreast_open h hpeers hopen hnext hvalid hvalid' hmirrors expected now now'
      · exact commitActions_abreast_behind h hroom hpeers hbehind hnext expected actions actions' now
          now'
  · -- Both tell the current snapshot of the log.
    obtain ⟨u, u', hread, hread', hlatest⟩ := h.exists_current hpeers.replica.current_pos
    have hrefused := perform_commitActions_late h.chain hroom hread hnext expected actions now
    have hrefused' := perform_commitActions_late h.chain' hroom hread' (hversion ▸ hnext) expected
      actions' now'
    rw [← (h.mirrors hlatest).alike.currentId] at hrefused'
    exact .of_perform_error hrefused hrefused' (h.stay hpeers)

/-! ### What a change of files writes -/

/-- Below a root with room, files can be staged, and their manifest is found under its path. -/
theorem stage_performs_of_room (h : Chain root files commits current) (hroom : root.Roomy)
    (hsupplied : files.Supplied asked root) (hclear : Unambiguous asked) (added : List DataFile) :
    (contract asked root).Performs (stage added) t files
      (fun path t₁ files₁ => t = t₁ ∧ Chain root files₁ commits current ∧
        path = Layout.stagedPath (FileM.manifestContent (stagedManifest t.spec added)) ∧
        files₁.content? root path = some (FileM.manifestContent (stagedManifest t.spec added)))
      (fun _ _ _ => False) := by
  refine (stage_performs h added).proceeds.mono ?_ fun _ _ _ hfailed => hfailed.1.2.2 hroom
  rintro path t₁ files₁ ⟨⟨ht, hchain, hpath, hfiled⟩, hproceeds⟩
  exact ⟨ht.symm, hchain, hpath, hfiled.content (hsupplied.grows hproceeds.grows) hclear⟩

/-- Below a root with room, the manifests of a plan and their list can be written. -/
theorem writeSnapshot_performs (h : Chain root files commits current) (hroom : root.Roomy)
    {operation : Operation} {changes : FileChanges} {p : Plan}
    (hplanned : Planned root files u operation changes p) (inherits : Bool) :
    (contract asked root).Performs (TableM.ofFiles (writeSnapshot u.spec inherits p)) u files
      (fun list t files' => u = t ∧ list = p.listPath u.spec inherits ∧
        Chain root files' commits current ∧ p.Filed u.spec inherits asked root files')
      (fun _ _ _ => False) := by
  refine Performs.ofFiles ((writeSnapshot_attempts u.spec p h inherits
    (fun _ => hplanned.hasManifest.1) fun b hb =>
      hplanned.hasManifest.2 b (List.mem_of_mem_filter hb)).mono ?_ ?_)
  · intro list files' hwritten
    exact ⟨rfl, hwritten⟩
  · intro e files' hfailed
    exact hfailed.2 hroom

/-- The snapshot `s` of a plan for the files `files` has its list and its manifests in `after`. -/
structure Prepared (asked : Request → Prop) (root : Location) (files after : Tree) (u : Table)
    (p : Plan) (s : Snapshot) : Prop where
  planned : ∃ operation changes, Planned root files u operation changes p
  filed : p.Filed u.spec u.metadata.properties.inheritsSnapshotIds asked root after
  id : s.id = p.id
  list : s.manifestList = p.listPath u.spec u.metadata.properties.inheritsSnapshotIds

namespace Prepared

variable {p p' : Plan} {s s' : Snapshot}

theorem fresh (h : Prepared asked root files after u p s) : u.snapshots.contains s.id = false := by
  obtain ⟨_, _, hplanned⟩ := h.planned
  rw [h.id]
  exact nextId_fresh hplanned.next

theorem registers (h : Prepared asked root files after u p s) (base : Option SnapshotId)
    (now : Calendar.Instant) :
    ∃ v, u.applyAll [.addSnapshot s, .moveCurrent s.id base now] = .ok v ∧
      (Shelved root after → u.IsStored root after → v.IsStored root after) := by
  refine ⟨_, applyAll_register h.fresh base now, fun hshelved hstored => hstored.register ?_ _⟩
  rw [h.list]
  exact (hshelved.shelf _ _ _ (.list p.id) h.filed.list.there).hasList

theorem loads (h : Prepared asked root files after u p s) (hchain : Chain root files commits current)
    {last : Tree} (hgrows : files.Grows asked root last) (hsince : after.Grows asked root last)
    (hsupplied : last.Supplied asked root) (hclear : Unambiguous asked) :
    s.Loads root last (p.manifestsAfter u.spec u.metadata.properties.inheritsSnapshotIds) := by
  obtain ⟨_, _, hplanned⟩ := h.planned
  exact hplanned.loads_after hchain hgrows (h.filed.grows hsince) hsupplied hclear h.list

/-- Snapshots that are alike are registered by both, or by none. -/
theorem register_abreast (h : Twins asked asked' root commits commits' current files files')
    (hwritten : Twins asked asked' root commits commits' current after after')
    (hgrows : files.Grows asked root after) (hgrows' : files'.Grows asked' root after')
    (hroom : root.Roomy) (hpeers : Peers commits commits' current u u')
    (hclear : Unambiguous asked) (hclear' : Unambiguous asked')
    (hprepared : Prepared asked root files after u p s)
    (hprepared' : Prepared asked' root files' after' u' p' s') (halike : p.Alike u.spec p')
    (hsnapshots : s.Alike s') (base : Option SnapshotId) (now now' : Calendar.Instant) :
    Abreast asked asked' root (commitActions base [.addSnapshot s, .moveCurrent s.id base now] now)
      (commitActions base [.addSnapshot s', .moveCurrent s'.id base now'] now') ⟨u, after⟩ ⟨u', after'⟩
      (fun _ _ => GoneOn asked asked' root commits commits' current)
      (GoneOn asked asked' root commits commits' current) := by
  refine commitActions_abreast hwritten hroom hpeers (hprepared.registers base now)
    (hprepared'.registers base now') ?_ base now now'
  intro last last' hsince hsince' v v' version hv hv'
  rw [applyAll_register hprepared.fresh] at hv
  rw [applyAll_register hprepared'.fresh] at hv'
  obtain rfl := Except.ok.inj hv
  obtain rfl := Except.ok.inj hv'
  have hmirror := (hwritten.mirrors hpeers).grows hwritten.chain hsince hwritten.chain' hsince'
  have hloads := hprepared.loads h.chain (hgrows.trans hsince) hsince
    (hwritten.supplied.grows hsince) hclear
  have hloads' := hprepared'.loads h.chain' (hgrows'.trans hsince') hsince'
    (hwritten.supplied'.grows hsince') hclear'
  exact hmirror.register hsnapshots hloads hloads' (halike.results hmirror.alike.spec _ _)
    hsnapshots.id version

end Prepared

/-! ### New tables -/

/-- A table is made behind both logs or behind neither, and of the same schema and spec. -/
theorem create_goneOn (h : Twins asked asked' root commits commits' current files files')
    (hroom : root.Roomy) {m m' : Metadata} (hschema : m.schema = m'.schema) (hspec : m.spec = m'.spec)
    (now now' : Calendar.Instant)
    (hasked : ∀ r ∈ (create m now).run.requests root files, asked r)
    (hasked' : ∀ r ∈ (create m' now').run.requests root files', asked' r) :
    (∃ u u' after after', perform root (create m now) files = (.ok u, after) ∧
      perform root (create m' now') files' = (.ok u', after') ∧
      GoneOn asked asked' root commits commits' current ⟨u, after⟩ ⟨u', after'⟩) ∨
    ∃ e after after' current₁, perform root (create m now) files = (.error e, after) ∧
      perform root (create m' now') files' = (.error e, after') ∧ current ≤ current₁ ∧
      Twins asked asked' root commits commits' current₁ after after' := by
  rcases Nat.eq_zero_or_pos current with rfl | hpos
  · rcases h.chain.named with hall | hbehind
    · -- Nobody has made one.
      obtain rfl := List.length_eq_zero_iff.1 hall.symm
      obtain rfl := List.length_eq_zero_iff.1 h.length.symm
      have hopen : Open root [] 0 := ⟨hroom, rfl, by decide⟩
      obtain ⟨u, after, hrun, ⟨-, rfl, c, -, hchain, ht⟩, hproceeds⟩ :=
        (create_attempts h.chain m now).proceeds.succeeds hasked fun _ _ hfailed =>
          hfailed.1.late hopen rfl
      obtain ⟨u', after', hrun', ⟨-, rfl, c', -, hchain', ht'⟩, hproceeds'⟩ :=
        (create_attempts h.chain' m' now').proceeds.succeeds hasked' fun _ _ hfailed =>
          hfailed.1.late hopen rfl
      exact .inl ⟨_, _, _, _, hrun, hrun', h.goneOn_of_added hchain hchain' ht ht' hproceeds.grows
        hproceeds'.grows (.new hschema hspec 1)⟩
    · -- Somebody has, and both make it current instead.
      have hbehind' : 1 = commits'.length := by
        have := h.length
        omega
      obtain ⟨_, after, hrun, ⟨rfl, hchain⟩, hproceeds⟩ :=
        (create_attempts_behind h.chain hroom (by omega) m now).proceeds.fails hasked
          fun _ _ hmade => hmade.1
      obtain ⟨_, after', hrun', ⟨rfl, hchain'⟩, hproceeds'⟩ :=
        (create_attempts_behind h.chain' hroom hbehind' m' now').proceeds.fails hasked'
          fun _ _ hmade => hmade.1
      exact .inr ⟨_, after, after', 1, hrun, hrun', Nat.zero_le _,
        h.grows hchain hproceeds.grows hchain' hproceeds'.grows⟩
  · exact .inr ⟨_, files, files', current, perform_create_of_pos h.chain hroom hpos m now,
      perform_create_of_pos h.chain' hroom hpos m' now', Nat.le_refl _, h⟩

/-! ### Operations -/

theorem refresh_abreast (h : Twins asked asked' root commits commits' current files files')
    (hpos : 0 < current) {post : PUnit → PUnit → Session → Session → Prop}
    {fail : Session → Session → Prop}
    (hpost : ∀ u u', Peers commits commits' current u u' →
      post ⟨⟩ ⟨⟩ ⟨u, files⟩ ⟨u', files'⟩) :
    Abreast asked asked' root refresh refresh ⟨t, files⟩ ⟨t', files'⟩ post fail := by
  obtain ⟨u, u', hread, hread', hlatest⟩ := h.exists_current hpos
  rw [refresh]
  exact .bind (.of_perform_ok hread hread' (.set (hpost u u' hlatest)))

section

variable (h : Twins asked asked' root commits commits' current files files') (hroom : root.Roomy)
  (hpeers : Peers commits commits' current t t')

include h hroom hpeers

theorem movePointer_abreast {target : SnapshotId} (hin : t.snapshots.contains target = true)
    (now now' : Calendar.Instant) :
    Abreast asked asked' root (movePointer target now) (movePointer target now') ⟨t, files⟩ ⟨t', files'⟩
      (fun _ _ => GoneOn asked asked' root commits commits' current)
      (GoneOn asked asked' root commits commits' current) := by
  have hmirror := h.mirrors hpeers
  have hin' : t'.snapshots.contains target = true := hmirror.alike.contains_eq target ▸ hin
  rw [movePointer, movePointer]
  refine .bind (.get ?_)
  rw [← hmirror.alike.currentId]
  refine commitActions_abreast h hroom hpeers ⟨_, applyAll_move hin none now, fun _ hstored => hstored⟩
    ⟨_, applyAll_move hin' none now', fun _ hstored => hstored⟩ ?_ t.currentId now now'
  intro after after' hgrows hgrows' v v' version hv hv'
  rw [applyAll_move hin] at hv
  rw [applyAll_move hin'] at hv'
  obtain rfl := Except.ok.inj hv
  obtain rfl := Except.ok.inj hv'
  have hsame : (⟨now, target, none, false⟩ : PointerMove).snapshotId =
      (⟨now', target, none, false⟩ : PointerMove).snapshotId := rfl
  exact (hmirror.grows h.chain hgrows h.chain' hgrows').move hsame version

theorem setCurrent_abreast (target : SnapshotId) (now now' : Calendar.Instant) :
    Abreast asked asked' root (setCurrent target now) (setCurrent target now') ⟨t, files⟩ ⟨t', files'⟩
      (fun _ _ => GoneOn asked asked' root commits commits' current)
      (GoneOn asked asked' root commits commits' current) := by
  rw [setCurrent, setCurrent]
  refine .bind (refresh_abreast h hpeers.replica.current_pos fun u u' hlatest => .bind (.get ?_))
  have hfound := (h.mirrors hlatest).alike.isNone_eq target
  dsimp only
  rw [← hfound]
  refine .guard (fun _ => h.stay hlatest) fun hsome => ?_
  exact movePointer_abreast h hroom hlatest (contains_of_snapshot? hsome) now now'

theorem rollback_abreast (target : SnapshotId) (now now' : Calendar.Instant) :
    Abreast asked asked' root (rollback target now) (rollback target now') ⟨t, files⟩ ⟨t', files'⟩
      (fun _ _ => GoneOn asked asked' root commits commits' current)
      (GoneOn asked asked' root commits commits' current) := by
  rw [rollback, rollback]
  refine .bind (refresh_abreast h hpeers.replica.current_pos fun u u' hlatest => .bind (.get ?_))
  have hfound := (h.mirrors hlatest).alike.isNone_eq target
  have hancestor := (h.mirrors hlatest).alike.isCurrentAncestor_eq target
  have hstay := h.stay hlatest
  dsimp only
  rw [← hfound, ← hancestor]
  refine .guard (fun _ => hstay) fun hsome => ?_
  refine .guard (fun _ => hstay) fun _ => ?_
  exact movePointer_abreast h hroom hlatest (contains_of_snapshot? hsome) now now'

/-- What the properties are set to may differ. -/
theorem updateProperties_abreast (set set' : Properties) (remove remove' : List String)
    (now now' : Calendar.Instant) :
    Abreast asked asked' root (updateProperties set remove now)
      (updateProperties set' remove' now') ⟨t, files⟩ ⟨t', files'⟩
      (fun _ _ => GoneOn asked asked' root commits commits' current)
      (GoneOn asked asked' root commits commits' current) := by
  have hmirror := h.mirrors hpeers
  rw [updateProperties, updateProperties]
  refine .bind (.get ?_)
  rw [← hmirror.alike.currentId]
  have hupdate : ∀ (u : Table) (set : Properties) (remove : List String),
      u.applyAll [.updateProperties set remove] = .ok { u with metadata :=
        { u.metadata with properties := u.metadata.properties.update set remove } } :=
    fun _ _ _ => rfl
  refine commitActions_abreast h hroom hpeers ⟨_, hupdate t set remove, fun _ hstored => hstored⟩
    ⟨_, hupdate t' set' remove', fun _ hstored => hstored⟩ ?_ t.currentId now now'
  intro after after' hgrows hgrows' v v' version hv hv'
  rw [hupdate] at hv hv'
  obtain rfl := Except.ok.inj hv
  obtain rfl := Except.ok.inj hv'
  exact (hmirror.grows h.chain hgrows h.chain' hgrows').update _ _ version

variable (hclear : Unambiguous asked) (hclear' : Unambiguous asked')

include hclear hclear'

/-- A change of files is refused for both for the same reason, or gives snapshots that are alike. -/
theorem commit_abreast (base : Option SnapshotId) {operation : Operation}
    {changes changes' : FileChanges}
    (hchanges : ChangesAlike root files files' t.spec operation changes changes')
    (now now' : Calendar.Instant) :
    Abreast asked asked' root (commit base operation changes now)
      (commit base operation changes' now') ⟨t, files⟩ ⟨t', files'⟩
      (fun s s' a b => s.Alike s' ∧ GoneOn asked asked' root commits commits' current a b)
      (GoneOn asked asked' root commits commits' current) := by
  obtain ⟨u, u', hread, hread', hlatest⟩ := h.exists_current hpeers.replica.current_pos
  have hmirror := h.mirrors hlatest
  rw [hpeers.replica.spec_eq h.chain hlatest.replica] at hchanges
  rw [commit, commit]
  -- Both plan for the table that is current, and not for the copies.
  refine .bind (.of_perform_ok hread hread' ?_)
  rw [← hmirror.alike.currentId]
  by_cases hbase : u.currentId = base
  · rw [if_neg (not_not_intro hbase), if_neg (not_not_intro hbase)]
    have hstay := h.stay hlatest
    refine .bind (.set (.bind (.of_reads (u.reads_plan _ _) (u'.reads_plan _ _)
      (hmirror.plan_sameOutcome hchanges) (fun p p' halike hplan hplan' => ?_) hstay)))
    have hplanned := perform_plan_iff.1 hplan
    have hplanned' := perform_plan_iff.1 hplan'
    -- Their manifests are other files, but what they list is of the same substance.
    refine .bind (.of_performs (writeSnapshot_performs h.chain hroom hplanned _)
      (writeSnapshot_performs h.chain' hroom hplanned' _) ?_)
    rintro _ _ ⟨_, after⟩ ⟨_, after'⟩ ⟨rfl, rfl, hchain, hfiled⟩ ⟨rfl, rfl, hchain', hfiled'⟩ hproceeds
      hproceeds'
    have hsnapshots := halike.snapshot base operation
      (p.listPath u.spec u.metadata.properties.inheritsSnapshotIds)
      (p'.listPath u'.spec u'.metadata.properties.inheritsSnapshotIds) now now'
    have hregister := Prepared.register_abreast h
      (h.grows hchain hproceeds.grows hchain' hproceeds'.grows) hproceeds.grows hproceeds'.grows hroom
      hlatest hclear hclear' ⟨⟨_, _, hplanned⟩, hfiled, rfl, rfl⟩
      ⟨⟨_, _, hplanned'⟩, hfiled', rfl, rfl⟩ halike hsnapshots base now now'
    exact .bind (hregister.mono (fun _ _ _ _ hgone => .pure ⟨hsnapshots, hgone⟩) fun _ _ hgone => hgone)
  · rw [if_pos hbase, if_pos hbase]
    exact .throw (h.stay hpeers)

/-- Both stage files under the same path, and can adopt them. -/
theorem stage_abreast (added : List DataFile)
    {post : String → String → Session → Session → Prop} {fail : Session → Session → Prop}
    (hpost : ∀ path after after',
      Twins asked asked' root commits commits' current after after' →
      ChangesAlike root after after' t.spec .append (.adopting [path]) (.adopting [path]) →
      post path path ⟨t, after⟩ ⟨t', after'⟩) :
    Abreast asked asked' root (stage added) (stage added) ⟨t, files⟩ ⟨t', files'⟩ post fail := by
  have hspec := (h.mirrors hpeers).alike.spec
  refine .of_performs (stage_performs_of_room h.chain hroom h.supplied hclear added)
    (stage_performs_of_room h.chain' hroom h.supplied' hclear' added) ?_
  rintro path path' ⟨_, after⟩ ⟨_, after'⟩ ⟨rfl, hchain, hpath, hcontent⟩
    ⟨rfl, hchain', hpath', hcontent'⟩ hproceeds hproceeds'
  rw [← hspec] at hpath' hcontent'
  obtain rfl : path = path' := hpath.trans hpath'.symm
  exact hpost path after after' (h.grows hchain hproceeds.grows hchain' hproceeds'.grows)
    (.of_brings (.adopting hcontent) (.adopting hcontent'))

/-- Directories with the same files are taken in alike. -/
theorem intake_abreast {directory : String}
    (hdirectory : SameDirectory root files files' directory) (now now' : Calendar.Instant) :
    Abreast asked asked' root (intake directory now) (intake directory now') ⟨t, files⟩ ⟨t', files'⟩
      (fun s s' a b => s.Alike s' ∧ GoneOn asked asked' root commits commits' current a b)
      (GoneOn asked asked' root commits commits' current) := by
  have halike := (h.mirrors hpeers).alike
  rw [intake, intake]
  refine .bind (.of_reads (reads_findImportable directory) (reads_findImportable directory)
    (.of_eq hdirectory.findImportable) ?_ (h.stay hpeers))
  rintro found _ rfl hfound -
  refine .bind (.get (.bind ?_))
  rw [← halike.schema, ← halike.spec]
  refine .of_reads (Reads.mapM (reads_loadFile t.schema t.spec directory) found)
    (Reads.mapM (reads_loadFile t.schema t.spec directory) found)
    (.of_eq (hdirectory.loadFiles hfound t.schema t.spec)) ?_ (h.stay hpeers)
  rintro added _ rfl - -
  refine .bind (stage_abreast h hroom hpeers hclear hclear' added ?_)
  intro path after after' hstaged hchanges
  rw [appendManifests, appendManifests]
  refine .bind (.get ?_)
  rw [← halike.currentId]
  exact commit_abreast hstaged hroom hpeers hclear hclear' t.currentId hchanges now now'

end

end Table

end Lakehouse
