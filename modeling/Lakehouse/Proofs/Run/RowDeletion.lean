import Lakehouse.Proofs.Filter.Evidence
import Lakehouse.Proofs.Run.Course
import Lakehouse.Proofs.Table.Removal

/- What it means for rows that a filter deletes them.

   A table knows its files and not their rows. Still, whatever rows the files have, as long
   as their metadata describe them: a filter deletes just the rows of which it is true. For
   a file is removed only if the filter is true of all its rows, and the request fails if
   some other file might have such a row (`flatMap_filter_rows`). So the rows after a change
   are those before of which the filter is false or unknown, and those of the files that
   were added (`rows_after_filter`). -/
namespace Lakehouse

open Contract Log Script

variable {asked : Request → Prop} {root : Location} {files files' : Tree} {commits : List Commit}
  {current : Nat}

/-- To take out whole files is to take out rows, if the rows of each file all go or all stay. -/
theorem flatMap_filter_rows {l : List DataFile} {rows : DataFile → List Row} {goes : DataFile → Bool}
    {stays : Row → Bool} (hgoes : ∀ f ∈ l, goes f = true → ∀ row ∈ rows f, stays row = false)
    (hstays : ∀ f ∈ l, goes f = false → ∀ row ∈ rows f, stays row = true) :
    (l.filter fun f => !goes f).flatMap rows = (l.flatMap rows).filter stays := by
  induction l with
  | nil => rfl
  | cons f l ih =>
    have hrest := ih (fun g hg => hgoes g (by simp [hg])) fun g hg => hstays g (by simp [hg])
    rw [List.flatMap_cons, List.filter_append, ← hrest]
    cases hf : goes f with
    | true =>
      have hnone : (rows f).filter stays = [] :=
        List.filter_eq_nil_iff.2 fun row hrow => by simp [hgoes f (by simp) hf row hrow]
      rw [List.filter_cons_of_neg (by simp [hf]), hnone, List.nil_append]
    | false =>
      have hall : (rows f).filter stays = rows f :=
        List.filter_eq_self.2 (hstays f (by simp) hf)
      rw [List.filter_cons_of_pos (by simp [hf]), hall, List.flatMap_cons]

/-- Whatever rows the files before have, if their metadata describe them: the rows of the files
afterwards are those before of which the filter is not true, and those of the added files. -/
def DeletesRows (schema : Schema) (spec : PartitionSpec) (filter : Filter)
    (added before after : List DataFile) : Prop :=
  ∀ rows : DataFile → List Row, (∀ f ∈ before, f.Describes schema spec (rows f)) →
    (after.flatMap rows).Perm
      ((before.flatMap rows).filter (filter.truth schema · != some true) ++ added.flatMap rows)

namespace Table

variable {u : Table} {operation : Operation} {changes : FileChanges} {p : Plan}

/-- A change by a filter deletes the rows of which it is true. -/
theorem Planned.deletesRows (h : Planned root files u operation changes p)
    (hu : u.Catalogued root files) {filter : Filter} (hfilter : changes.rowFilter = some filter)
    (hpaths : changes.deletedPaths = []) (hstaged : changes.stagedPaths = []) (inherits : Bool) :
    DeletesRows u.schema u.spec filter changes.added (liveFiles (p.manifests.map Prod.snd))
      (liveFiles ((p.manifestsAfter u.spec inherits).map Prod.snd)) := by
  intro rows hrows
  have honce := (h.base hu).1
  have harriving : p.arriving = changes.added := by
    have hnone : p.staged = [] := List.map_eq_nil_iff.1 (h.stagedPaths.symm.trans hstaged)
    rw [Plan.arriving, h.added, hnone, List.flatMap_nil, List.append_nil]
  obtain ⟨bound, hbound, hspares⟩ := spares_of_removedPaths hfilter h.removed
  have hlive : ∀ f ∈ liveFiles (p.manifests.map Prod.snd), p.live.find? f.path = some f :=
    fun f hf => (LiveFiles.find?_ofManifests honce).2 ⟨hf, rfl⟩
  have hremoved : ∀ f ∈ liveFiles (p.manifests.map Prod.snd),
      p.removed.contains f.path = bound.allRowsMatch u.spec f := by
    intro f hf
    rw [contains_of_removedPaths h.removed (hlive f hf), FileChanges.removes, hpaths, hfilter,
      Option.map_some, hbound]
    rfl
  have hkept : ((liveFiles (p.manifests.map Prod.snd)).filter fun f =>
      !p.removed.contains f.path).flatMap rows =
        ((liveFiles (p.manifests.map Prod.snd)).flatMap rows).filter
          (filter.truth u.schema · != some true) := by
    refine flatMap_filter_rows (fun f hf hgoes row hrow => ?_) fun f hf hstays row hrow => ?_
    · rw [hremoved f hf] at hgoes
      rw [(hrows f hf).of_allRowsMatch hbound hgoes row hrow]
      rfl
    · rw [hremoved f hf] at hstays
      have hmight := hspares f.path f (hlive f hf) hstays
      simpa using (hrows f hf).of_mightMatch hbound hmight row hrow
  have hafter := (h.liveFiles_after inherits).flatMap_right rows
  rw [List.flatMap_append, harriving, hkept] at hafter
  exact hafter.trans List.perm_append_comm

end Table

/-- The filter by which a call deletes rows, and the files that it adds. -/
def Call.deletesRows? : Call → Option (Filter × List DataFile)
  | .deleteWhere filter => some (filter, [])
  | .overwrite filter added => some (filter, added)
  | _ => none

/-- Whoever opens the table finds `t`, and that these files are live in it. -/
structure Table.Shows (t : Table) (root : Location) (files : Tree) (listed : List DataFile) :
    Prop where
  rebuilt : perform root rebuild files = (.ok t, files)
  listed : perform root (t.files none) files = (.ok listed, files)

theorem Table.Shows.unique {t u : Table} {l l' : List DataFile} (h : t.Shows root files l)
    (h' : u.Shows root files l') : t = u ∧ l = l' := by
  obtain rfl := Except.ok.inj (Prod.mk.inj (h.rebuilt.symm.trans h'.rebuilt)).1
  exact ⟨rfl, Except.ok.inj (Prod.mk.inj (h.listed.symm.trans h'.listed)).1⟩

namespace Log.Kept

variable {t : Table}

/-- The live files can be listed, and events that do not write do not change them. -/
theorem shows (h : Kept asked root files commits) (ht : tableAfter? commits = some t) :
    ∃ listed, t.Shows root files listed ∧ ∀ files', Settled root commits commits.length files' →
      files.Grows asked root files' → t.Shows root files' listed := by
  obtain ⟨listed, hlisted, hlater⟩ :=
    (h.catalogued t ht).perform_files h.chain
  exact ⟨listed, ⟨h.perform_rebuild ht, hlisted⟩, fun files' hsettled hgrows =>
    ⟨(h.of_settled hgrows hsettled).perform_rebuild ht, hlater files' hgrows⟩⟩

theorem shows_after (h : Kept asked root files commits) (hclear : Unambiguous asked)
    (hgrows : files.Grows asked root files') {c : Change} {now : Calendar.Instant} {u t' : Table}
    {p : Table.Plan} {s : Snapshot}
    (hcommit : Table.Committed asked root commits commits.length c.base c.operation c.changes now files
      u p s t' files') :
    u.Shows root files (liveFiles (p.manifests.map Prod.snd)) ∧
      t'.Shows root files' (liveFiles ((p.manifestsAfter u.spec
        u.metadata.properties.inheritsSnapshotIds).map Prod.snd)) := by
  have hu := h.catalogued u hcommit.wrote.latest
  have hsupplied := h.supplied.grows hgrows
  obtain ⟨commits', hkept', ht'⟩ := h.of_committed hclear hgrows hcommit
  exact ⟨⟨h.perform_rebuild hcommit.wrote.latest, hcommit.planned.perform_files hu⟩,
    hkept'.perform_rebuild ht', hcommit.perform_files h.chain hgrows hsupplied hclear⟩

end Log.Kept

namespace Call

variable {call : Call} {filter : Filter} {added : List DataFile}

theorem change?_of_deletesRows (h : call.deletesRows? = some (filter, added)) (t : Table) :
    ∃ c, call.change? t = some c ∧ c.changes.rowFilter = some filter ∧
      c.changes.deletedPaths = [] ∧ c.changes.stagedPaths = [] ∧ c.changes.added = added := by
  cases call with
  | deleteWhere e =>
    obtain ⟨rfl, rfl⟩ := Prod.mk.inj (Option.some.inj h)
    exact ⟨_, rfl, rfl, rfl, rfl, rfl⟩
  | overwrite e fs =>
    obtain ⟨rfl, rfl⟩ := Prod.mk.inj (Option.some.inj h)
    exact ⟨_, rfl, rfl, rfl, rfl, rfl⟩
  | _ => exact absurd h (by simp [deletesRows?])

/-- A call that changes files has committed a change, if it succeeds. -/
theorem committed_of_change {now : Calendar.Instant} {t t' : Table} {a : Answer} {c : Change}
    (heffect : call.Effect asked root commits current now t files a t' files')
    (hasks : call.change? t = some c) : ∃ u p s,
      Table.Committed asked root commits current c.base c.operation c.changes now files u p s t'
        files' := by
  cases heffect with
  | committed hasks' hcommit =>
    obtain rfl := Option.some.inj (hasks'.symm.trans hasks)
    exact ⟨_, _, _, hcommit⟩
  | _ => exact absurd hasks (by simp [change?])

end Call

namespace World

/-- In every run of events that end, a call that deletes rows by a filter, and maybe adds files,
leaves the live files as they are if it fails, and if it succeeds, deletes the rows of which the
filter is true, and adds those of the files. -/
theorem rows_after_filter (hvacant : files.Vacant root) (turns : List Turn)
    (hends : ∀ turn ∈ turns, turn.limit = none) {handle : Nat} {call : Call} {filter : Filter}
    {added : List DataFile} (hcall : call.deletesRows? = some (filter, added))
    (now : Calendar.Instant)
    (hclear : Unambiguous (· ∈ ((run root (start files) turns).step root
      ⟨.call handle call, now, none⟩).requests)) {r : Record}
    (hdone : ((run root (start files) turns).step root ⟨.call handle call, now, none⟩).history =
      r :: (run root (start files) turns).history) :
    ∃ (t : Table) (before : List DataFile) (t' : Table) (after : List DataFile),
      t.Shows root (run root (start files) turns).files before ∧
      t'.Shows root ((run root (start files) turns).step root ⟨.call handle call, now, none⟩).files
        after ∧
      (∀ e, r.result = .error e → after = before) ∧
      ∀ a, r.result = .ok a → DeletesRows t.schema t.spec filter added before after := by
  obtain ⟨commits, hordered, hkept⟩ := kept_run hvacant hclear turns hends fun q hq =>
    (remembers_step root _ _).1.subset hq
  generalize run root (start files) turns = w at hordered hkept hclear hdone ⊢
  have hstep := @Ordered.step_ends (· ∈ (w.step root ⟨.call handle call, now, none⟩).requests) root
    commits w ⟨.call handle call, now, none⟩ _ hordered rfl fun _ hq => hq
  rcases hstep with
    hsame | ⟨result, copy, hhistory, hdeed, hgrows⟩
  · rw [hsame] at hdone
    exact absurd hdone (by simp)
  · rw [hhistory] at hdone
    obtain rfl := (List.cons.inj hdone).1
    generalize (w.step root ⟨.call handle call, now, none⟩).files = files' at hdeed hgrows ⊢
    cases hdeed with
    | @called _ _ t a _ _ hcopy heffect =>
      obtain ⟨c, hasks, hfilter, hpaths, hstaged, rfl⟩ := Call.change?_of_deletesRows hcall t
      obtain ⟨u, p, s, hcommit⟩ := Call.committed_of_change heffect hasks
      obtain ⟨hbefore, hafter⟩ := hkept.shows_after hclear hgrows hcommit
      refine ⟨u, _, _, _, hbefore, hafter, fun e he => absurd he (by simp), fun _ _ => ?_⟩
      have hu := hkept.catalogued u hcommit.wrote.latest
      exact hcommit.planned.deletesRows hu hfilter hpaths hstaged _
    | opened hopens => exact absurd hopens (by simp [Event.opens])
    | failed hfailure =>
      obtain ⟨u, hu⟩ : ∃ u, w.handles handle = some u := by
        -- Without a handle, nothing would have happened.
        by_contra hnone
        have hsame := @step_of_no_script root w ⟨.call handle call, now, none⟩ (by
          rw [Event.script?, Option.eq_none_iff_forall_ne_some.2 fun u hu => hnone ⟨u, hu⟩]
          rfl)
        rw [hsame] at hhistory
        exact absurd hhistory (by simp)
      obtain ⟨t, ht⟩ := hkept.table_of_replica (hordered.replicas handle u hu)
      obtain ⟨listed, hlisted, hlater⟩ := hkept.shows ht
      exact ⟨t, listed, t, listed, hlisted, hlater _ hfailure.settled hgrows, fun _ _ => rfl,
        fun a ha => absurd ha (by simp)⟩

end World

/-! ### The rows of a day -/

namespace Days

open World

theorem Known.shows {k n : Nat} {t : Table} {ms : List (ManifestRecord × Manifest)}
    (h : Known k n t ms) : t.Shows ⟨"."⟩ (world k).files (liveFiles (ms.map Prod.snd)) :=
  ⟨h.stands.rebuilt, Table.perform_files_of_loadCurrent h.stands.loads⟩

/-- Two rows of the day, and one without a day. -/
def rowsOf (f : DataFile) : List Row :=
  if f.path = dated.path then
    [fun c => if c = 1 then some (.int 10) else if c = 2 then some (.int 1) else none,
      fun c => if c = 1 then some (.int 20) else if c = 2 then some (.int 1) else none]
  else [fun c => if c = 1 then some (.int 7) else none]

theorem dated_describes : dated.Describes metadata.schema metadata.spec (rowsOf dated) where
  typed row hrow field hfield v hv := by
    rcases List.mem_pair.1 hrow with rfl | rfl <;> rcases List.mem_pair.1 hfield with rfl | rfl
    all_goals
      obtain rfl := Option.some.inj hv
      rfl
  counted c n hn := by rcases find?_columns hn with ⟨rfl, rfl⟩ | ⟨rfl, rfl⟩ <;> rfl
  nulls c n hn := by rcases find?_columns hn with ⟨rfl, rfl⟩ | ⟨rfl, rfl⟩ <;> rfl
  lower c b hb row hrow v hv := by
    rcases List.mem_pair.1 hrow with rfl | rfl <;>
      rcases find?_columns hb with ⟨rfl, rfl⟩ | ⟨rfl, rfl⟩
    all_goals
      obtain rfl := Option.some.inj hv
      decide
  upper c b hb row hrow v hv := by
    rcases List.mem_pair.1 hrow with rfl | rfl <;>
      rcases find?_columns hb with ⟨rfl, rfl⟩ | ⟨rfl, rfl⟩
    all_goals
      obtain rfl := Option.some.inj hv
      decide
  slots slot field value hfield hvalue row hrow := by
    cases slot with
    | zero =>
      obtain rfl := Option.some.inj hfield
      obtain rfl := Option.some.inj hvalue
      rcases List.mem_pair.1 hrow with rfl | rfl <;> rfl
    | succ slot => exact absurd hfield (by simp [metadata])

theorem undated_describes : undated.Describes metadata.schema metadata.spec (rowsOf undated) where
  typed row hrow field hfield v hv := by
    obtain rfl := List.mem_singleton.1 hrow
    rcases List.mem_pair.1 hfield with rfl | rfl
    case inr => exact absurd hv (by simp)
    obtain rfl := Option.some.inj hv
    rfl
  counted c n hn := absurd hn (by simp [undated, DataFile.withoutMetrics])
  nulls c n hn := absurd hn (by simp [undated, DataFile.withoutMetrics])
  lower c b hb := absurd hb (by simp [undated, DataFile.withoutMetrics])
  upper c b hb := absurd hb (by simp [undated, DataFile.withoutMetrics])
  slots slot field value hfield hvalue row hrow := by
    cases slot with
    | zero =>
      obtain rfl := Option.some.inj hfield
      obtain rfl := Option.some.inj hvalue
      obtain rfl := List.mem_singleton.1 hrow
      rfl
    | succ slot => exact absurd hfield (by simp [metadata])

/-- The two rows of the day are deleted with their file, and the one without a day stays. -/
theorem rows_after_filter_ofDay : Tree.empty.Vacant ⟨"."⟩ ∧
    (∀ turn ∈ turns.take 4, turn.limit = none) ∧
    run ⟨"."⟩ (start .empty) (turns.take 4) = world 4 ∧
    (Call.deleteWhere ofDay).deletesRows? = some (ofDay, []) ∧
    (world 4).step ⟨"."⟩ ⟨.call 0 (.deleteWhere ofDay), default, none⟩ = world 5 ∧
    Unambiguous (· ∈ (world 5).requests) ∧
    (∃ r s, (world 5).history = r :: (world 4).history ∧ r.result = .ok (.snapshot s)) ∧
    filled.Shows ⟨"."⟩ (world 4).files [dated, undated] ∧
    thinned.Shows ⟨"."⟩ (world 5).files [undated] ∧
    DeletesRows metadata.schema metadata.spec ofDay [] [dated, undated] [undated] ∧
    (rowsOf undated).Perm
      ((rowsOf dated ++ rowsOf undated).filter (ofDay.truth metadata.schema · != some true)) ∧
    ∀ row ∈ rowsOf dated, ofDay.truth metadata.schema row = some true := by
  have hfilled := known_filled.shows
  have hthinned := known_thinned.shows
  have hclear := known_thinned.stands.unambiguous unambiguous
  have hstep := (world_succ (turns_eq 4)).symm
  have hdone : (world 5).history = _ :: (world 4).history :=
    known_thinned.remembered.trans (congrArg (_ :: ·) known_filled.remembered.symm)
  have hcall : (Call.deleteWhere ofDay).deletesRows? = some (ofDay, []) := rfl
  obtain ⟨t, before, t', after, hshows, hshows', -, hdeletes⟩ :=
    @rows_after_filter _ _ Tree.vacant_empty (turns.take 4) (ends 4) 0 _ _ _ hcall default
      (by rwa [world_eq, hstep]) _ (by rwa [world_eq, hstep])
  rw [world_eq] at hshows hshows'
  rw [hstep] at hshows'
  obtain ⟨rfl, rfl⟩ := hfilled.unique hshows
  obtain ⟨rfl, rfl⟩ := hthinned.unique hshows'
  have hdeleted : DeletesRows metadata.schema metadata.spec ofDay [] [dated, undated] [undated] :=
    hdeletes _ rfl
  have hrows : ∀ f ∈ [dated, undated], f.Describes metadata.schema metadata.spec (rowsOf f) := by
    simpa using ⟨dated_describes, undated_describes⟩
  have hleft := hdeleted rowsOf hrows
  simp only [List.flatMap_cons, List.flatMap_nil, List.append_nil] at hleft
  refine ⟨Tree.vacant_empty, ends 4, world_eq 4, hcall, hstep, hclear, ⟨_, _, hdone, rfl⟩, hfilled,
    hthinned, hdeleted, hleft, fun row hrow => ?_⟩
  rcases List.mem_pair.1 hrow with rfl | rfl <;> rfl

end Days

end Lakehouse
