import Lakehouse.Proofs.Run.Course
import Lakehouse.Proofs.Run.Tracking

/- Tables refine their ledgers.

   In every run of events that end, the history has a ledger, and this follows the log
   (`World.Tracked`): each event that succeeds does to the files what the ledger says, and
   each that fails does nothing to what can be read. So the table of the log matches the
   ledger, and of every handle, fresh or stale, the ledger lists the files of each snapshot
   (`files_match_ledger`). -/
namespace Lakehouse

open Contract Log Script

variable {asked : Request → Prop} {root : Location} {files files' : Tree} {commits : List Commit}
  {current : Nat} {l : Ledger} {t : Table}

/-- What was staged by this or an earlier call. -/
theorem mem_stagedPaths_cons {r : Record} {before : List Record} {path : String} :
    path ∈ stagedPaths (r :: before) ↔ path ∈ stagedPaths [r] ∨ path ∈ stagedPaths before := by
  rw [stagedPaths, stagedPaths, stagedPaths, ← List.mem_append, ← List.filterMap_append]
  rfl

theorem mem_stagedPaths_call {handle : Nat} {call : Call} {before after : Option Table} {a : Answer}
    {path : String} (h : path ∈ stagedPaths [⟨.call handle call, before, .ok a, after⟩]) :
    a = .path path := by
  rw [stagedPaths, List.filterMap_cons] at h
  split at h
  · exact absurd h (by simp)
  next other hother =>
    split at hother
    next hevent hresult =>
      obtain rfl := List.mem_singleton.1 h
      obtain rfl := Option.some.inj hother
      exact Except.ok.inj hresult
    next => exact absurd hother (by simp)

/-- A failure gives no path, and neither does an event that is not a call. -/
theorem stagedPaths_cons {event : Event} {result : Except TableError Answer}
    {earlier after : Option Table} {before : List Record}
    (h : (∃ e, result = .error e) ∨ ∀ handle call, event ≠ .call handle call) :
    stagedPaths (⟨event, earlier, result, after⟩ :: before) = stagedPaths before := by
  refine List.filterMap_cons_none ?_
  rcases h with ⟨e, rfl⟩ | hevent
  · simp
  · cases event with
    | call handle call => exact absurd rfl (hevent handle call)
    | _ => rfl

namespace Ledger

/-- The first event makes the table, of which no files are known yet. -/
theorem Follows.after_creation (h : l.Follows asked root files []) {c : Commit} {m : Metadata}
    (hgrows : files.Grows asked root files') (hchain : Chain root files' [c] 1)
    (htable : tableAfter? [c] = some (.new 1 m)) :
    l = .empty ∧ Follows { empty with metadata := some m } asked root files' [c] := by
  constructor
  · rcases h.state with ⟨-, hempty⟩ | ⟨u, hu, -⟩
    · exact hempty
    · exact absurd (pos_of_table hu) (by simp)
  · refine ⟨⟨hchain, h.kept.supplied.grows hgrows, fun v hv => ?_⟩, .inr ⟨_, htable, .new asked root _ 1 m⟩⟩
    rw [← Option.some.inj (htable.symm.trans hv)]
    exact .new 1 m

/-- The ledger goes on with every event that runs to its end. -/
theorem Follows.after_event (h : l.Follows asked root files commits) (hclear : Unambiguous asked)
    {now : Calendar.Instant} {handles : Nat → Option Table} {event : Event}
    {result : Except TableError Answer} {after : Option Table}
    (hreplicas : ∀ handle t, handles handle = some t → Replica commits commits.length t)
    (hgrows : files.Grows asked root files')
    (hdeed : event.Deed asked root commits commits.length now handles files (result, after) files')
    {before : List Record} (hstaged : ∀ path ∈ stagedPaths before, l.staged.contains path = true)
    (hknown : Record.BringsKnown ⟨event, handles event.handle, result, after⟩ before) :
    ∃ l' commits', l.after? ⟨event, handles event.handle, result, after⟩ = some l' ∧
      l'.Follows asked root files' commits' ∧
      ∀ path ∈ stagedPaths (⟨event, handles event.handle, result, after⟩ :: before),
        l'.staged.contains path = true := by
  cases hdeed with
  | @created handle m c _ _ hfirst hactions hnew hchain htable =>
    subst hfirst hnew
    obtain ⟨rfl, hfollows⟩ := h.after_creation hgrows hchain htable
    refine ⟨_, _, ?_, hfollows, ?_⟩
    · simp [after?, empty]
    · rw [stagedPaths_cons (.inr (by simp))]
      exact hstaged
  | @called handle call t a t' _ hcopy heffect =>
    obtain ⟨l', commits', hl', hfollows, hkept⟩ :=
      h.after_call hclear (hreplicas handle t hcopy) hgrows heffect fun s hs => by
        subst hs
        obtain ⟨c, hasks, hpaths⟩ := hknown handle call t s rfl hcopy rfl
        exact ⟨c, hasks, fun path hpath => hstaged path (hpaths path hpath)⟩
    refine ⟨l', commits', ?_, hfollows, ?_⟩
    · rw [← hl']
      simp only [after?, Event.handle, hcopy]
    · intro path hpath
      rcases mem_stagedPaths_cons.1 hpath with hpath | hpath
      · exact hkept path (.inr (mem_stagedPaths_call hpath))
      · exact hkept path (.inl (hstaged path hpath))
  | opened hopens =>
    have hnocall : ∀ handle call, event ≠ .call handle call := by
      rintro handle call rfl
      exact absurd hopens (by simp [Event.opens])
    refine ⟨l, commits, ?_, h, ?_⟩
    · cases event with
      | openTable => rfl
      | copy => rfl
      | _ => exact absurd hopens (by simp [Event.opens])
    · rw [stagedPaths_cons (.inr hnocall)]
      exact hstaged
  | failed hfailure =>
    refine ⟨l, commits, ?_, h.of_settled hfailure.settled hgrows, ?_⟩
    · cases event <;> rfl
    · rw [stagedPaths_cons (.inl ⟨_, rfl⟩)]
      exact hstaged

end Ledger

namespace World

variable {w : World} {turn : Turn}

/-- The world is in order, and the ledger of its history follows its files. -/
structure Tracked (asked : Request → Prop) (root : Location) (w : World) (commits : List Commit)
    (l : Ledger) : Prop where
  ordered : w.Ordered root commits commits.length
  follows : l.Follows asked root w.files commits
  history : Ledger.ofHistory? w.history = some l
  staged : ∀ path ∈ stagedPaths w.history, l.staged.contains path = true

theorem Tracked.step (h : w.Tracked asked root commits l) (hclear : Unambiguous asked)
    (hends : turn.limit = none) (hasked : ∀ r ∈ (w.step root turn).requests, asked r)
    (hknown : BringKnown (w.step root turn).history) :
    ∃ commits' l', (w.step root turn).Tracked asked root commits' l' := by
  obtain ⟨_, _, hordered, -⟩ := h.ordered.step turn
  rcases h.ordered.step_ends hends hasked with hsame | ⟨result, after, hhistory, hdeed, hgrows⟩
  · rw [hsame]
    exact ⟨commits, l, h⟩
  · rw [hhistory] at hknown
    obtain ⟨l', commits', hafter, hfollows, hstaged⟩ := h.follows.after_event hclear
      h.ordered.replicas hgrows hdeed h.staged hknown.1
    obtain ⟨rfl, rfl⟩ := hordered.chain.unique hfollows.kept.chain
    refine ⟨_, l', hordered, hfollows, ?_, ?_⟩
    · rw [hhistory, Ledger.ofHistory?, h.history, Option.bind_some, hafter]
    · rwa [hhistory]

theorem tracked_start (hvacant : files.Vacant root) :
    (start files).Tracked asked root [] .empty :=
  ⟨.start (Chain.of_vacant hvacant), ⟨.of_vacant hvacant, .inl ⟨rfl, rfl⟩⟩, rfl,
    fun path hpath => absurd hpath (by simp [start, stagedPaths])⟩

theorem Tracked.run (h : w.Tracked asked root commits l) (hclear : Unambiguous asked)
    (turns : List Turn) (hends : ∀ turn ∈ turns, turn.limit = none)
    (hasked : ∀ r ∈ (World.run root w turns).requests, asked r)
    (hknown : BringKnown (World.run root w turns).history) :
    ∃ commits' l', (World.run root w turns).Tracked asked root commits' l' := by
  refine run_ends_induction (p := fun w' => BringKnown w'.history →
    ∃ commits' l', w'.Tracked asked root commits' l') (fun _ => ⟨commits, l, h⟩) ?_ turns hends hasked
    hknown
  intro w' turn hw' hends' hasked' hknown'
  obtain ⟨commits₁, l₁, h₁⟩ := hw' (hknown'.of_suffix (remembers_step root w' turn).2)
  exact h₁.step hclear hends' hasked' hknown'

/-- In every run of events that end, through any handles, whether they succeed or fail: the
history has a ledger; once there is a table, it can be read and has the snapshots of the ledger,
each with just the files that the ledger lists; and so have the tables of all handles. -/
theorem files_match_ledger (hvacant : files.Vacant root) (turns : List Turn)
    (hends : ∀ turn ∈ turns, turn.limit = none)
    (hclear : Unambiguous (· ∈ (run root (start files) turns).requests))
    (hknown : BringKnown (run root (start files) turns).history) :
    ∃ l, Ledger.ofHistory? (run root (start files) turns).history = some l ∧
      (l.metadata.isSome → ∃ t, perform root rebuild (run root (start files) turns).files =
          (.ok t, (run root (start files) turns).files) ∧
        l.Matches root (run root (start files) turns).files t) ∧
      ∀ handle t, (run root (start files) turns).handles handle = some t →
        l.Lists root (run root (start files) turns).files t := by
  obtain ⟨commits, l, hw⟩ := (tracked_start hvacant).run hclear turns hends (fun _ hr => hr)
    hknown
  refine ⟨l, hw.history, fun hmade => ?_, fun handle t ht => ?_⟩
  · rcases hw.follows.state with ⟨-, rfl⟩ | ⟨t, ht, htracks⟩
    · exact absurd hmade (by simp [Ledger.empty])
    · exact ⟨t, hw.follows.kept.perform_rebuild ht, htracks.current, htracks.registered,
        htracks.lists (hw.follows.kept.catalogued t ht) (.refl t)⟩
  · obtain ⟨u, hu, htracks, hextends⟩ := hw.follows.tracks (hw.ordered.replicas handle t ht)
    exact htracks.lists (hw.follows.kept.catalogued u hu) hextends

end World

/-! ### The ledger of the days -/

/-- A change brings what is known if all that it adopts was staged before. -/
theorem Record.bringsKnown_change {handle : Nat} {call : Call} {t : Table} {s : Snapshot}
    {after : Option Table} {before : List Record} {c : Change} (hchange : call.change? t = some c)
    (hpaths : ∀ path ∈ c.changes.stagedPaths, path ∈ stagedPaths before) :
    (⟨.call handle call, some t, .ok (.snapshot s), after⟩ : Record).BringsKnown before := by
  intro handle' call' t' s' hevent hbefore _
  obtain ⟨rfl, rfl⟩ := Event.call.inj hevent
  obtain rfl := Option.some.inj hbefore
  exact ⟨c, hchange, hpaths⟩

/-- Nothing is brought where no snapshot is made. -/
theorem Record.bringsKnown_other {r : Record} {before : List Record}
    (h : ∀ s, r.result ≠ .ok (.snapshot s)) : r.BringsKnown before :=
  fun _ _ _ s _ _ hresult => absurd hresult (h s)

namespace Days

open World

theorem bringKnown_history : BringKnown history := by
  have hnone : ∀ before, ∀ path ∈ ([] : List String), path ∈ stagedPaths before :=
    fun _ _ hpath => absurd hpath List.not_mem_nil
  have hlast : stagedPaths (history.drop 1) = [stagedPath] := rfl
  have hfirst : stagedPaths (history.drop 5) = [stagedPath] := rfl
  refine ⟨Record.bringsKnown_change rfl fun path hpath => ?_, Record.bringsKnown_other (by simp),
    Record.bringsKnown_change rfl (hnone _), Record.bringsKnown_change rfl (hnone _),
    Record.bringsKnown_change rfl fun path hpath => ?_, Record.bringsKnown_change rfl (hnone _),
    Record.bringsKnown_other (by simp), Record.bringsKnown_other (by simp), trivial⟩
  · exact hlast ▸ hpath
  · exact hfirst ▸ hpath

/-- The files of the day and without a day, and only the latter. -/
def both : LiveFiles := (SortedMap.empty.insert dated.path dated).insert undated.path undated

def rest : LiveFiles := SortedMap.empty.insert undated.path undated

/-- What the callers know in the end. -/
def ledger : Ledger where
  metadata := some metadata
  live := ((((SortedMap.empty.insert 1 .empty).insert 2 both).insert 3 rest).insert 4 rest).insert 5
    both
  currentId := some 5
  staged := SortedMap.empty.insert stagedPath [dated, undated]

/-- What is adopted is what was staged. -/
theorem liveAfter_adopting {l : Ledger} {id : SnapshotId}
    (hstaged : l.staged = ledger.staged) (hbase : l.live.find? id = some .empty) :
    l.liveAfter metadata ⟨some id, .append, .adopting [stagedPath]⟩ = both := by
  have hfound : ledger.staged.find? stagedPath = some [dated, undated] :=
    SortedMap.find?_insert_self ..
  have hbrought : l.brought (.adopting [stagedPath]) = [dated, undated] := by
    simp [Ledger.brought, FileChanges.adopting, FileChanges.none, hstaged, hfound]
  have hlive : l.liveAt (some id) = .empty := by rw [Ledger.liveAt, Option.bind_some, hbase]; rfl
  rw [Ledger.liveAfter, hbrought, hlive]
  rfl

/-- Both files are adopted into a ledger whose current snapshot is empty. -/
theorem after?_adopting {l : Ledger} {r : Record} {t : Table} {s : Snapshot} {after : Option Table}
    {id : SnapshotId}
    (hr : r = ⟨.call 0 (.appendManifests [stagedPath]), some t, .ok (.snapshot s), after⟩)
    (hmade : l.metadata = some metadata) (hstaged : l.staged = ledger.staged)
    (hempty : l.live.find? id = some .empty) (ht : t.currentId = some id)
    (hbase : l.currentId = some id ∧ s.parentId = some id ∧ l.live.contains s.id = false) :
    l.after? r = some { l with live := l.live.insert s.id both, currentId := some s.id } := by
  subst hr
  change l.change? ⟨t.currentId, .append, .adopting [stagedPath]⟩ s = _
  rw [ht, Ledger.change?_eq hmade hbase, liveAfter_adopting hstaged hempty]

theorem ofHistory?_history : Ledger.ofHistory? history = some ledger := by
  have hbegun : Ledger.ofHistory? (history.drop 5) =
      some { ledger with live := SortedMap.empty.insert 1 .empty, currentId := some 1 } := rfl
  have hfilled : Ledger.ofHistory? (history.drop 4) = some { ledger with
      live := (SortedMap.empty.insert 1 .empty).insert 2 both, currentId := some 2 } := by
    change (Ledger.ofHistory? (history.drop 5)).bind _ = _
    rw [hbegun, Option.bind_some]
    exact after?_adopting rfl rfl rfl rfl rfl ⟨rfl, rfl, rfl⟩
  have hreturned : Ledger.ofHistory? (history.drop 1) = some { ledger with
      live := (((SortedMap.empty.insert 1 .empty).insert 2 both).insert 3 rest).insert 4 rest,
      currentId := some 1 } := by
    change (((Ledger.ofHistory? (history.drop 4)).bind _).bind _).bind _ = _
    rw [hfilled]
    rfl
  change (Ledger.ofHistory? (history.drop 1)).bind _ = _
  rw [hreturned, Option.bind_some]
  exact after?_adopting rfl rfl rfl rfl rfl ⟨rfl, rfl, rfl⟩

/-- After a delete, a move back, and a second append of the same files. -/
theorem files_match_ledger_refilled : Tree.empty.Vacant ⟨"."⟩ ∧
    (∀ turn ∈ turns.take 8, turn.limit = none) ∧
    run ⟨"."⟩ (start .empty) (turns.take 8) = world 8 ∧
    Unambiguous (· ∈ (world 8).requests) ∧ BringKnown (world 8).history ∧
    Ledger.ofHistory? (world 8).history = some ledger ∧
    perform ⟨"."⟩ rebuild (world 8).files = (.ok refilled, (world 8).files) ∧
    ledger.Matches ⟨"."⟩ (world 8).files refilled := by
  have h := known_refilled.stands
  have hclear := h.unambiguous unambiguous
  have hknown : BringKnown (world 8).history := known_refilled.remembered ▸ bringKnown_history
  have hledger : Ledger.ofHistory? (world 8).history = some ledger :=
    known_refilled.remembered ▸ ofHistory?_history
  obtain ⟨l, hl, hmatches, -⟩ := files_match_ledger Tree.vacant_empty (turns.take 8) (ends 8)
    (by rwa [world_eq]) (by rwa [world_eq])
  rw [world_eq] at hl hmatches
  obtain rfl := Option.some.inj (hl.symm.trans hledger)
  obtain ⟨t, ht, hmatched⟩ := hmatches rfl
  obtain rfl := Except.ok.inj (Prod.mk.inj (h.rebuilt.symm.trans ht)).1
  exact ⟨Tree.vacant_empty, ends 8, world_eq 8, hclear, hknown, hledger, ht, hmatched⟩

end Days

end Lakehouse
