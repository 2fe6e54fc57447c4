import Lakehouse.Proofs.Run.Moves
import Lakehouse.Proofs.Run.Viewing

/- Two runs in which the same is done.

   Files are appended in two ways: directly, or by staging a manifest of them and then adding
   what it lists (`Way`). Two runs go on in parallel from worlds that have the same log if they
   make the same moves at times of their own, where each append may go either way, the
   properties of the table may differ, and no call reads a path at which the files differ
   (`Parallel`). Then the logs stay twins and the handles peers (`Paired.move`), all moves have
   the same answers, and through every handle all snapshots look alike (`appends_agree`). -/
namespace Lakehouse

open Calendar (Instant)
open Contract Log Script

variable {asked asked' : Request → Prop} {root : Location} {files files' after after' : Tree}
  {commits commits' : List Commit} {current : Nat} {t t' : Table} {now now' : Instant}

/-! ### What is alike -/

/-- The answers agree but for the times of snapshots and the places of their lists. -/
inductive Answer.Alike : Answer → Answer → Prop where
  | done : Alike .done .done
  | path (path : String) : Alike (.path path) (.path path)
  | snapshot {s s' : Snapshot} (h : s.Alike s') : Alike (.snapshot s) (.snapshot s')

/-- Under the paths that the call names, the same is read in both. -/
def Call.SeesAlike (root : Location) (files files' : Tree) : Call → Prop
  | .commit _ _ changes => ∀ path ∈ changes.stagedPaths, files.ReadsAlike root files' path
  | .appendManifests paths => ∀ path ∈ paths, files.ReadsAlike root files' path
  | .intake directory => Table.SameDirectory root files files' directory
  | _ => True

/-- The snapshots with this id agree but for their times and the places of their lists, and they
have the same entries in the same order, the same files, and the same partitions. -/
structure SnapshotView.Alike (v v' : SnapshotView) : Prop where
  snapshot : v.snapshot.Alike v'.snapshot
  entries : v.entries = v'.entries
  files : v.files = v'.files
  partitions : v.partitions = v'.partitions

/-- The tables are alike, and each in its own files, all their snapshots look alike. -/
structure Table.LooksAlike (root : Location) (files files' : Tree) (t t' : Table) : Prop where
  alike : t.Alike t'
  shown : ∀ id, t.snapshots.contains id = true → ∃ v v', t.Shown root files id v ∧
    t'.Shown root files' id v' ∧ v.Alike v'

/-- What manifests of the same substance list looks alike. -/
theorem SnapshotView.alike_ofManifests {s s' : Snapshot} (hs : s.Alike s')
    {ms ms' : List (ManifestRecord × Manifest)}
    (hsame : substance (ms.map Prod.snd) = substance (ms'.map Prod.snd)) :
    (SnapshotView.ofManifests s ms).Alike (.ofManifests s' ms') := by
  have hentries : ∀ ms : List (ManifestRecord × Manifest), ms.flatMap (fun m => m.2.entries) =
      (substance (ms.map Prod.snd)).flatMap Manifest.entries := by
    intro ms
    rw [entries_substance, List.flatMap_map]
  have hfiles : liveFiles (ms.map Prod.snd) = liveFiles (ms'.map Prod.snd) := by
    rw [← liveFiles_substance, hsame, liveFiles_substance]
  refine ⟨hs, ?_, hfiles, congrArg groupByPartition hfiles⟩
  exact (hentries ms).trans (hsame ▸ (hentries ms').symm)

theorem Table.Mirrors.looksAlike (h : Table.Mirrors root files files' t t') :
    t.LooksAlike root files files' t' := by
  refine ⟨h.alike, fun id hin => ?_⟩
  obtain ⟨s, hs⟩ := SortedMap.contains_iff.1 hin
  obtain ⟨s', hs'⟩ := SortedMap.contains_iff.1 (h.alike.contains_eq id ▸ hin)
  have halike := h.alike.snapshots id
  rw [hs, hs'] at halike
  cases halike with
  | some hsnapshots =>
    obtain ⟨ms, ms', hms, hms', hsame⟩ := h.loads id s s' hs hs'
    exact ⟨.ofManifests s ms, .ofManifests s' ms', hms.shown hs, hms'.shown hs',
      SnapshotView.alike_ofManifests hsnapshots hsame⟩

/-! ### Calls -/

namespace Call

variable {call call' : Call}

theorem change?_congr (h : t.Alike t') (call : Call) : call.change? t = call.change? t' := by
  cases call <;> simp only [change?, h.currentId]

theorem SeesAlike.reads (h : call.SeesAlike root files files') {change : Change}
    (hchange : call.change? t = some change) :
    ∀ path ∈ change.changes.stagedPaths, files.ReadsAlike root files' path := by
  cases call with
  | commit =>
    obtain rfl := Option.some.inj hchange
    exact h
  | appendManifests =>
    obtain rfl := Option.some.inj hchange
    exact h
  | append | deleteFiles | deleteWhere | overwrite =>
    obtain rfl := Option.some.inj hchange
    exact fun path hpath => absurd hpath List.not_mem_nil
  | _ => exact absurd hchange (by simp [change?])

/-- Calls that ask for changes that are alike are refused alike, or give snapshots that are. -/
theorem abreast_of_changes (h : Twins asked asked' root commits commits' current files files')
    (hroom : root.Roomy) (hpeers : Peers commits commits' current t t')
    (hclear : Unambiguous asked) (hclear' : Unambiguous asked') {base : Option SnapshotId}
    {operation : Operation} {changes changes' : FileChanges}
    (hchange : call.change? t = some ⟨base, operation, changes⟩)
    (hchange' : call'.change? t' = some ⟨base, operation, changes'⟩)
    (halike : Table.ChangesAlike root files files' t.spec operation changes changes')
    (now now' : Instant) :
    Abreast asked asked' root (call.run now) (call'.run now') ⟨t, files⟩ ⟨t', files'⟩
      (fun a a' s s' => a.Alike a' ∧ GoneOn asked asked' root commits commits' current s s')
      (GoneOn asked asked' root commits commits' current) := by
  refine .congr (run_of_change hchange) (run_of_change hchange') (.map ?_)
  refine (Table.commit_abreast h hroom hpeers hclear hclear' base halike now now').mono ?_
    fun _ _ hgone => hgone
  rintro s s' _ _ ⟨hs, hgone⟩
  exact ⟨.snapshot hs, hgone⟩

/-- Calls that give nothing have answers that are alike. -/
theorem abreast_done {x y : TableM Unit} {a b : Session}
    (h : Abreast asked asked' root x y a b
      (fun _ _ => GoneOn asked asked' root commits commits' current)
      (GoneOn asked asked' root commits commits' current)) :
    Abreast asked asked' root ((fun _ => Answer.done) <$> x) ((fun _ => Answer.done) <$> y) a b
      (fun a a' s s' => a.Alike a' ∧ GoneOn asked asked' root commits commits' current s s')
      (GoneOn asked asked' root commits commits' current) :=
  .map (h.mono (fun _ _ _ _ hgone => ⟨.done, hgone⟩) fun _ _ hgone => hgone)

/-- The same call is refused for both for the same reason, or has answers that are alike. -/
theorem abreast (h : Twins asked asked' root commits commits' current files files')
    (hroom : root.Roomy) (hpeers : Peers commits commits' current t t')
    (hclear : Unambiguous asked) (hclear' : Unambiguous asked')
    (hsees : call.SeesAlike root files files') (now now' : Instant) :
    Abreast asked asked' root (call.run now) (call.run now') ⟨t, files⟩ ⟨t', files'⟩
      (fun a a' s s' => a.Alike a' ∧ GoneOn asked asked' root commits commits' current s s')
      (GoneOn asked asked' root commits commits' current) := by
  have halike := (h.mirrors hpeers).alike
  cases hchange : call.change? t with
  | some change =>
    have hchange' := change?_congr halike call ▸ hchange
    exact abreast_of_changes h hroom hpeers hclear hclear' hchange hchange'
      (.of_reads _ (hsees.reads hchange)) now now'
  | none =>
    cases call with
    | refresh =>
      exact abreast_done (Table.refresh_abreast h hpeers.replica.current_pos fun u u' hlatest => h.stay hlatest)
    | stage added =>
      exact .map (Table.stage_abreast h hroom hpeers hclear hclear' added
        fun path _ _ hstaged _ => ⟨.path path, hstaged.stay hpeers⟩)
    | rollback target => exact abreast_done (Table.rollback_abreast h hroom hpeers target now now')
    | setCurrent target => exact abreast_done (Table.setCurrent_abreast h hroom hpeers target now now')
    | updateProperties set remove =>
      exact abreast_done (Table.updateProperties_abreast h hroom hpeers set set remove remove now now')
    | intake directory =>
      refine .map ((Table.intake_abreast h hroom hpeers hclear hclear' hsees now now').mono ?_
        fun _ _ hgone => hgone)
      rintro s s' _ _ ⟨hs, hgone⟩
      exact ⟨.snapshot hs, hgone⟩
    | _ => exact absurd hchange (by simp [change?])

end Call

/-! ### Events and moves -/

namespace Event

variable {before : Option Table} {access : FileM Table}

theorem run_handleOf_ok (hrun : perform root access files = (.ok t, after)) :
    (handleOf before access).run root files = ((.ok .done, some t), after) := by
  rw [perform] at hrun
  rw [handleOf, run_bind, hrun]
  rfl

theorem run_handleOf_error {e : TableError} (hrun : perform root access files = (.error e, after)) :
    (handleOf before access).run root files = ((.error e, before), after) := by
  rw [perform] at hrun
  rw [handleOf, run_bind, hrun]
  rfl

end Event

namespace Move

/-- The moves are the same but for their times, the ways to append, and the properties of
the table. -/
inductive Alike : Move → Move → Prop where
  | event (event : Event) (now now' : Instant) : Alike (.event event now) (.event event now')
  | create (handle : Nat) {m m' : Metadata} (schema : m.schema = m'.schema)
      (spec : m.spec = m'.spec) (now now' : Instant) :
      Alike (.event (.create handle m) now) (.event (.create handle m') now')
  | updateProperties (handle : Nat) (set set' : Properties) (remove remove' : List String)
      (now now' : Instant) :
      Alike (.event (.call handle (.updateProperties set remove)) now)
        (.event (.call handle (.updateProperties set' remove')) now')
  | append (way way' : Way) (handle : Nat) (added : List DataFile) (now now' : Instant) :
      Alike (.append way handle added now) (.append way' handle added now')

def SeesAlike (root : Location) (files files' : Tree) : Move → Prop
  | .event (.call _ call) _ => call.SeesAlike root files files'
  | _ => True

end Move

namespace World

variable {w w' : World} {handle : Nat} {call call' : Call} {event : Event}

/-- The same moves are made from both worlds, and none reads a path at which the files differ. -/
inductive Parallel (root : Location) : World → World → List Move → List Move → Prop where
  | nil (w w' : World) : Parallel root w w' [] []
  | cons {w w' : World} {m m' : Move} {ms ms' : List Move} (alike : m.Alike m')
      (sees : m.SeesAlike root w.files w'.files)
      (rest : Parallel root (w.move root m).1 (w'.move root m').1 ms ms') :
      Parallel root w w' (m :: ms) (m' :: ms')

/-! ### Paired worlds -/

/-- The worlds have twin logs, and handles with copies of the same versions. -/
structure Paired (asked asked' : Request → Prop) (root : Location) (commits commits' : List Commit)
    (current : Nat) (w w' : World) : Prop where
  twins : Twins asked asked' root commits commits' current w.files w'.files
  handles : ∀ handle,
    Option.Rel (Peers commits commits' current) (w.handles handle) (w'.handles handle)

/-- The worlds are paired, and the answers alike. -/
def Together (asked asked' : Request → Prop) (root : Location)
    (a b : World × Option (Except TableError Answer)) : Prop :=
  (∃ commits commits' current, Paired asked asked' root commits commits' current a.1 b.1) ∧
    Option.Rel (SameOutcome Answer.Alike) a.2 b.2

namespace Paired

/-- Under each name both have a handle, or neither has. -/
theorem handle_cases (h : Paired asked asked' root commits commits' current w w') (handle : Nat) :
    w.handles handle = none ∧ w'.handles handle = none ∨
    ∃ t t', w.handles handle = some t ∧ w'.handles handle = some t' ∧
      Peers commits commits' current t t' := by
  have hhandle := h.handles handle
  generalize w.handles handle = t at *
  generalize w'.handles handle = t' at *
  cases hhandle with
  | none => exact .inl ⟨rfl, rfl⟩
  | some hpeers => exact .inr ⟨_, _, rfl, rfl, hpeers⟩

theorem handles_mono (h : Paired asked asked' root commits commits' current w w')
    {commits₁ commits₁' : List Commit} {current₁ : Nat} (hbegins : commits <+: commits₁)
    (hbegins' : commits' <+: commits₁') (hle : current ≤ current₁) (handle : Nat) :
    Option.Rel (Peers commits₁ commits₁' current₁) (w.handles handle) (w'.handles handle) := by
  rcases h.handle_cases handle with ⟨hnone, hnone'⟩ | ⟨t, t', ht, ht', hpeers⟩
  · rw [hnone, hnone']
    exact .none
  · rw [ht, ht']
    exact .some (hpeers.mono h.twins hbegins hbegins' hle)

/-- The worlds stay paired if their logs go on as twins, and one handle changes in both. -/
theorem goesOn (h : Paired asked asked' root commits commits' current w w')
    {commits₁ commits₁' : List Commit} {current₁ : Nat} (hbegins : commits <+: commits₁)
    (hbegins' : commits' <+: commits₁') (hle : current ≤ current₁)
    (htwins : Twins asked asked' root commits₁ commits₁' current₁ after after') {u u' : Option Table}
    (hu : Option.Rel (Peers commits₁ commits₁' current₁) u u') (handle : Nat)
    (history history' : List Record) (requests requests' : List Request) :
    Paired asked asked' root commits₁ commits₁' current₁
      ⟨after, w.setHandle handle u, history, requests⟩
      ⟨after', w'.setHandle handle u', history', requests'⟩ := by
  refine ⟨htwins, fun other => ?_⟩
  show Option.Rel _ (w.setHandle handle u other) (w'.setHandle handle u' other)
  rw [setHandle, setHandle]
  split
  · exact hu
  · exact h.handles_mono hbegins hbegins' hle other

/-- The same event ends in both in the same way, and its handle has peers afterwards. -/
theorem together (h : Paired asked asked' root commits commits' current w w') {event event' : Event}
    (hhandle : event.handle = event'.handle)
    {script script' : Script (Except TableError Answer × Option Table)}
    (hscript : event.script? now w.handles = some script)
    (hscript' : event'.script? now' w'.handles = some script')
    {result result' : Except TableError Answer} {u u' : Option Table}
    (hrun : script.run root w.files = ((result, u), after))
    (hrun' : script'.run root w'.files = ((result', u'), after'))
    (hresult : SameOutcome Answer.Alike result result')
    {commits₁ commits₁' : List Commit} {current₁ : Nat} (hbegins : commits <+: commits₁)
    (hbegins' : commits' <+: commits₁') (hle : current ≤ current₁)
    (htwins : Twins asked asked' root commits₁ commits₁' current₁ after after')
    (hu : Option.Rel (Peers commits₁ commits₁' current₁) u u') :
    Together asked asked' root (w.complete root event now) (w'.complete root event' now') := by
  rw [complete_of_script hscript hrun, complete_of_script hscript' hrun', hhandle]
  exact ⟨⟨commits₁, commits₁', current₁, h.goesOn hbegins hbegins' hle htwins hu _ _ _ _ _⟩,
    .some hresult⟩

/-- Nothing happens in either world. -/
theorem silent (h : Paired asked asked' root commits commits' current w w') {event event' : Event}
    (hscript : event.script? now w.handles = none)
    (hscript' : event'.script? now' w'.handles = none) :
    Together asked asked' root (w.complete root event now) (w'.complete root event' now') := by
  rw [complete_of_no_script hscript, complete_of_no_script hscript']
  exact ⟨⟨commits, commits', current, h⟩, .none⟩

/-- Calls that go abreast keep the worlds together. -/
theorem called (h : Paired asked asked' root commits commits' current w w')
    (ht : w.handles handle = some t) (ht' : w'.handles handle = some t')
    (habreast : Abreast asked asked' root (call.run now) (call'.run now') ⟨t, w.files⟩ ⟨t', w'.files⟩
      (fun a a' s s' => a.Alike a' ∧ GoneOn asked asked' root commits commits' current s s')
      (GoneOn asked asked' root commits commits' current))
    (hasked : ∀ r ∈ w.wants root ⟨.call handle call, now, none⟩, asked r)
    (hasked' : ∀ r ∈ w'.wants root ⟨.call handle call', now', none⟩, asked' r) :
    Together asked asked' root (w.complete root (.call handle call) now)
      (w'.complete root (.call handle call') now') := by
  rw [requests_call ht] at hasked
  rw [requests_call ht'] at hasked'
  have hagrees := habreast.agrees hasked hasked'
  rcases hrun : (call.run now).perform root t w.files with ⟨⟨result, u⟩, after⟩
  rcases hrun' : (call'.run now').perform root t' w'.files with ⟨⟨result', u'⟩, after'⟩
  rw [hrun, hrun'] at hagrees
  rw [complete_call ht hrun, complete_call ht' hrun']
  obtain ⟨hresult, commits₁, commits₁', current₁, hbegins, hbegins', hle, htwins, hpeers⟩ :=
    hagrees.sameOutcome
  exact ⟨⟨commits₁, commits₁', current₁,
    h.goesOn hbegins hbegins' hle htwins (.some hpeers) handle _ _ _ _⟩, .some hresult⟩

/-- A handle is had in both, and is a peer. -/
theorem accessed (h : Paired asked asked' root commits commits' current w w') {event event' : Event}
    (hhandle : event.handle = event'.handle) {access access' : FileM Table}
    (hscript : event.script? now w.handles =
      some (Event.handleOf (w.handles event.handle) access))
    (hscript' : event'.script? now' w'.handles =
      some (Event.handleOf (w'.handles event'.handle) access'))
    {u u' : Table} (hrun : perform root access w.files = (.ok u, after))
    (hrun' : perform root access' w'.files = (.ok u', after'))
    (hgone : GoneOn asked asked' root commits commits' current ⟨u, after⟩ ⟨u', after'⟩) :
    Together asked asked' root (w.complete root event now) (w'.complete root event' now') := by
  obtain ⟨commits₁, commits₁', current₁, hbegins, hbegins', hle, htwins, hpeers⟩ := hgone
  exact h.together hhandle hscript hscript' (Event.run_handleOf_ok hrun) (Event.run_handleOf_ok hrun')
    (.ok .done) hbegins hbegins' hle htwins (.some hpeers)

/-- A handle is refused in both for the same reason, and stays what it was. -/
theorem refused (h : Paired asked asked' root commits commits' current w w') {event event' : Event}
    (hhandle : event.handle = event'.handle) {access access' : FileM Table}
    (hscript : event.script? now w.handles =
      some (Event.handleOf (w.handles event.handle) access))
    (hscript' : event'.script? now' w'.handles =
      some (Event.handleOf (w'.handles event'.handle) access'))
    {e : TableError} (hrun : perform root access w.files = (.error e, after))
    (hrun' : perform root access' w'.files = (.error e, after')) {current₁ : Nat}
    (hle : current ≤ current₁)
    (htwins : Twins asked asked' root commits commits' current₁ after after') :
    Together asked asked' root (w.complete root event now) (w'.complete root event' now') := by
  have hkept := h.handles_mono (List.prefix_refl _) (List.prefix_refl _) hle event.handle
  refine h.together hhandle hscript hscript' (Event.run_handleOf_error hrun)
    (Event.run_handleOf_error hrun') (.error e) (List.prefix_refl _) (List.prefix_refl _) hle htwins ?_
  rw [← hhandle]
  exact hkept

/-- No table is made where there is one; and where there is none, twins are made. -/
theorem create (h : Paired asked asked' root commits commits' current w w') (hroom : root.Roomy)
    {m m' : Metadata} (hschema : m.schema = m'.schema) (hspec : m.spec = m'.spec)
    (hasked : ∀ r ∈ w.wants root ⟨.create handle m, now, none⟩, asked r)
    (hasked' : ∀ r ∈ w'.wants root ⟨.create handle m', now', none⟩, asked' r) :
    Together asked asked' root (w.complete root (.create handle m) now)
      (w'.complete root (.create handle m') now') := by
  have hwants : ∀ {w : World} {m : Metadata} {now : Instant},
      w.wants root ⟨.create handle m, now, none⟩ =
        (Table.create m now).run.requests root w.files := by
    intro w m now
    simp only [wants, Event.script?, Event.handleOf, requests_bind]
    generalize (Table.create m now).run.run root w.files = outcome
    obtain ⟨e | u, after⟩ := outcome <;> exact List.append_nil _
  rw [hwants] at hasked hasked'
  rcases Table.create_goneOn h.twins hroom hschema hspec now now' hasked hasked' with
    ⟨u, u', after, after', hrun, hrun', hgone⟩ |
    ⟨e, after, after', current₁, hrun, hrun', hle, htwins⟩
  · exact h.accessed rfl rfl rfl hrun hrun' hgone
  · exact h.refused rfl rfl rfl hrun hrun' hle htwins

/-- Tables are opened in the same version. -/
theorem openTable (h : Paired asked asked' root commits commits' current w w') (hroom : root.Roomy)
    (handle : Nat) (now now' : Instant) :
    Together asked asked' root (w.complete root (.openTable handle) now)
      (w'.complete root (.openTable handle) now') := by
  rcases Nat.eq_zero_or_pos current with rfl | hpos
  · have hread := Table.perform_openLatest_of_zero h.twins.chain hroom
    have hread' := Table.perform_openLatest_of_zero h.twins.chain' hroom
    exact h.refused rfl rfl rfl hread hread' (Nat.le_refl _) h.twins
  · obtain ⟨u, u', hread, hread', hpeers⟩ := h.twins.exists_current hpos
    exact h.accessed rfl rfl rfl (Table.perform_openLatest_of_pos h.twins.chain hroom hpos hread)
      (Table.perform_openLatest_of_pos h.twins.chain' hroom hpos hread') (h.twins.stay hpeers)

/-- Copies are made of peers, or of nothing. -/
theorem copy (h : Paired asked asked' root commits commits' current w w') (source handle : Nat)
    (now now' : Instant) :
    Together asked asked' root (w.complete root (.copy source handle) now)
      (w'.complete root (.copy source handle) now') := by
  rcases h.handle_cases source with ⟨hnone, hnone'⟩ | ⟨t, t', ht, ht', hpeers⟩
  · exact h.silent (by rw [Event.script?, hnone]; rfl) (by rw [Event.script?, hnone']; rfl)
  · have hscript : ∀ {w : World} {t : Table} {now : Instant}, w.handles source = some t →
        Event.script? now w.handles (.copy source handle) = some (pure (.ok .done, some t)) := by
      intro w t now ht
      rw [Event.script?, ht]
      rfl
    exact h.together rfl (hscript ht) (hscript ht') rfl rfl (.ok .done) (List.prefix_refl _)
      (List.prefix_refl _) (Nat.le_refl _) h.twins (.some hpeers)

/-- Calls that go abreast for peers keep the worlds together, whether there is a handle or not. -/
theorem calls (h : Paired asked asked' root commits commits' current w w')
    (habreast : ∀ t t', Peers commits commits' current t t' →
      Abreast asked asked' root (call.run now) (call'.run now') ⟨t, w.files⟩ ⟨t', w'.files⟩
        (fun a a' s s' => a.Alike a' ∧ GoneOn asked asked' root commits commits' current s s')
        (GoneOn asked asked' root commits commits' current))
    (hasked : ∀ r ∈ w.wants root ⟨.call handle call, now, none⟩, asked r)
    (hasked' : ∀ r ∈ w'.wants root ⟨.call handle call', now', none⟩, asked' r) :
    Together asked asked' root (w.complete root (.call handle call) now)
      (w'.complete root (.call handle call') now') := by
  rcases h.handle_cases handle with ⟨hnone, hnone'⟩ | ⟨t, t', ht, ht', hpeers⟩
  · exact h.silent (script?_of_no_handle hnone) (script?_of_no_handle hnone')
  · exact h.called ht ht' (habreast t t' hpeers) hasked hasked'

/-- Appends of the same files go together, whichever way each goes. -/
theorem append (h : Paired asked asked' root commits commits' current w w') (hroom : root.Roomy)
    (hclear : Unambiguous asked) (hclear' : Unambiguous asked') (way way' : Way) (handle : Nat)
    (added : List DataFile) (now now' : Instant)
    (hasked : ∀ r ∈ (w.move root (.append way handle added now)).1.requests, asked r)
    (hasked' : ∀ r ∈ (w'.move root (.append way' handle added now')).1.requests, asked' r) :
    Together asked asked' root (w.move root (.append way handle added now))
      (w'.move root (.append way' handle added now')) := by
  rcases h.handle_cases handle with ⟨hnone, hnone'⟩ | ⟨t, t', ht, ht', hpeers⟩
  · rw [move_append_of_none hnone, move_append_of_none hnone']
    exact ⟨⟨commits, commits', current, h⟩, .none⟩
  · obtain ⟨w₁, call, changes, hmove, hpoised⟩ :=
      exists_poised h.twins.chain hroom h.twins.supplied hclear ht hasked
    obtain ⟨w₁', call', changes', hmove', hpoised'⟩ :=
      exists_poised h.twins.chain' hroom h.twins.supplied' hclear' ht' hasked'
    rw [hmove] at hasked ⊢
    rw [hmove'] at hasked' ⊢
    rw [requests_complete] at hasked hasked'
    have halike := (h.twins.mirrors hpeers).alike
    -- Staging does not touch the log, so both worlds stand as they stood.
    have hpaired : Paired asked asked' root commits commits' current w₁ w₁' := by
      refine ⟨h.twins.grows hpoised.chain hpoised.grows hpoised'.chain hpoised'.grows, ?_⟩
      rw [hpoised.handles, hpoised'.handles]
      exact h.handles
    have hbrings' := hpoised'.brings
    have hchange' := hpoised'.change
    rw [← halike.spec] at hbrings'
    rw [← halike.currentId] at hchange'
    refine hpaired.called (by rw [hpoised.handles, ht]) (by rw [hpoised'.handles, ht'])
      (Call.abreast_of_changes hpaired.twins hroom hpeers hclear hclear' hpoised.change
        hchange' (.of_brings hpoised.brings hbrings') now now') ?_ ?_
    · exact fun r hr => hasked r (List.mem_append_right _ hr)
    · exact fun r hr => hasked' r (List.mem_append_right _ hr)

/-- One move each. -/
theorem move (h : Paired asked asked' root commits commits' current w w') (hroom : root.Roomy)
    (hclear : Unambiguous asked) (hclear' : Unambiguous asked') {m m' : Move}
    (halike : m.Alike m') (hsees : m.SeesAlike root w.files w'.files)
    (hasked : ∀ r ∈ (w.move root m).1.requests, asked r)
    (hasked' : ∀ r ∈ (w'.move root m').1.requests, asked' r) :
    Together asked asked' root (w.move root m) (w'.move root m') := by
  have hwants : ∀ {w : World} {event : Event} {now : Instant} {asked : Request → Prop},
      (∀ r ∈ (w.complete root event now).1.requests, asked r) →
      ∀ r ∈ w.wants root ⟨event, now, none⟩, asked r := by
    intro w event now asked hall r hr
    rw [requests_complete] at hall
    exact hall r (List.mem_append_right _ hr)
  cases halike with
  | event event now now' =>
    cases event with
    | create handle m => exact h.create hroom rfl rfl (hwants hasked) (hwants hasked')
    | openTable handle => exact h.openTable hroom handle now now'
    | copy source handle => exact h.copy source handle now now'
    | call handle call =>
      exact h.calls (fun _ _ hpeers => Call.abreast h.twins hroom hpeers hclear hclear' hsees
        now now') (hwants hasked) (hwants hasked')
  | create handle hschema hspec =>
    exact h.create hroom hschema hspec (hwants hasked) (hwants hasked')
  | updateProperties handle set set' remove remove' now now' =>
    refine h.calls (fun t t' hpeers => ?_) (hwants hasked) (hwants hasked')
    exact Call.abreast_done (Table.updateProperties_abreast h.twins hroom hpeers set set' remove
      remove' now now')
  | append way way' handle added now now' =>
    exact h.append hroom hclear hclear' way way' handle added now now' hasked hasked'

end Paired

/-! ### Runs -/

/-- Moves from paired worlds have answers that are alike, and leave worlds that are paired. -/
theorem Parallel.paired {ms ms' : List Move} (hparallel : Parallel root w w' ms ms')
    (hroom : root.Roomy) (hclear : Unambiguous asked) (hclear' : Unambiguous asked') :
    ∀ commits commits' current, Paired asked asked' root commits commits' current w w' →
      (∀ r ∈ (w.play root ms).1.requests, asked r) →
      (∀ r ∈ (w'.play root ms').1.requests, asked' r) →
      List.Forall₂ (Option.Rel (SameOutcome Answer.Alike)) (w.play root ms).2 (w'.play root ms').2 ∧
      ∃ commits₁ commits₁' current₁, Paired asked asked' root commits₁ commits₁' current₁
        (w.play root ms).1 (w'.play root ms').1 := by
  induction hparallel with
  | nil w w' =>
    intro commits commits' current h _ _
    exact ⟨.nil, commits, commits', current, h⟩
  | @cons w w' m m' ms ms' halike hsees _ ih =>
    intro commits commits' current h hasked hasked'
    have hfirst := fun r hr => hasked r ((requests_prefix_play (w.move root m).1 ms).mem hr)
    have hfirst' := fun r hr => hasked' r ((requests_prefix_play (w'.move root m').1 ms').mem hr)
    obtain ⟨⟨commits₁, commits₁', current₁, hpaired⟩, hanswer⟩ :=
      h.move hroom hclear hclear' halike hsees hfirst hfirst'
    obtain ⟨hanswers, hlast⟩ := ih commits₁ commits₁' current₁ hpaired hasked hasked'
    exact ⟨.cons hanswer hanswers, hlast⟩

/-- A world is paired with itself. -/
theorem Ordered.paired (h : w.Ordered root commits current) (hshelved : Shelved root w.files)
    (hsupplied : w.files.Supplied asked root) (hsupplied' : w.files.Supplied asked' root) :
    Paired asked asked' root commits commits current w w := by
  refine ⟨⟨h.chain, h.chain, hsupplied, hsupplied', rfl, fun n => ?_⟩, fun handle => ?_⟩
  · cases ht : tableAfter? (commits.take n) with
    | none => exact .none
    | some t =>
      obtain ⟨u, hu, hextends⟩ := h.chain.exists_last ht
      refine .some ⟨.refl t, fun id s s' hs hs' => ?_⟩
      obtain rfl := Option.some.inj (hs.symm.trans hs')
      obtain ⟨ms, hms⟩ := (hshelved.registered commits current u h.chain hu id s
        (hextends.kept id s hs)).loads
      exact ⟨ms, ms, hms, hms, rfl⟩
  · cases ht : w.handles handle with
    | none => exact .none
    | some t => exact .some ⟨h.replicas handle t ht, h.replicas handle t ht, rfl⟩

end World

end Lakehouse
