import Lakehouse.Proofs.Run.Progress
import Lakehouse.Proofs.Table.Twins

/- Moves.

   A move is an event that runs to its end, or an append of files in one of two ways: directly,
   or by staging a manifest of them and then adding what it lists (`Way`, `World.move`). Either
   way, an append comes down to a change for which everything is ready (`exists_poised`). -/
namespace Lakehouse

open Calendar (Instant)
open Contract Log Script

variable {asked : Request → Prop} {root : Location} {files after : Tree} {commits : List Commit}
  {current : Nat} {t : Table} {now : Instant}

/-- How files are appended: directly, or by staging a manifest and adding what it lists. -/
inductive Way where
  | direct
  | staged

/-- What is done in a run: an event, or an append of files in one of two ways. -/
inductive Move where
  | event (event : Event) (now : Instant)
  | append (way : Way) (handle : Nat) (added : List DataFile) (now : Instant)

namespace World

variable {w : World} {handle : Nat} {call : Call} {event : Event}

/-- An event that runs to its end, and its answer; nothing happens through a handle that is not
there. -/
def complete (root : Location) (w : World) (event : Event) (now : Instant) :
    World × Option (Except TableError Answer) :=
  (w.step root ⟨event, now, none⟩,
    (event.script? now w.handles).map fun script => (script.run root w.files).1.1)

def move (root : Location) (w : World) : Move → World × Option (Except TableError Answer)
  | .event event now => w.complete root event now
  | .append .direct handle added now => w.complete root (.call handle (.append added)) now
  | .append .staged handle added now =>
    match w.complete root (.call handle (.stage added)) now with
    | (w, some (.ok (.path path))) => w.complete root (.call handle (.appendManifests [path])) now
    | failed => failed

/-- The world after some moves, and their answers. -/
def play (root : Location) (w : World) : List Move → World × List (Option (Except TableError Answer))
  | [] => (w, [])
  | m :: ms =>
    let rest := (w.move root m).1.play root ms
    (rest.1, (w.move root m).2 :: rest.2)

/-! ### Events -/

theorem complete_of_no_script (hscript : event.script? now w.handles = none) :
    w.complete root event now = (w, none) := by
  rw [complete, @step_of_no_script _ _ ⟨event, now, none⟩ hscript, hscript]
  rfl

theorem script?_of_no_handle (hnone : w.handles handle = none) :
    (Event.call handle call).script? now w.handles = none := by
  rw [Event.script?, hnone]
  rfl

theorem complete_of_script {script : Script (Except TableError Answer × Option Table)}
    (hscript : event.script? now w.handles = some script)
    {result : Except TableError Answer} {u : Option Table}
    (hrun : script.run root w.files = ((result, u), after)) :
    w.complete root event now = (⟨after, w.setHandle event.handle u,
      ⟨event, w.handles event.handle, result, u⟩ :: w.history,
      w.requests ++ script.requests root w.files⟩, some result) := by
  rw [complete, @step_of_end _ _ _ ⟨event, now, none⟩ _ rfl hscript _ _ hrun, wants]
  simp only [hscript, Option.map_some, hrun]

theorem requests_complete : (w.complete root event now).1.requests =
    w.requests ++ w.wants root ⟨event, now, none⟩ := by
  cases hscript : event.script? now w.handles with
  | none => rw [complete_of_no_script hscript, wants, hscript, List.append_nil]
  | some script =>
    rcases hrun : script.run root w.files with ⟨⟨result, u⟩, after⟩
    rw [complete_of_script hscript hrun, wants]
    simp only [hscript]

theorem requests_call (ht : w.handles handle = some t) :
    w.wants root ⟨.call handle call, now, none⟩ =
      ((call.run now).run.run t).requests root w.files := by
  simp only [wants, Event.script?, ht, Option.map_some, requests_bind]
  exact List.append_nil _

theorem complete_call (ht : w.handles handle = some t) {result : Except TableError Answer} {u : Table}
    (hrun : (call.run now).perform root t w.files = ((result, u), after)) :
    w.complete root (.call handle call) now = (⟨after, w.setHandle handle (some u),
      ⟨.call handle call, some t, result, some u⟩ :: w.history,
      w.requests ++ w.wants root ⟨.call handle call, now, none⟩⟩, some result) := by
  have hscript := @script?_of_call t w now handle call ht
  rw [TableM.perform] at hrun
  have hall : ((call.run now).run.run t >>= fun r => pure (r.1, some r.2)).run root w.files =
      ((result, some u), after) := by
    rw [run_bind, hrun, run_pure]
  rw [complete_of_script hscript hall, wants]
  simp only [hscript, Event.handle, ht]

theorem asked_complete (h : ∀ r ∈ w.requests, asked r)
    (hwants : ∀ r ∈ w.wants root ⟨event, now, none⟩, asked r) :
    ∀ r ∈ (w.complete root event now).1.requests, asked r := by
  intro r hr
  rw [requests_complete] at hr
  exact (List.mem_append.1 hr).elim (h r) (hwants r)

/-- What the operation stores, a call stores that is it. -/
theorem storesOnly_wants {admitted : String → ByteArray → Prop} (ht : w.handles handle = some t)
    (h : TableM.Asks admitted root (call.run now) t w.files) :
    ∀ r ∈ w.wants root ⟨.call handle call, now, none⟩, r.StoresOnly admitted := by
  rw [requests_call ht]
  exact h

/-! ### Latest copies -/

/-- The handle has the table of the whole log, all of which is current, and all files and requests
are admitted. -/
structure Latest (asked : Request → Prop) (root : Location) (w : World) (handle : Nat)
    (commits : List Commit) (t : Table) : Prop where
  chain : Chain root w.files commits commits.length
  table : tableAfter? commits = some t
  copy : w.handles handle = some t
  supplied : w.files.Supplied asked root
  asks : ∀ r ∈ w.requests, asked r

namespace Latest

theorem read (h : w.Latest asked root handle commits t) :
    perform root Table.loadLatest w.files = (.ok t, w.files) :=
  h.chain.perform_loadLatest (pos_of_table h.table) (by rw [List.take_length]; exact h.table)

/-- What a call that commits leaves is the latest copy again. -/
theorem wrote (h : w.Latest asked root handle commits t)
    (hwants : ∀ r ∈ w.wants root ⟨.call handle call, now, none⟩, asked r) {a : Answer} {u : Table}
    (hrun : (call.run now).perform root t w.files = ((.ok a, u), after)) {actions : List Action}
    (hwrote : Wrote root commits commits.length actions t u after)
    (hgrows : w.files.Grows asked root after) :
    ∃ w₁ c, w.complete root (.call handle call) now = (w₁, some (.ok a)) ∧ w₁.files = after ∧
      w₁.Latest asked root handle (commits ++ [c]) u := by
  have hcomplete := complete_call h.copy hrun
  have hasks := @asked_complete _ root now w _ h.asks hwants
  rw [hcomplete] at hasks
  obtain ⟨c, -, hchain, htable⟩ := hwrote.written
  refine ⟨_, c, hcomplete, rfl, ?_, htable, if_pos rfl, h.supplied.grows hgrows, hasks⟩
  rw [List.length_append, List.length_singleton]
  exact hchain

/-- A change that is planned for the latest copy succeeds. -/
theorem change (h : w.Latest asked root handle commits t) (hroom : root.Roomy)
    (hmore : commits.length + 1 < UInt64.size) {change : Change}
    (hchange : call.change? t = some change) (hbase : t.currentId = change.base) {p : Table.Plan}
    (hplanned : Table.Planned root w.files t change.operation change.changes p)
    (hwants : ∀ r ∈ w.wants root ⟨.call handle call, now, none⟩, asked r) :
    ∃ s u w₁ c, w.complete root (.call handle call) now = (w₁, some (.ok (.snapshot s))) ∧
      w₁.Latest asked root handle (commits ++ [c]) u ∧ w.files.Grows asked root w₁.files ∧
      Table.Committed asked root commits commits.length change.base change.operation change.changes
        now w.files t p s u w₁.files := by
  have hasked := hwants
  rw [requests_call h.copy] at hasked
  obtain ⟨_, u, after, hrun, ⟨s, rfl, hcommitted⟩, hproceeds⟩ :=
    (Call.change_succeeds h.chain ⟨hroom, rfl, hmore⟩ hchange h.read hbase hplanned).proceeds.succeeds
      hasked fun _ _ _ hfailed => hfailed.1
  simp only [contract] at hrun
  obtain ⟨w₁, c, hcomplete, rfl, hlatest⟩ := h.wrote hwants hrun hcommitted.wrote hproceeds.grows
  exact ⟨s, u, w₁, c, hcomplete, hlatest, hproceeds.grows, hcommitted⟩

/-- A snapshot of the latest copy can be made current. -/
theorem setCurrent (h : w.Latest asked root handle commits t) (hroom : root.Roomy)
    (hmore : commits.length + 1 < UInt64.size) {target : SnapshotId}
    (hin : t.snapshots.contains target = true)
    (hwants : ∀ r ∈ w.wants root ⟨.call handle (.setCurrent target), now, none⟩, asked r) :
    ∃ u w₁ c, w.complete root (.call handle (.setCurrent target)) now = (w₁, some (.ok .done)) ∧
      w₁.Latest asked root handle (commits ++ [c]) u ∧ w.files.Grows asked root w₁.files ∧
      Wrote root commits commits.length [.moveCurrent target none now] t u w₁.files := by
  have hasked := hwants
  rw [requests_call h.copy] at hasked
  have hperforms : (contract asked root).Performs (Call.run now (.setCurrent target)) t w.files
      (fun a u after => a = .done ∧
        Wrote root commits commits.length [.moveCurrent target none now] t u after)
      (fun _ _ _ => False) :=
    Performs.map ((Table.setCurrent_succeeds h.chain ⟨hroom, rfl, hmore⟩ h.read hin now).mono
      (fun _ _ _ hwrote => ⟨rfl, hwrote⟩) fun _ _ _ hfailed => hfailed)
  obtain ⟨_, u, after, hrun, ⟨rfl, hwrote⟩, hproceeds⟩ :=
    hperforms.proceeds.succeeds hasked fun _ _ _ hfailed => hfailed.1
  simp only [contract] at hrun
  obtain ⟨w₁, c, hcomplete, rfl, hlatest⟩ := h.wrote hwants hrun hwrote hproceeds.grows
  exact ⟨u, w₁, c, hcomplete, hlatest, hproceeds.grows, hwrote⟩

/-- Nothing is added from a path under which there is nothing. -/
theorem refuses (h : w.Latest asked root handle commits t) {path : String}
    (hnone : w.files.content? root path = none) :
    ∃ e w₁, w.complete root (.call handle (.appendManifests [path])) now = (w₁, some (.error e)) ∧
      w₁.handles handle = some t := by
  have hchange : (Call.appendManifests [path]).change? t =
      some ⟨t.currentId, .append, .adopting [path]⟩ := rfl
  have hadmits : ∀ r ∈ ((Call.run now (.appendManifests [path])).run.run t).requests root w.files,
      everything r := fun _ _ => trivial
  have hperforms := @Call.performs_change everything root w.files commits commits.length t now _ h.chain
    _ hchange
  -- A plan would have read the manifest.
  have hunplanned : ∀ u p, ¬ Table.Planned root w.files u .append (.adopting [path]) p := by
    intro u p hplanned
    have hin : path ∈ p.staged.map Table.Staged.path := by
      rw [← hplanned.stagedPaths]
      exact List.mem_singleton.2 rfl
    obtain ⟨r, hr, hpath⟩ := List.mem_map.1 hin
    obtain ⟨hread, -⟩ := Table.perform_readStaged_iff.1 (hplanned.staged r hr)
    obtain ⟨c, hc, -⟩ := FileM.perform_readJson_iff.1 hread
    rw [hpath, hnone] at hc
    exact absurd hc (by simp)
  obtain ⟨e, u, after, hrun, hfailed, -⟩ := hperforms.fails hadmits
    fun _ _ _ ⟨_, v, p, _, hcommitted⟩ => hunplanned v p hcommitted.planned
  have hcopy : u = t := by
    rcases hfailed.copy with hsame | hread
    · exact hsame
    · exact Except.ok.inj (Prod.mk.inj (hread.symm.trans h.read)).1
  simp only [contract] at hrun
  exact ⟨e, _, complete_call h.copy hrun, (if_pos rfl).trans (congrArg some hcopy)⟩

theorem mono {asked' : Request → Prop} (h : w.Latest asked root handle commits t)
    (himp : ∀ r, asked r → asked' r) : w.Latest asked' root handle commits t := by
  refine ⟨h.chain, h.table, h.copy, fun path c hpath hne hc => ?_, fun r hr => himp r (h.asks r hr)⟩
  obtain ⟨hasked, hcreation⟩ := h.supplied path c hpath hne hc
  exact ⟨himp _ hasked, hcreation⟩

end Latest

/-- Where there is no table, below a root with room, one can be made. -/
theorem complete_create (h : Chain root w.files [] 0) (hroom : root.Roomy)
    (hsupplied : w.files.Supplied asked root) (hasks : ∀ r ∈ w.requests, asked r) (handle : Nat)
    (m : Metadata) (hwants : ∀ r ∈ w.wants root ⟨.create handle m, now, none⟩, asked r) :
    ∃ w₁ c, w.complete root (.create handle m) now = (w₁, some (.ok .done)) ∧
      w₁.Latest asked root handle [c] (.new 1 m) := by
  have hopen : Open root [] 0 := ⟨hroom, rfl, by decide⟩
  have hdone := (@Event.create_ensures asked root w.files now h hopen m
    (w.handles handle)).proceeds.run hwants
  rcases hrun : (Event.handleOf (w.handles handle) (Table.create m now)).run root w.files
    with ⟨result, after⟩
  simp only [contract, hrun] at hdone
  obtain ⟨⟨rfl, c, hchain, htable⟩, hproceeds⟩ := hdone
  have hcomplete := @complete_of_script root after now w (.create handle m) _ rfl _ _ hrun
  have hall := @asked_complete _ root now w _ hasks hwants
  rw [hcomplete] at hall
  exact ⟨_, c, hcomplete, hchain, htable, if_pos rfl, hsupplied.grows hproceeds.grows, hall⟩

/-! ### Appends -/

theorem requests_prefix_complete (w : World) (event : Event) (now : Instant) :
    w.requests <+: (w.complete root event now).1.requests := by
  rw [requests_complete]
  exact List.prefix_append _ _

/-- What staging asks for is asked for by an append that stages. -/
theorem requests_prefix_stage (w : World) (handle : Nat) (added : List DataFile) (now : Instant) :
    (w.complete root (.call handle (.stage added)) now).1.requests <+:
      (w.move root (.append .staged handle added now)).1.requests := by
  rw [move]
  split
  next w₁ path hstaged =>
    rw [hstaged]
    exact requests_prefix_complete w₁ _ now
  next => exact List.prefix_refl _

theorem requests_prefix_move (w : World) (m : Move) : w.requests <+: (w.move root m).1.requests := by
  cases m with
  | event event now => exact requests_prefix_complete w event now
  | append way handle added now =>
    cases way with
    | direct => exact requests_prefix_complete w _ now
    | staged => exact (requests_prefix_complete w _ now).trans (requests_prefix_stage w handle added now)

theorem move_append_of_none {way : Way} {added : List DataFile} (hnone : w.handles handle = none) :
    w.move root (.append way handle added now) = (w, none) := by
  cases way with
  | direct => exact complete_of_no_script (script?_of_no_handle hnone)
  | staged => rw [move, complete_of_no_script (script?_of_no_handle hnone)]

/-- Below a root with room, files can be staged, and their manifest is found under its path. -/
theorem complete_stage (h : Chain root w.files commits current) (hroom : root.Roomy)
    (hsupplied : w.files.Supplied asked root) (hclear : Unambiguous asked)
    (ht : w.handles handle = some t) {added : List DataFile}
    (hasked : ∀ r ∈ w.wants root ⟨.call handle (.stage added), now, none⟩, asked r) :
    ∃ w₁, w.complete root (.call handle (.stage added)) now = (w₁, some (.ok (.path
        (Layout.stagedPath (FileM.manifestContent (Table.stagedManifest t.spec added)))))) ∧
      w₁.handles = w.handles ∧ Chain root w₁.files commits current ∧
      w.files.Grows asked root w₁.files ∧
      w₁.files.content? root
          (Layout.stagedPath (FileM.manifestContent (Table.stagedManifest t.spec added))) =
        some (FileM.manifestContent (Table.stagedManifest t.spec added)) := by
  rw [requests_call ht] at hasked
  have hperforms : (contract asked root).Performs (Call.run now (.stage added)) t w.files
      (fun a t₁ files₁ => t = t₁ ∧ Chain root files₁ commits current ∧
        w.files.Grows asked root files₁ ∧ ∃ path, a = .path path ∧
          path = Layout.stagedPath (FileM.manifestContent (Table.stagedManifest t.spec added)) ∧
          files₁.content? root path = some (FileM.manifestContent (Table.stagedManifest t.spec added)))
      (fun _ _ _ => False) := by
    refine Performs.map ((Table.stage_performs_of_room h hroom hsupplied hclear
      added).proceeds.mono ?_ fun _ _ _ hfailed => hfailed.1)
    rintro path t₁ files₁ ⟨⟨hsame, hchain, hpath, hcontent⟩, hproceeds⟩
    exact ⟨hsame, hchain, hproceeds.grows, path, rfl, hpath, hcontent⟩
  obtain ⟨_, _, files₁, hrun, rfl, hchain, hgrows, path, rfl, rfl, hcontent⟩ :=
    hperforms.succeeds hasked fun _ _ _ => id
  have hkept : w.setHandle handle (some t) = w.handles := by
    funext other
    rw [setHandle]
    split
    next hsame => rw [hsame, ht]
    next => rfl
  simp only [contract] at hrun
  exact ⟨_, complete_call ht hrun, hkept, hchain, hgrows, hcontent⟩

/-- Files can be staged through the latest copy, which stays the latest. -/
theorem Latest.stage (h : w.Latest asked root handle commits t) (hroom : root.Roomy)
    (hclear : Unambiguous asked) {added : List DataFile}
    (hwants : ∀ r ∈ w.wants root ⟨.call handle (.stage added), now, none⟩, asked r) :
    ∃ w₁, w.complete root (.call handle (.stage added)) now = (w₁, some (.ok (.path
        (Layout.stagedPath (FileM.manifestContent (Table.stagedManifest t.spec added)))))) ∧
      w₁.Latest asked root handle commits t ∧ w.files.Grows asked root w₁.files ∧
      w₁.files.content? root
          (Layout.stagedPath (FileM.manifestContent (Table.stagedManifest t.spec added))) =
        some (FileM.manifestContent (Table.stagedManifest t.spec added)) := by
  obtain ⟨w₁, hcomplete, hhandles, hchain, hgrows, hcontent⟩ :=
    complete_stage h.chain hroom h.supplied hclear h.copy hwants
  have hasks := @asked_complete _ root now w _ h.asks hwants
  rw [hcomplete] at hasks
  exact ⟨w₁, hcomplete, ⟨hchain, h.table, hhandles ▸ h.copy, h.supplied.grows hgrows, hasks⟩, hgrows,
    hcontent⟩

/-- In the world `w₁` everything is ready that a change by the call brings. -/
structure Poised (asked : Request → Prop) (root : Location) (commits : List Commit) (current : Nat)
    (w : World) (t : Table) (added : List DataFile) (w₁ : World) (call : Call)
    (changes : FileChanges) : Prop where
  handles : w₁.handles = w.handles
  chain : Chain root w₁.files commits current
  grows : w.files.Grows asked root w₁.files
  change : call.change? t = some ⟨t.currentId, .append, changes⟩
  brings : Table.Brings root w₁.files t.spec added changes

/-- Either way, an append comes down to a change that brings the files, and that asks for nothing
before but the manifest in which they are staged. -/
theorem exists_poised {way : Way} {added : List DataFile} (h : Chain root w.files commits current)
    (hroom : root.Roomy) (hsupplied : w.files.Supplied asked root) (hclear : Unambiguous asked)
    (ht : w.handles handle = some t)
    (hasked : ∀ r ∈ (w.move root (.append way handle added now)).1.requests, asked r) :
    ∃ w₁ call changes, w.move root (.append way handle added now) =
      w₁.complete root (.call handle call) now ∧
      Poised asked root commits current w t added w₁ call changes := by
  cases way with
  | direct =>
    exact ⟨w, .append added, .adding added, rfl, rfl, h, .refl _ _ _, rfl, .adding _ _ _ _⟩
  | staged =>
    have hstage : ∀ r ∈ w.wants root ⟨.call handle (.stage added), now, none⟩, asked r := by
      intro r hr
      refine hasked r ((requests_prefix_stage w handle added now).mem ?_)
      rw [requests_complete]
      exact List.mem_append_right _ hr
    obtain ⟨w₁, hstaged, hhandles, hchain, hgrows, hcontent⟩ :=
      complete_stage h hroom hsupplied hclear ht hstage
    rw [move, hstaged]
    exact ⟨w₁, _, _, rfl, hhandles, hchain, hgrows, rfl, .adopting hcontent⟩

theorem play_concat (w : World) (ms : List Move) (m : Move) : w.play root (ms ++ [m]) =
    (((w.play root ms).1.move root m).1,
      (w.play root ms).2 ++ [((w.play root ms).1.move root m).2]) := by
  induction ms generalizing w with
  | nil => rfl
  | cons first ms ih => rw [List.cons_append, play, ih, play, List.cons_append]

theorem requests_prefix_play (w : World) (ms : List Move) :
    w.requests <+: (w.play root ms).1.requests := by
  induction ms generalizing w with
  | nil => exact List.prefix_refl _
  | cons m ms ih => exact (requests_prefix_move w m).trans (ih (w.move root m).1)

end World

end Lakehouse
