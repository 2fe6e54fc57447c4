import Lakehouse.Proofs.Run.Records
import Lakehouse.Proofs.Table.Typing

/- The types of live files.

   An intake makes the values of its files for the schema; what else comes to a table is passed on
   as it is, and no operation compares its values with the schema. So the live files of a table have
   the types of its columns as long as the files that are brought to it have them, and then a row
   filter compares values of one type only (`World.live_files_are_typed`). That the files are so
   cannot be left out: a file is accepted with a value that is not of the type of its column, and a
   filter that is bound to the schema is then answered by the order of the types
   (`World.long_is_compared_with_int`). -/
namespace Lakehouse

open Calendar (Instant)
open Log Script

variable {asked : Request → Prop} {schema : Schema} {spec : PartitionSpec} {root : Location}
  {files : Tree} {t u : Table} {now : Instant} {α : Type}

namespace Call

/-- The descriptions of files that come with a call. -/
def offers : Call → List DataFile
  | stage added => added
  | commit _ _ changes => changes.added
  | append added => added
  | overwrite _ added => added
  | _ => []

variable {call : Call} {change : Change}

theorem offers_of_change (h : call.change? t = some change) : call.offers = change.changes.added := by
  cases call with
  | commit | append | appendManifests | deleteFiles | deleteWhere | overwrite =>
    obtain rfl := Option.some.inj h
    rfl
  | _ => exact absurd h (by simp [change?])

theorem asks_of_change {admitted : String → ByteArray → Prop} (hchange : call.change? t = some change)
    (h : TableM.Asks admitted root
      (Table.commit change.base change.operation change.changes now) t files) :
    TableM.Asks admitted root (call.run now) t files := by
  rw [TableM.Asks, run_of_change hchange]
  exact h.map

theorem asks_typed_of_change (hfiles : files.IsTyped schema spec)
    (hoffers : ∀ f ∈ call.offers, f.IsTyped schema spec) (hchange : call.change? t = some change) :
    TableM.Asks (fun _ => Form.IsTyped schema spec) root (call.run now) t files :=
  asks_of_change hchange
    (Table.commit_asks_typed hfiles _ _ (offers_of_change hchange ▸ hoffers))

/-- Through a copy with the schema and the spec, a call stores typed contents only. -/
theorem asks_typed (hfiles : files.IsTyped t.schema t.spec) (call : Call)
    (hoffers : ∀ f ∈ call.offers, f.IsTyped t.schema t.spec) :
    TableM.Asks (fun _ => Form.IsTyped t.schema t.spec) root (call.run now) t files := by
  cases call with
  | refresh => exact .map Table.refresh_asks
  | stage added => exact .map (Table.stage_asks_typed hoffers)
  | rollback target => exact .map (Table.rollback_asks target now)
  | setCurrent target => exact .map (Table.setCurrent_asks target now)
  | updateProperties => exact .map (.get (Table.commitActions_asks _ _ _))
  | intake directory => exact .map (Table.intake_asks_typed hfiles directory)
  | commit => exact asks_typed_of_change hfiles hoffers rfl
  | append => exact asks_typed_of_change hfiles hoffers rfl
  | appendManifests => exact asks_typed_of_change hfiles hoffers rfl
  | deleteFiles => exact asks_typed_of_change hfiles hoffers rfl
  | deleteWhere => exact asks_typed_of_change hfiles hoffers rfl
  | overwrite => exact asks_typed_of_change hfiles hoffers rfl

end Call

namespace Event

/-- The descriptions of files that come with an event. -/
def offers : Event → List DataFile
  | call _ c => c.offers
  | _ => []

/-- If all handles have the schema and the spec, an event stores typed contents only. -/
theorem asks_typed {handles : Nat → Option Table} {event : Event}
    {script : Script (Except TableError Answer × Option Table)}
    (hfiles : files.IsTyped schema spec)
    (hcopies : ∀ handle t, handles handle = some t → t.schema = schema ∧ t.spec = spec)
    (hoffers : ∀ f ∈ event.offers, f.IsTyped schema spec)
    (hscript : event.script? now handles = some script) :
    ∀ r ∈ script.requests root files, r.StoresOnly fun _ => Form.IsTyped schema spec := by
  cases event with
  | create handle metadata =>
    obtain rfl := Option.some.inj hscript
    exact (handleOf_yields (Table.create_asks metadata now)).of_mem_requests
  | openTable handle =>
    obtain rfl := Option.some.inj hscript
    exact (handleOf_yields (.of_reads Table.reads_openLatest)).of_mem_requests
  | copy source handle =>
    obtain ⟨t, -, rfl⟩ := Option.map_eq_some_iff.1 hscript
    exact fun r hr => absurd hr List.not_mem_nil
  | call handle c =>
    obtain ⟨t, ht, rfl⟩ := Option.map_eq_some_iff.1 hscript
    obtain ⟨rfl, rfl⟩ := hcopies handle t ht
    intro r hr
    rw [requests_bind] at hr
    rcases List.mem_append.1 hr with hr | hr
    · exact c.asks_typed hfiles hoffers r hr
    · exact absurd hr List.not_mem_nil

end Event

/-- A script that stores typed contents leaves a typed tree, also if there is a limit. -/
theorem Tree.IsTyped.runWithin (h : files.IsTyped schema spec) {s : Script α}
    (hs : ∀ r ∈ s.requests root files, r.StoresOnly fun _ => Form.IsTyped schema spec)
    (limit : Option Nat) : (s.runWithin root limit files).2.IsTyped schema spec := by
  cases limit with
  | none => exact (h.run hs).1
  | some n => exact (h.run hs).2 n

namespace World

variable {w : World} {turn : Turn} {turns : List Turn} {id : SnapshotId} {s : Snapshot}

theorem typed_step (hfiles : w.files.IsTyped schema spec)
    (hcopies : ∀ handle t, w.handles handle = some t → t.schema = schema ∧ t.spec = spec)
    (hoffers : ∀ f ∈ turn.event.offers, f.IsTyped schema spec) :
    (w.step root turn).files.IsTyped schema spec := by
  cases hscript : turn.event.script? turn.now w.handles with
  | none => rwa [step_of_no_script hscript]
  | some script =>
    have hafter : (script.runWithin root turn.limit w.files).2.IsTyped schema spec :=
      hfiles.runWithin (turn.event.asks_typed hfiles hcopies hoffers hscript) turn.limit
    rcases hrun : script.runWithin root turn.limit w.files with ⟨_ | ⟨result, t⟩, files'⟩
    · rw [step_of_stop hscript hrun]
      rwa [hrun] at hafter
    · rw [step_of_done hscript hrun]
      rwa [hrun] at hafter

/-- All copies in a run are of the table that its log has at the end. -/
theorem same_columns (hvacant : files.Vacant root) {before rest : List Turn} {handle : Nat}
    (hcopy : (run root (start files) before).handles handle = some u)
    (ht : (run root (start files) (before ++ rest)).Has root t) :
    u.schema = t.schema ∧ u.spec = t.spec := by
  obtain ⟨commits, current, hordered⟩ := ordered_run hvacant before
  obtain ⟨commits', current', hordered', hbegins, -⟩ := hordered.run rest
  rw [← run_append] at hordered'
  obtain ⟨first, hfirst, hextends⟩ :=
    hordered.chain.exists_last (hordered.replicas handle u hcopy).table
  obtain ⟨last, hlast, hextends'⟩ := hordered'.chain.exists_last (hordered'.table_of_has ht).2
  -- Which of the two is older is not known, but the last table of the log extends both.
  have hbetween := extends_of_begins hbegins hfirst hlast
  exact ⟨(hextends.schema.symm.trans (hbetween.schema.symm.trans hextends'.schema)),
    (hextends.spec.symm.trans (hbetween.spec.symm.trans hextends'.spec))⟩

/-- If all that was there and all that is brought is typed, so are the files after every run. -/
theorem typed_run (hvacant : files.Vacant root) (ht : (run root (start files) turns).Has root t)
    (hfiles : files.IsTyped t.schema t.spec)
    (hoffers : ∀ turn ∈ turns, ∀ f ∈ turn.event.offers, f.IsTyped t.schema t.spec) :
    (run root (start files) turns).files.IsTyped t.schema t.spec := by
  refine run_turns_induction (w := start files) (p := fun w => w.files.IsTyped t.schema t.spec)
    turns hfiles fun before turn hbefore htyped => ?_
  refine typed_step htyped (fun handle u hcopy => ?_) (hoffers turn (hbefore.subset (by simp)))
  obtain ⟨rest, rfl⟩ := (List.prefix_append before [turn]).trans hbefore
  exact same_columns hvacant hcopy ht

/-! ### Live files -/

/-- In every run, with any number of handles, failures and stops, all live files of all snapshots
have the types of the columns: each slot is empty or has a value of the type of its source column,
and the bounds of each column are of its type. So whatever filter is bound to the schema, no
comparison of it with a live file is of values of different types. It is assumed that the files
that come with the turns are so, and the manifests that lay there before. That the files of each
snapshot can be listed is known if the contents which the turns ask to be stored can be told apart
by their names. -/
theorem live_files_are_typed (hvacant : files.Vacant root) (turns : List Turn)
    (ht : (run root (start files) turns).Has root t) (hs : t.snapshots.find? id = some s)
    (hbefore : files.IsTyped t.schema t.spec)
    (hoffers : ∀ turn ∈ turns, ∀ f ∈ turn.event.offers, f.IsTyped t.schema t.spec) :
    (∀ listed files', perform root (t.files (some id)) (run root (start files) turns).files =
        (.ok listed, files') → ∀ f ∈ listed, f.IsTyped t.schema t.spec ∧
      ∀ (filter : Filter) bound, filter.bind t.schema = .ok bound →
        bound.might? (f.evidence t.spec) = some (bound.mightMatch t.spec f) ∧
        bound.always? (f.evidence t.spec) = some (bound.allRowsMatch t.spec f)) ∧
    ∀ asked, Unambiguous asked →
      (∀ before turn, before ++ [turn] <+: turns →
        ∀ r ∈ (run root (start files) before).wants root turn, asked r) →
      ∃ listed, perform root (t.files (some id)) (run root (start files) turns).files =
        (.ok listed, (run root (start files) turns).files) := by
  constructor
  · intro listed files' hlisted f hf
    obtain ⟨ms, hloads, rfl⟩ := Table.loads_of_files hs hlisted
    have htyped := isTyped_of_mem_liveFiles ((typed_run hvacant ht hbefore hoffers).loads hloads) hf
    exact ⟨htyped, fun filter bound hbound => htyped.answers hbound⟩
  · intro asked hclear hasked
    obtain ⟨commits, current, hordered, -, -, htraces⟩ := traced_run hvacant turns hasked
    obtain ⟨_, u, p, -, -, -, -, -, hmade⟩ := made_of_registered hclear htraces _ t
      (hordered.table_of_has ht).2 id s hs
    exact ⟨_, Table.perform_files hs hmade.loads⟩

/-! ### A first file with a slot -/

/-- What a table is made with that has one column, of ints, and is partitioned by it. -/
def onInts : Metadata :=
  ⟨⟨[⟨1, "id", .int, true⟩], List.pairwise_singleton _ _⟩, ⟨0, [⟨1, 1000, "id"⟩]⟩, .empty, default, 1⟩

/-- A file with the value in its slot. -/
def slotFile (d : Datum) : DataFile := .withoutMetrics "data/first.parquet" [some d] 3 100

/-- The file is appended to a new table. What this comes to is to be proved and not evaluated. -/
@[irreducible]
def slotAppended (d : Datum) : List Turn :=
  [⟨.create 0 onInts, default, none⟩, ⟨.call 0 (.append [slotFile d]), default, none⟩]

/-- The table with the file. -/
def withSlot (d : Datum) : Table :=
  (Table.new 1 onInts).afterPlan (.first [slotFile d]) .append default

/-- The rows whose id is greater than ten. -/
def aboveTen : Filter := .compare .gt "id" (.int 10)

/-- The file is accepted, whatever its slot has. -/
theorem slotAppended_lists (d : Datum) :
    (run ⟨"."⟩ (start .empty) (slotAppended d)).handles 0 = some (withSlot d) ∧
    Unambiguous (· ∈ (run ⟨"."⟩ (start .empty) (slotAppended d)).requests) ∧
      perform ⟨"."⟩ ((withSlot d).files (some SnapshotId.first))
          (run ⟨"."⟩ (start .empty) (slotAppended d)).files =
        (.ok [slotFile d], (run ⟨"."⟩ (start .empty) (slotAppended d)).files) := by
  have hclear : Unambiguous (Request.StoresOnly ((Table.Plan.first [slotFile d]).Stores onInts.spec
      onInts.properties.inheritsSnapshotIds)) :=
    .of_storesOnly (fun _ h => h) fun _ _ _ => Table.Plan.Stores.unique_first
  have hplanned : ∀ files, Table.Planned ⟨"."⟩ files (.new 1 onInts) .append
      (.adding [slotFile d]) (.first [slotFile d]) := fun files =>
    .first rfl Operation.noConfusion rfl rfl rfl
  obtain ⟨hmade, -⟩ := Stands.create Tree.vacant_empty roomy_here onInts default
  obtain ⟨hstands, -⟩ := hmade.change (.append [slotFile d]) roomy_here hclear
    (by decide : 1 + 1 < UInt64.size) rfl (hplanned _) (fun _ _ h => h) default
  have hrun : run ⟨"."⟩ (start .empty) (slotAppended d) = ((start .empty).step ⟨"."⟩
      ⟨.create 0 onInts, default, none⟩).step ⟨"."⟩ ⟨.call 0 (.append [slotFile d]), default, none⟩ := by
    rw [slotAppended, run, List.foldl_cons, List.foldl_cons, List.foldl_nil]
  rw [← hrun] at hstands
  have hid : (withSlot d).currentId = some SnapshotId.first := rfl
  have hfind : (withSlot d).snapshots.find? SnapshotId.first =
      some ((Table.new 1 onInts).snapshotOf (.first [slotFile d]) .append default) := rfl
  exact ⟨hstands.copy, hstands.unambiguous hclear,
    Table.perform_files hfind (hstands.loads_current hid hfind)⟩

theorem slotFile_isTyped_iff {d : Datum} :
    (slotFile d).IsTyped onInts.schema onInts.spec ↔ d.type = .int := by
  constructor
  · intro h
    exact h.slots 0 _ ⟨1, "id", .int, true⟩ d rfl rfl rfl
  · intro hd
    refine ⟨fun slot p field v hp hfield hv => ?_, fun _ _ b hb => absurd hb (by simp [slotFile,
      DataFile.withoutMetrics]), fun _ _ b hb => absurd hb (by simp [slotFile, DataFile.withoutMetrics])⟩
    obtain ⟨hlt, rfl⟩ := List.getElem?_eq_some_iff.1 hp
    obtain rfl : slot = 0 := Nat.lt_one_iff.1 hlt
    obtain rfl : (⟨1, "id", .int, true⟩ : Field) = field := Option.some.inj hfield
    obtain rfl : d = v := Option.some.inj hv
    exact hd

theorem live_files_are_typed_intSlot :
    Metadata.create onInts.schema onInts.spec default = .ok onInts ∧
    Tree.empty.Vacant ⟨"."⟩ ∧ Tree.empty.IsTyped onInts.schema onInts.spec ∧
    (∀ turn ∈ slotAppended (.int 5), ∀ f ∈ turn.event.offers,
      f.IsTyped onInts.schema onInts.spec) ∧
    Unambiguous (· ∈ (run ⟨"."⟩ (start .empty) (slotAppended (.int 5))).requests) ∧
    ∃ t bound, (run ⟨"."⟩ (start .empty) (slotAppended (.int 5))).handles 0 = some t ∧
      t.metadata = onInts ∧ perform ⟨"."⟩ (t.files (some SnapshotId.first))
          (run ⟨"."⟩ (start .empty) (slotAppended (.int 5))).files =
        (.ok [slotFile (.int 5)], (run ⟨"."⟩ (start .empty) (slotAppended (.int 5))).files) ∧
      (slotFile (.int 5)).IsTyped onInts.schema onInts.spec ∧
      aboveTen.bind onInts.schema = .ok bound ∧
      bound.always? ((slotFile (.int 5)).evidence onInts.spec) = some false := by
  obtain ⟨hcopy, hclear, hlisted⟩ := slotAppended_lists (.int 5)
  have hfind : (withSlot (.int 5)).snapshots.find? SnapshotId.first = some ((Table.new 1 onInts).snapshotOf
      (.first [slotFile (.int 5)]) .append default) := rfl
  have hempty : Tree.empty.IsTyped onInts.schema onInts.spec := Tree.isTyped_empty
  have hoffers : ∀ turn ∈ slotAppended (.int 5), ∀ f ∈ turn.event.offers,
      f.IsTyped onInts.schema onInts.spec := by
    rw [slotAppended]
    simp only [List.mem_cons, List.not_mem_nil, or_false, forall_eq_or_imp, forall_eq, Event.offers,
      Call.offers, false_imp_iff, implies_true, true_and]
    exact slotFile_isTyped_iff.2 rfl
  have hends : ∀ turn ∈ slotAppended (.int 5), turn.limit = none := by
    simp [slotAppended]
  have hall := live_files_are_typed Tree.vacant_empty (slotAppended (.int 5)) (.kept hcopy) hfind hempty
    hoffers
  obtain ⟨listed, hread⟩ := hall.2 _ hclear fun _ _ => wants_mem_requests hends
  obtain rfl := Except.ok.inj (Prod.mk.inj (hlisted.symm.trans hread)).1
  obtain ⟨htyped, hanswers⟩ := hall.1 _ _ hread (slotFile (.int 5)) (by simp)
  have hnever : BoundFilter.allRowsMatch (.compare .gt 1 (.int 10)) onInts.spec (slotFile (.int 5)) =
      false := by decide
  exact ⟨rfl, Tree.vacant_empty, hempty, hoffers, hclear, _, _, hcopy, rfl, hread, htyped, rfl,
    hnever ▸ (hanswers aboveTen _ rfl).2⟩

/-- A file with a long in the slot of a column of ints is live after it was offered, and the filter
for ids above ten is true of all its rows, although the long is five: any long comes behind any int.
No answer would be given if only values of one type were compared. -/
theorem long_is_compared_with_int :
    Metadata.create onInts.schema onInts.spec default = .ok onInts ∧
    ∃ t bound, (run ⟨"."⟩ (start .empty) (slotAppended (.long 5))).handles 0 = some t ∧
      t.metadata = onInts ∧ perform ⟨"."⟩ (t.files (some SnapshotId.first))
          (run ⟨"."⟩ (start .empty) (slotAppended (.long 5))).files =
        (.ok [slotFile (.long 5)], (run ⟨"."⟩ (start .empty) (slotAppended (.long 5))).files) ∧
      ¬ (slotFile (.long 5)).IsTyped onInts.schema onInts.spec ∧
      aboveTen.bind onInts.schema = .ok bound ∧
      bound.allRowsMatch onInts.spec (slotFile (.long 5)) = true ∧
      bound.always? ((slotFile (.long 5)).evidence onInts.spec) = none := by
  obtain ⟨hcopy, -, hlisted⟩ := slotAppended_lists (.long 5)
  have htype : ¬ (slotFile (.long 5)).IsTyped onInts.schema onInts.spec := by
    rw [slotFile_isTyped_iff]
    decide
  exact ⟨rfl, _, .compare .gt 1 (.int 10), hcopy, rfl, hlisted, htype, rfl, by decide, by decide⟩

end World

end Lakehouse
