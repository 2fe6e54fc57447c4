import Lakehouse.Proofs.Log.Acceptance
import Lakehouse.Proofs.Run.Lineage
import Lakehouse.Proofs.Run.Moves
import Lakehouse.Proofs.Run.Viewing

/- Moves of the pointer to the current snapshot.

   A call that moves the pointer reads the table again first, so it does not matter how old the
   copy of its handle is: it is decided on the table that the log has (`Call.perform_move`). In
   every run, if nobody has left a commit behind the current version, the pointer moves just if
   this table permits it (`Call.Permitted`); then the log goes on by this one move, and what is
   committed next has the snapshot that was moved to as its parent. If the table does not permit
   it, the call is rejected, and no file is touched (`World.pointer_moves_decided`). -/
namespace Lakehouse

open Contract Log Script

variable {root : Location} {files files' : Tree} {commits : List Commit} {current : Nat}
  {t u : Table} {target : SnapshotId} {now : Calendar.Instant}

/-! ### Which moves are permitted -/

namespace Call

/-- The snapshot that the call makes current. -/
def target? : Call → Option SnapshotId
  | rollback target => some target
  | setCurrent target => some target
  | _ => none

/-- The table permits the move: back to the current snapshot or one that parent links lead to from
it, or to any snapshot, as long as it is registered. -/
def Permitted (u : Table) : Call → Prop
  | rollback target => u.snapshots.contains target = true ∧
    ∃ id, u.currentId = some id ∧ u.snapshots.Reaches id target
  | setCurrent target => u.snapshots.contains target = true
  | _ => False

end Call

/-! ### What a move is decided by -/

namespace TableM

variable {α β : Type}

theorem perform_map (f : α → β) (operation : TableM α) :
    (f <$> operation).perform root t files =
      (((operation.perform root t files).1.1.map f, (operation.perform root t files).1.2),
        (operation.perform root t files).2) := by
  rw [← bind_pure_comp, perform_bind]
  rcases operation.perform root t files with ⟨⟨_ | _, _⟩, _⟩ <;> rfl

/-- A check ends an operation, or what comes behind it goes on from where the check was. -/
theorem perform_guard {condition : Prop} [Decidable condition] (cause : Rejection)
    (next : PUnit → TableM α) :
    (if condition then reject cause >>= next else next ⟨⟩).perform root t files =
      if condition then ((.error (.rejected cause), t), files)
      else (next ⟨⟩).perform root t files := by
  split
  · rw [perform_bind, reject, perform_throw]
  · rfl

end TableM

namespace Table

theorem perform_refresh (hread : perform root loadLatest files = (.ok u, files)) :
    refresh.perform root t files = ((.ok ⟨⟩, u), files) := by
  rw [refresh, TableM.perform_bind, TableM.perform_ofFiles, hread]
  rfl

theorem perform_rollback (hread : perform root loadLatest files = (.ok u, files)) :
    (rollback target now).perform root t files =
      if (u.snapshot? target).isNone then
        ((.error (.rejected (.rollbackToUnknown target)), u), files)
      else if !u.isCurrentAncestor target then
        ((.error (.rejected (.rollbackToStranger target)), u), files)
      else (movePointer target now).perform root u files := by
  rw [rollback, TableM.perform_bind, perform_refresh hread]
  dsimp only
  rw [TableM.perform_bind, TableM.perform_get]
  dsimp only
  rw [TableM.perform_guard, TableM.perform_guard]

theorem perform_setCurrent (hread : perform root loadLatest files = (.ok u, files)) :
    (setCurrent target now).perform root t files =
      if (u.snapshot? target).isNone then ((.error (.rejected (.unknownTarget target)), u), files)
      else (movePointer target now).perform root u files := by
  rw [setCurrent, TableM.perform_bind, perform_refresh hread]
  dsimp only
  rw [TableM.perform_bind, TableM.perform_get]
  dsimp only
  rw [TableM.perform_guard]

theorem isNone_snapshot?_iff : (u.snapshot? target).isNone = true ↔ ¬ u.snapshots.contains target = true := by
  simp [snapshot?, SortedMap.contains]

/-- Where all commits are current, the pointer moves unless versions run out. -/
theorem movePointer_outcome (h : Chain root files commits commits.length) (hroom : root.Roomy)
    (hu : tableAfter? commits = some u) (hin : u.snapshots.contains target = true)
    (now : Calendar.Instant) :
    (u.version.toNat + 1 < UInt64.size ∧ ∃ t' files',
      (movePointer target now).perform root u files = ((.ok ⟨⟩, t'), files') ∧
      Wrote root commits commits.length [.moveCurrent target none now] u t' files' ∧
      Proceeds World.everything root files files') ∨
    (¬ u.version.toNat + 1 < UInt64.size ∧ (movePointer target now).perform root u files =
      ((.error (.log (.corrupt (.lastVersion u.version))), u), files)) := by
  obtain ⟨hreplica, hversion⟩ := h.replica_of_last hu
  by_cases hleft : u.version.toNat + 1 < UInt64.size
  · refine .inl ⟨hleft, ?_⟩
    have hopen : Open root commits commits.length := ⟨hroom, rfl, hversion ▸ hleft⟩
    obtain ⟨_, t', files', hrun, hwrote, hproceeds⟩ := (@movePointer_performs World.everything _ _ _ _
      _ h hreplica _ hin now).proceeds.succeeds (fun _ _ => trivial) fun _ _ _ hfailed =>
        hfailed.1.2.late hopen hversion
    exact ⟨t', files', hrun, hwrote, hproceeds⟩
  · have hlast : commits.length + 1 = UInt64.size := by
      have hlt := u.version.toNat_lt
      have hsize : UInt64.size = 2 ^ 64 := rfl
      omega
    refine .inr ⟨hleft, ?_⟩
    rw [movePointer, TableM.perform_bind, TableM.perform_get]
    exact perform_commitActions_last h hroom hversion hlast _ _ now

end Table

namespace Call

variable {call : Call}

/-- A move of the pointer is decided on the table that the log has. -/
theorem perform_move (hread : perform root Table.loadLatest files = (.ok u, files))
    (htarget : call.target? = some target) :
    (call.Permitted u ∧ u.snapshots.contains target = true ∧ (call.run now).perform root t files =
      (fun outcome => ((outcome.1.1.map fun _ => Answer.done, outcome.1.2), outcome.2))
        ((Table.movePointer target now).perform root u files)) ∨
    (¬ call.Permitted u ∧ ∃ cause,
      (call.run now).perform root t files = ((.error (.rejected cause), u), files)) := by
  cases call with
  | rollback id =>
    obtain rfl := Option.some.inj htarget
    rw [run, TableM.perform_map, Table.perform_rollback hread, Permitted]
    by_cases hin : u.snapshots.contains id = true
    swap
    · rw [if_pos (Table.isNone_snapshot?_iff.2 hin)]
      exact .inr ⟨fun h => hin h.1, _, rfl⟩
    rw [if_neg (fun h => Table.isNone_snapshot?_iff.1 h hin)]
    by_cases hreaches : u.isCurrentAncestor id = true
    · rw [if_neg (by simp [hreaches])]
      exact .inl ⟨⟨hin, Table.isCurrentAncestor_iff.1 hreaches⟩, hin, rfl⟩
    · rw [if_pos (by simpa using hreaches)]
      exact .inr ⟨fun h => hreaches (Table.isCurrentAncestor_iff.2 h.2), _, rfl⟩
  | setCurrent id =>
    obtain rfl := Option.some.inj htarget
    rw [run, TableM.perform_map, Table.perform_setCurrent hread, Permitted]
    by_cases hin : u.snapshots.contains id = true
    · rw [if_neg (fun h => Table.isNone_snapshot?_iff.1 h hin)]
      exact .inl ⟨hin, hin, rfl⟩
    · rw [if_pos (Table.isNone_snapshot?_iff.2 hin)]
      exact .inr ⟨hin, _, rfl⟩
  | _ => exact absurd htarget (by simp [target?])

end Call

/-! ### What a move leaves -/

/-- The log went from the table `u` to the table `t'`, in which the snapshot is current and listed
as it was before. There are the same snapshots and properties, and one more move, without a
parent. -/
structure Table.MovedTo (root : Location) (u : Table) (target : SnapshotId) (now : Calendar.Instant)
    (files : Tree) (t' : Table) (files' : Tree) : Prop where
  log : World.IsWholeLog root files' t'
  current : t'.currentId = some target
  listed : ∃ listed, perform root (u.files (some target)) files = (.ok listed, files) ∧
    perform root (t'.files (some target)) files' = (.ok listed, files') ∧
    perform root (t'.files none) files' = (.ok listed, files')
  snapshots : t'.snapshots = u.snapshots
  metadata : t'.metadata = u.metadata
  moves : t'.moves = u.moves ++ [⟨now, target, none, false⟩]

theorem Log.Wrote.movedTo (h : Chain root files commits commits.length)
    (hshelved : Shelved root files) (hproceeds : Proceeds World.everything root files files')
    (hin : u.snapshots.contains target = true) {t' : Table}
    (hwrote : Wrote root commits commits.length [.moveCurrent target none now] u t' files') :
    u.MovedTo root target now files t' files' := by
  obtain ⟨-, hsnapshots, hcurrent, hhistory⟩ := hwrote.returns hin
  obtain ⟨v, hv, rfl⟩ := hwrote.applied
  rw [Table.applyAll_move hin] at hv
  obtain rfl := Except.ok.inj hv
  obtain ⟨c, -, hchain, htable⟩ := hwrote.written
  obtain ⟨s, hs⟩ := SortedMap.contains_iff.1 hin
  have hlist := hshelved.registered commits commits.length u h hwrote.latest target s hs
  obtain ⟨ms, hloads⟩ := hlist.loads
  have hlater := FileM.loadManifests_grows h hproceeds.grows hloads
  refine ⟨?_, hcurrent, ⟨_, Table.perform_files hs hloads, ?_, ?_⟩, hsnapshots, rfl, ?_⟩
  · have hlength : (commits ++ [c]).length = commits.length + 1 := by simp
    rw [← hlength] at hchain
    exact World.isWholeLog_of_last hchain (by omega) htable
  · exact Table.perform_files hs hlater
  · exact Table.perform_files_current hs hlater
  · rw [Table.moves, hhistory, unmarked_markAncestors, List.map_append]
    rfl

/-- In a table that is read from a log, the current snapshot is where the last move went. -/
theorem Log.currentId_of_rebuild (hread : perform root rebuild files = (.ok t, files)) :
    t.currentId = t.moves.getLast?.map PointerMove.snapshotId := by
  obtain ⟨-, v, commits, -, htable⟩ := perform_rebuild_iff.1 hread
  have hdescribes := describes_of_tableAfter? htable
  rw [Table.moves, hdescribes.history, hdescribes.current]

namespace World

variable {w : World} {handle : Nat} {call : Call}

/-- As long as the pointer has not moved again, what is committed has the current snapshot as its
parent. -/
theorem Ordered.parentId_of_commit (h : w.Ordered root commits current) {t' : Table} {turn : Turn}
    {r : Record} {s : Snapshot} (hread : perform root rebuild w.files = (.ok t', w.files))
    (hdone : (w.step root turn).history = r :: w.history) (hcall : r.event = .call handle call)
    (hok : r.result = .ok (.snapshot s)) : s.parentId = t'.currentId := by
  obtain ⟨hevent, hdeed, -⟩ := h.deed_of_history hdone (fun _ _ => (trivial : everything _))
  rw [← hevent, hcall, hok] at hdeed
  obtain ⟨u, t, hu, -, hregisters⟩ := hdeed.registers h.chain
  obtain rfl := Except.ok.inj (Prod.mk.inj (hu.symm.trans hread)).1
  exact hregisters.parent

/-- In every run after which nobody has left a commit behind the current version, a move of the
pointer succeeds through whatever handle it is asked for just if the table of the log permits it,
and versions have not run out. Then the snapshot that was asked for is current, it lists what it
listed before, nothing else of the table has changed but for one more move without a parent and
the marks, and as long as the pointer does not move again, every change of files that succeeds,
whatever happens before it, has this snapshot as its parent. If the table does not permit the move,
the call is rejected. A call that fails leaves all files as they are. -/
theorem pointer_moves_decided (hvacant : files.Vacant root) (hroom : root.Roomy)
    (turns : List Turn) {w : World} (hrun : run root (start files) turns = w) {handle : Nat}
    {t : Table} (hhandle : w.handles handle = some t) {u : Table}
    (hlog : IsWholeLog root w.files u) {call : Call} {target : SnapshotId}
    (hcall : call.target? = some target) (now : Calendar.Instant) :
    ∃ w' result, w.complete root (.call handle call) now = (w', some result) ∧
      ((∃ a, result = .ok a) ↔ call.Permitted u ∧ u.version.toNat + 1 < UInt64.size) ∧
      (∀ a, result = .ok a → ∃ t', w'.handles handle = some t' ∧
        u.MovedTo root target now w.files t' w'.files ∧
        ∀ later turn v r handle' call' s,
          perform root rebuild (run root w' later).files = (.ok v, (run root w' later).files) →
          v.moves = t'.moves →
          ((run root w' later).step root turn).history = r :: (run root w' later).history →
          r.event = .call handle' call' → r.result = .ok (.snapshot s) →
          s.parentId = some target) ∧
      ∀ e, result = .error e → w'.files = w.files ∧
        (call.Permitted u → e = .log (.corrupt (.lastVersion u.version))) ∧
        (¬ call.Permitted u → ∃ cause, e = .rejected cause) := by
  obtain ⟨commits, current, hordered, hshelved⟩ := shelved_run hvacant turns
  rw [hrun] at hordered hshelved
  -- All commits are current.
  obtain ⟨hpos, hu⟩ := table_of_rebuild hordered.chain hlog.rebuilt
  have hversion := (hordered.chain.replica_of_rebuild hlog.rebuilt).2
  obtain rfl : current = commits.length := by
    rcases hordered.chain.named with hall | hbehind
    · exact hall
    · have hlt := hordered.chain.length_lt
      have hnext : (u.version + 1).toNat = commits.length := by
        rw [← UInt64.ofNat_toNat (x := u.version), hversion, ← ofNat_succ,
          UInt64.toNat_ofNat_of_lt' (by omega), hbehind]
      have hthere := (hordered.chain.commit_isSome (u.version + 1)).2 (by omega)
      rw [hlog.last _ (by rw [UInt64.lt_iff_toNat_lt]; omega)] at hthere
      exact absurd hthere (by simp)
  rw [List.take_length] at hu
  have hread := Table.perform_loadLatest_of_rebuild hlog.rebuilt
  rcases @Call.perform_move root w.files t u target now call hread hcall with
    ⟨hpermitted, hin, hdecided⟩ | ⟨hnot, cause, hdecided⟩
  · rcases Table.movePointer_outcome hordered.chain hroom hu hin now with
      ⟨hleft, t', files', hmoved, hwrote, hproceeds⟩ | ⟨hleft, hstays⟩
    · rw [hmoved] at hdecided
      have hcomplete := complete_call hhandle hdecided
      have hmovedTo := hwrote.movedTo hordered.chain hshelved hproceeds hin
      refine ⟨_, _, hcomplete, iff_of_true ⟨.done, rfl⟩ ⟨hpermitted, hleft⟩,
        fun _ _ => ⟨t', if_pos rfl, hmovedTo, ?_⟩, fun e he => absurd he (by simp [Except.map])⟩
      intro later turn v r handle' call' s hv hsame hdone hcall' hok
      obtain ⟨_, _, hordered', -⟩ := hordered.step ⟨.call handle call, now, none⟩
      rw [show w.step root ⟨.call handle call, now, none⟩ = _ from congrArg Prod.fst hcomplete]
        at hordered'
      obtain ⟨_, _, hlater, -⟩ := hordered'.run later
      rw [hlater.parentId_of_commit hv hdone hcall' hok, currentId_of_rebuild hv, hsame,
        hmovedTo.moves, List.getLast?_concat]
      rfl
    · rw [hstays] at hdecided
      refine ⟨_, _, complete_call hhandle hdecided, iff_of_false (by simp [Except.map]) (by simp [hleft]),
        fun a ha => absurd ha (by simp [Except.map]), fun e he => ?_⟩
      obtain rfl := Except.error.inj he
      exact ⟨rfl, fun _ => rfl, fun hnot => absurd hpermitted hnot⟩
  · refine ⟨_, _, complete_call hhandle hdecided, iff_of_false (by simp) (by simp [hnot]),
      fun a ha => absurd ha (by simp), fun e he => ?_⟩
    obtain rfl := Except.error.inj he
    exact ⟨rfl, fun hpermitted => absurd hpermitted hnot, fun _ => ⟨cause, rfl⟩⟩

/-- In a table that stands, no commit was left. -/
theorem Stands.isWholeLog {admitted : String → ByteArray → Prop} {n : Nat}
    {ms : List (ManifestRecord × Manifest)} (h : w.Stands admitted root n t ms) :
    IsWholeLog root w.files t := by
  obtain ⟨_, -, hlatest⟩ := h.latest
  exact isWholeLog_of_last hlatest.chain (pos_of_table hlatest.table) hlatest.table

end World

open Days World in
/-- Going back from the fourth snapshot to the second, which is an ancestor of it. -/
theorem Days.pointer_moves_decided_carried : Tree.empty.Vacant ⟨"."⟩ ∧ Location.Roomy ⟨"."⟩ ∧
    run ⟨"."⟩ (start .empty) (turns.take 6) = world 6 ∧ (world 6).handles 0 = some carried ∧
    IsWholeLog ⟨"."⟩ (world 6).files carried ∧ carried.currentId = some 4 ∧
    (Call.rollback 2).target? = some 2 ∧
    ∃ w' a t', (world 6).complete ⟨"."⟩ (.call 0 (.rollback 2)) default = (w', some (.ok a)) ∧
      w'.handles 0 = some t' ∧ t'.currentId = some 2 ∧
      carried.MovedTo ⟨"."⟩ 2 default (world 6).files t' w'.files := by
  have h := known_carried.stands
  have hrun : run ⟨"."⟩ (start .empty) (turns.take 6) = world 6 := world_eq 6
  obtain ⟨w', result, hcomplete, hiff, hmoved, -⟩ := pointer_moves_decided Tree.vacant_empty roomy_here
    (turns.take 6) hrun h.copy h.isWholeLog (rfl : (Call.rollback 2).target? = some 2) default
  have hpermitted : (Call.rollback 2).Permitted carried :=
    ⟨by decide, 4, rfl, .head (b := 3) rfl (.single rfl)⟩
  obtain ⟨a, rfl⟩ := hiff.2 ⟨hpermitted, by decide⟩
  obtain ⟨t', ht', hmovedTo, -⟩ := hmoved a rfl
  exact ⟨Tree.vacant_empty, roomy_here, hrun, h.copy, h.isWholeLog, rfl, rfl, w', a, t', hcomplete, ht',
    hmovedTo.current, hmovedTo⟩

end Lakehouse
