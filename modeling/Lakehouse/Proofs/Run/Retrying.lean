import Lakehouse.Proofs.Run.Deciding
import Lakehouse.Proofs.Run.Pointer

/- Writers that try again.

   A writer that has lost to another one reads the table again and makes its call once more, round
   after round, until it does not lose (`Call.rounds`). Each round that it loses makes one of the
   commits current that were left behind the last one (`Met`), and there are only so many
   (`Call.rounds_make_progress`). In no other way can it lose while nobody else is at work, for the
   copy that it has just read is the latest. -/
namespace Lakehouse

open Calendar (Instant)
open Contract Log Script

/-! ### Rounds -/

/-- What reading the table again and then making a call came to: the copy and the files that the
call was made on, its answer, and what it left of both. -/
structure Round where
  refreshed : Except TableError Unit
  table : Table
  found : Tree
  answer : Except TableError Answer
  copy : Table
  files : Tree

/-- The error of the call, if it failed. -/
def Round.fault (r : Round) : Option TableError :=
  match r.answer with
  | .error e => some e
  | .ok _ => none

/-- The call has lost to a commit of somebody else. -/
def Round.lost (r : Round) : Bool :=
  match r.answer with
  | .error (.commitConflict _ _) => true
  | _ => false

theorem Round.lost_iff {r : Round} :
    r.lost = true ↔ ∃ base found, r.answer = .error (.commitConflict base found) := by
  rw [lost]
  split
  next base found h => simp [h]
  next h => simpa using h

namespace Call

/-- The call with its changes meant for the given snapshot. -/
def basedOn (base : Option SnapshotId) : Call → Call
  | commit _ operation changes => commit base operation changes
  | call => call

/-- The table is read again, and then the call is made, for what is current by then. -/
def round (root : Location) (call : Call) (now : Instant) (copy : Table) (files : Tree) : Round :=
  let ((refreshed, table), found) := Table.refresh.perform root copy files
  let ((answer, copy), files) := ((call.basedOn table.currentId).run now).perform root table found
  ⟨refreshed, table, found, answer, copy, files⟩

/-- The rounds of a writer at the given times, which tries again until it does not lose. -/
def rounds (root : Location) (call : Call) : (times : List Instant) → Table → Tree → List Round
  | [], _, _ => []
  | now :: later, copy, files =>
    let r := call.round root now copy files
    if r.lost then r :: rounds root call later r.copy r.files else [r]

end Call

variable {root : Location} {files : Tree} {t u : Table} {rest : List Commit} {call : Call}
  {now : Instant}

/-! ### What a call meets -/

namespace Call

/-- What a writer comes to who has just read the table: a call that writes to the log is rejected, or
it comes to what its actions do there, or its change or its intake for the current snapshot. -/
theorem performs_based {post : Table → Tree → Prop} {fails : TableError → Table → Tree → Prop}
    (h : Pending root t rest files) (hwrites : call.writes = true) (now : Instant)
    (hrejected : ∀ cause, fails (.rejected cause) t files)
    (hactions : ∀ base actions, (free root).Performs (Table.commitActions base actions now) t files
      (fun _ => post) fails)
    (hchange : ∀ change, (call.basedOn t.currentId).change? t = some change →
      (free root).Performs (Table.commit t.currentId change.operation change.changes now) t files
        (fun _ => post) fails)
    (hintake : ∀ directory, call = .intake directory →
      (free root).Performs (Table.intake directory now) t files (fun _ => post) fails) :
    (free root).Performs ((call.basedOn t.currentId).run now) t files (fun _ => post) fails := by
  have hmove : ∀ target, (free root).Performs (Table.movePointer target now) t files
      (fun _ => post) fails := fun target => Performs.bind (Performs.get (hactions _ _))
  have hcommit : ∀ {change : Change}, (call.basedOn t.currentId).change? t = some change →
      change.base = t.currentId → (free root).Performs ((call.basedOn t.currentId).run now) t files
        (fun _ => post) fails := by
    intro change hasks hbase
    rw [Performs, run_of_change hasks, hbase]
    exact Performs.map (hchange change hasks)
  cases call with
  | refresh => exact absurd hwrites (by simp [writes])
  | stage => exact absurd hwrites (by simp [writes])
  -- Moving the pointer reads the table once more, and this is the table that was read.
  | rollback target =>
    refine Performs.map (Performs.bind (Table.ofFiles_loadLatest h.read trivial (Performs.set
      (Performs.bind (Performs.get (Performs.guard (fun _ => hrejected _) fun _ => ?_))))))
    exact Performs.guard (fun _ => hrejected _) fun _ => hmove target
  | setCurrent target =>
    refine Performs.map (Performs.bind (Table.ofFiles_loadLatest h.read trivial (Performs.set
      (Performs.bind (Performs.get (Performs.guard (fun _ => hrejected _) fun _ => ?_))))))
    exact hmove target
  | updateProperties set remove => exact Performs.map (Performs.bind (Performs.get (hactions _ _)))
  | intake directory => exact Performs.map (hintake directory rfl)
  | commit => exact hcommit rfl rfl
  | append => exact hcommit rfl rfl
  | appendManifests => exact hcommit rfl rfl
  | deleteFiles => exact hcommit rfl rfl
  | deleteWhere => exact hcommit rfl rfl
  | overwrite => exact hcommit rfl rfl

/-- Every call that writes to the log meets what was left there, or fails before. -/
theorem meets (h : Pending root t rest files) (hwrites : call.writes = true) (now : Instant) :
    (free root).Performs ((call.basedOn t.currentId).run now) t files
      (fun _ _ files' => Met root t rest none files')
      (fun e _ files' => Met root t rest (some e) files') :=
  performs_based h hwrites now (fun _ => .early rfl h)
    (fun base actions => Table.commitActions_meets h base actions now)
    (fun change _ => Table.commit_meets h change.operation change.changes t now)
    fun directory _ => Table.intake_meets h directory now

end Call

/-! ### Refusals -/

/-- The request is refused for what it asks for. -/
def TableError.Refuses (e : TableError) : Prop :=
  (∃ cause, e = .rejected cause) ∨ ∃ cause, e = .filter cause

/-- The metadata files that the call needs can be read, and others can be written. -/
structure Call.Served (call : Call) (root : Location) (t : Table) (files : Tree) : Prop where
  hosts : files.Hosts root
  room : root.Roomy
  current : ∃ manifests, perform root t.loadCurrent files = (.ok manifests, files)
  staged : ∀ change, (call.basedOn t.currentId).change? t = some change →
    ∀ path ∈ change.changes.stagedPaths, files.HasManifest root path
  noIntake : ∀ directory, call ≠ .intake directory

/-- Below a root with room, contents are filed without fail. -/
theorem Log.files_hosted (hroom : root.Roomy) :
    (free root).Files (Tree.Hosts · root) fun _ => False := by
  refine ⟨fun _ _ => trivial, fun files content kind path hosts hname => ⟨trivial, ?_⟩, ?_⟩
  · exact (Tree.create_outcome hosts hname.isTablePath content).1
  · intro files content kind path e hosts hname hfails hfree
    obtain ⟨-, -, houtcome⟩ := Tree.create_outcome hosts hname.isTablePath content
    change (files.create (Path.join root.path path) content).1 = .error e at hfails
    generalize files.create (Path.join root.path path) content = reply at hfails houtcome
    obtain ⟨result, after⟩ := reply
    obtain rfl : result = .error e := hfails
    cases houtcome with
    | taken p => exact hfree p rfl
    | failed p cause refused => exact refused (hroom.named hname)

namespace Table

/-- What a plan is refused for is one of the rules. -/
theorem refuses_of_reports {operation : Operation} {changes : FileChanges} {live : LiveFiles}
    {staged : List Staged} {e : TableError}
    (h : Reports (t.planRules operation changes live staged) e) : e.Refuses := by
  obtain ⟨before, rule, after, hrules, -, -, he⟩ := h
  have hmem : rule ∈ t.planRules operation changes live staged := by simp [hrules]
  simp only [planRules, fileRules, List.mem_append, List.mem_cons, List.not_mem_nil, or_false,
    or_assoc] at hmem
  rcases hmem with rfl | rfl | rfl | rfl | rfl | rfl | rfl | rfl
  · exact .inl he
  · exact .inl ⟨_, he⟩
  · obtain ⟨path, -, -, rfl⟩ := he
    exact .inl ⟨_, rfl⟩
  · obtain ⟨filter, cause, -, -, rfl⟩ := he
    exact .inr ⟨cause, rfl⟩
  · obtain ⟨filter, bound, path, f, -, -, -, -, -, rfl⟩ := he
    exact .inl ⟨_, rfl⟩
  · obtain ⟨s, -, rfl | rfl⟩ := he
    · exact .inl ⟨_, rfl⟩
    · exact .inl ⟨_, rfl⟩
  · obtain ⟨f, -, rfl | rfl | rfl⟩ := he
    · exact .inl ⟨_, rfl⟩
    · exact .inl ⟨_, rfl⟩
    · exact .inl ⟨_, rfl⟩
  · exact .inl ⟨_, he⟩

theorem commitActions_refuses (copy : Table) (base : Option SnapshotId) (actions : List Action)
    (now : Instant) : (free root).Performs (commitActions base actions now) copy files
      (fun _ _ _ => True) (fun e _ _ => e.concernsLog = true) := by
  refine Performs.bind (Performs.get (Performs.bind (Performs.ofScript
    ((ensures_run root _ files).mono fun r files' _ => ?_))))
  cases r with
  | ok v =>
    dsimp only
    split
    · exact Performs.set trivial
    · exact Performs.throw rfl
  | error e =>
    dsimp only
    split
    · exact Performs.bind (Performs.ofScript ((ensures_run root _ files').mono fun _ _ _ =>
        Performs.throw rfl))
    · exact Performs.throw rfl

/-- Where metadata files can be read and written, a change fails in the log, or its request is
refused. -/
theorem commit_refuses (h : Pending root t rest files) {operation : Operation}
    {changes : FileChanges} (hosts : files.Hosts root) (hroom : root.Roomy)
    {manifests : List (ManifestRecord × Manifest)}
    (hmanifests : perform root t.loadCurrent files = (.ok manifests, files))
    (hstaged : ∀ path ∈ changes.stagedPaths, files.HasManifest root path)
    (copy : Table) (now : Instant) :
    (free root).Performs (commit t.currentId operation changes now) copy files
      (fun _ _ _ => True) (fun e _ _ => e.concernsLog = true ∨ e.Refuses) := by
  obtain ⟨staged, hfound⟩ := exists_staged hstaged
  refine ofFiles_loadLatest h.read trivial ?_
  rw [if_neg (by simp)]
  refine Performs.bind (Performs.set (Performs.bind (Performs.ofFiles
    ((attempts_of_reads (c := free root) (t.reads_plan operation changes) trivial).mono ?_ ?_))))
  · rintro p files₁ ⟨-, rfl⟩
    refine Performs.bind (Performs.ofFiles ((beside_writeSnapshot (files_hosted hroom) t.spec _ p
      files₁ hosts).mono (fun list files₂ _ => ?_) fun _ _ he => he.1.elim))
    exact Performs.bind ((commitActions_refuses t _ _ now).mono
      (fun _ _ _ _ => Performs.pure trivial) fun _ _ _ he => .inl he)
  · rintro e files₁ ⟨hfails, rfl⟩
    exact .inr (refuses_of_reports ((decides_plan hmanifests hfound operation).refused e
      (congrArg Prod.fst hfails)))

end Table

namespace Call

/-- A call for which there is all that it needs fails in the log, or is refused. -/
theorem refuses (h : Pending root t rest files) (hwrites : call.writes = true)
    (hserved : call.Served root t files) (now : Instant) :
    (free root).Performs ((call.basedOn t.currentId).run now) t files (fun _ _ _ => True)
      (fun e _ _ => e.concernsLog = true ∨ e.Refuses) := by
  obtain ⟨manifests, hmanifests⟩ := hserved.current
  refine performs_based h hwrites now (fun _ => .inr (.inl ⟨_, rfl⟩)) (fun base actions => ?_)
    (fun change hchange => ?_) fun directory hintake => absurd hintake (hserved.noIntake directory)
  · exact (Table.commitActions_refuses t base actions now).mono (fun _ _ _ => id) fun _ _ _ => .inl
  · exact Table.commit_refuses h hserved.hosts hserved.room hmanifests (hserved.staged change hchange)
      t now

/-! ### Progress -/

/-- What a round comes to where commits were left behind the table that is read. -/
structure Tries (root : Location) (call : Call) (now : Instant) (t : Table) (rest : List Commit)
    (files : Tree) (r : Round) : Prop where
  refreshed : r.refreshed = .ok ⟨⟩
  table : r.table = t
  found : r.found = files
  answered : ((call.basedOn t.currentId).run now).perform root t files =
    ((r.answer, r.copy), r.files)
  met : Met root t rest r.fault r.files
  refused : ∀ e, r.answer = .error e → call.Served root t files → e.concernsLog = true ∨ e.Refuses

theorem tries_round (h : Pending root t rest files) (hwrites : call.writes = true) (now : Instant)
    (copy : Table) : call.Tries root now t rest files (call.round root now copy files) := by
  have hread := Table.perform_loadLatest_of_rebuild h.read
  have hround : ∀ {answer copy' files'},
      ((call.basedOn t.currentId).run now).perform root t files = ((answer, copy'), files') →
      call.round root now copy files = ⟨.ok ⟨⟩, t, files, answer, copy', files'⟩ := by
    intro answer copy' files' hrun
    rw [round, Table.perform_refresh hread]
    dsimp only
    rw [hrun]
  rcases (meets h hwrites now).outcome fun _ _ => trivial with
    ⟨a, copy', files', hrun, hmet⟩ | ⟨e, copy', files', hrun, hmet⟩
  · rw [hround hrun]
    exact ⟨rfl, rfl, rfl, hrun, hmet, fun e he => absurd he (by simp)⟩
  · rw [hround hrun]
    refine ⟨rfl, rfl, rfl, hrun, hmet, fun e' he hserved => ?_⟩
    obtain rfl := Except.error.inj he
    rcases (refuses h hwrites hserved now).outcome fun _ _ => trivial with
      ⟨a, _, _, hrun', -⟩ | ⟨e', _, _, hrun', hrefuses⟩
    · exact absurd (hrun.symm.trans hrun') (by simp)
    · obtain rfl := Except.error.inj (Prod.mk.inj (Prod.mk.inj (hrun.symm.trans hrun')).1).1
      exact hrefuses

/-- What is said of each round: reading again succeeds with the table in which those commits are
applied that the rounds before have lost to, and the call is answered for it. -/
structure Tried (root : Location) (call : Call) (times : List Instant) (t : Table)
    (rest : List Commit) (i : Nat) (r : Round) : Prop where
  refreshed : r.refreshed = .ok ⟨⟩
  applied : t.after (rest.take i) = .ok r.table
  pending : Pending root r.table (rest.drop i) r.found
  answered : ∃ now, times[i]? = some now ∧ ((call.basedOn r.table.currentId).run now).perform root
    r.table r.found = ((r.answer, r.copy), r.files)
  lost : r.lost = true → i < rest.length ∧ Points root r.found r.table.version ∧
    Points root r.files (r.table.version + 1)
  kept : r.lost = false → i = rest.length ∨ ∃ e, r.answer = .error e ∧ e.concernsLog = false ∧
    Points root r.files r.table.version ∧ (call.Served root r.table r.found → e.Refuses)

theorem Tries.first {r : Round} (h : Pending root t rest files)
    (htries : call.Tries root now t rest files r) {times : List Instant} :
    call.Tried root (now :: times) t rest 0 r := by
  obtain ⟨hrefreshed, rfl, rfl, hanswered, hmet, hrefused⟩ := htries
  refine ⟨hrefreshed, rfl, h, ⟨now, rfl, hanswered⟩, fun hlost => ?_, fun hkept => ?_⟩
  · obtain ⟨base, found, hanswer⟩ := Round.lost_iff.1 hlost
    rw [Round.fault, hanswer] at hmet
    obtain ⟨c, rest', u, rfl, -, hpending⟩ := hmet.of_conflict
    exact ⟨by simp, Points.of_rebuild h.read, Points.of_rebuild hpending.read⟩
  · cases hanswer : r.answer with
    | ok a =>
      rw [Round.fault, hanswer] at hmet
      rcases hmet.of_kept (by simp) with rfl | ⟨e, he, -⟩
      · exact .inl rfl
      · exact absurd he (by simp)
    | error e =>
      have hno : ∀ base found, e ≠ .commitConflict base found := by
        rintro base found rfl
        exact absurd (Round.lost_iff.2 ⟨base, found, hanswer⟩) (by simp [hkept])
      rw [Round.fault, hanswer] at hmet
      rcases hmet.of_kept fun base found he => hno base found (Option.some.inj he) with
        rfl | ⟨e', he', hbeside, hpending⟩
      · exact .inl rfl
      · obtain rfl := Option.some.inj he'
        exact .inr ⟨e, rfl, hbeside, Points.of_rebuild hpending.read, fun hserved =>
          (hrefused e hanswer hserved).resolve_left (by simp [hbeside])⟩

/-- What is said of a round behind one that was lost. -/
theorem Tried.behind {times : List Instant} {c : Commit} {i : Nat} {r : Round}
    (happlied : t.applyAll c.actions = .ok u)
    (h : call.Tried root times { u with version := t.version + 1 } rest i r) :
    call.Tried root (now :: times) t (c :: rest) (i + 1) r := by
  refine ⟨h.refreshed, ?_, h.pending, h.answered, fun hlost => ?_, fun hkept => ?_⟩
  · rw [List.take_succ_cons, Table.after, happlied]
    exact h.applied
  · obtain ⟨hi, hmoved⟩ := h.lost hlost
    exact ⟨by simpa using hi, hmoved⟩
  · exact (h.kept hkept).imp_left fun hi => by rw [hi, List.length_cons]

/-- However many commits were left behind the last one, each going on from the one before with
actions that can be applied: a writer that is alone at work, and reads the table again before each
call, loses at most one round to each of them. Each of these rounds moves the current version by
one, and reading again never fails. In the first round that it does not lose, the call is answered
for the table with all of these commits, or it fails on an earlier one before it comes to the log;
and where the metadata files that it needs can be read and written, it is then refused for what it
asks for. -/
theorem rounds_make_progress (h : Pending root t rest files) (hwrites : call.writes = true)
    (times : List Instant) (copy : Table) :
    (call.rounds root times copy files).countP Round.lost ≤ rest.length ∧
    (rest.length < times.length →
      ∃ r, (call.rounds root times copy files).getLast? = some r ∧ r.lost = false) ∧
    ∀ i r, (call.rounds root times copy files)[i]? = some r → call.Tried root times t rest i r := by
  induction times generalizing t rest copy files with
  | nil =>
    exact ⟨by simp [rounds], fun hmore => absurd hmore (by simp),
      fun i r hr => absurd hr (by simp [rounds])⟩
  | cons now later ih =>
    have htries := tries_round h hwrites now copy
    have hfirst : call.Tried root (now :: later) t rest 0 _ := htries.first h
    rw [rounds]
    generalize call.round root now copy files = r at htries hfirst
    cases hlost : r.lost with
    | false =>
      simp only [Bool.false_eq_true, if_false]
      refine ⟨by simp [hlost], fun _ => ⟨r, rfl, hlost⟩, fun i r' hr' => ?_⟩
      cases i with
      | zero =>
        obtain rfl := Option.some.inj hr'
        exact hfirst
      | succ i => exact absurd hr' (by simp)
    | true =>
      simp only [if_true]
      obtain ⟨base, found, hanswer⟩ := Round.lost_iff.1 hlost
      have hmet := htries.met
      rw [Round.fault, hanswer] at hmet
      -- The round was lost to the first of the commits, and the others are left.
      obtain ⟨c, rest', u, rfl, happlied, hpending⟩ := hmet.of_conflict
      obtain ⟨hcount, hlast, hall⟩ := ih hpending r.copy
      refine ⟨?_, fun hmore => ?_, fun i r' hr' => ?_⟩
      · rw [List.countP_cons_of_pos hlost, List.length_cons]
        omega
      · obtain ⟨r', hr', hkept⟩ := hlast (by simpa using hmore)
        exact ⟨r', by rw [List.getLast?_cons, hr']; rfl, hkept⟩
      · cases i with
        | zero =>
          obtain rfl := Option.some.inj hr'
          exact hfirst
        | succ i => exact (hall i r' hr').behind happlied

/-- Behind the commit that was left there is no other. -/
theorem pending_leftBehind {actions : List Action}
    (happly : (Table.new 1 World.columnless).applyAll actions = .ok u) :
    Pending ⟨"."⟩ (.new 1 World.columnless) [⟨2, 1, default, actions⟩] (leftBehind actions) := by
  obtain ⟨-, hread, hsecond⟩ := leftBehind_spec actions
  have hcommit := Layout.isTablePath_commit
  obtain ⟨hosts, -, hcommits⟩ := content_oneCommit ⟨1, 0, default, [.create World.columnless]⟩
  obtain ⟨-, hcreated⟩ := Tree.create_of_takes hosts (hcommit 2) (roomy_here.commit 2) (hcommits 2)
    (commitContent ⟨2, 1, default, actions⟩)
  refine ⟨hread, ?_, ⟨hsecond, rfl, rfl, fun c hc => ?_⟩, ?_, ?_⟩
  · exact ((Tree.vacant_empty.grounded.create _ _).replace _ _).create _ _
  · obtain ⟨bytes, hbytes⟩ := hc.content?
    have hnone : (leftBehind actions).content? ⟨"."⟩ (Layout.commitPath 3) = none := by
      rw [leftBehind, hcreated.elsewhere _ (hcommit 3) fun he =>
        absurd (Layout.commitPath_injective he) (by decide), hcommits 3]
      rfl
    exact absurd (hnone.symm.trans hbytes) (by simp)
  · exact (by decide : 1 + 1 < UInt64.size)
  · rw [Table.after, happly]
    exact ⟨_, rfl⟩

/-- Somebody has changed the properties and did not come to name the commit. Another writer who
changes properties loses to it once at most. -/
theorem rounds_make_progress_leftover :
    Pending ⟨"."⟩ (.new 1 World.columnless) [⟨2, 1, default, [.updateProperties .empty []]⟩]
        (leftBehind [.updateProperties .empty []]) ∧
      (updateProperties .empty []).writes = true ∧
      ∃ r, ((updateProperties .empty []).rounds ⟨"."⟩ [default, default] (.new 1 World.columnless)
        (leftBehind [.updateProperties .empty []])).getLast? = some r ∧ r.lost = false := by
  have hpending := @pending_leftBehind _ [.updateProperties .empty []] rfl
  exact ⟨hpending, rfl, (rounds_make_progress hpending rfl [default, default] _).2.1 (by decide)⟩

end Call

end Lakehouse
