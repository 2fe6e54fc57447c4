import Lakehouse.Proofs.Log.Reading
import Lakehouse.Proofs.Log.Sequence
import Lakehouse.Proofs.Store.Room

/- Which logs are accepted.

   Nothing is supposed here about the files: any tree, whatever is in the place of the log. The
   files record a list of commits (`Logged`) if the file for the current version names a
   version, which is not 0, and each file up to it holds the commit of its number. Reading the
   log gives a table if and only if it records commits whose actions are a well-formed
   sequence, and the table is then the one that this sequence describes
   (`rebuild_iff_wellFormed`). -/
namespace Lakehouse.Log

open Script

variable {root : Location} {files files' : Tree} {v : Version} {c : Commit} {commits : List Commit}
  {r t : Option Table}

/-- The file for the current version names this version. -/
def Points (root : Location) (files : Tree) (version : Version) : Prop :=
  ∃ content, files.readText (Path.join root.path Layout.currentPath) = .ok content ∧
    parseCurrent content = .ok version

/-- The file of the version can be read as the commit. -/
def Holds (root : Location) (files : Tree) (version : Version) (c : Commit) : Prop :=
  ∃ content, files.readText (Path.join root.path (Layout.commitPath version)) = .ok content ∧
    parseCommit version content = .ok c

/-- The files record the commits: the last one has the version that is named as current, and
each is in the file of its version, counted from 1. -/
structure Logged (root : Location) (files : Tree) (version : Version) (commits : List Commit) :
    Prop where
  current : Points root files version
  pos : version ≠ 0
  length : commits.length = version.toNat
  recorded : ∀ n c, commits[n]? = some c →
    c.version = UInt64.ofNat (n + 1) ∧ Holds root files (UInt64.ofNat (n + 1)) c

/-- The files from a version on hold the commits, which say so themselves. -/
def HoldsFrom (root : Location) (files : Tree) : (version : Version) → List Commit → Prop
  | _, [] => True
  | version, c :: commits =>
    c.version = version ∧ Holds root files version c ∧ HoldsFrom root files (version + 1) commits

theorem holdsFrom_iff {n : Nat} : HoldsFrom root files (UInt64.ofNat (n + 1)) commits ↔
    ∀ i c, commits[i]? = some c →
      c.version = UInt64.ofNat (n + i + 1) ∧ Holds root files (UInt64.ofNat (n + i + 1)) c := by
  induction commits generalizing n with
  | nil => simp [HoldsFrom]
  | cons c commits ih =>
    have hnext : UInt64.ofNat (n + 1) + 1 = UInt64.ofNat (n + 1 + 1) :=
      (UInt64.ofNat_add (n + 1) 1).symm
    rw [HoldsFrom, hnext, ih]
    constructor
    · rintro ⟨hversion, hholds, hrest⟩ i d hd
      cases i with
      | zero =>
        obtain rfl := Option.some.inj hd
        exact ⟨hversion, hholds⟩
      | succ i =>
        rw [show n + (i + 1) + 1 = n + 1 + i + 1 by omega]
        exact hrest i d hd
    · intro h
      obtain ⟨hversion, hholds⟩ := h 0 c rfl
      refine ⟨hversion, hholds, fun i d hd => ?_⟩
      rw [show n + 1 + i + 1 = n + (i + 1) + 1 by omega]
      exact h (i + 1) d hd

/-! ### What reading comes to -/

/-- What is found in a content that was read is what the content stands for. -/
theorem parsed_eq_ok {α ε ε' : Type} {parse : String → Except ε α} {f : ε → ε'} {content : String}
    {a : α} : ((parse content).mapError f, files) = (.ok a, files') ↔ files' = files ∧
      ∃ content', (.ok content : Except StorageError String) = .ok content' ∧
        parse content' = .ok a := by
  constructor
  · intro h
    obtain ⟨ha, rfl⟩ := Prod.mk.inj h
    exact ⟨rfl, content, rfl, mapError_eq_ok.1 ha⟩
  · rintro ⟨rfl, content', hsame, ha⟩
    obtain rfl := Except.ok.inj hsame
    rw [mapError_eq_ok.2 ha]

theorem perform_loadCommit_iff :
    perform root (loadCommit v) files = (.ok c, files') ↔ files' = files ∧ Holds root files v c := by
  rw [loadCommit, perform_mk, run_bind, run_request, Holds]
  cases hread : files.readText (Path.join root.path (Layout.commitPath v)) with
  | error e =>
    simp only [Tree.answer, hread]
    constructor
    · exact fun h => absurd h (by simp)
    · rintro ⟨-, content, h, -⟩
      exact absurd h (by simp)
  | ok content =>
    simp only [Tree.answer, hread]
    rw [run_pure]
    exact parsed_eq_ok

/-- No version is current as long as none is named. -/
theorem perform_currentVersion_pos_iff (hv : v ≠ 0) :
    perform root currentVersion files = (.ok v, files') ↔ files' = files ∧ Points root files v := by
  rw [currentVersion, perform_mk, run_bind, run_request, Points]
  cases hread : files.readText (Path.join root.path Layout.currentPath) with
  | error e =>
    simp only [Tree.answer, hread]
    constructor
    · intro h
      cases e with
      | notFound path => exact absurd (Except.ok.inj (Prod.mk.inj h).1).symm hv
      | alreadyExists path => exact absurd h (by simp)
      | fault path cause => exact absurd h (by simp)
    · rintro ⟨-, content, h, -⟩
      exact absurd h (by simp)
  | ok content =>
    simp only [Tree.answer, hread]
    rw [run_pure]
    exact parsed_eq_ok

/-- Replaying some versions succeeds with what replaying the commits in their files gives. -/
theorem perform_replayFrom_iff {count : Nat} :
    perform root (replayFrom count v t) files = (.ok r, files') ↔ files' = files ∧
      ∃ commits, commits.length = count ∧ HoldsFrom root files v commits ∧
        replayed t commits = .ok r := by
  have hnil : ∀ t, replayed t [] = .ok t := fun _ => rfl
  induction count generalizing v t with
  | zero =>
    rw [replayFrom, perform_pure]
    constructor
    · intro h
      obtain ⟨hr, rfl⟩ := Prod.mk.inj h
      exact ⟨rfl, [], rfl, trivial, by rw [hnil, Except.ok.inj hr]⟩
    · rintro ⟨rfl, commits, hlength, -, hr⟩
      obtain rfl := List.length_eq_zero_iff.1 hlength
      rw [hnil] at hr
      rw [Except.ok.inj hr]
  | succ count ih =>
    rw [replayFrom, perform_bind]
    constructor
    · intro h
      split at h
      next c files₁ hload =>
        obtain ⟨rfl, hholds⟩ := perform_loadCommit_iff.1 hload
        split at h
        next t₁ hcommit =>
          obtain ⟨rfl, commits, hlength, hrest, hreplayed⟩ := ih.1 h
          -- A commit is replayed only as the version that it says it is.
          have hversion : c.version = v := by
            rw [replayCommit] at hcommit
            split at hcommit
            next hsame => exact hsame
            next => exact absurd hcommit (by simp)
          refine ⟨rfl, c :: commits, by simp [hlength], ⟨hversion, hholds, hrest⟩, ?_⟩
          rw [replayed, List.foldlM_cons, hversion, hcommit]
          exact hreplayed
        next => exact absurd h (by simp [LogScript.fail])
      next => exact absurd h (by simp)
    · rintro ⟨rfl, commits, hlength, hholds, hreplayed⟩
      obtain ⟨c, commits, rfl⟩ := List.exists_cons_of_length_eq_add_one hlength
      obtain ⟨hversion, hholds, hrest⟩ := hholds
      rw [replayed, List.foldlM_cons, hversion] at hreplayed
      obtain ⟨t₁, hcommit, hreplayed⟩ := bind_eq_ok.1 hreplayed
      rw [perform_loadCommit_iff.2 ⟨rfl, hholds⟩]
      simp only [hcommit]
      exact ih.2 ⟨rfl, commits, by simpa using hlength, hrest, hreplayed⟩

/-- Reading the log gives the table that the recorded commits describe. -/
theorem perform_rebuild_iff {t : Table} :
    perform root rebuild files = (.ok t, files') ↔ files' = files ∧
      ∃ v commits, Logged root files v commits ∧ tableAfter? commits = some t := by
  rw [rebuild, perform_bind]
  constructor
  · intro h
    split at h
    next v files₁ hcurrent =>
      split at h
      next => exact absurd h (by simp [LogScript.fail])
      next hv =>
        obtain ⟨rfl, hnames⟩ := (perform_currentVersion_pos_iff hv).1 hcurrent
        rw [perform_bind] at h
        split at h
        next r files₂ hreplay =>
          obtain ⟨rfl, commits, hlength, hholds, hreplayed⟩ := perform_replayFrom_iff.1 hreplay
          cases r with
          | none => exact absurd h (by simp [LogScript.fail])
          | some u =>
            obtain ⟨ht, rfl⟩ := Prod.mk.inj h
            refine ⟨rfl, v, commits, ⟨hnames, hv, hlength, ?_⟩, ?_⟩
            · simpa using holdsFrom_iff (n := 0).1 hholds
            · rw [tableAfter?, hreplayed, ← Except.ok.inj ht, hlength, UInt64.ofNat_toNat]
        next => exact absurd h (by simp)
    next => exact absurd h (by simp)
  · rintro ⟨rfl, v, commits, hlogged, ht⟩
    obtain ⟨u, hu, rfl⟩ := tableAfter?_eq_some ht
    have hholds : HoldsFrom root files' 1 commits :=
      holdsFrom_iff (n := 0).2 (by simpa using hlogged.recorded)
    rw [(perform_currentVersion_pos_iff hlogged.pos).2 ⟨rfl, hlogged.current⟩]
    simp only [if_neg hlogged.pos]
    rw [perform_bind, perform_replayFrom_iff.2 ⟨rfl, commits, hlogged.length, hholds, hu⟩]
    simp only
    rw [perform_pure, hlogged.length, UInt64.ofNat_toNat]

theorem Points.unique {w : Version} (h : Points root files v) (h' : Points root files w) : v = w := by
  obtain ⟨content, hread, hv⟩ := h
  obtain ⟨content', hread', hw⟩ := h'
  obtain rfl := Except.ok.inj (hread.symm.trans hread')
  exact Except.ok.inj (hv.symm.trans hw)

theorem Holds.unique {d : Commit} (h : Holds root files v c) (h' : Holds root files v d) : c = d := by
  obtain ⟨content, hread, hc⟩ := h
  obtain ⟨content', hread', hd⟩ := h'
  obtain rfl := Except.ok.inj (hread.symm.trans hread')
  exact Except.ok.inj (hc.symm.trans hd)

/-- The files record one list of commits at most. -/
theorem Logged.unique {w : Version} {commits' : List Commit} (h : Logged root files v commits)
    (h' : Logged root files w commits') : v = w ∧ commits = commits' := by
  obtain rfl := h.current.unique h'.current
  have hlength := h.length.trans h'.length.symm
  refine ⟨rfl, List.ext_getElem hlength fun n hn hn' => ?_⟩
  exact (h.recorded n _ (List.getElem?_eq_getElem hn)).2.unique
    (h'.recorded n _ (List.getElem?_eq_getElem hn')).2

/-- Whatever the files are: the log can be read if and only if it records commits whose actions,
one behind the other, keep the rules; and what is read has the version that is named as current
and is the table that these actions describe. -/
theorem rebuild_iff_wellFormed (root : Location) (files : Tree) :
    ((∃ t, perform root rebuild files = (.ok t, files)) ↔
      ∃ v commits, Logged root files v commits ∧ WellFormed (actionsOf commits)) ∧
    ∀ t v commits, perform root rebuild files = (.ok t, files) → Logged root files v commits →
      t.version = v ∧ Describes (actionsOf commits) t := by
  refine ⟨⟨?_, ?_⟩, ?_⟩
  · rintro ⟨t, ht⟩
    obtain ⟨-, v, commits, hlogged, htable⟩ := perform_rebuild_iff.1 ht
    exact ⟨v, commits, hlogged, exists_tableAfter?_iff.1 ⟨t, htable⟩⟩
  · rintro ⟨v, commits, hlogged, hwell⟩
    obtain ⟨t, ht⟩ := exists_tableAfter?_iff.2 hwell
    exact ⟨t, perform_rebuild_iff.2 ⟨rfl, v, commits, hlogged, ht⟩⟩
  · intro t v commits ht hlogged
    obtain ⟨-, w, commits', hlogged', htable⟩ := perform_rebuild_iff.1 ht
    obtain ⟨rfl, rfl⟩ := hlogged.unique hlogged'
    obtain ⟨u, -, rfl⟩ := tableAfter?_eq_some htable
    exact ⟨by rw [hlogged.length, UInt64.ofNat_toNat], describes_of_tableAfter? htable⟩

/-! ### Logs that are written down -/

theorem Points.of_content (h : files.content? root Layout.currentPath = some (currentContent v)) :
    Points root files v := ⟨_, readText_of_content h, parseCurrent_line v⟩

theorem Holds.of_content
    (h : files.content? root (Layout.commitPath v) = some (commitContent c)) :
    Holds root files v c := ⟨_, readText_of_content h, parseCommit_render v c⟩

/-- The files after the commit was written and its version was named as current, in a log below the
working directory. -/
def withCommit (files : Tree) (v : Version) (c : Commit) : Tree :=
  ((files.create (Path.join "." (Layout.commitPath v)) (commitContent c)).2.replace
    (Path.join "." Layout.currentPath) (currentContent v)).2

/-- Of the log, nothing but the commit and the version is new. -/
theorem content_withCommit (h : files.Hosts ⟨"."⟩)
    (hfree : files.content? ⟨"."⟩ (Layout.commitPath v) = none) (c : Commit) :
    (withCommit files v c).Hosts ⟨"."⟩ ∧
    (withCommit files v c).content? ⟨"."⟩ Layout.currentPath = some (currentContent v) ∧
    ∀ w, (withCommit files v c).content? ⟨"."⟩ (Layout.commitPath w) =
      if w = v then some (commitContent c) else files.content? ⟨"."⟩ (Layout.commitPath w) := by
  have hcommit := Layout.isTablePath_commit
  have hcurrent := Layout.currentPath_isFile
  obtain ⟨hosts, -, -⟩ := Tree.create_outcome h (hcommit v) (commitContent c)
  obtain ⟨-, hcreated⟩ := Tree.create_of_takes h (hcommit v) (roomy_here.commit v) hfree
    (commitContent c)
  generalize hfirst : (files.create (Path.join "." (Layout.commitPath v)) (commitContent c)).2 =
    created at hosts hcreated
  obtain ⟨hosts', -, -⟩ := Tree.replace_outcome hosts hcurrent.1 hcurrent.2 (currentContent v)
  obtain ⟨-, hnamed⟩ := Tree.replace_of_takes hosts hcurrent.1 hcurrent.2 roomy_here.current
    (currentContent v)
  have hfiles : (created.replace (Path.join "." Layout.currentPath) (currentContent v)).2 =
      withCommit files v c := by
    rw [withCommit, hfirst]
  rw [hfiles] at hosts' hnamed
  refine ⟨hosts', hnamed.here, fun w => ?_⟩
  rw [hnamed.elsewhere _ (hcommit w) (Layout.commitPath_ne_currentPath w)]
  split
  next h => rw [h, hcreated.here]
  next h => exact hcreated.elsewhere _ (hcommit w) fun he => h (Layout.commitPath_injective he)

/-- The files of a log below the working directory in which the commits were written, one behind the
other. -/
def writtenDown (commits : List Commit) : Tree :=
  commits.foldl (fun files c => withCommit files c.version c) .empty

/-- There are these commits and no others, and the last of them is current. -/
structure HasWritten (files : Tree) (commits : List Commit) : Prop where
  hosts : files.Hosts ⟨"."⟩
  current : commits ≠ [] →
    files.content? ⟨"."⟩ Layout.currentPath = some (currentContent (UInt64.ofNat commits.length))
  commit : ∀ n, n + 1 < UInt64.size →
    files.content? ⟨"."⟩ (Layout.commitPath (UInt64.ofNat (n + 1))) = commits[n]?.map commitContent

theorem HasWritten.empty : HasWritten .empty [] := by
  refine ⟨Tree.vacant_empty.hosts, fun h => absurd rfl h, fun n _ => ?_⟩
  exact Tree.vacant_empty.content?_eq_none (Layout.isTablePath_commit _)

theorem HasWritten.concat (h : HasWritten files commits) (hmore : commits.length + 1 < UInt64.size)
    (c : Commit) :
    HasWritten (withCommit files (UInt64.ofNat (commits.length + 1)) c) (commits ++ [c]) := by
  have hfree : files.content? ⟨"."⟩ (Layout.commitPath (UInt64.ofNat (commits.length + 1))) = none := by
    rw [h.commit _ hmore, List.getElem?_eq_none (Nat.le_refl _)]
    rfl
  obtain ⟨hosts, hcurrent, hcommits⟩ := content_withCommit h.hosts hfree c
  refine ⟨hosts, fun _ => by rw [hcurrent, List.length_append]; rfl, fun n hn => ?_⟩
  rw [hcommits]
  split
  next hsame =>
    obtain rfl : n = commits.length := by
      have hnat := congrArg UInt64.toNat hsame
      rw [UInt64.toNat_ofNat_of_lt' hn, UInt64.toNat_ofNat_of_lt' hmore] at hnat
      omega
    rw [List.getElem?_concat_length]
    rfl
  next hother =>
    have hne : n ≠ commits.length := fun he => hother (he ▸ rfl)
    rw [h.commit n hn]
    rcases Nat.lt_or_gt_of_ne hne with hlt | hgt
    · rw [List.getElem?_append_left hlt]
    · rw [List.getElem?_eq_none (Nat.le_of_lt hgt), List.getElem?_eq_none (by simp; omega)]

theorem HasWritten.append {before : List Commit} (h : HasWritten files before)
    (hlt : (before ++ commits).length < UInt64.size)
    (hversions : ∀ n c, (before ++ commits)[n]? = some c → c.version = UInt64.ofNat (n + 1)) :
    HasWritten (commits.foldl (fun files c => withCommit files c.version c) files)
      (before ++ commits) := by
  induction commits generalizing files before with
  | nil => rwa [List.append_nil]
  | cons c commits ih =>
    have hversion : c.version = UInt64.ofNat (before.length + 1) :=
      hversions _ c (by rw [List.getElem?_append_right (Nat.le_refl _), Nat.sub_self]; rfl)
    rw [List.append_cons] at hlt hversions ⊢
    have hmore : before.length + 1 < UInt64.size := by
      simp only [List.length_append, List.length_singleton] at hlt
      omega
    have hnext := h.concat hmore c
    rw [← hversion] at hnext
    rw [List.foldl_cons]
    exact ih hnext hlt hversions

/-- Commits that are numbered from 1 on are recorded when they have been written. -/
theorem logged_writtenDown (hne : commits ≠ []) (hlt : commits.length < UInt64.size)
    (hversions : ∀ n c, commits[n]? = some c → c.version = UInt64.ofNat (n + 1)) :
    Logged ⟨"."⟩ (writtenDown commits) (UInt64.ofNat commits.length) commits := by
  have hwritten : HasWritten (writtenDown commits) commits := HasWritten.empty.append hlt hversions
  have hlength : (UInt64.ofNat commits.length).toNat = commits.length :=
    UInt64.toNat_ofNat_of_lt' hlt
  refine ⟨.of_content (hwritten.current hne), fun hzero => hne ?_, hlength.symm, fun n c hc => ?_⟩
  · rw [hzero] at hlength
    exact List.length_eq_zero_iff.1 hlength.symm
  · have hn : n < commits.length := (List.getElem?_eq_some_iff.1 hc).1
    refine ⟨hversions n c hc, .of_content ?_⟩
    rw [hwritten.commit n (by omega), hc]
    rfl

/-- The files of a log below the working directory, in which the first commit is current. -/
def oneCommit (c : Commit) : Tree := withCommit .empty 1 c

/-- Nothing but the commit and the version are there. -/
theorem content_oneCommit (c : Commit) : (oneCommit c).Hosts ⟨"."⟩ ∧
    (oneCommit c).content? ⟨"."⟩ Layout.currentPath = some (currentContent 1) ∧
    ∀ v, (oneCommit c).content? ⟨"."⟩ (Layout.commitPath v) =
      if v = 1 then some (commitContent c) else none := by
  have hnone := fun v => Tree.vacant_empty.content?_eq_none (Layout.isTablePath_commit v)
  obtain ⟨hosts, hcurrent, hcommits⟩ := content_withCommit Tree.vacant_empty.hosts (hnone 1) c
  exact ⟨hosts, hcurrent, fun v => by rw [oneCommit, hcommits v, hnone v]⟩

theorem logged_oneCommit (hversion : c.version = 1) : Logged ⟨"."⟩ (oneCommit c) 1 [c] := by
  have hsame : writtenDown [c] = oneCommit c := by
    rw [writtenDown, List.foldl_cons, List.foldl_nil, hversion, oneCommit]
  rw [← hsame]
  refine logged_writtenDown (List.cons_ne_nil _ _) (by decide : 1 < UInt64.size) fun n d hd => ?_
  obtain ⟨hn, rfl⟩ := List.getElem?_eq_some_iff.1 hd
  obtain rfl : n = 0 := Nat.lt_one_iff.1 hn
  exact hversion

/-- A snapshot without files. -/
def bare (id : SnapshotId) (parentId : Option SnapshotId) : Snapshot :=
  ⟨id, parentId, default, "", .append, .empty⟩

/-- A table is made; two snapshots are registered and become current, with a change of properties
between them; and the pointer moves back. -/
def backAndForth : List Commit := [
  ⟨1, 0, default, [.create ⟨⟨[], .nil⟩, .unpartitioned, .empty, default, 1⟩]⟩,
  ⟨2, 1, default, [.addSnapshot (bare 1 none), .moveCurrent 1 none default]⟩,
  ⟨3, 2, default, [.updateProperties (SortedMap.empty.insert "a" "b") []]⟩,
  ⟨4, 3, default, [.addSnapshot (bare 2 (some 1)), .moveCurrent 2 (some 1) default]⟩,
  ⟨5, 4, default, [.moveCurrent 1 none default]⟩]

theorem rebuild_iff_wellFormed_backAndForth :
    Logged ⟨"."⟩ (writtenDown backAndForth) 5 backAndForth ∧ WellFormed (actionsOf backAndForth) ∧
      ∃ t, perform ⟨"."⟩ rebuild (writtenDown backAndForth) = (.ok t, writtenDown backAndForth) ∧
        t.version = 5 ∧ Describes (actionsOf backAndForth) t ∧
        (t.snapshots.find? 1 = some (bare 1 none) ∧ t.snapshots.find? 2 = some (bare 2 (some 1))) ∧
        t.currentId = some 1 ∧ t.history.map (·.snapshotId) = [1, 2, 1] := by
  have hlogged : Logged ⟨"."⟩ (writtenDown backAndForth) 5 backAndForth := by
    refine logged_writtenDown (by decide) (by decide) fun n c hc => ?_
    obtain ⟨hn, rfl⟩ := List.getElem?_eq_some_iff.1 hc
    exact (by decide : ∀ n : Fin 5, backAndForth[n].version = UInt64.ofNat (n + 1)) ⟨n, hn⟩
  have hwell : WellFormed (actionsOf backAndForth) := exists_tableAfter?_iff.1 ⟨_, rfl⟩
  obtain ⟨hiff, hdescribes⟩ := rebuild_iff_wellFormed ⟨"."⟩ (writtenDown backAndForth)
  obtain ⟨t, ht⟩ := hiff.2 ⟨5, backAndForth, hlogged, hwell⟩
  obtain ⟨hversion, hdescribed⟩ := hdescribes t 5 backAndForth ht hlogged
  have hfind : ∀ s ∈ [bare 1 none, bare 2 (some 1)], t.snapshots.find? s.id = some s := fun s hs =>
    (hdescribed.snapshots s.id s).2 ⟨hs, rfl⟩
  have hhistory := congrArg (List.map (·.snapshotId)) hdescribed.history
  rw [List.map_map] at hhistory
  exact ⟨hlogged, hwell, t, ht, hversion, hdescribed,
    ⟨hfind (bare 1 none) (by simp), hfind (bare 2 (some 1)) (by simp)⟩, hdescribed.current, hhistory⟩

end Lakehouse.Log
