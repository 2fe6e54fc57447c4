import Lakehouse.Proofs.Log.Chain

/- Reading a chain.

   Reading changes no file, so a script that only reads comes to what it is performed
   to (`Contract.attempts_of_reads`). In a chain every commit is read from its file as it
   was written, and reading the log up to one of its versions gives the table that the
   commits up to there describe (`perform_rebuildAt`); the version that is read first is
   the one that the file for the current version names. -/
namespace Lakehouse

/-- The request leaves all files as they are. -/
def Request.IsRead : Request → Prop
  | .readBytes _ => True
  | .readText _ => True
  | .list _ => True
  | _ => False

theorem Tree.answer_read {r : Request} (h : r.IsRead) (t : Tree) (root : Location) :
    (t.answer root r).2 = t := by
  cases r with
  | readBytes path => rfl
  | readText path => rfl
  | list directory => rfl
  | create path content => exact absurd h id
  | replace path content => exact absurd h id

/-- A script that only reads. -/
def Script.Reads {α : Type} (s : Script α) : Prop := s.Yields Request.IsRead fun _ => True

namespace Script.Reads

variable {α β ε ε' : Type}

theorem pure (a : α) : Reads (Pure.pure a : Script α) := trivial

theorem request {r : Request} (h : r.IsRead) : Reads (Script.request r) := Yields.request h

theorem bind {s : Script α} {f : α → Script β} (h : s.Reads) (hf : ∀ a, (f a).Reads) :
    (s >>= f).Reads := Yields.bind h fun a _ => hf a

theorem bindE {x : ExceptT ε Script α} {f : α → ExceptT ε Script β} (h : x.run.Reads)
    (hf : ∀ a, (f a).run.Reads) : (x >>= f).run.Reads := Yields.bindE h hf

theorem lift {s : Script α} (h : s.Reads) : (ExceptT.lift s : ExceptT ε Script α).run.Reads :=
  Yields.lift h

theorem adapt {x : ExceptT ε Script α} {f : ε → ε'} (h : x.run.Reads) : (x.adapt f).run.Reads :=
  Yields.adapt h

theorem mapM {f : α → ExceptT ε Script β} (h : ∀ a, (f a).run.Reads) (l : List α) :
    (l.mapM f).run.Reads := Yields.mapM h l

theorem run_snd {s : Script α} (h : s.Reads) (root : Location) (t : Tree) : (s.run root t).2 = t := by
  induction s generalizing t with
  | done a => rfl
  | ask r next ih =>
    rw [Script.run, ih _ (h.2 _), Tree.answer_read h.1]

/-- What only reads leaves the tree as it is, whatever it comes to. -/
theorem eq_of_perform {root : Location} {t t' : Tree} {x : ExceptT ε Script α} (h : x.run.Reads)
    {a : Except ε α} (hperform : perform root x t = (a, t')) : t' = t := by
  have hsame := h.run_snd root t
  rw [perform] at hperform
  rw [← hsame, hperform]

end Script.Reads

namespace Contract

variable {α ε : Type} {c : Contract}

/-- What only reads keeps everything, and comes to what it is run to. -/
theorem ensures_of_reads {s : Script α} (h : s.Reads) {t : Tree} (hrefl : c.keeps t t) :
    c.Ensures s t fun a t' => a = (s.run c.root t).1 ∧ t' = t := by
  induction s with
  | done a => exact ⟨rfl, rfl⟩
  | ask r next ih =>
    intro _
    have hsame : (t.answer c.root r).2 = t := Tree.answer_read h.1 t c.root
    have hnext := ih (t.answer c.root r).1 (h.2 _)
    rw [Script.run, hsame]
    exact ⟨hrefl, hnext⟩

theorem attempts_of_reads {x : ExceptT ε Script α} (h : x.run.Reads) {t : Tree}
    (hrefl : c.keeps t t) :
    c.Attempts x t (fun a t' => Script.perform c.root x t = (.ok a, t) ∧ t' = t)
      (fun e t' => Script.perform c.root x t = (.error e, t) ∧ t' = t) := by
  refine (ensures_of_reads h hrefl).mono ?_
  rintro r t' ⟨hr, rfl⟩
  have hperform : Script.perform c.root x t' = (r, t') := Prod.ext hr.symm (h.run_snd c.root t')
  cases r with
  | ok a => exact ⟨hperform, rfl⟩
  | error e => exact ⟨hperform, rfl⟩

end Contract

namespace Log

/-- The table as of a version, which may be an earlier one. -/
def rebuildAt (version : Version) : LogScript Table := do
  match ← replayFrom version.toNat 1 none with
  | some t => return { t with version := version }
  | none => LogScript.fail (.neverCreated version)

theorem reads_currentVersion : currentVersion.run.Reads := by
  refine Script.Reads.bind (Script.Reads.request trivial) fun r => ?_
  cases r with
  | ok content => exact Script.Reads.pure _
  | error e => cases e <;> exact Script.Reads.pure _

theorem reads_loadCommit (v : Version) : (loadCommit v).run.Reads := by
  refine Script.Reads.bind (Script.Reads.request trivial) fun r => ?_
  cases r <;> exact Script.Reads.pure _

theorem reads_replayFrom (count : Nat) (v : Version) (t : Option Table) :
    (replayFrom count v t).run.Reads := by
  induction count generalizing v t with
  | zero => exact Script.Reads.pure _
  | succ count ih =>
    refine Script.Reads.bindE (reads_loadCommit v) fun c => ?_
    cases replayCommit v t c with
    | ok t' => exact ih (v + 1) t'
    | error e => exact Script.Reads.pure _

theorem reads_rebuild : rebuild.run.Reads := by
  refine Script.Reads.bindE reads_currentVersion fun v => ?_
  split
  · exact Script.Reads.pure _
  · refine Script.Reads.bindE (reads_replayFrom v.toNat 1 none) fun t => ?_
    cases t <;> exact Script.Reads.pure _

/-! ### What is read -/

variable {root : Location} {files : Tree}

theorem readText_of_content {path content : String}
    (h : files.content? root path = some content.toUTF8) :
    files.readText (Path.join root.path path) = .ok content := by
  rw [Tree.readText, Tree.readBytes_of_content h]
  simp only [bind, Except.bind]
  rw [fromUTF8?_toUTF8]

theorem readText_of_no_content {path : String} (h : files.content? root path = none) :
    ∃ e, files.readText (Path.join root.path path) = .error e := by
  obtain ⟨e, he⟩ := Tree.readBytes_of_no_content h
  exact ⟨e, by rw [Tree.readText, he]; rfl⟩

theorem perform_currentVersion {v : Version}
    (h : files.content? root Layout.currentPath = some (currentContent v)) :
    Script.perform root currentVersion files = (.ok v, files) := by
  rw [currentVersion, Script.perform_mk, Script.run_bind, Script.run_request]
  simp only [Tree.answer, readText_of_content h]
  rw [Script.run_pure, parseCurrent_line]
  rfl

/-- Without the file no version is current, unless it cannot be asked for. -/
theorem perform_currentVersion_none (h : files.content? root Layout.currentPath = none) :
    Script.perform root currentVersion files = (.ok 0, files) ∨
      ∃ e, Script.perform root currentVersion files = (.error e, files) := by
  obtain ⟨e, he⟩ := readText_of_no_content h
  rw [currentVersion, Script.perform_mk, Script.run_bind, Script.run_request]
  simp only [Tree.answer, he]
  cases e with
  | notFound path => exact .inl rfl
  | alreadyExists path => exact .inr ⟨_, rfl⟩
  | fault path cause => exact .inr ⟨_, rfl⟩

theorem perform_loadCommit {v : Version} {c : Commit}
    (h : files.content? root (Layout.commitPath v) = some (commitContent c)) :
    Script.perform root (loadCommit v) files = (.ok c, files) := by
  rw [loadCommit, Script.perform_mk, Script.run_bind, Script.run_request]
  simp only [Tree.answer, readText_of_content h]
  rw [Script.run_pure, parseCommit_render]
  rfl

/-- A commit that is read was there. -/
theorem content_of_loadCommit {v : Version} {c : Commit}
    (h : Script.perform root (loadCommit v) files = (.ok c, files)) :
    (files.content? root (Layout.commitPath v)).isSome := by
  cases hc : files.content? root (Layout.commitPath v) with
  | some content => rfl
  | none =>
    obtain ⟨e, he⟩ := readText_of_no_content hc
    rw [loadCommit, Script.perform_mk, Script.run_bind, Script.run_request] at h
    simp only [Tree.answer, he] at h
    exact absurd h (by simp)

variable {commits : List Commit} {current : Nat}

theorem Chain.pointer_zero (h : Chain root files commits current) (hzero : current = 0) :
    files.content? root Layout.currentPath = none := by
  rw [h.pointer, if_pos hzero]

theorem Chain.pointer_pos (h : Chain root files commits current) (hpos : 0 < current) :
    files.content? root Layout.currentPath = some (currentContent (UInt64.ofNat current)) := by
  rw [h.pointer, if_neg (by omega)]

theorem Chain.current_le (h : Chain root files commits current) : current ≤ commits.length := by
  have := h.named
  omega

theorem Chain.toNat_current (h : Chain root files commits current) :
    (UInt64.ofNat current).toNat = current := by
  have hle := h.current_le
  have hlt := h.length_lt
  exact UInt64.toNat_ofNat_of_lt' (by omega)

theorem Chain.current_ne_zero (h : Chain root files commits current) (hpos : 0 < current) :
    UInt64.ofNat current ≠ 0 := by
  intro hzero
  have htoNat := h.toNat_current
  rw [hzero] at htoNat
  exact Nat.ne_of_lt hpos htoNat

/-- What the current version is found to be. -/
theorem Chain.perform_currentVersion (h : Chain root files commits current) :
    Script.perform root currentVersion files = (.ok (UInt64.ofNat current), files) ∨
      ∃ e, Script.perform root currentVersion files = (.error e, files) := by
  by_cases hzero : current = 0
  · subst hzero
    exact perform_currentVersion_none (h.pointer_zero rfl)
  · exact .inl (Log.perform_currentVersion (h.pointer_pos (by omega)))

theorem perform_replayFrom (h : Chain root files commits current) (before middle after : List Commit)
    (hsplit : commits = before ++ middle ++ after) (t : Option Table) :
    Script.perform root (replayFrom middle.length (UInt64.ofNat (before.length + 1)) t) files =
      ((replayed t middle).mapError .corrupt, files) := by
  induction middle generalizing before t with
  | nil => rfl
  | cons c middle ih =>
    have hlength : before.length < commits.length := by
      rw [hsplit]
      simp
    have hat : commitAt? commits (UInt64.ofNat (before.length + 1)) = some c := by
      rw [commitAt?_ofNat hlength h.length_lt, hsplit, List.append_assoc,
        List.getElem?_append_right (Nat.le_refl _), Nat.sub_self]
      rfl
    have hfile := h.file (UInt64.ofNat (before.length + 1))
    rw [hat] at hfile
    have hversion := (h.numbered _ c hat).1
    have hnext : UInt64.ofNat (before.length + 1) + 1 = UInt64.ofNat ((before ++ [c]).length + 1) := by
      rw [List.length_append, List.length_singleton, UInt64.ofNat_add (before.length + 1) 1]
      rfl
    rw [List.length_cons, replayFrom, Script.perform_bind, perform_loadCommit hfile]
    simp only
    rw [replayed, List.foldlM_cons, hversion]
    cases replayCommit (UInt64.ofNat (before.length + 1)) t c with
    | error e => rfl
    | ok t' =>
      simp only
      rw [hnext, ih (before ++ [c]) (by simp [hsplit])]
      rfl

theorem perform_rebuildAt (h : Chain root files commits current) {v : Version} {t : Table}
    (hle : v.toNat ≤ commits.length) (ht : tableAfter? (commits.take v.toNat) = some t) :
    Script.perform root (rebuildAt v) files = (.ok t, files) := by
  obtain ⟨u, hu, rfl⟩ := tableAfter?_eq_some ht
  have hlength : (commits.take v.toNat).length = v.toNat := by
    rw [List.length_take, Nat.min_eq_left hle]
  have hreplay := perform_replayFrom h [] (commits.take v.toNat)
    (commits.drop v.toNat) (List.take_append_drop _ _).symm none
  rw [hlength] at hreplay
  have hone : UInt64.ofNat (([] : List Commit).length + 1) = 1 := rfl
  rw [hone, hu] at hreplay
  rw [rebuildAt, Script.perform_bind, hreplay]
  simp only [mapError_ok]
  rw [Script.perform_pure, hlength, UInt64.ofNat_toNat]

theorem perform_rebuild (h : Chain root files commits current) {t : Table} (hpos : 0 < current)
    (ht : tableAfter? (commits.take current) = some t) :
    Script.perform root rebuild files = (.ok t, files) := by
  have htoNat := h.toNat_current
  have hat := perform_rebuildAt h (v := UInt64.ofNat current) (t := t)
    (by rw [htoNat]; exact h.current_le) (by rw [htoNat]; exact ht)
  rw [rebuild, Script.perform_bind, Log.perform_currentVersion (h.pointer_pos hpos)]
  simp only [if_neg (h.current_ne_zero hpos)]
  exact hat

theorem perform_rebuild_zero (h : Chain root files commits current) (hzero : current = 0) :
    ∃ e, Script.perform root rebuild files = (.error e, files) := by
  rw [rebuild, Script.perform_bind]
  rcases perform_currentVersion_none (h.pointer_zero hzero) with hv | ⟨e, he⟩
  · rw [hv]
    exact ⟨_, rfl⟩
  · rw [he]
    exact ⟨e, rfl⟩

/-- If a table can be read at all, it is the one that the commits up to the current version
describe. -/
theorem table_of_rebuild (h : Chain root files commits current) {t : Table}
    (hread : Script.perform root rebuild files = (.ok t, files)) :
    0 < current ∧ tableAfter? (commits.take current) = some t := by
  by_cases hzero : current = 0
  · obtain ⟨e, he⟩ := perform_rebuild_zero h hzero
    rw [hread] at he
    exact absurd he (by simp)
  · have hpos : 0 < current := by omega
    obtain ⟨u, hu⟩ := h.replays current hpos h.current_le
    have hread' := perform_rebuild h hpos hu
    rw [hread] at hread'
    cases hread'
    exact ⟨hpos, hu⟩

/-- Commits that are replayed are there. -/
theorem present_of_replayFrom {count : Nat} {v : Version} {t r : Option Table}
    (hread : Script.perform root (replayFrom count v t) files = (.ok r, files)) :
    ∀ i < count, (files.content? root (Layout.commitPath (v + UInt64.ofNat i))).isSome := by
  induction count generalizing v t with
  | zero => exact fun i hi => absurd hi (Nat.not_lt_zero i)
  | succ count ih =>
    rw [replayFrom, Script.perform_bind] at hread
    cases hcommit : Script.perform root (loadCommit v) files with
    | mk result files' =>
      rw [hcommit] at hread
      cases result with
      | error e => exact absurd hread (by simp)
      | ok c =>
        have hsame : files' = files := by
          have hfiles := (reads_loadCommit v).run_snd root files
          rw [Script.perform] at hcommit
          rw [hcommit] at hfiles
          exact hfiles
        subst hsame
        dsimp only at hread
        intro i hi
        cases i with
        | zero =>
          rw [show v + UInt64.ofNat 0 = v from UInt64.add_zero v]
          exact content_of_loadCommit hcommit
        | succ i =>
          have hnext : v + UInt64.ofNat (i + 1) = v + 1 + UInt64.ofNat i := by
            rw [UInt64.ofNat_add, UInt64.add_comm (UInt64.ofNat i), ← UInt64.add_assoc]
            rfl
          rw [hnext]
          split at hread
          next => exact ih hread i (by omega)
          next => exact absurd hread (by simp [LogScript.fail])

/-- A table that can be read as of a version is the one that the commits up to it describe. -/
theorem table_of_rebuildAt (h : Chain root files commits current) {v : Version} {t : Table}
    (hread : Script.perform root (rebuildAt v) files = (.ok t, files)) :
    v.toNat ≤ commits.length ∧ tableAfter? (commits.take v.toNat) = some t := by
  rw [rebuildAt, Script.perform_bind] at hread
  cases hreplay : Script.perform root (replayFrom v.toNat 1 none) files with
  | mk result files' =>
    have hfiles : files' = files := by
      have hsame := (reads_replayFrom v.toNat 1 none).run_snd root files
      rw [Script.perform] at hreplay
      rw [hreplay] at hsame
      exact hsame
    subst hfiles
    rw [hreplay] at hread
    cases result with
    | error e => exact absurd hread (by simp)
    | ok r =>
      by_cases hzero : v.toNat = 0
      · rw [hzero] at hreplay
        obtain rfl := Except.ok.inj (Prod.mk.inj hreplay).1
        exact absurd hread (by simp [LogScript.fail])
      · have hpos : 0 < v.toNat := by omega
        have hpresent := present_of_replayFrom hreplay (v.toNat - 1) (by omega)
        -- The last commit that is replayed is that of the version itself.
        have hlast : (1 : Version) + UInt64.ofNat (v.toNat - 1) = v := by
          calc (1 : Version) + UInt64.ofNat (v.toNat - 1)
              = UInt64.ofNat (1 + (v.toNat - 1)) := (UInt64.ofNat_add 1 (v.toNat - 1)).symm
            _ = UInt64.ofNat v.toNat := by rw [Nat.add_sub_cancel' hpos]
            _ = v := UInt64.ofNat_toNat
        rw [hlast] at hpresent
        have hle := ((h.commit_isSome v).1 hpresent).2
        obtain ⟨u, hu⟩ := h.replays v.toNat hpos hle
        have hread' := perform_rebuildAt h hle hu
        rw [rebuildAt, Script.perform_bind, hreplay, hread] at hread'
        cases hread'
        exact ⟨hle, hu⟩

end Log

end Lakehouse
