import Lakehouse.Proofs.Log.Shelves
import Lakehouse.Proofs.Store.Room

/- Writers of a log.

   Each access of a writer leaves a chain of commits that begins with the one before,
   and never names an earlier version as current (`Advances`), whether the writer comes
   first, meets a version that is taken, or makes a commit current that another writer
   left; no other file of the table changes, and what stands on its shelves can be read
   (`Proceeds`). A writer that succeeds has added its commit behind all others and made
   it current. One that fails has added none; it may have made another writer's commit
   current, but then it has lost to that writer (`append_attempts`). -/
namespace Lakehouse.Log

open Contract

/-- The chain goes on, and the current version does not go back. -/
def Advances (root : Location) (files files' : Tree) : Prop :=
  ∀ commits current, Chain root files commits current →
    ∃ commits' current', Chain root files' commits' current' ∧ commits <+: commits' ∧
      current ≤ current'

/-- The log goes on, the files of the table grow, and what is on its shelves can be read. -/
structure Proceeds (asked : Request → Prop) (root : Location) (files files' : Tree) : Prop where
  advances : Advances root files files'
  grows : files.Grows asked root files'
  shelves : Shelved root files → Shelved root files'

/-- Every access to the storage of a table lets its log go on and its files grow by what is
asked for. -/
def contract (asked : Request → Prop) (root : Location) : Contract :=
  ⟨root, asked, Proceeds asked root⟩

variable {asked : Request → Prop} {root : Location} {files files' files'' : Tree}
  {commits : List Commit} {current : Nat}

theorem Advances.refl (root : Location) (files : Tree) : Advances root files files :=
  fun commits current h => ⟨commits, current, h, List.prefix_refl _, Nat.le_refl _⟩

theorem Advances.trans (h : Advances root files files') (h' : Advances root files' files'') :
    Advances root files files'' := by
  intro commits current hc
  obtain ⟨commits', current', hc', hbegins, hle⟩ := h commits current hc
  obtain ⟨commits'', current'', hc'', hbegins', hle'⟩ := h' commits' current' hc'
  exact ⟨commits'', current'', hc'', hbegins.trans hbegins', Nat.le_trans hle hle'⟩

/-- As the files determine the chain, it is enough to give one that follows. -/
theorem Advances.of_chain {commits' : List Commit} {current' : Nat}
    (h : Chain root files commits current) (h' : Chain root files' commits' current')
    (hbegins : commits <+: commits') (hle : current ≤ current') : Advances root files files' := by
  intro l n hl
  obtain ⟨rfl, rfl⟩ := hl.unique h
  exact ⟨commits', current', h', hbegins, hle⟩

theorem Proceeds.refl (asked : Request → Prop) (root : Location) (files : Tree) :
    Proceeds asked root files files :=
  ⟨Advances.refl root files, .refl asked root files, id⟩

theorem Proceeds.trans (h : Proceeds asked root files files')
    (h' : Proceeds asked root files' files'') : Proceeds asked root files files'' :=
  ⟨h.advances.trans h'.advances, h.grows.trans h'.grows, h'.shelves ∘ h.shelves⟩

/-- An access that leaves the files of the table as they are. -/
theorem Proceeds.of_same (h : Chain root files commits current)
    (h' : Chain root files' commits current) (hkeep : files.KeepsBut root.currentPlace files')
    (hsame : files.SameFiles files' root) : Proceeds asked root files files' := by
  have hgrows : files.Grows asked root files' := .of_same hkeep hsame
  refine ⟨.of_chain h h' (List.prefix_refl _) (Nat.le_refl _), hgrows, fun hshelved => ?_⟩
  exact hshelved.of_same h hgrows h' fun _ _ path hname => hsame.contents path hname.isTablePath

theorem Chain.of_sameFiles (h : Chain root files commits current) (hosts : files'.Hosts root)
    (hsame : files.SameFiles files' root) : Chain root files' commits current :=
  h.of_same hosts (fun v => hsame.contents _ (Layout.isTablePath_commit v))
    (hsame.contents _ Layout.isTablePath_current) (hsame.nodes _)

/-! ### The two writes -/

theorem commitAt?_append {c : Commit} {v : Version} (hlt : commits.length + 1 < UInt64.size) :
    commitAt? (commits ++ [c]) v =
      if v = UInt64.ofNat (commits.length + 1) then some c else commitAt? commits v := by
  have htoNat : (UInt64.ofNat (commits.length + 1)).toNat = commits.length + 1 :=
    UInt64.toNat_ofNat_of_lt' hlt
  split
  next hv =>
    subst hv
    rw [commitAt?_ofNat (by simp) (by simpa using hlt), List.getElem?_concat_length]
  next hv =>
    rw [commitAt?, commitAt?]
    split
    next => rfl
    next hzero =>
      have hpos := toNat_ne_zero hzero
      have hne : v.toNat ≠ commits.length + 1 := fun he =>
        hv (UInt64.toNat_inj.1 (he.trans htoNat.symm))
      by_cases hle : v.toNat ≤ commits.length
      · exact List.getElem?_append_left (by omega)
      · rw [List.getElem?_eq_none (by simp; omega), List.getElem?_eq_none (by omega)]

/-- The next commit's file continues a chain of which the last commit is current. -/
theorem Chain.create (h : Chain root files commits current) (hcurrent : current = commits.length)
    {c : Commit} (hlt : commits.length + 1 < UInt64.size)
    (hversion : c.version = UInt64.ofNat (commits.length + 1)) (hbase : c.base + 1 = c.version)
    (hosts : files'.Hosts root)
    (hwrite : files.Becomes files' root (Layout.commitPath c.version) (commitContent c))
    (htable : ∃ t, tableAfter? (commits ++ [c]) = some t) :
    Chain root files' (commits ++ [c]) current := by
  refine ⟨hosts, by simpa using hlt, ?_, ?_, ?_, ?_, ?_, ?_⟩
  · intro v
    rw [commitAt?_append hlt, ← hversion]
    split
    next hv => rw [hv, hwrite.here]; rfl
    next hv =>
      rw [hwrite.elsewhere _ (Layout.isTablePath_commit v) fun he =>
        hv (Layout.commitPath_injective he), h.file]
  · intro v d hd
    rw [commitAt?_append hlt, ← hversion] at hd
    split at hd
    next hv =>
      obtain rfl := Option.some.inj hd
      exact ⟨hv.symm, hv ▸ hbase⟩
    next => exact h.numbered v d hd
  · rw [hwrite.elsewhere _ Layout.isTablePath_current (Layout.commitPath_ne_currentPath _).symm,
      h.pointer]
  · intro hzero d hd
    exact h.unnamed hzero d (hwrite.node_current (Layout.commitPath_ne_currentPath _) hd)
  · rw [List.length_append, List.length_singleton]
    omega
  · intro n hpos hn
    -- Only the log with the new commit has to be replayed anew.
    by_cases hle : n ≤ commits.length
    · rw [List.take_append_of_le_length hle]
      exact h.replays n hpos hle
    · rw [List.take_of_length_le (by simp; omega)]
      exact htable

/-- The file for the current version may name the last commit. -/
theorem Chain.advance (h : Chain root files commits current) (hnext : current + 1 = commits.length)
    (hosts : files'.Hosts root)
    (hwrite : files.Becomes files' root Layout.currentPath
      (currentContent (UInt64.ofNat (current + 1)))) :
    Chain root files' commits (current + 1) :=
  { h with
    hosts := hosts
    file := fun v => (hwrite.elsewhere _ (Layout.isTablePath_commit v)
      (Layout.commitPath_ne_currentPath v)).trans (h.file v)
    pointer := by rw [hwrite.here, if_neg (Nat.succ_ne_zero current)]
    unnamed := fun hzero => absurd hzero (Nat.succ_ne_zero current)
    named := .inl hnext }

/-- Naming the last commit as current either happens or changes nothing. -/
theorem writeCurrent_attempts (h : Chain root files commits current)
    (hnext : current + 1 = commits.length) :
    (contract asked root).Attempts (writeCurrent (UInt64.ofNat (current + 1))) files
      (fun _ files' => Chain root files' commits (current + 1))
      (fun _ files' => Chain root files' commits current ∧
        ¬ Tree.Takes root Layout.currentPath) := by
  obtain ⟨hosts, hkeep, houtcome⟩ := Tree.replace_outcome h.hosts Layout.currentPath_isFile.1
    Layout.currentPath_isFile.2 (currentContent (UInt64.ofNat (current + 1)))
  refine Attempts.mk (Ensures.bind (Ensures.request fun _ => ?_))
  simp only [contract, Tree.answer]
  generalize files.replace (Path.join root.path Layout.currentPath)
    (currentContent (UInt64.ofNat (current + 1))) = reply at hosts hkeep houtcome ⊢
  obtain ⟨result, after⟩ := reply
  cases houtcome with
  | done now =>
    have hafter := h.advance hnext hosts now
    have hgrows : files.Grows asked root after := .of_current hkeep now
    exact ⟨⟨.of_chain h hafter (List.prefix_refl _) (Nat.le_succ _), hgrows,
      fun hshelved => hshelved.of_current h hgrows hafter now⟩, hafter⟩
  | failed p cause refused same =>
    have hafter := h.of_sameFiles hosts same
    exact ⟨.of_same h hafter hkeep same, hafter, refused⟩

/-! ### Whole writers -/

/-- The chain holds the same commits, and its current version has not gone back. -/
def Settled (root : Location) (commits : List Commit) (current : Nat) (files : Tree) : Prop :=
  ∃ current', Chain root files commits current' ∧ current ≤ current'

theorem Chain.settled (h : Chain root files commits current) : Settled root commits current files :=
  ⟨current, h, Nat.le_refl _⟩

theorem reads_attempts {ε α : Type} {x : ExceptT ε Script α} (h : x.run.Reads) :
    (contract asked root).Attempts x files
      (fun a files' => Script.perform root x files = (.ok a, files) ∧ files' = files)
      (fun e files' => Script.perform root x files = (.error e, files) ∧ files' = files) :=
  attempts_of_reads (c := contract asked root) h (Proceeds.refl asked root files)

/-- The current version that a writer finds. -/
theorem Chain.eq_of_perform_currentVersion (h : Chain root files commits current) {v : Version}
    (hread : Script.perform root currentVersion files = (.ok v, files)) :
    v = UInt64.ofNat current := by
  rcases h.perform_currentVersion with hv | ⟨e, he⟩
  · rw [hread] at hv
    cases hv
    rfl
  · rw [hread] at he
    exact absurd he (by simp)

theorem ofNat_succ (n : Nat) : UInt64.ofNat (n + 1) = UInt64.ofNat n + 1 := by
  rw [UInt64.ofNat_add n 1]
  rfl

/-- A commit that follows the current version is the last one. -/
theorem Chain.current_succ (h : Chain root files commits current) {expected : Version}
    (hcurrent : expected = UInt64.ofNat current) (hlt : current + 1 < UInt64.size)
    (hthere : (files.content? root (Layout.commitPath (expected + 1))).isSome) :
    current + 1 = commits.length := by
  have hnext := ((h.commit_isSome (expected + 1)).1 hthere).2
  rw [hcurrent, ← ofNat_succ, UInt64.toNat_ofNat_of_lt' hlt] at hnext
  have := h.named
  omega

/-- Making another writer's commit current, or leaving it. -/
theorem publish_attempts (h : Chain root files commits current) {expected : Version}
    (hlt : expected.toNat + 1 < UInt64.size) :
    (contract asked root).Attempts (publish expected (expected + 1)) files
      (fun _ files' => Settled root commits current files')
      (fun _ files' => Chain root files' commits current) := by
  refine Attempts.bind ((reads_attempts (reads_loadCommit (expected + 1))).mono ?_ ?_)
  · rintro found files₁ ⟨hfound, rfl⟩
    split
    next =>
      refine Attempts.bind ((reads_attempts reads_currentVersion).mono ?_ ?_)
      · rintro version files₂ ⟨hversion, rfl⟩
        split
        next hexpected =>
          -- The commit that was found is the next one after the current version.
          have hcurrent : expected = UInt64.ofNat current :=
            hexpected ▸ h.eq_of_perform_currentVersion hversion
          rw [hcurrent, h.toNat_current] at hlt
          have hnext := h.current_succ hcurrent hlt (content_of_loadCommit hfound)
          rw [hcurrent, ← ofNat_succ]
          refine (writeCurrent_attempts h hnext).mono ?_ ?_
          · intro _ files' h'
            exact ⟨current + 1, h', Nat.le_succ current⟩
          · intro _ files' h'
            exact h'.1
        next => exact Attempts.pure h.settled
      · rintro e files₂ ⟨-, rfl⟩
        exact h
    next => exact Attempts.throw h
  · rintro e files₁ ⟨-, rfl⟩
    exact h

/-- Nothing stands in the way of the next commit: there is room for it, all commits are current,
and versions do not run out. -/
structure Open (root : Location) (commits : List Commit) (current : Nat) : Prop where
  room : root.Roomy
  last : current = commits.length
  next : current + 1 < UInt64.size

/-- What a writer that failed has left: the same commits, and the same version as current unless
it lost to another writer. It was not the next one to come. -/
structure Lost (root : Location) (commits : List Commit) (current : Nat) (expected : Version)
    (e : LogError) (files : Tree) : Prop where
  settled : Settled root commits current files
  still : (∃ v w, e = .conflict v w) ∨ Chain root files commits current
  late : Open root commits current → expected.toNat ≠ current

/-- Where there is room, the current version can be read. -/
theorem Chain.perform_currentVersion_of_room (h : Chain root files commits current)
    (hroom : root.Roomy) :
    Script.perform root currentVersion files = (.ok (UInt64.ofNat current), files) := by
  by_cases hzero : current = 0
  · have hmissing := Tree.readBytes_missing h.hosts Layout.isTablePath_current hroom.current
      (h.pointer_zero hzero)
    rw [currentVersion, Script.perform_mk, Script.run_bind, Script.run_request]
    simp only [Tree.answer, Tree.readText, hmissing, hzero]
    rfl
  · exact Log.perform_currentVersion (h.pointer_pos (by omega))

/-- The commit that a writer adds behind the version that it expects. -/
def nextCommit (expected : Version) (actions : List Action) (now : Calendar.Instant) : Commit :=
  ⟨expected + 1, expected, now, actions⟩

/-- The name of the next commit is free only where the last commit is current. -/
theorem Chain.eq_length_of_free (h : Chain root files commits current)
    (hlt : current + 1 < UInt64.size)
    (hfree : files.content? root (Layout.commitPath (UInt64.ofNat current + 1)) = none) :
    current = commits.length := by
  have hnone : ¬ (files.content? root (Layout.commitPath (UInt64.ofNat current + 1))).isSome := by
    rw [hfree]
    simp
  rw [h.commit_isSome, ← ofNat_succ, UInt64.toNat_ofNat_of_lt' hlt] at hnone
  have := h.current_le
  omega

/-- Where nothing stands in the way, the name of the next commit is free. -/
theorem Open.content?_next (hopen : Open root commits current)
    (h : Chain root files commits current) :
    files.content? root (Layout.commitPath (UInt64.ofNat current + 1)) = none := by
  rw [← Option.not_isSome_iff_eq_none, h.commit_isSome, ← ofNat_succ,
    UInt64.toNat_ofNat_of_lt' hopen.next]
  have := hopen.last
  omega

/-- The file of the next commit is created: the log goes on with it, and it is not yet current. -/
theorem Chain.add (h : Chain root files commits commits.length)
    (hlt : commits.length + 1 < UInt64.size) {c : Commit}
    (hversion : c.version = UInt64.ofNat (commits.length + 1)) (hbase : c.base + 1 = c.version)
    {t : Table} (ht : tableAfter? (commits ++ [c]) = some t)
    (hstored : Shelved root files → t.IsStored root files)
    (hgrows : files.Grows asked root files') (hosts : files'.Hosts root)
    (hwrite : files.Becomes files' root (Layout.commitPath c.version) (commitContent c)) :
    Chain root files' (commits ++ [c]) commits.length ∧ Proceeds asked root files files' := by
  have hafter := h.create rfl hlt hversion hbase hosts hwrite ⟨t, ht⟩
  refine ⟨hafter, .of_chain h hafter (List.prefix_append _ _) (Nat.le_refl _), hgrows, ?_⟩
  intro hshelved
  refine hshelved.of_committed h hgrows hafter hwrite fun u hu => ?_
  rw [ht] at hu
  exact Option.some.inj hu ▸ hstored hshelved

/-- Naming the commit that has been added as current, where there is room for the name. -/
theorem finish_attempts {c : Commit} (h : Chain root files (commits ++ [c]) commits.length)
    (htakes : Tree.Takes root Layout.currentPath) {fail : LogError → Tree → Prop} :
    (contract asked root).Attempts (writeCurrent (UInt64.ofNat (commits.length + 1))) files
      (fun _ files' => Chain root files' (commits ++ [c]) (commits.length + 1)) fail := by
  refine (writeCurrent_attempts h (by simp)).mono (fun _ _ h' => h') ?_
  rintro e files' ⟨-, hrefused⟩
  exact absurd htakes hrefused

/-- A writer that finds the name of its commit taken makes the commit under it current, or leaves
it, and has lost. -/
theorem yield_attempts (h : Chain root files commits current) {expected : Version}
    (hlt : expected.toNat + 1 < UInt64.size) (v w : Version)
    (hlate : Open root commits current → expected.toNat ≠ current)
    {post : Version → Tree → Prop} :
    (contract asked root).Attempts (do
      publish expected (expected + 1)
      throw (LogError.conflict v w)) files post (Lost root commits current expected) := by
  refine Attempts.bind ((publish_attempts h hlt).mono ?_ ?_)
  · intro _ files' hsettled
    exact Attempts.throw ⟨hsettled, .inl ⟨v, w, rfl⟩, hlate⟩
  · intro e files' hchain
    exact ⟨hchain.settled, .inr hchain, hlate⟩

/-- A writer that succeeds has expected the last version, which was current, and has added its
commit; one that fails has added none. -/
theorem append_attempts (h : Chain root files commits current) (expected : Version)
    (actions : List Action) (now : Calendar.Instant)
    (hvalid : expected.toNat = commits.length →
      ∃ t, tableAfter? (commits ++ [nextCommit expected actions now]) = some t ∧
        (Shelved root files → t.IsStored root files)) :
    (contract asked root).Attempts (append expected actions now) files
      (fun v files' => expected.toNat = commits.length ∧ current = commits.length ∧
        v = expected + 1 ∧
        Chain root files' (commits ++ [nextCommit expected actions now]) (commits.length + 1))
      (fun e files' => Lost root commits current expected e files') := by
  refine Attempts.bind ((reads_attempts reads_currentVersion).mono ?_ ?_)
  · rintro version files₁ ⟨hversion, rfl⟩
    split
    next hne =>
      refine Attempts.throw ⟨h.settled, .inr h, fun _ heq => hne ?_⟩
      rw [h.eq_of_perform_currentVersion hversion, ← heq, UInt64.ofNat_toNat]
    next hexpected =>
      have hcurrent : expected = UInt64.ofNat current :=
        Decidable.not_not.1 hexpected ▸ h.eq_of_perform_currentVersion hversion
      have htoNat : expected.toNat = current := by rw [hcurrent, h.toNat_current]
      split
      next hlast => exact Attempts.throw ⟨h.settled, .inr h, fun hopen _ => by
        have := hopen.next
        omega⟩
      next hlast =>
        have hlt : current + 1 < UInt64.size := by
          have hsize := expected.toNat_lt
          have hpow : UInt64.size = 2 ^ 64 := rfl
          omega
        obtain ⟨hosts, hkeep, houtcome⟩ := Tree.create_outcome h.hosts
          (Layout.isTablePath_commit (expected + 1))
          (commitContent (nextCommit expected actions now))
        have hwritable := Tree.takes_current_of_create h.hosts (expected + 1)
          (commitContent (nextCommit expected actions now))
        refine Attempts.bind (Attempts.lift (Ensures.request fun hasked => ?_))
        simp only [contract, Tree.answer, nextCommit] at hosts hkeep houtcome hwritable ⊢
        generalize files₁.create (Path.join root.path (Layout.commitPath (expected + 1)))
          (commitContent ⟨expected + 1, expected, now, actions⟩) = reply
          at hosts hkeep houtcome hwritable ⊢
        obtain ⟨result, after⟩ := reply
        cases houtcome with
        | done fresh free written =>
          obtain rfl := h.eq_length_of_free hlt (hcurrent ▸ fresh)
          obtain ⟨t, ht, hstored⟩ := hvalid htoNat
          have hnumber : expected + 1 = UInt64.ofNat (commits.length + 1) := by
            rw [hcurrent, ofNat_succ]
          obtain ⟨hadded, hproceeds⟩ := h.add (c := nextCommit expected actions now) hlt hnumber
            rfl ht hstored (.of_created hkeep fresh free written hasked (.commit _ _)) hosts written
          have hfinish := @finish_attempts asked _ _ _ _ hadded (hwritable rfl)
            (Lost root commits commits.length expected)
          rw [← hnumber] at hfinish
          refine ⟨hproceeds, Attempts.bind (hfinish.mono ?_ fun _ _ hlost => hlost)⟩
          intro _ files' hchain
          exact Attempts.pure ⟨htoNat, rfl, rfl, hchain⟩
        | taken p old there same =>
          have hafter := h.of_sameFiles hosts same
          -- Where nothing stands in the way, the name would have been free.
          have hlate : Open root commits current → expected.toNat ≠ current := fun hopen _ => by
            rw [hcurrent, hopen.content?_next h] at there
            exact absurd there (by simp)
          exact ⟨.of_same h hafter (fun q n hq => .inl (hkeep q n hq)) same,
            yield_attempts hafter (htoNat ▸ hlt) expected (expected + 1) hlate⟩
        | failed p cause refused same =>
          have hafter := h.of_sameFiles hosts same
          exact ⟨.of_same h hafter (fun q n hq => .inl (hkeep q n hq)) same, hafter.settled,
            .inr hafter, fun hopen => absurd (hopen.room.commit _) refused⟩
  · rintro e files₁ ⟨hread, rfl⟩
    refine ⟨h.settled, .inr h, fun hopen => ?_⟩
    rw [h.perform_currentVersion_of_room hopen.room] at hread
    exact absurd hread (by simp)

end Lakehouse.Log

namespace Lakehouse.Contract

open Log

variable {ε α : Type} {asked : Request → Prop} {root : Location} {files : Tree}

/-- Whatever a script comes to, the log goes on. -/
theorem Ensures.proceeds {s : Script α} {post : α → Tree → Prop}
    (h : (contract asked root).Ensures s files post) :
    (contract asked root).Ensures s files fun a files' =>
      post a files' ∧ Proceeds asked root files files' :=
  h.keep (Proceeds.refl asked root) fun _ _ _ => Proceeds.trans

theorem Attempts.proceeds {x : ExceptT ε Script α} {post : α → Tree → Prop} {fail : ε → Tree → Prop}
    (h : (contract asked root).Attempts x files post fail) :
    (contract asked root).Attempts x files
      (fun a files' => post a files' ∧ Proceeds asked root files files')
      fun e files' => fail e files' ∧ Proceeds asked root files files' :=
  h.keep (Proceeds.refl asked root) fun _ _ _ => Proceeds.trans

end Lakehouse.Contract
