import Lakehouse.Proofs.Run.Failing
import Mathlib.Data.List.Induction

/- Where the commits of a log come from.

   A commit of a log was added by some turn of the run, behind the commits that the log had
   then. This turn may have stopped before it came to its end; but the whole event would have
   added the same commit, and it is known what the whole event does (`Addition`). What is on
   the shelves after the turn is there after the whole event too, and at the end of the run.
   So each commit of a run can be traced to what its event does (`traced_run`). -/
namespace Lakehouse

open Calendar (Instant)
open Contract Log Script

variable {asked : Request → Prop} {root : Location} {files files' : Tree} {commits : List Commit}
  {current : Nat} {now : Instant}

/-- What an event does that adds a commit to the log; `t` is the table with this commit. -/
inductive Addition (asked : Request → Prop) (root : Location) (commits : List Commit)
    (current : Nat) (now : Instant) (files : Tree) (t : Table) (files' : Tree) : Prop where
  | created {metadata : Metadata} (first : commits = []) (new : t = .new 1 metadata)
  | changed {base : Option SnapshotId} {operation : Operation} {changes : FileChanges}
      {files₁ : Tree} {u : Table} {p : Table.Plan} {s : Snapshot}
      (before : files.Grows asked root files₁) (chain : Chain root files₁ commits current)
      (commit : Table.Committed asked root commits current base operation changes now files₁ u p s t
        files')
      (behind : files₁.Grows asked root files')
  | moved {u : Table} {target : SnapshotId} (registered : u.snapshots.contains target = true)
      (wrote : Wrote root commits current [.moveCurrent target none now] u t files')
  | updated {u : Table} {set : Properties} {remove : List String}
      (wrote : Wrote root commits current [.updateProperties set remove] u t files')

/-- An event leaves the commits as they are, or it adds one. -/
theorem Event.Deed.addition {handles : Nat → Option Table} {event : Event}
    {result : Except TableError Answer × Option Table}
    (hdeed : event.Deed asked root commits current now handles files result files')
    (h : Chain root files commits current) (hgrows : files.Grows asked root files') :
    (∃ current', Chain root files' commits current') ∨
    ∃ c t current', Chain root files' (commits ++ [c]) current' ∧
      tableAfter? (commits ++ [c]) = some t ∧
      Addition asked root commits current now files t files' := by
  have hwrote : ∀ {actions : List Action} {u t : Table},
      Wrote root commits current actions u t files' →
      Addition asked root commits current now files t files' →
      ∃ c t current', Chain root files' (commits ++ [c]) current' ∧
        tableAfter? (commits ++ [c]) = some t ∧
        Addition asked root commits current now files t files' := by
    intro actions u t hwrote hadds
    obtain ⟨c, -, hchain, htable⟩ := hwrote.written
    exact ⟨c, t, _, hchain, htable, hadds⟩
  cases hdeed with
  | @created _ m c _ _ hfirst _ hnew hchain htable =>
    subst hfirst
    exact .inr ⟨c, _, 1, hchain, htable, .created rfl hnew⟩
  | called _ heffect =>
    cases heffect with
    | refreshed => exact .inl ⟨current, h⟩
    | staged hchain => exact .inl ⟨current, hchain⟩
    | committed _ hcommit =>
      exact .inr (hwrote hcommit.wrote (.changed (.refl asked root files) h hcommit hgrows))
    | rolledBack _ hregistered _ hmoved => exact .inr (hwrote hmoved (.moved hregistered hmoved))
    | moved _ hregistered hmoved => exact .inr (hwrote hmoved (.moved hregistered hmoved))
    | updated hupdated => exact .inr (hwrote hupdated (.updated hupdated))
    | tookIn _ _ hproceeds hchain _ _ hcommit hproceeds' =>
      exact .inr (hwrote hcommit.wrote (.changed hproceeds.grows hchain hcommit hproceeds'.grows))
  | opened => exact .inl ⟨current, h⟩
  | failed hfailure =>
    obtain ⟨current', hchain, -⟩ := hfailure.settled
    exact .inl ⟨current', hchain⟩

/-- Where one commit at most is added in two stages, one of them adds none. -/
theorem eq_or_eq_of_stages {commits' commits'' : List Commit} (h : commits <+: commits')
    (h' : commits' <+: commits'') (hone : commits''.length ≤ commits.length + 1) :
    commits' = commits ∨ commits' = commits'' := by
  rcases Nat.lt_or_ge commits.length commits'.length with hlonger | hle
  · exact .inr (h'.eq_of_length_le (Nat.le_trans hone hlonger))
  · exact .inl (h.eq_of_length_le hle).symm

theorem Tree.Supplied.of_vacant (h : files.Vacant root) : files.Supplied asked root :=
  fun _ c hpath _ hc => absurd ((h.content?_eq_none hpath).symm.trans hc) (Option.some_ne_none c).symm

namespace World

variable {w : World} {turn : Turn}

/-- What is remembered of a turn is what its event has done. -/
theorem Ordered.deed_of_history (h : w.Ordered root commits current) {r : Record}
    (hdone : (w.step root turn).history = r :: w.history)
    (hasked : ∀ q ∈ w.wants root turn, asked q) :
    r.event = turn.event ∧
      turn.event.Deed asked root commits current turn.now w.handles w.files (r.result, r.after)
        (w.step root turn).files ∧
      Proceeds asked root w.files (w.step root turn).files := by
  obtain ⟨script, files', hscript, hrun, hevent, hfiles, -⟩ := done_of_history hdone
  simp only [wants, hscript] at hasked
  have hdeed := h.deed hscript hasked
  rw [Script.run_of_runWithin hrun] at hdeed
  rw [hfiles]
  exact ⟨hevent, hdeed⟩

/-- A turn leaves the files between those before it and those after its whole event. -/
theorem Ordered.step_between (h : w.Ordered root commits current)
    {script : Script (Except TableError Answer × Option Table)}
    (hscript : turn.event.script? turn.now w.handles = some script)
    (hasked : ∀ r ∈ script.requests root w.files, asked r) :
    Proceeds asked root w.files (w.step root turn).files ∧
      Proceeds asked root (w.step root turn).files (script.run root w.files).2 := by
  cases hlimit : turn.limit with
  | none =>
    rcases hrun : script.run root w.files with ⟨⟨result, u⟩, files'⟩
    have hproceeds := (h.deed hscript hasked).2
    rw [hrun] at hproceeds
    rw [step_of_end hlimit hscript hrun]
    exact ⟨hproceeds, Proceeds.refl _ _ _⟩
  | some n =>
    have hrun : script.runWithin root turn.limit w.files = script.runFor root n w.files := by
      rw [hlimit, Script.runWithin]
    have hstopped := h.stopped hscript hasked n
    rcases hresult : script.runFor root n w.files with ⟨_ | ⟨result, u⟩, files'⟩
    · rw [step_of_stop hscript (hrun.trans hresult)]
      rwa [hresult] at hstopped
    · rw [step_of_done hscript (hrun.trans hresult)]
      rwa [hresult] at hstopped

/-- What holds at the start and lasts through the turns of a run holds after it. -/
theorem run_turns_induction {p : World → Prop} (turns : List Turn) (hstart : p w)
    (hstep : ∀ before turn, before ++ [turn] <+: turns → p (run root w before) →
      p ((run root w before).step root turn)) : p (run root w turns) := by
  have hall : ∀ before, before <+: turns → p (run root w before) := by
    intro before
    induction before using List.reverseRecOn with
    | nil => exact fun _ => hstart
    | append_singleton before turn ih =>
      intro hbefore
      rw [run_concat]
      exact hstep before turn hbefore (ih ((List.prefix_append _ _).trans hbefore))
  exact hall turns (List.prefix_refl _)

theorem wants_nil : ∀ before turn, before ++ [turn] <+: [] →
    ∀ r ∈ (run root w before).wants root turn, asked r :=
  fun _ _ h => absurd (List.prefix_nil.1 h) (by simp)

/-- The turns of a longer run want what those of the shorter run do, and what the last one does. -/
theorem wants_concat {turns : List Turn} {last : Turn}
    (h : ∀ before turn, before ++ [turn] <+: turns →
      ∀ r ∈ (run root w before).wants root turn, asked r)
    (hlast : ∀ r ∈ (run root w turns).wants root last, asked r) :
    ∀ before turn, before ++ [turn] <+: turns ++ [last] →
      ∀ r ∈ (run root w before).wants root turn, asked r := by
  intro before turn hbefore
  rcases List.prefix_concat_iff.1 hbefore with hsame | hbefore
  · obtain ⟨rfl, hturn⟩ := List.append_inj' hsame rfl
    obtain rfl := (List.cons.inj hturn).1
    exact hlast
  · exact h before turn hbefore

/-- The turn adds the commit `c` behind `commits`, as its whole event does, which leaves the
files `whole` and the table `t`. -/
structure Makes (asked : Request → Prop) (root : Location) (w : World) (turn : Turn)
    (commits : List Commit) (current : Nat) (c : Commit) (t : Table) (whole : Tree) : Prop where
  ordered : w.Ordered root commits current
  supplied : w.files.Supplied asked root
  shelved : Shelved root w.files
  addition : Addition asked root commits current turn.now w.files t whole
  table : tableAfter? (commits ++ [c]) = some t
  grows : w.files.Grows asked root whole
  advanced : w.files.Grows asked root (w.step root turn).files
  chain : ∃ current', Chain root (w.step root turn).files (commits ++ [c]) current'
  shelves : Shelved root (w.step root turn).files
  between : (w.step root turn).files.Grows asked root whole

/-- The commit was made by a turn of the run, and the files have only grown since. -/
def Traces (asked : Request → Prop) (root : Location) (w₀ : World) (turns : List Turn)
    (commits : List Commit) (c : Commit) (files : Tree) : Prop :=
  ∃ before turn current t whole, before ++ [turn] <+: turns ∧
    (run root w₀ before).Makes asked root turn commits current c t whole ∧
    ((run root w₀ before).step root turn).files.Grows asked root files

/-- If all commits can be traced, it is known how the table of each version was made. -/
theorem makes_of_traced {w₀ : World} {turns : List Turn}
    (htraces : ∀ commits₁ c, commits₁ ++ [c] <+: commits →
      Traces asked root w₀ turns commits₁ c files) {n : Nat} {t : Table} (hn : n < commits.length)
    (ht : tableAfter? (commits.take (n + 1)) = some t) :
    ∃ before turn current whole, before ++ [turn] <+: turns ∧
      (run root w₀ before).Makes asked root turn (commits.take n) current commits[n] t whole ∧
      ((run root w₀ before).step root turn).files.Grows asked root files := by
  have hsplit : commits.take n ++ [commits[n]] = commits.take (n + 1) :=
    List.take_append_getElem hn
  obtain ⟨before, turn, current, u, whole, hbefore, hmakes, hsince⟩ :=
    htraces (commits.take n) commits[n] (hsplit ▸ List.take_prefix _ _)
  have htable := hmakes.table
  rw [hsplit, ht] at htable
  obtain rfl := Option.some.inj htable
  exact ⟨before, turn, current, whole, hbefore, hmakes, hsince⟩

/-- Every turn adds a commit that can be traced to it, or none. -/
theorem Ordered.step_makes (h : w.Ordered root commits current)
    (hsupplied : w.files.Supplied asked root) (hshelved : Shelved root w.files)
    (hasked : ∀ r ∈ w.wants root turn, asked r) :
    ∃ commits' current', (w.step root turn).Ordered root commits' current' ∧
      Shelved root (w.step root turn).files ∧
      w.files.Grows asked root (w.step root turn).files ∧
      (commits' = commits ∨ ∃ c t whole, commits' = commits ++ [c] ∧
        w.Makes asked root turn commits current c t whole) := by
  obtain ⟨commits', current', h', hbefore, -, hproceeds⟩ := h.step turn
  have hshelved' := hproceeds.shelves hshelved
  cases hscript : turn.event.script? turn.now w.handles with
  | none =>
    rw [step_of_no_script hscript]
    exact ⟨commits, current, h, hshelved, .refl _ _ _, .inl rfl⟩
  | some script =>
    simp only [wants, hscript] at hasked
    obtain ⟨hdeed, hwhole⟩ := h.deed hscript hasked
    obtain ⟨hfirst, hrest⟩ := h.step_between hscript hasked
    refine ⟨commits', current', h', hshelved', hfirst.grows, ?_⟩
    obtain ⟨commits'', current'', hlast, hbehind, -⟩ := hrest.advances _ _ h'.chain
    rcases hdeed.addition h.chain hwhole.grows with ⟨_, hchain⟩ | ⟨c, t, _, hchain, htable, hadds⟩
    · obtain ⟨rfl, -⟩ := hlast.unique hchain
      exact .inl (hbehind.eq_of_length_le hbefore.length_le)
    · obtain ⟨rfl, -⟩ := hlast.unique hchain
      refine (eq_or_eq_of_stages hbefore hbehind (Nat.le_of_eq List.length_append)).imp_right ?_
      -- The turn itself has added the commit of the whole event.
      rintro rfl
      exact ⟨c, t, _, rfl, h, hsupplied, hshelved, hadds, htable, hwhole.grows, hfirst.grows,
        ⟨_, h'.chain⟩, hshelved', hrest.grows⟩

/-- After every run, all commits of the log can be traced to turns of the run. -/
theorem traced_run (hvacant : files.Vacant root) (turns : List Turn)
    (hasked : ∀ before turn, before ++ [turn] <+: turns →
      ∀ r ∈ (run root (start files) before).wants root turn, asked r) :
    ∃ commits current, (run root (start files) turns).Ordered root commits current ∧
      (run root (start files) turns).files.Supplied asked root ∧
      Shelved root (run root (start files) turns).files ∧
      ∀ commits₁ c, commits₁ ++ [c] <+: commits →
        Traces asked root (start files) turns commits₁ c (run root (start files) turns).files := by
  refine run_turns_induction (w := start files) (p := fun w => ∃ commits current,
    w.Ordered root commits current ∧ w.files.Supplied asked root ∧ Shelved root w.files ∧
      ∀ commits₁ c, commits₁ ++ [c] <+: commits →
        Traces asked root (start files) turns commits₁ c w.files) turns ?_ ?_
  · refine ⟨[], 0, .start (Chain.of_vacant hvacant), .of_vacant hvacant, .of_vacant hvacant, ?_⟩
    intro commits₁ c hin
    exact absurd (List.prefix_nil.1 hin) (by simp)
  · rintro before turn hbefore ⟨commits, current, hordered, hsupplied, hshelved, htraces⟩
    obtain ⟨commits', current', hordered', hshelved', hgrows, hmakes⟩ :=
      hordered.step_makes hsupplied hshelved (hasked before turn hbefore)
    refine ⟨commits', current', hordered', hsupplied.grows hgrows, hshelved', ?_⟩
    -- The commits of the earlier log are traced as before.
    have hold : ∀ commits₁ c, commits₁ ++ [c] <+: commits → Traces asked root (start files) turns
        commits₁ c ((run root (start files) before).step root turn).files := by
      intro commits₁ c hin
      obtain ⟨before₁, turn₁, current₁, t, whole, hprefix, hmakes, hsince⟩ := htraces commits₁ c hin
      exact ⟨before₁, turn₁, current₁, t, whole, hprefix, hmakes, hsince.trans hgrows⟩
    rcases hmakes with rfl | ⟨c, t, whole, rfl, hmakes⟩
    · exact hold
    · intro commits₁ c₁ hin
      rcases List.prefix_concat_iff.1 hin with hlast | hin
      · obtain ⟨rfl, hsame⟩ := List.append_inj' hlast rfl
        obtain rfl := (List.cons.inj hsame).1
        exact ⟨before, turn, current, t, whole, hbefore, hmakes, .refl _ _ _⟩
      · exact hold commits₁ c₁ hin

end World

end Lakehouse
