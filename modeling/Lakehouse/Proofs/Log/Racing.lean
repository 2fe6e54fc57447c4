import Lakehouse.Proofs.Log.Reading

/- Writers side by side.

   The accesses of several writers may be answered in any order: every writer is a script,
   and a move starts one more or answers the next request of one that was started
   (`Race.step`). A writer that has created its commit names it as current without another
   look at what is current. One that meets a commit looks before it names this commit, but its
   look and its write are two accesses. Either may stop in front of the write while others
   name the commit in its place and go on; then it takes the current version back, and commits
   that were reported are no longer read (`late_writer_goes_back`, `late_publisher_goes_back`).

   What keeps the current version from going back is an order in which nobody is late: when a
   commit is created, no writer that stands in front of naming a version goes on afterwards
   (`Race.Prompt`). The writers are followed through the stages of their accesses (`Looks`,
   `Creates`, `Meets`, `LooksAgain`, `Names`). A commit is created behind a version that was read
   as current, and only where its file is not yet there, so that all files of commits up to the
   current version are there and at most one more; and whoever stands in front of naming a
   version without being late names the last of them (`Race.Fair`). From this follows that the
   current version never decreases, and is never less than a version that was reported
   (`prompt_writers_never_go_back`). -/
namespace Lakehouse

/-- Answers the next request. Nothing happens to a script that is done. -/
def Script.advance {α : Type} (root : Location) : Script α → Tree → Script α × Tree
  | done a, t => (done a, t)
  | ask r next, t => (next (t.answer root r).1, (t.answer root r).2)

/-- The result of a script that is done. -/
def Script.result? {α : Type} : Script α → Option α
  | done a => some a
  | ask _ _ => none

namespace Log

/-- A writer, or what is left of it. -/
abbrev Writer := Script (Except LogError Version)

/-! ### The stages of a writer -/

/-- The writer has come to an error. -/
def Fails (s : Writer) : Prop := ∃ e, s = .done (.error e)

/-- This version is what the reply says to be current. -/
def Gives (v : Version) (reply : Except StorageError String) : Prop :=
  (∃ content, reply = .ok content ∧ parseCurrent content = .ok v) ∨
    (∃ p, reply = .error (.notFound p)) ∧ v = 0

/-- The writer names a version as current, and may report it if it has done so. -/
def Names (v : Version) (s : Writer) : Prop :=
  ∃ next, s = .ask (.replace Layout.currentPath (currentContent v)) next ∧
    ∀ reply, Fails (next reply) ∨ reply = .ok () ∧ next reply = .done (.ok v)

/-- The writer looks whether `expected` is still current, and names the next version if it is. -/
def LooksAgain (expected : Version) (s : Writer) : Prop :=
  ∃ next, s = .ask (.readText Layout.currentPath) next ∧
    ∀ reply, Fails (next reply) ∨ Gives expected reply ∧ Names (expected + 1) (next reply)

/-- The writer has met a commit in the place of its own, and reads it. -/
def Meets (expected : Version) (s : Writer) : Prop :=
  ∃ next, s = .ask (.readText (Layout.commitPath (expected + 1))) next ∧
    ∀ reply, Fails (next reply) ∨ LooksAgain expected (next reply)

/-- The writer creates its commit behind `expected`. -/
def Creates (expected : Version) (s : Writer) : Prop :=
  ∃ content next, s = .ask (.create (Layout.commitPath (expected + 1)) content) next ∧
    ∀ reply, Fails (next reply) ∨ reply = .ok () ∧ Names (expected + 1) (next reply) ∨
      (∃ p, reply = .error (.alreadyExists p)) ∧ Meets expected (next reply)

/-- The writer looks whether `expected` is current, and goes on if it is and has a successor. -/
def Looks (expected : Version) (s : Writer) : Prop :=
  ∃ next, s = .ask (.readText Layout.currentPath) next ∧
    ∀ reply, Fails (next reply) ∨
      Gives expected reply ∧ expected.toNat + 1 ≠ UInt64.size ∧ Creates expected (next reply)

section

variable {expected version : Version} {e : LogError}

theorem fails_throw : Fails (throw e : LogScript Version).run := ⟨e, rfl⟩

/-- To look what is current is one access. -/
theorem currentVersion_bind (next : Version → LogScript Version) : ∃ after,
    (currentVersion >>= next).run = .ask (.readText Layout.currentPath) after ∧
      ∀ reply, Fails (after reply) ∨ ∃ v, Gives v reply ∧ after reply = (next v).run := by
  refine ⟨_, rfl, fun reply => ?_⟩
  rcases reply with cause | content
  · cases cause with
    | notFound p => exact .inr ⟨0, .inr ⟨⟨p, rfl⟩, rfl⟩, rfl⟩
    | alreadyExists p => exact .inl ⟨_, rfl⟩
    | fault p cause => exact .inl ⟨_, rfl⟩
  · have hread : ∀ result, (parseCurrent content).mapError LogError.corrupt = result →
        Script.bind (.done ((parseCurrent content).mapError LogError.corrupt))
          (ExceptT.bindCont next) = ExceptT.bindCont next result := fun _ h => h ▸ rfl
    cases hparse : parseCurrent content with
    | error e => exact .inl ⟨_, hread (.error (.corrupt e)) (by rw [hparse]; rfl)⟩
    | ok v => exact .inr ⟨v, .inl ⟨content, rfl, hparse⟩, hread (.ok v) (by rw [hparse]; rfl)⟩

/-- To read a commit is one access. -/
theorem meets_loadCommit {next : Commit → LogScript Version}
    (h : ∀ c, Fails (next c).run ∨ LooksAgain expected (next c).run) :
    Meets expected (loadCommit (expected + 1) >>= next).run := by
  refine ⟨_, rfl, fun reply => ?_⟩
  rcases reply with cause | content
  · exact .inl ⟨_, rfl⟩
  · have hread : ∀ result, (parseCommit (expected + 1) content).mapError LogError.corrupt = result →
        Script.bind (.done ((parseCommit (expected + 1) content).mapError LogError.corrupt))
          (ExceptT.bindCont next) = ExceptT.bindCont next result := fun _ h => h ▸ rfl
    cases hparse : parseCommit (expected + 1) content with
    | error e => exact .inl ⟨_, hread (.error (.corrupt e)) (by rw [hparse]; rfl)⟩
    | ok c => exact (hread (.ok c) (by rw [hparse]; rfl)) ▸ h c

/-- To name a version as current is one access. -/
theorem names_writeCurrent {next : Unit → LogScript Version}
    (h : Fails (next ()).run ∨ (next ()).run = .done (.ok version)) :
    Names version (writeCurrent version >>= next).run := by
  refine ⟨_, rfl, fun reply => ?_⟩
  rcases reply with cause | ⟨⟩
  · exact .inl ⟨_, rfl⟩
  · exact h.imp_right fun hdone => ⟨rfl, hdone⟩

theorem looksAgain_currentVersion {next : Version → LogScript Version}
    (hsame : Names (expected + 1) (next expected).run)
    (hother : ∀ v, v ≠ expected → Fails (next v).run) :
    LooksAgain expected (currentVersion >>= next).run := by
  obtain ⟨after, hask, hafter⟩ := currentVersion_bind next
  refine ⟨after, hask, fun reply => (hafter reply).elim .inl ?_⟩
  rintro ⟨v, hgives, hnext⟩
  rw [hnext]
  by_cases hv : v = expected
  · subst hv
    exact .inr ⟨hgives, hsame⟩
  · exact .inl (hother v hv)

theorem looks_currentVersion {next : Version → LogScript Version}
    (hsame : Fails (next expected).run ∨
      expected.toNat + 1 ≠ UInt64.size ∧ Creates expected (next expected).run)
    (hother : ∀ v, v ≠ expected → Fails (next v).run) :
    Looks expected (currentVersion >>= next).run := by
  obtain ⟨after, hask, hafter⟩ := currentVersion_bind next
  refine ⟨after, hask, fun reply => (hafter reply).elim .inl ?_⟩
  rintro ⟨v, hgives, hnext⟩
  rw [hnext]
  by_cases hv : v = expected
  · subst hv
    exact hsame.imp_right fun hcreates => ⟨hgives, hcreates⟩
  · exact .inl (hother v hv)

/-- A commit that was met is named if it follows the current version; nothing is reported. -/
theorem meets_publish : Meets expected
    (publish expected (expected + 1) >>= fun _ => throw e : LogScript Version).run := by
  rw [publish, bind_assoc]
  refine meets_loadCommit fun c => ?_
  split
  next =>
    rw [bind_assoc]
    refine .inr (looksAgain_currentVersion ?_ fun v hv => ?_)
    · rw [if_pos rfl]
      exact names_writeCurrent (.inl fails_throw)
    · rw [if_neg hv]
      exact fails_throw
  next => exact .inl ⟨_, rfl⟩

/-- A commit is only created behind a version that was current, and named only after that. -/
theorem looks_append (expected : Version) (actions : List Action) (now : Calendar.Instant) :
    Looks expected (append expected actions now).run := by
  refine looks_currentVersion ?_ fun v hv => ?_
  · rw [if_neg (by simp)]
    split
    next => exact .inl ⟨_, rfl⟩
    next hlast =>
      refine .inr ⟨hlast, _, _, rfl, fun reply => ?_⟩
      rcases reply with cause | ⟨⟩
      · cases cause with
        | notFound p => exact .inl ⟨_, rfl⟩
        | alreadyExists p => exact .inr (.inr ⟨⟨p, rfl⟩, meets_publish⟩)
        | fault p cause => exact .inl ⟨_, rfl⟩
      · exact .inr (.inl ⟨rfl, names_writeCurrent (.inr rfl)⟩)
  · rw [if_pos hv]
    exact fails_throw

end

/-! ### Moves -/

/-- Files, and the writers in the order in which they were started. -/
structure Race where
  files : Tree
  writers : List Writer

/-- What happens next: a writer is started, or one of them goes on by one access. -/
inductive Move where
  | start (expected : Version) (actions : List Action) (now : Calendar.Instant)
  | resume (writer : Nat)

/-- The writer stands in front of the access that names a version as current. -/
def Writer.waits : Writer → Bool
  | .ask (.replace _ _) _ => true
  | _ => false

/-- With its next access, the writer adds the file of a commit. -/
def Writer.adds (root : Location) (files : Tree) : Writer → Bool
  | .ask (.create path content) _ => (files.create (Path.join root.path path) content).1.isOk
  | _ => false

theorem Writer.adds_create {root : Location} {files : Tree} {path : String} {content : ByteArray}
    {next : Reply (.create path content) → Writer} :
    Writer.adds root files (.ask (.create path content) next) = true ↔
      (files.create (Path.join root.path path) content).1.isOk = true := .rfl

namespace Race

/-- Nobody has started yet. -/
def ready (files : Tree) : Race := ⟨files, []⟩

def step (root : Location) (race : Race) : Move → Race
  | .start expected actions now =>
    { race with writers := race.writers ++ [(append expected actions now).run] }
  | .resume i =>
    match race.writers[i]? with
    | some s => ⟨(s.advance root race.files).2, race.writers.set i (s.advance root race.files).1⟩
    | none => race

def run (root : Location) (race : Race) (moves : List Move) : Race := moves.foldl (step root) race

/-- The version that whoever reads it now finds to be current. -/
def found? (root : Location) (race : Race) : Option Version :=
  (Script.perform root currentVersion race.files).1.toOption

/-- A writer has come to its end and reported this version. -/
def Reported (race : Race) (v : Version) : Prop := ∃ s ∈ race.writers, s.result? = some (.ok v)

instance (race : Race) (v : Version) : Decidable (race.Reported v) :=
  inferInstanceAs (Decidable (∃ s ∈ race.writers, s.result? = some (.ok v)))

/-- The move is one of a writer with this property. -/
def Resumes (race : Race) (kind : Writer → Bool) : Move → Prop
  | .start _ _ _ => False
  | .resume i => ∃ s ∈ race.writers[i]?, kind s = true

instance (race : Race) (kind : Writer → Bool) : (move : Move) → Decidable (race.Resumes kind move)
  | .start _ _ _ => inferInstanceAs (Decidable False)
  | .resume i => inferInstanceAs (Decidable (∃ s ∈ race.writers[i]?, kind s = true))

/-- When a commit is added, the writers that stand in front of naming a version have stopped for
good. -/
def Prompt (root : Location) (race : Race) : List Move → Prop
  | [] => True
  | move :: later =>
    (race.Resumes (Writer.adds root race.files) move →
      ∀ next ∈ later, ¬ race.Resumes Writer.waits next) ∧
    (race.step root move).Prompt root later

instance decidablePrompt (root : Location) (race : Race) :
    (moves : List Move) → Decidable (race.Prompt root moves)
  | [] => inferInstanceAs (Decidable True)
  | move :: later =>
    have := decidablePrompt root (race.step root move) later
    inferInstanceAs (Decidable ((_ → ∀ next ∈ later, _) ∧ _))

theorem run_append (root : Location) (race : Race) (moves later : List Move) :
    race.run root (moves ++ later) = (race.run root moves).run root later := by
  rw [run, List.foldl_append]
  rfl

end Race

/-! ### What is kept between moves -/

/-- The file of a commit is there. -/
def HasCommit (root : Location) (files : Tree) (v : Version) : Prop :=
  (files.content? root (Layout.commitPath v)).isSome

/-- The file for the current version names this one, or is not there and the version is zero. -/
def IsCurrent (root : Location) (files : Tree) (v : Version) : Prop :=
  files.content? root Layout.currentPath = some (currentContent v) ∨
    files.content? root Layout.currentPath = none ∧ v = 0

/-- Where a writer stands, and what its accesses have shown so far. If it has not stopped for
good in front of naming a version, there is no later commit. -/
inductive Stands (root : Location) (files : Tree) (current : Version) (stopped : Prop) :
    Writer → Prop where
  | ends {result : Except LogError Version}
      (h : ∀ v, result = .ok v → 0 < v.toNat ∧ v.toNat ≤ current.toNat) :
      Stands root files current stopped (.done result)
  | looks {s : Writer} {expected : Version} (h : Looks expected s) :
      Stands root files current stopped s
  | creates {s : Writer} {expected : Version} (h : Creates expected s)
      (hlast : expected.toNat + 1 ≠ UInt64.size) (hle : expected.toNat ≤ current.toNat) :
      Stands root files current stopped s
  | meets {s : Writer} {expected : Version} (h : Meets expected s)
      (hlast : expected.toNat + 1 ≠ UInt64.size) (there : HasCommit root files (expected + 1)) :
      Stands root files current stopped s
  | looksAgain {s : Writer} {expected : Version} (h : LooksAgain expected s)
      (hlast : expected.toNat + 1 ≠ UInt64.size) (there : HasCommit root files (expected + 1)) :
      Stands root files current stopped s
  | names {s : Writer} {v : Version} (h : Names v s) (hpos : 0 < v.toNat)
      (hle : v.toNat ≤ current.toNat + 1) (there : HasCommit root files v)
      (hnewest : stopped ∨ ∀ u, HasCommit root files u → u.toNat ≤ v.toNat) :
      Stands root files current stopped s

theorem toNat_succ {v : Version} (h : v.toNat + 1 ≠ UInt64.size) : (v + 1).toNat = v.toNat + 1 := by
  have hone : (1 : UInt64).toNat = 1 := rfl
  have hlt := v.toNat_lt
  rw [UInt64.size] at h
  rw [UInt64.toNat_add, hone]
  exact Nat.mod_eq_of_lt (by omega)

section

variable {root : Location} {files after : Tree} {current current' : Version}
  {stopped stopped' : Prop} {s : Writer}

/-- What is read as current is so. -/
theorem IsCurrent.of_gives (h : IsCurrent root files current) {v : Version}
    (hgives : Gives v (files.readText (Path.join root.path Layout.currentPath))) : v = current := by
  rcases h with hthere | ⟨hnone, rfl⟩
  · rw [readText_of_content hthere] at hgives
    rcases hgives with ⟨content, hcontent, hparse⟩ | ⟨⟨p, hp⟩, -⟩
    · obtain rfl := Except.ok.inj hcontent
      exact Except.ok.inj (hparse.symm.trans (parseCurrent_line current))
    · exact absurd hp (by simp)
  · obtain ⟨e, he⟩ := readText_of_no_content hnone
    rw [he] at hgives
    rcases hgives with ⟨content, hcontent, -⟩ | ⟨-, hzero⟩
    · exact absurd hcontent (by simp)
    · exact hzero

theorem Stands.of_fails (h : Fails s) : Stands root files current stopped s := by
  obtain ⟨e, rfl⟩ := h
  exact .ends fun v hv => absurd hv (by simp)

/-- What a writer has reported is not behind what is current. -/
theorem Stands.of_result (h : Stands root files current stopped s) {v : Version}
    (hresult : s.result? = some (.ok v)) : 0 < v.toNat ∧ v.toNat ≤ current.toNat := by
  cases h with
  | ends h => exact h v (Option.some.inj hresult)
  | looks h =>
    obtain ⟨next, rfl, -⟩ := h
    exact absurd hresult (by simp [Script.result?])
  | creates h =>
    obtain ⟨content, next, rfl, -⟩ := h
    exact absurd hresult (by simp [Script.result?])
  | meets h =>
    obtain ⟨next, rfl, -⟩ := h
    exact absurd hresult (by simp [Script.result?])
  | looksAgain h =>
    obtain ⟨next, rfl, -⟩ := h
    exact absurd hresult (by simp [Script.result?])
  | names h =>
    obtain ⟨next, rfl, -⟩ := h
    exact absurd hresult (by simp [Script.result?])

/-- A writer stands where it stood while others go on, unless a commit is added in front of which it
waits. -/
theorem Stands.mono (h : Stands root files current stopped s)
    (hle : current.toNat ≤ current'.toNat) (hkeep : ∀ v, HasCommit root files v → HasCommit root after v)
    (hstopped : stopped → stopped')
    (hnew : (∀ v, HasCommit root after v → HasCommit root files v) ∨ (s.waits = true → stopped')) :
    Stands root after current' stopped' s := by
  cases h with
  | ends h => exact .ends fun v hv => ⟨(h v hv).1, Nat.le_trans (h v hv).2 hle⟩
  | looks h => exact .looks h
  | creates h hlast hbelow => exact .creates h hlast (Nat.le_trans hbelow hle)
  | meets h hlast there => exact .meets h hlast (hkeep _ there)
  | looksAgain h hlast there => exact .looksAgain h hlast (hkeep _ there)
  | names h hpos hbelow there hnewest =>
    refine .names h hpos (by omega) (hkeep _ there) ?_
    rcases hnew with hsame | hlate
    · exact hnewest.imp hstopped fun hall u hu => hall u (hsame u hu)
    · obtain ⟨next, rfl, -⟩ := h
      exact .inl (hlate rfl)

end

namespace Race

variable {root : Location} {race : Race} {current : Version} {move : Move}
  {moves later : List Move}

/-- All commits up to the current version are there, and at most one more; each writer stands
somewhere on its way, and has stopped for good if no later move resumes it. -/
structure Fair (root : Location) (race : Race) (current : Version) (later : List Move) : Prop where
  hosts : race.files.Hosts root
  pointer : IsCurrent root race.files current
  filled : ∀ v, 0 < v.toNat → v.toNat ≤ current.toNat → HasCommit root race.files v
  bounded : ∀ v, HasCommit root race.files v → v.toNat ≤ current.toNat + 1
  stands : ∀ i s, race.writers[i]? = some s →
    Stands root race.files current (.resume i ∉ later) s

theorem fair_ready {files : Tree} (h : files.Vacant root) (moves : List Move) :
    (ready files).Fair root 0 moves := by
  have hzero : (0 : Version).toNat = 0 := rfl
  refine ⟨h.hosts, .inr ⟨h.content?_eq_none Layout.isTablePath_current, rfl⟩, fun v hpos hle => ?_,
    fun v hv => ?_, fun i s hs => absurd hs (by simp [ready])⟩
  · omega
  · rw [HasCommit, ready, h.content?_eq_none (Layout.isTablePath_commit v)] at hv
    exact absurd hv (by simp)

/-- One writer goes on, and the others stand where they stood. -/
theorem Fair.goes {i : Nat} (h : race.Fair root current (.resume i :: later)) {after : Tree}
    {s' : Writer} {current' : Version} (hosts : after.Hosts root)
    (hle : current.toNat ≤ current'.toNat) (pointer : IsCurrent root after current')
    (filled : ∀ v, 0 < v.toNat → v.toNat ≤ current'.toNat → HasCommit root after v)
    (bounded : ∀ v, HasCommit root after v → v.toNat ≤ current'.toNat + 1)
    (hkeep : ∀ v, HasCommit root race.files v → HasCommit root after v)
    (hnew : (∀ v, HasCommit root after v → HasCommit root race.files v) ∨
      ∀ next ∈ later, ¬ race.Resumes Writer.waits next)
    (hown : Stands root after current' (.resume i ∉ later) s') :
    (Race.mk after (race.writers.set i s')).Fair root current' later := by
  refine ⟨hosts, pointer, filled, bounded, fun j s hj => ?_⟩
  by_cases hij : i = j
  · subst hij
    rw [List.getElem?_set_self'] at hj
    obtain ⟨_, -, rfl⟩ := Option.map_eq_some_iff.1 hj
    exact hown
  · rw [List.getElem?_set_ne hij] at hj
    refine (h.stands j s hj).mono hle hkeep (fun hnot hin => hnot (List.mem_cons_of_mem _ hin)) ?_
    exact hnew.imp_right fun hlate hwaits hin => hlate _ hin ⟨s, hj, hwaits⟩

/-- One writer goes on and changes no file of the table. -/
theorem Fair.goes_same {i : Nat} (h : race.Fair root current (.resume i :: later)) {after : Tree}
    {s' : Writer} (hosts : after.Hosts root)
    (hsame : ∀ path, Layout.IsTablePath path →
      after.content? root path = race.files.content? root path)
    (hown : Stands root race.files current (.resume i ∉ later) s') :
    (Race.mk after (race.writers.set i s')).Fair root current later := by
  have hholds : ∀ v, HasCommit root after v ↔ HasCommit root race.files v := fun v => by
    rw [HasCommit, hsame _ (Layout.isTablePath_commit v), HasCommit]
  have hpointer : IsCurrent root after current := by
    rw [IsCurrent, hsame _ Layout.isTablePath_current]
    exact h.pointer
  refine h.goes hosts (Nat.le_refl _) hpointer (fun v hpos hle => (hholds v).2 (h.filled v hpos hle))
    (fun v hv => h.bounded v ((hholds v).1 hv)) (fun v => (hholds v).2)
    (.inl fun v => (hholds v).1) ?_
  exact hown.mono (Nat.le_refl _) (fun v => (hholds v).2) id (.inl fun v => (hholds v).1)

/-- A writer that only reads changes no file. -/
theorem Fair.reads {i : Nat} (h : race.Fair root current (.resume i :: later)) {s' : Writer}
    (hown : Stands root race.files current (.resume i ∉ later) s') :
    (Race.mk race.files (race.writers.set i s')).Fair root current later :=
  h.goes_same h.hosts (fun _ _ => rfl) hown

/-- A commit is created behind the current version, or was there before. -/
theorem Fair.creates {i : Nat} (h : race.Fair root current (.resume i :: later))
    {expected : Version} {content : ByteArray}
    {next : Reply (.create (Layout.commitPath (expected + 1)) content) → Writer}
    (hnext : ∀ reply, Fails (next reply) ∨ reply = .ok () ∧ Names (expected + 1) (next reply) ∨
      (∃ p, reply = .error (.alreadyExists p)) ∧ Meets expected (next reply))
    (hlast : expected.toNat + 1 ≠ UInt64.size) (hle : expected.toNat ≤ current.toNat)
    (hlate : (race.files.create (Path.join root.path (Layout.commitPath (expected + 1)))
      content).1.isOk = true → ∀ move ∈ later, ¬ race.Resumes Writer.waits move) :
    (Race.mk (race.files.create (Path.join root.path (Layout.commitPath (expected + 1))) content).2
      (race.writers.set i (next (race.files.create
        (Path.join root.path (Layout.commitPath (expected + 1))) content).1))).Fair root current
      later := by
  obtain ⟨hosts, -, houtcome⟩ :=
    Tree.create_outcome h.hosts (Layout.isTablePath_commit (expected + 1)) content
  have hsucc := toNat_succ hlast
  generalize race.files.create (Path.join root.path (Layout.commitPath (expected + 1))) content =
    created at hosts houtcome hlate ⊢
  obtain ⟨reply, after⟩ := created
  cases houtcome with
  | done fresh free now =>
    have hfresh : ¬ HasCommit root race.files (expected + 1) := by
      rw [HasCommit, fresh]
      exact Bool.false_ne_true
    -- The commit is missing, so it is the first one behind the current version.
    have hsame : expected.toNat = current.toNat := by
      by_contra hne
      exact hfresh (h.filled _ (by omega) (by omega))
    have helsewhere : ∀ v, v ≠ expected + 1 → (HasCommit root after v ↔ HasCommit root race.files v) := by
      intro v hv
      rw [HasCommit, now.elsewhere _ (Layout.isTablePath_commit v)
        fun hpath => hv (Layout.commitPath_injective hpath), HasCommit]
    have hkeep : ∀ v, HasCommit root race.files v → HasCommit root after v := fun v hv =>
      (helsewhere v fun heq => hfresh (heq ▸ hv)).2 hv
    have hbounded : ∀ v, HasCommit root after v → v.toNat ≤ current.toNat + 1 := by
      intro v hv
      by_cases heq : v = expected + 1
      · rw [heq]
        omega
      · exact h.bounded v ((helsewhere v heq).1 hv)
    have hpointer : IsCurrent root after current := by
      rw [IsCurrent, now.elsewhere _ Layout.isTablePath_current
        (Layout.commitPath_ne_currentPath (expected + 1)).symm]
      exact h.pointer
    have hthere : HasCommit root after (expected + 1) := by
      rw [HasCommit, now.here]
      rfl
    refine h.goes hosts (Nat.le_refl _) hpointer
      (fun v hpos hv => hkeep v (h.filled v hpos hv)) hbounded hkeep (.inr (hlate rfl)) ?_
    rcases hnext (.ok ()) with hfails | ⟨-, hnames⟩ | ⟨⟨p, hp⟩, -⟩
    · exact .of_fails hfails
    · refine .names hnames (by omega) (by omega) hthere (.inr fun u hu => ?_)
      have := hbounded u hu
      omega
    · exact absurd hp (by simp)
  | taken p old there same =>
    refine h.goes_same hosts same.contents ?_
    rcases hnext (.error (.alreadyExists p)) with hfails | ⟨hok, -⟩ | ⟨-, hmeets⟩
    · exact .of_fails hfails
    · exact absurd hok (by simp)
    · refine .meets hmeets hlast ?_
      rw [HasCommit, there]
      rfl
  | failed p cause refused same =>
    refine h.goes_same hosts same.contents ?_
    rcases hnext (.error (.fault p cause)) with hfails | ⟨hok, -⟩ | ⟨⟨q, hq⟩, -⟩
    · exact .of_fails hfails
    · exact absurd hok (by simp)
    · exact absurd hq (by simp)

/-- Who names a version without being late names the last commit. -/
theorem Fair.names {i : Nat} (h : race.Fair root current (.resume i :: later)) {v : Version}
    {next : Reply (.replace Layout.currentPath (currentContent v)) → Writer}
    (hnext : ∀ reply, Fails (next reply) ∨ reply = .ok () ∧ next reply = .done (.ok v))
    (hpos : 0 < v.toNat) (hle : v.toNat ≤ current.toNat + 1) (there : HasCommit root race.files v)
    (hnewest : ∀ u, HasCommit root race.files u → u.toNat ≤ v.toNat) :
    ∃ current', current.toNat ≤ current'.toNat ∧
      (Race.mk (race.files.replace (Path.join root.path Layout.currentPath) (currentContent v)).2
        (race.writers.set i (next (race.files.replace (Path.join root.path Layout.currentPath)
          (currentContent v)).1))).Fair root current' later := by
  obtain ⟨hosts, -, houtcome⟩ := Tree.replace_outcome h.hosts Layout.currentPath_isFile.1
    Layout.currentPath_isFile.2 (currentContent v)
  generalize race.files.replace (Path.join root.path Layout.currentPath) (currentContent v) =
    replaced at hosts houtcome ⊢
  obtain ⟨reply, after⟩ := replaced
  cases houtcome with
  | done now =>
    have hholds : ∀ u, HasCommit root after u ↔ HasCommit root race.files u := fun u => by
      rw [HasCommit, now.elsewhere _ (Layout.isTablePath_commit u) (Layout.commitPath_ne_currentPath u),
        HasCommit]
    have hbehind : current.toNat ≤ v.toNat := by
      by_cases hzero : current.toNat = 0
      · omega
      · exact hnewest current (h.filled current (by omega) (Nat.le_refl _))
    refine ⟨v, hbehind, h.goes hosts hbehind (.inl now.here) (fun u hu huv => (hholds u).2 ?_)
      (fun u hu => ?_) (fun u => (hholds u).2) (.inl fun u => (hholds u).1) ?_⟩
    · by_cases hbelow : u.toNat ≤ current.toNat
      · exact h.filled u hu hbelow
      · obtain rfl : u = v := UInt64.toNat_inj.1 (by omega)
        exact there
    · have := hnewest u ((hholds u).1 hu)
      omega
    · rcases hnext (.ok ()) with hfails | ⟨-, hdone⟩
      · exact .of_fails hfails
      · rw [hdone]
        refine .ends fun u hu => ?_
        obtain rfl := Except.ok.inj hu
        exact ⟨hpos, Nat.le_refl _⟩
  | failed p cause refused same =>
    refine ⟨current, Nat.le_refl _, h.goes_same hosts same.contents ?_⟩
    rcases hnext (.error (.fault p cause)) with hfails | ⟨hok, -⟩
    · exact .of_fails hfails
    · exact absurd hok (by simp)

/-- One move, after which all that was kept is kept. -/
theorem Fair.step (h : race.Fair root current (move :: later))
    (hprompt : race.Resumes (Writer.adds root race.files) move →
      ∀ next ∈ later, ¬ race.Resumes Writer.waits next) :
    ∃ current', current.toNat ≤ current'.toNat ∧ (race.step root move).Fair root current' later := by
  have hothers : ∀ i s, race.writers[i]? = some s →
      Stands root race.files current (.resume i ∉ later) s := fun i s hs =>
    (h.stands i s hs).mono (Nat.le_refl _) (fun _ => id)
      (fun hnot hin => hnot (List.mem_cons_of_mem _ hin)) (.inl fun _ => id)
  cases move with
  | start expected actions now =>
    refine ⟨current, Nat.le_refl _, h.hosts, h.pointer, h.filled, h.bounded, fun i s hs => ?_⟩
    rw [Race.step, List.getElem?_append] at hs
    split at hs
    · exact hothers i s hs
    · obtain rfl := List.mem_singleton.1 (List.mem_of_getElem? hs)
      exact .looks (looks_append expected actions now)
  | resume i =>
    rw [Race.step]
    cases hi : race.writers[i]? with
    | none => exact ⟨current, Nat.le_refl _, h.hosts, h.pointer, h.filled, h.bounded, hothers⟩
    | some s =>
      have hread : ∀ {s' : Writer}, Stands root race.files current (.resume i ∉ later) s' →
          ∃ current', current.toNat ≤ current'.toNat ∧
            (Race.mk race.files (race.writers.set i s')).Fair root current' later := fun hown =>
        ⟨current, Nat.le_refl _, h.reads hown⟩
      cases h.stands i s hi with
      | ends hresult => exact hread (.ends hresult)
      | @looks _ expected hs =>
        obtain ⟨next, rfl, hnext⟩ := hs
        refine hread ((hnext _).elim .of_fails ?_)
        rintro ⟨hgives, hlast, hcreates⟩
        exact .creates hcreates hlast
          (Nat.le_of_eq (congrArg UInt64.toNat (h.pointer.of_gives hgives)))
      | creates hs hlast hle =>
        obtain ⟨content, next, rfl, hnext⟩ := hs
        have hlate : _ → ∀ move ∈ later, ¬ race.Resumes Writer.waits move := fun hok =>
          hprompt ⟨_, hi, (Writer.adds_create ..).2 hok⟩
        simp only [Script.advance, Tree.answer]
        exact ⟨current, Nat.le_refl _, h.creates hnext hlast hle hlate⟩
      | meets hs hlast there =>
        obtain ⟨next, rfl, hnext⟩ := hs
        exact hread ((hnext _).elim .of_fails fun hagain => .looksAgain hagain hlast there)
      | looksAgain hs hlast there =>
        obtain ⟨next, rfl, hnext⟩ := hs
        refine hread ((hnext _).elim .of_fails ?_)
        rintro ⟨hgives, hnames⟩
        have hsucc := toNat_succ hlast
        have hcurrent := h.pointer.of_gives hgives
        subst hcurrent
        refine .names hnames (by omega) (by omega) there (.inr fun u hu => ?_)
        rw [hsucc]
        exact h.bounded u hu
      | names hs hpos hle there hnewest =>
        obtain ⟨next, rfl, hnext⟩ := hs
        simp only [Script.advance, Tree.answer]
        exact h.names hnext hpos hle there
          (hnewest.resolve_left fun hnot => hnot List.mem_cons_self)

theorem Fair.run (h : race.Fair root current (moves ++ later))
    (hprompt : race.Prompt root (moves ++ later)) :
    ∃ current', current.toNat ≤ current'.toNat ∧
      (race.run root moves).Fair root current' later ∧ (race.run root moves).Prompt root later := by
  induction moves generalizing race current with
  | nil => exact ⟨current, Nat.le_refl _, h, hprompt⟩
  | cons move moves ih =>
    obtain ⟨current', hle, hstep⟩ := h.step hprompt.1
    obtain ⟨current'', hle', hrun⟩ := ih hstep hprompt.2
    exact ⟨current'', Nat.le_trans hle hle', hrun⟩

/-- What is found to be current is so. -/
theorem Fair.eq_of_found (h : race.Fair root current later) {v : Version}
    (hfound : race.found? root = some v) : v = current := by
  rw [found?] at hfound
  rcases h.pointer with hthere | ⟨hnone, rfl⟩
  · rw [perform_currentVersion hthere] at hfound
    exact (Option.some.inj hfound).symm
  · rcases perform_currentVersion_none hnone with hread | ⟨e, hread⟩
    · rw [hread] at hfound
      exact (Option.some.inj hfound).symm
    · rw [hread] at hfound
      exact absurd hfound (by simp [Except.toOption])

/-- A version is current once one was reported. -/
theorem Fair.found (h : race.Fair root current later) (hpos : 0 < current.toNat) :
    race.found? root = some current := by
  rcases h.pointer with hthere | ⟨-, rfl⟩
  · rw [found?, perform_currentVersion hthere]
    rfl
  · exact absurd hpos (by decide)

/-- If nobody is late, the current version never decreases, and what a writer has reported stays
within the current version. -/
theorem prompt_writers_never_go_back {files : Tree} (hvacant : files.Vacant root)
    (moves later : List Move) (hprompt : (ready files).Prompt root (moves ++ later)) :
    (∀ v w, ((ready files).run root moves).found? root = some v →
      ((ready files).run root (moves ++ later)).found? root = some w → v ≤ w) ∧
    ∀ v, ((ready files).run root moves).Reported v →
      ∃ w, ((ready files).run root (moves ++ later)).found? root = some w ∧ v ≤ w := by
  obtain ⟨current, -, hfair, hrest⟩ := (fair_ready hvacant (moves ++ later)).run hprompt
  have hnil : later = later ++ [] := (List.append_nil later).symm
  rw [hnil] at hfair hrest
  obtain ⟨current', hle, hafter, -⟩ := hfair.run hrest
  rw [run_append]
  refine ⟨fun v w hv hw => ?_, ?_⟩
  · rw [hfair.eq_of_found hv, hafter.eq_of_found hw]
    exact UInt64.le_iff_toNat_le.2 hle
  · rintro v ⟨s, hs, hresult⟩
    obtain ⟨i, hi⟩ := List.mem_iff_getElem?.1 hs
    obtain ⟨hpos, hreported⟩ := (hfair.stands i s hi).of_result hresult
    exact ⟨current', hafter.found (by omega), UInt64.le_iff_toNat_le.2 (by omega)⟩

/-- One of two writers meets the commit of the other and names it; both name the same version, the
one that reports it after the other. Then a third writer adds a commit. -/
theorem prompt_writers_never_go_back_threeWriters :
    let first := [.start 0 [] default, .start 0 [] default, .resume 0, .resume 1, .resume 0] ++
      List.replicate 4 (.resume 1) ++ [.resume 0]
    let second := .start 1 [] default :: List.replicate 3 (.resume 2)
    Tree.empty.Vacant ⟨"."⟩ ∧ (ready .empty).Prompt ⟨"."⟩ (first ++ second) ∧
      ((ready .empty).run ⟨"."⟩ first).Reported 1 ∧
      ∃ w, ((ready .empty).run ⟨"."⟩ (first ++ second)).found? ⟨"."⟩ = some w ∧ 1 ≤ w := by
  intro first second
  have hprompt : (ready .empty).Prompt ⟨"."⟩ (first ++ second) := by decide +kernel
  have hreported : ((ready .empty).run ⟨"."⟩ first).Reported 1 := by decide +kernel
  exact ⟨Tree.vacant_empty, hprompt, hreported,
    (prompt_writers_never_go_back Tree.vacant_empty first second hprompt).2 1 hreported⟩

/-- The first of three writers has created the first commit. The second one meets it and makes
it current in its place, and the third one has added a commit behind it. -/
def metInFront : List Move :=
  [.start 0 [] default, .start 0 [] default, .start 1 [] default] ++
    List.replicate 2 (.resume 0) ++ List.replicate 5 (.resume 1) ++ List.replicate 3 (.resume 2)

/-- A writer that names its own commit late takes back a version that was reported. -/
theorem late_writer_goes_back :
    ((ready .empty).run ⟨"."⟩ metInFront).Reported 2 ∧
      ((ready .empty).run ⟨"."⟩ metInFront).found? ⟨"."⟩ = some 2 ∧
      ((ready .empty).run ⟨"."⟩ (metInFront ++ [.resume 0])).found? ⟨"."⟩ = some 1 := by
  decide +kernel

/-- The second of three writers has met the first commit and has looked again, while no version was
current. The first one reports its commit, and the third one has added a commit behind it. -/
def lookedInFront : List Move :=
  [.start 0 [] default, .start 0 [] default, .start 1 [] default, .resume 0, .resume 1, .resume 0] ++
    List.replicate 3 (.resume 1) ++ [.resume 0] ++ List.replicate 3 (.resume 2)

/-- To look again before a commit is named that was met is not enough: what is current may have
changed since. -/
theorem late_publisher_goes_back :
    ((ready .empty).run ⟨"."⟩ lookedInFront).Reported 2 ∧
      ((ready .empty).run ⟨"."⟩ lookedInFront).found? ⟨"."⟩ = some 2 ∧
      ((ready .empty).run ⟨"."⟩ (lookedInFront ++ [.resume 1])).found? ⟨"."⟩ = some 1 := by
  decide +kernel

end Race

end Log

end Lakehouse
