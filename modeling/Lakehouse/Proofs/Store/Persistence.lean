import Lakehouse.Proofs.Store.Hosting

/- What stays readable when files are written.

   Nothing is supposed here about the tree. Where something can be read below a root, the way to
   the root is open (`located_of_read`), and a plain path is read at its place below it
   (`readBytes_plain`). An attempt to write under a plain path does no more than make directories
   and, if it succeeds, put a file at this place (`WroteAt`): a file that is created was not there
   (`create_wrote`), and one that is replaced may have been (`replace_wrote`). So what was read
   before is read again after a creation (`Keeps.readText`), and after a replacement under every
   other path (`KeepsBut.readText`). -/
namespace Lakehouse

open Lakehouse.Path Layout

namespace Tree

variable {t t' t'' : Tree} {root : Location} {path : String} {directory names : List String}
  {name : String} {content c : ByteArray}

/-! ### Reading again -/

theorem readBytes_eq_ok : t.readBytes path = .ok c ↔
    ∃ p, t.follow path = .ok p ∧ t.node? p = some (.file c) := by
  rw [readBytes, read]
  cases hfollow : t.follow path with
  | error e => simp [bind, Except.bind]
  | ok p =>
    cases hnode : t.node? p with
    | none => simp [bind, Except.bind, hnode]
    | some n => cases n <;> simp [bind, Except.bind, hnode]

theorem readText_eq_ok {text : String} : t.readText path = .ok text ↔
    ∃ c, t.readBytes path = .ok c ∧ String.fromUTF8? c = some text := by
  rw [readText]
  cases hread : t.readBytes path with
  | error e => simp [bind, Except.bind]
  | ok c =>
    cases htext : String.fromUTF8? c with
    | none => simp [bind, Except.bind, htext]
    | some text' => simp [bind, Except.bind, htext]

theorem follow_eq_ok {p : Place} : t.follow path = .ok p ↔
    checkPath path = .ok () ∧ t.locate [] (steps path) = .ok p := by
  rw [follow]
  cases hcheck : checkPath path with
  | error e => simp [bind, Except.bind]
  | ok u => simp [bind, Except.bind]

/-- As long as directories stay, a path leads where it did before. -/
theorem follow_mono (h : t.KeepsDirectories t') {p : Place} (hfollow : t.follow path = .ok p) :
    t'.follow path = .ok p := by
  obtain ⟨hcheck, hlocate⟩ := follow_eq_ok.1 hfollow
  exact follow_eq_ok.2 ⟨hcheck, locate_mono h hlocate⟩

namespace Keeps

theorem refl (t : Tree) : t.Keeps t := fun _ _ h => h

theorem trans (h : t.Keeps t') (h' : t'.Keeps t'') : t.Keeps t'' := fun q n hq => h' q n (h q n hq)

theorem keepsDirectories (h : t.Keeps t') : t.KeepsDirectories t' := fun q hq => h q _ hq

theorem readBytes (h : t.Keeps t') (hread : t.readBytes path = .ok c) : t'.readBytes path = .ok c := by
  obtain ⟨p, hfollow, hnode⟩ := readBytes_eq_ok.1 hread
  exact readBytes_eq_ok.2 ⟨p, follow_mono h.keepsDirectories hfollow, h p _ hnode⟩

theorem readText (h : t.Keeps t') {text : String} (hread : t.readText path = .ok text) :
    t'.readText path = .ok text := by
  obtain ⟨c, hbytes, htext⟩ := readText_eq_ok.1 hread
  exact readText_eq_ok.2 ⟨c, h.readBytes hbytes, htext⟩

end Keeps

theorem KeepsBut.keepsDirectories {p : Place} (h : t.KeepsBut p t') : t.KeepsDirectories t' := by
  intro q hq
  rcases h q _ hq with hq' | ⟨-, c, hc⟩
  · exact hq'
  · exact absurd hc (by simp)

theorem absence_ne_taken (t : Tree) (p : Place) : t.absence p ≠ .taken := by
  rw [absence]
  split <;> simp

theorem requireDirectory_ne_taken (t : Tree) (p : Place) :
    t.requireDirectory p ≠ .error .taken := by
  intro h
  rw [requireDirectory] at h
  split at h
  next => exact absurd h (by simp)
  next => exact absurd h (by simp)
  next => exact t.absence_ne_taken p (Except.error.inj h)

theorem locate_ne_taken (t : Tree) (here : Place) (moves : List Step) :
    t.locate here moves ≠ .error .taken := by
  have hbind : ∀ (p : Place) (f : Except TreeFault Place), f ≠ .error .taken →
      (do t.requireDirectory p; f) ≠ .error .taken := by
    intro p f hf h
    cases hp : t.requireDirectory p with
    | error e =>
      rw [hp] at h
      exact t.requireDirectory_ne_taken p (hp.trans (congrArg _ (Except.error.inj h)))
    | ok u =>
      rw [hp] at h
      exact hf h
  fun_induction locate t here moves with
  | case1 => simp
  | case2 => exact hbind _ _ (by simp)
  | case3 _ _ _ _ ih => exact ih
  | case4 _ _ ih => exact hbind _ _ ih
  | case5 _ _ ih => exact hbind _ _ ih

theorem follow_ne_taken (t : Tree) (path : String) : t.follow path ≠ .error .taken := by
  intro h
  rw [follow] at h
  cases hcheck : checkPath path with
  | error e =>
    rw [hcheck] at h
    obtain rfl : e = .taken := Except.error.inj h
    rw [checkPath] at hcheck
    split at hcheck
    next => exact absurd hcheck (by simp)
    next => split at hcheck <;> exact absurd hcheck (by simp)
  | ok u =>
    rw [hcheck] at h
    exact t.locate_ne_taken _ _ h

/-- Nothing is in the way of reading because it is there. -/
theorem read_ne_taken (t : Tree) (path : String) : t.read path ≠ .error .taken := by
  intro h
  rw [read] at h
  cases hfollow : t.follow path with
  | error e =>
    rw [hfollow] at h
    exact t.follow_ne_taken path (hfollow.trans (congrArg _ (Except.error.inj h)))
  | ok p =>
    rw [hfollow] at h
    simp only [bind, Except.bind] at h
    split at h
    next => exact absurd h (by simp)
    next => exact absurd h (by simp)
    next => exact t.absence_ne_taken p (Except.error.inj h)

theorem readText_ne_alreadyExists {e : StorageError} (h : t.readText path = .error e) (p : String) :
    e ≠ .alreadyExists p := by
  rintro rfl
  rw [readText, readBytes] at h
  cases hread : t.read path with
  | error fault =>
    rw [hread] at h
    have hfault : StorageError.ofTree path fault = .alreadyExists p := Except.error.inj h
    cases fault with
    | taken => exact read_ne_taken t path hread
    | _ => exact absurd hfault (by simp [StorageError.ofTree])
  | ok bytes =>
    rw [hread] at h
    simp only [mapError_ok, bind, Except.bind] at h
    split at h <;> exact absurd h (by simp)

/-! ### The place of a plain path -/

/-- What is read below the root shows that the way to the root is open. -/
theorem located_of_read (hp : Plain path names) (h : t.readBytes (join root.path path) = .ok c) :
    t.locate [] (rootMoves root.path) = .ok root.place := by
  obtain ⟨p, hfollow, -⟩ := readBytes_eq_ok.1 h
  obtain ⟨-, hlocate⟩ := follow_eq_ok.1 hfollow
  rw [hp.steps_join] at hlocate
  obtain ⟨q, hq⟩ := exists_locate_of_append hlocate
  rw [hq, locate_eq_destination hq]
  rfl

/-- Once the way to the root is open, a plain path is read at its place below the root. -/
theorem readBytes_plain (h : t.locate [] (rootMoves root.path) = .ok root.place)
    (hp : Plain path names) : t.readBytes (join root.path path) = .ok c ↔
      checkPath (join root.path path) = .ok () ∧ t.node? (root.place ++ names) = some (.file c) := by
  rw [readBytes_eq_ok, follow_plain h hp]
  cases checkPath (join root.path path) with
  | error e => simp [Except.map]
  | ok u => simp [Except.map]

/-- A change of one place is not seen by reading at another. -/
theorem KeepsBut.readBytes {other : List String} (h : t.KeepsBut (root.place ++ other) t')
    (hp : Plain path names) (hne : names ≠ other)
    (hread : t.readBytes (join root.path path) = .ok c) :
    t'.readBytes (join root.path path) = .ok c := by
  have hlocated := located_of_read hp hread
  obtain ⟨hcheck, hnode⟩ := (readBytes_plain hlocated hp).1 hread
  refine (readBytes_plain (locate_mono h.keepsDirectories hlocated) hp).2 ⟨hcheck, ?_⟩
  rcases h _ _ hnode with hkept | ⟨hplace, -⟩
  · exact hkept
  · exact absurd (List.append_cancel_left hplace) hne

theorem KeepsBut.readText {other : List String} (h : t.KeepsBut (root.place ++ other) t')
    (hp : Plain path names) (hne : names ≠ other) {text : String}
    (hread : t.readText (join root.path path) = .ok text) :
    t'.readText (join root.path path) = .ok text := by
  obtain ⟨c, hbytes, htext⟩ := readText_eq_ok.1 hread
  exact readText_eq_ok.2 ⟨c, h.readBytes hp hne hbytes, htext⟩

/-! ### Writing -/

theorem keeps_makeDirectories (t : Tree) (here : Place) (moves : List Step) :
    t.Keeps (t.makeDirectories here moves).2 := by
  intro q n hq
  rcases node?_makeDirectories t here moves q with hsame | ⟨-, hnone, -⟩
  · rw [hsame, hq]
  · exact absurd (hnone.symm.trans hq) (by simp)

/-- Only directories are made on the way. -/
theorem file_of_makeDirectories {here q : Place} {moves : List Step}
    (h : (t.makeDirectories here moves).2.node? q = some (.file c)) : t.node? q = some (.file c) := by
  rcases node?_makeDirectories t here moves q with hsame | ⟨-, -, hmade⟩
  · rw [← hsame, h]
  · exact absurd (hmade.symm.trans h) (by simp)

theorem makeDirectories_eq_destination {here p : Place} {moves : List Step}
    (h : (t.makeDirectories here moves).1 = .ok p) : p = destination here moves := by
  fun_induction makeDirectories t here moves with
  | case1 => exact (Except.ok.inj h).symm
  | case2 => exact absurd h (by simp)
  | case3 t here name rest p hlong hnode ih => exact ih h
  | case4 => exact absurd h (by simp)
  | case5 t here name rest p hlong hnode ih => exact ih h
  | case6 t here rest ih => exact ih h
  | case7 t here rest ih => exact ih h

/-- A write under a plain path happens at its place, after directories are made, or it fails for
the path and nothing else happens. -/
theorem writeBelow_plain (t : Tree) (root : Location) (hp : Plain path (directory ++ [name]))
    (hne : directory ≠ []) (write : Tree → Option Place → Ending → Except StorageError Tree) :
    ∃ t₁, t.Keeps t₁ ∧ (∀ q c, t₁.node? q = some (.file c) → t.node? q = some (.file c)) ∧
      ((∃ e, t.writeBelow (join root.path path) write = (.error e, t₁)) ∨
        checkPath (join root.path path) = .ok () ∧
          t.writeBelow (join root.path path) write =
            match write t₁ (some (root.place ++ (directory ++ [name]))) .nothing with
            | .error e => (.error e, t₁)
            | .ok t => (.ok (), t)) := by
  have hkeeps := keeps_makeDirectories t [] (directoryMoves root directory)
  have hfiles := fun q c => @file_of_makeDirectories t c [] q (directoryMoves root directory)
  simp only [writeBelow, makeDirectory]
  rw [hp.components_parent hne, ← directoryMoves, hp.ending_join]
  cases checkPath (parent (join root.path path)) with
  | error e => exact ⟨t, .refl t, fun _ _ h => h, .inl ⟨_, rfl⟩⟩
  | ok u =>
    rcases hmake : t.makeDirectories [] (directoryMoves root directory) with ⟨result, t₁⟩
    rw [hmake] at hkeeps hfiles
    refine ⟨t₁, hkeeps, hfiles, ?_⟩
    cases result with
    | error e => exact .inl ⟨_, rfl⟩
    | ok place =>
      obtain rfl := makeDirectories_eq_destination (congrArg Prod.fst hmake)
      rw [destination_directoryMoves]
      dsimp only
      rcases placeIn_cases root hp with ⟨e, -, hplace⟩ | ⟨hcheck, hplace⟩
      · rw [hplace]
        exact .inl ⟨_, rfl⟩
      · rw [hplace]
        exact .inr ⟨hcheck, rfl⟩

/-- What an attempt to write at a place has done: only a success writes there, and nothing else
changes but that directories are made. -/
structure WroteAt (t t' : Tree) (p : Place) (content : ByteArray) (result : Except StorageError Unit) :
    Prop where
  keepsBut : t.KeepsBut p t'
  keeps : result ≠ .ok () → t.Keeps t'
  here : result = .ok () → t'.node? p = some (.file content)
  files : ∀ q c, t'.node? q = some (.file c) →
    t.node? q = some (.file c) ∨ q = p ∧ result = .ok () ∧ c = content

theorem Keeps.keepsBut (h : t.Keeps t') (p : Place) : t.KeepsBut p t' := fun q n hq => .inl (h q n hq)

/-- Directories are made, and nothing is written. -/
theorem WroteAt.of_failed {t₁ : Tree} (hkeeps : t.Keeps t₁)
    (hfiles : ∀ q c, t₁.node? q = some (.file c) → t.node? q = some (.file c)) (p : Place)
    (e : StorageError) : WroteAt t t₁ p content (.error e) :=
  ⟨hkeeps.keepsBut p, fun _ => hkeeps, fun h => absurd h (by simp), fun q c hq => .inl (hfiles q c hq)⟩

/-- Directories are made, and a file is put where no directory is. -/
theorem WroteAt.of_put {t₁ : Tree} {p : Place} (hkeeps : t.Keeps t₁)
    (hfiles : ∀ q c, t₁.node? q = some (.file c) → t.node? q = some (.file c))
    (hp : t₁.node? p ≠ some .directory) : WroteAt t (t₁.put p (.file content)) p content (.ok ()) := by
  have hne : p ≠ [] := by
    rintro rfl
    exact hp rfl
  have hput : ∀ q, q ≠ p → (t₁.put p (.file content)).node? q = t₁.node? q :=
    fun q hq => node?_put_of_ne _ hq
  refine ⟨fun q n hq => ?_, fun h => absurd rfl h, fun _ => ?_, fun q c hq => ?_⟩
  · by_cases hqp : q = p
    · subst hqp
      cases n with
      | directory => exact absurd (hkeeps _ _ hq) hp
      | file c => exact .inr ⟨rfl, c, rfl⟩
    · exact .inl ((hput q hqp).trans (hkeeps q n hq))
  · rw [node?_put _ _ _ hne, if_pos rfl]
  · by_cases hqp : q = p
    · subst hqp
      rw [node?_put _ _ _ hne, if_pos rfl] at hq
      exact .inr ⟨rfl, rfl, (Node.file.inj (Option.some.inj hq)).symm⟩
    · exact .inl (hfiles q c ((hput q hqp).symm.trans hq))

/-- What was written under a plain path is read there, where the way to the root was open. -/
theorem WroteAt.readText (h : WroteAt t t' (root.place ++ names) content (.ok ()))
    (hlocated : t.locate [] (rootMoves root.path) = .ok root.place) (hp : Plain path names)
    (hcheck : checkPath (join root.path path) = .ok ()) {text : String}
    (htext : String.fromUTF8? content = some text) :
    t'.readText (join root.path path) = .ok text := by
  have hlocated' := locate_mono h.keepsBut.keepsDirectories hlocated
  exact readText_eq_ok.2 ⟨content, (readBytes_plain hlocated' hp).2 ⟨hcheck, h.here rfl⟩, htext⟩

/-- Creating a file under a plain path takes nothing away. -/
theorem create_wrote (t : Tree) (root : Location) (hp : Plain path (directory ++ [name]))
    (hne : directory ≠ []) (content : ByteArray) :
    t.Keeps (t.create (join root.path path) content).2 ∧
      WroteAt t (t.create (join root.path path) content).2 (root.place ++ (directory ++ [name]))
        content (t.create (join root.path path) content).1 ∧
      ((t.create (join root.path path) content).1 = .ok () →
        checkPath (join root.path path) = .ok ()) := by
  rw [create]
  obtain ⟨t₁, hkeeps, hfiles, ⟨e, heq⟩ | ⟨hcheck, heq⟩⟩ := writeBelow_plain t root hp hne
    fun t place ending => (t.createAt place ending content).mapError (.ofTree (join root.path path))
  · rw [heq]
    exact ⟨hkeeps, .of_failed hkeeps hfiles _ e, fun h => absurd h (by simp)⟩
  · rw [heq]
    cases hnode : t₁.node? (root.place ++ (directory ++ [name])) with
    | none =>
      have hcreate : t₁.createAt (some (root.place ++ (directory ++ [name]))) .nothing content =
          .ok (t₁.put (root.place ++ (directory ++ [name])) (.file content)) := by
        simp only [createAt, hnode]
      simp only [hcreate, mapError_ok]
      exact ⟨hkeeps.trans (keeps_put _ hnode), .of_put hkeeps hfiles (by simp [hnode]),
        fun _ => hcheck⟩
    | some n =>
      have hcreate : t₁.createAt (some (root.place ++ (directory ++ [name]))) .nothing content =
          .error .taken := by
        simp only [createAt, hnode]
      simp only [hcreate, mapError_error]
      exact ⟨hkeeps, .of_failed hkeeps hfiles _ _, fun _ => hcheck⟩

/-- Replacing a file under a plain path changes only this file. -/
theorem replace_wrote (t : Tree) (root : Location) (hp : Plain path (directory ++ [name]))
    (hne : directory ≠ []) (content : ByteArray) :
    WroteAt t (t.replace (join root.path path) content).2 (root.place ++ (directory ++ [name]))
        content (t.replace (join root.path path) content).1 ∧
      ((t.replace (join root.path path) content).1 = .ok () →
        checkPath (join root.path path) = .ok ()) := by
  rw [replace]
  obtain ⟨t₁, hkeeps, hfiles, ⟨e, heq⟩ | ⟨hcheck, heq⟩⟩ := writeBelow_plain t root hp hne
    fun t place ending => (t.replaceAt place ending content).mapError fun e =>
      .fault (join root.path path) e.cause
  · rw [heq]
    exact ⟨.of_failed hkeeps hfiles _ e, fun h => absurd h (by simp)⟩
  · rw [heq]
    by_cases hdirectory : t₁.node? (root.place ++ (directory ++ [name])) = some .directory
    · have hreplace : t₁.replaceAt (some (root.place ++ (directory ++ [name]))) .nothing content =
          .error .isDirectory := by
        simp [replaceAt, isDirectory_iff.2 hdirectory]
      simp only [hreplace, mapError_error]
      exact ⟨.of_failed hkeeps hfiles _ _, fun _ => hcheck⟩
    · have hreplace : t₁.replaceAt (some (root.place ++ (directory ++ [name]))) .nothing content =
          .ok (t₁.put (root.place ++ (directory ++ [name])) (.file content)) := by
        have hno := Bool.eq_false_iff.2 (mt isDirectory_iff.1 hdirectory)
        simp [replaceAt, hno]
      simp only [hreplace, mapError_ok]
      exact ⟨.of_put hkeeps hfiles hdirectory, fun _ => hcheck⟩

end Tree

end Lakehouse
