import Lakehouse.Proofs.Store.Contract
import Lakehouse.Proofs.Store.Persistence
import Lakehouse.Proofs.Store.Room

/- Trees in which every node lies in a directory.

   A tree stays like that under every access, whatever the paths are (`Grounded.answer`), and so
   under every script, wherever it stops (`Grounded.runFor`), for
   directories are made from the root down, and a file comes into one that is there. In such a
   tree, the directories on the way to a file that can be read are there. So nothing keeps another
   attempt to write under its path from reaching its place (`writeBelow_of_read`): a creation finds
   that the file is there and leaves all as it is (`create_of_read`), and a replacement succeeds
   (`replace_of_read`). -/
namespace Lakehouse

open Lakehouse.Path

namespace Tree

variable {t : Tree} {root : Location} {path : String} {directory names : List String}
  {name : String} {content old : ByteArray}

/-! ### Accesses -/

/-- What comes into a directory, where nothing or a file was, lies in it. -/
theorem Grounded.put (h : t.Grounded) {p : Place} {name : String}
    (hp : t.node? p = some .directory) (hfree : t.node? (p ++ [name]) ≠ some .directory) (n : Node) :
    (t.put (p ++ [name]) n).Grounded := by
  intro q other hq
  have hother : ∀ r, r ≠ p ++ [name] → (t.put (p ++ [name]) n).node? r = t.node? r :=
    fun r hr => node?_put_of_ne n hr
  by_cases hsame : q ++ [other] = p ++ [name]
  · obtain ⟨rfl, -⟩ := List.append_inj' hsame rfl
    rw [hother q (by simp)]
    exact hp
  · rw [hother _ hsame] at hq
    have hdirectory := h q other hq
    rw [hother q fun heq => hfree (heq ▸ hdirectory)]
    exact hdirectory

/-- What comes into a directory of the working directory, outside of a table's own directories,
leaves it without a table. -/
theorem Vacant.put (h : t.Vacant ⟨"."⟩) {p : Place} {name : String}
    (hp : t.node? p = some .directory) (hfree : t.node? (p ++ [name]) ≠ some .directory)
    (houtside : (p ++ [name]).head? ≠ some Layout.logDirectory ∧
      (p ++ [name]).head? ≠ some Layout.metadataDirectory) (n : Node) :
    (t.put (p ++ [name]) n).Vacant ⟨"."⟩ := by
  have hplace : (⟨"."⟩ : Location).place = [] := by decide +kernel
  refine ⟨h.grounded.put hp hfree n, h.located, ?_, fun d hd names => ?_⟩
  · rw [hplace]
    rfl
  · have hne : (⟨"."⟩ : Location).place ++ d :: names ≠ p ++ [name] := by
      rw [hplace]
      intro heq
      rw [← heq] at houtside
      rcases List.mem_pair.1 hd with rfl | rfl
      · exact houtside.1 rfl
      · exact houtside.2 rfl
    rw [node?_put_of_ne n hne]
    exact h.untouched d hd names

theorem Grounded.makeDirectories (h : t.Grounded) {here : Place} {moves : List Step}
    (hhere : t.node? here = some .directory) :
    (t.makeDirectories here moves).2.Grounded ∧ ∀ p, (t.makeDirectories here moves).1 = .ok p →
      (t.makeDirectories here moves).2.node? p = some .directory := by
  fun_induction Tree.makeDirectories t here moves with
  | case1 t here =>
    refine ⟨h, fun p hp => ?_⟩
    exact Except.ok.inj hp ▸ hhere
  | case2 => exact ⟨h, fun p hp => absurd hp (by simp)⟩
  | case3 t here name rest p hlong hnode ih => exact ih h hnode
  | case4 => exact ⟨h, fun p hp => absurd hp (by simp)⟩
  | case5 t here name rest p hlong hnode ih =>
    refine ih (h.put hhere (by rw [hnode]; simp) _) ?_
    rw [node?_put _ _ _ (by simp [p]), if_pos rfl]
  | case6 t here rest ih => exact ih h (h.above hhere (List.dropLast_prefix here))
  | case7 t here rest ih => exact ih h hhere

/-- The place of a path lies in the directory of its last component. -/
theorem placeIn_eq_some {p q : Place} (h : placeIn p path = .ok (some q)) :
    ∃ name, q = p ++ [name] := by
  rw [placeIn] at h
  cases hcheck : checkPath path with
  | error e =>
    rw [hcheck] at h
    exact absurd h (by simp [bind, Except.bind])
  | ok u =>
    simp only [hcheck, bind, Except.bind] at h
    split at h
    next name hlast =>
      split at h
      next => exact absurd h (by simp)
      next => exact ⟨name, (Option.some.inj (Except.ok.inj h)).symm⟩
    next => exact absurd h (by simp)

/-- A write keeps the tree grounded if it does at a place whose directory is there. -/
theorem Grounded.writeBelow (h : t.Grounded)
    {write : Tree → Option Place → Ending → Except StorageError Tree}
    (hwrite : ∀ (t t' : Tree) p name ending, t.Grounded → t.node? p = some .directory →
      write t (some (p ++ [name])) ending = .ok t' → t'.Grounded)
    (hnowhere : ∀ (t t' : Tree) ending, write t none ending ≠ .ok t') :
    (t.writeBelow path write).2.Grounded := by
  have hmake := @Grounded.makeDirectories t h [] (components (parent path)) rfl
  simp only [Tree.writeBelow, makeDirectory]
  cases checkPath (parent path) with
  | error e => exact h
  | ok u =>
    dsimp only
    generalize t.makeDirectories [] (components (parent path)) = made at hmake ⊢
    obtain ⟨e | p, t₁⟩ := made
    · exact hmake.1
    · obtain ⟨hgrounded, hdirectory⟩ := hmake
      dsimp only
      cases hplace : placeIn p path with
      | error e => exact hgrounded
      | ok place =>
        dsimp only
        cases hwritten : write t₁ place (ending path) with
        | error e => exact hgrounded
        | ok t₂ =>
          cases place with
          | none => exact absurd hwritten (hnowhere _ _ _)
          | some q =>
            obtain ⟨name, rfl⟩ := placeIn_eq_some hplace
            exact hwrite _ _ _ _ _ hgrounded (hdirectory p rfl) hwritten

theorem Grounded.create (h : t.Grounded) (path : String) (content : ByteArray) :
    (t.create path content).2.Grounded := by
  refine h.writeBelow ?_ ?_
  · intro t t' p name ending ht hp hwritten
    rw [mapError_eq_ok] at hwritten
    simp only [createAt] at hwritten
    split at hwritten
    next => exact absurd hwritten (by simp)
    next => exact absurd hwritten (by simp)
    next hnode =>
      obtain rfl := Except.ok.inj hwritten
      exact ht.put hp (by rw [hnode]; simp) _
    next => exact absurd hwritten (by simp)
  · intro t t' ending
    simp [createAt]

theorem Grounded.replace (h : t.Grounded) (path : String) (content : ByteArray) :
    (t.replace path content).2.Grounded := by
  refine h.writeBelow ?_ ?_
  · intro t t' p name ending ht hp hwritten
    rw [mapError_eq_ok] at hwritten
    simp only [replaceAt] at hwritten
    split at hwritten
    next => exact absurd hwritten (by simp)
    next =>
      split at hwritten
      next => exact absurd hwritten (by simp)
      next hfree =>
        obtain rfl := Except.ok.inj hwritten
        exact ht.put hp (mt isDirectory_iff.2 hfree) _
  · intro t t' ending
    simp [replaceAt]

/-- Every access keeps every node in a directory. -/
theorem Grounded.answer (h : t.Grounded) (root : Location) (r : Request) :
    (t.answer root r).2.Grounded := by
  cases r with
  | readBytes path => exact h
  | readText path => exact h
  | create path content => exact h.create _ content
  | replace path content => exact h.replace _ content
  | list path => exact h

theorem Grounded.run {α : Type} (h : t.Grounded) (root : Location) (s : Script α) :
    (s.run root t).2.Grounded := by
  induction s generalizing t with
  | done a => exact h
  | ask r next ih => exact ih _ (h.answer root r)

theorem Grounded.runFor {α : Type} (h : t.Grounded) (root : Location) (limit : Nat) (s : Script α) :
    (s.runFor root limit t).2.Grounded := by
  induction s generalizing t limit with
  | done a =>
    rw [Script.runFor_done]
    exact h
  | ask r next ih =>
    cases limit with
    | zero => exact h
    | succ limit => exact ih _ (h.answer root r) limit

/-! ### Files that are there -/

/-- Nothing is made where the moves pass only directories. -/
theorem makeDirectories_of_directories {here : Place} {moves : List Step}
    (hshort : ∀ name, .down name ∈ moves → isLongName name = false)
    (hdirectories : ∀ q ∈ passed here moves, t.node? q = some .directory) :
    t.makeDirectories here moves = (.ok (destination here moves), t) := by
  fun_induction makeDirectories t here moves with
  | case1 => rfl
  | case2 t here name rest hlong => exact absurd hlong (by simp [hshort name (by simp)])
  | case3 t here name rest p hlong hnode ih =>
    exact ih (fun n hn => hshort n (by simp [hn]))
      fun q hq => hdirectories q (by simp [passed, p, hq])
  | case4 t here name rest p hlong c hnode =>
    have hp := hdirectories p (by simp [passed, p])
    exact absurd (hnode.symm.trans hp) (by simp)
  | case5 t here name rest p hlong hnode ih =>
    have hp := hdirectories p (by simp [passed, p])
    exact absurd (hnode.symm.trans hp) (by simp)
  | case6 t here rest ih =>
    exact ih (fun n hn => hshort n (by simp [hn])) fun q hq => hdirectories q hq
  | case7 t here rest ih =>
    exact ih (fun n hn => hshort n (by simp [hn])) fun q hq => hdirectories q hq

/-- Where a file can be read, the directories above it are there. -/
theorem makeDirectories_of_read (h : t.Grounded) (hp : Plain path (directory ++ [name]))
    (hread : t.readBytes (join root.path path) = .ok old) :
    t.makeDirectories [] (directoryMoves root directory) = (.ok (root.place ++ directory), t) := by
  have hlocated := located_of_read hp hread
  obtain ⟨-, hnode⟩ := (readBytes_plain hlocated hp).1 hread
  rw [← List.append_assoc] at hnode
  have hdirectory := h _ _ (by rw [hnode]; simp)
  rw [← destination_directoryMoves]
  apply makeDirectories_of_directories
  · intro n hn
    rw [directoryMoves, List.mem_append, List.mem_map] at hn
    rcases hn with hroot | ⟨m, hm, hsame⟩
    · exact short_of_locate hlocated n (List.mem_filter.1 hroot).1
    · cases hsame
      exact (hp.isName n (by simp [hm])).short
  · intro q hq
    rw [directoryMoves, passed_append, passed_withoutStay, destination_withoutStay,
      List.mem_append] at hq
    rcases hq with hroot | hbelow
    · rcases passed_of_locate h hlocated q hroot with habove | hthere
      · exact h.above hdirectory (habove.trans (List.prefix_append _ _))
      · exact hthere
    · obtain ⟨p, hprefix, -, rfl⟩ := mem_passed_down.1 hbelow
      exact h.above hdirectory ((List.prefix_append_right_inj _).2 hprefix)

/-- A write under the path of a file that can be read happens at its place, and nothing else
changes. -/
theorem writeBelow_of_read (h : t.Grounded) (hp : Plain path (directory ++ [name]))
    (hne : directory ≠ []) (hread : t.readBytes (join root.path path) = .ok old)
    (write : Tree → Option Place → Ending → Except StorageError Tree) :
    t.writeBelow (join root.path path) write =
      match write t (some (root.place ++ (directory ++ [name]))) .nothing with
      | .error e => (.error e, t)
      | .ok t => (.ok (), t) := by
  obtain ⟨hcheck, -⟩ := (readBytes_plain (located_of_read hp hread) hp).1 hread
  have hplace := placeIn_join hp hcheck (root.place ++ directory)
  rw [List.append_assoc] at hplace
  rw [writeBelow, makeDirectory, checkPath_of_isPrefix (parent_isPrefix _) hcheck,
    hp.components_parent hne, ← directoryMoves]
  simp only [makeDirectories_of_read h hp hread, hp.ending_join]
  generalize placeIn (root.place ++ directory) (join root.path path) = found at hplace ⊢
  subst hplace
  rfl

theorem create_of_read (h : t.Grounded) (hp : Plain path (directory ++ [name]))
    (hne : directory ≠ []) (hread : t.readBytes (join root.path path) = .ok old)
    (content : ByteArray) : t.create (join root.path path) content =
      (.error (.alreadyExists (join root.path path)), t) := by
  obtain ⟨-, hnode⟩ := (readBytes_plain (located_of_read hp hread) hp).1 hread
  rw [create, writeBelow_of_read h hp hne hread]
  simp only [createAt, hnode, mapError_error]
  rfl

theorem replace_of_read (h : t.Grounded) (hp : Plain path (directory ++ [name]))
    (hne : directory ≠ []) (hread : t.readBytes (join root.path path) = .ok old)
    (content : ByteArray) : (t.replace (join root.path path) content).1 = .ok () := by
  obtain ⟨-, hnode⟩ := (readBytes_plain (located_of_read hp hread) hp).1 hread
  have hfree : t.isDirectory (root.place ++ (directory ++ [name])) = false := by
    rw [Bool.eq_false_iff, ne_eq, isDirectory_iff, hnode]
    simp
  rw [replace, writeBelow_of_read h hp hne hread]
  simp [replaceAt, hfree]

end Tree

end Lakehouse
