import Lakehouse.Proofs.Store.Layout

/- Objects and their paths.

   The file for the current version, the commits, the manifests, the staged manifests and the
   manifest lists are the objects of a table, and each is kept under a path of its own. Objects share
   a path exactly if they are alike (`Object.path_eq_iff`): they are of one family and agree in their
   version, or in their id and in the name of their content. This holds of all versions, ids and
   contents; a version may have more digits than its text is filled up to, and an id may begin with
   the mark that stands before and behind it. -/
namespace Lakehouse

open Lakehouse.Path

/-! ### Marks in a text -/

section

variable {α : Type} {mark : α} {a b c d : List α}

/-- The first mark ends what stands before it. -/
theorem append_first_mark (ha : mark ∉ a) (hc : mark ∉ c) :
    a ++ mark :: b = c ++ mark :: d ↔ a = c ∧ b = d := by
  induction a generalizing c with
  | nil =>
    cases c with
    | nil => simp
    | cons y c =>
      rw [List.mem_cons, not_or] at hc
      simp [hc.1]
  | cons x a ih =>
    rw [List.mem_cons, not_or] at ha
    cases c with
    | nil => simp [Ne.symm ha.1]
    | cons y c =>
      rw [List.mem_cons, not_or] at hc
      simp [ih ha.2 hc.2, and_assoc]

/-- The last mark begins what stands behind it. -/
theorem append_last_mark (hb : mark ∉ b) (hd : mark ∉ d) :
    a ++ mark :: b = c ++ mark :: d ↔ a = c ∧ b = d := by
  have hreverse : ∀ a b : List α, (a ++ mark :: b).reverse = b.reverse ++ mark :: a.reverse := by
    intro a b
    rw [List.reverse_append, List.reverse_cons, List.append_assoc, List.singleton_append]
  rw [← List.reverse_inj, hreverse, hreverse,
    append_first_mark (by rwa [List.mem_reverse]) (by rwa [List.mem_reverse]), List.reverse_inj,
    List.reverse_inj, and_comm]

end

namespace Layout

theorem manifestName_contentId {a b : ByteArray} (h : manifestName a = manifestName b) :
    contentId manifestKind a = contentId manifestKind b := by
  have hlist := congrArg String.toList h
  rw [toList_manifestName, toList_manifestName] at hlist
  exact String.toList_inj.1 (List.append_cancel_left (List.append_cancel_right hlist))

theorem manifestListName_inj {id id' : SnapshotId} {a b : ByteArray}
    (h : manifestListName id a = manifestListName id' b) :
    id = id' ∧ contentId manifestListKind a = contentId manifestListKind b := by
  have hlist := congrArg String.toList h
  rw [toList_manifestListName, toList_manifestListName] at hlist
  -- The text of an id may have the mark in it, the name of the content has not.
  have hmark : ∀ content, '-' ∉ (contentId manifestListKind content).toList ++ ".json".toList := by
    intro content
    rw [List.mem_append, not_or]
    exact ⟨fun h => (mem_contentId h).2.1 rfl, by decide⟩
  obtain ⟨hid, hname⟩ :=
    (append_last_mark (hmark a) (hmark b)).1 (List.append_cancel_left hlist)
  exact ⟨Int64.toInt_inj.1 (Text.signedDecimal_injective hid),
    String.toList_inj.1 (List.append_cancel_right hname)⟩

/-- What a table keeps in a file of its own, beside its data. -/
inductive Object where
  | current
  | commit (version : UInt64)
  | manifest (content : ByteArray)
  | staged (content : ByteArray)
  | manifestList (id : SnapshotId) (content : ByteArray)

/-- Objects whose paths are made in one way. -/
inductive Family where
  | current
  | commit
  | manifest
  | staged
  | manifestList

/-- The names of the directories down to the files of the family. -/
def Family.directory : Family → List String
  | current => [logDirectory]
  | commit => [logDirectory]
  | manifest => [metadataDirectory, "manifests"]
  | staged => [metadataDirectory, "staging"]
  | manifestList => [metadataDirectory]

/-- But for the file that names the current version, a family has its directory for itself. -/
theorem Family.eq_of_directory_eq {f g : Family} (hf : f ≠ current) (hg : g ≠ current)
    (h : f.directory = g.directory) : f = g := by
  cases f <;> cases g <;> simp_all [directory, logDirectory, metadataDirectory]

namespace Object

def family : Object → Family
  | current => .current
  | commit _ => .commit
  | manifest _ => .manifest
  | staged _ => .staged
  | manifestList _ _ => .manifestList

/-- The name of the object's file in its directory. -/
def name : Object → String
  | current => "CURRENT"
  | commit version => commitName version
  | manifest content => manifestName content
  | staged content => manifestName content
  | manifestList id content => manifestListName id content

/-- The names that lead down to the object's file. -/
def names (x : Object) : List String := x.family.directory ++ [x.name]

def path : Object → String
  | current => currentPath
  | commit version => commitPath version
  | manifest content => manifestPath content
  | staged content => stagedPath content
  | manifestList id content => manifestListPath id content

/-- The content that the name of the object is made from, with its kind; the files of the log have
names of another form. -/
def source? : Object → Option (String × ByteArray)
  | current => none
  | commit _ => none
  | manifest content => some (manifestKind, content)
  | staged content => some (manifestKind, content)
  | manifestList _ content => some (manifestListKind, content)

variable {x y : Object}

theorem plain (x : Object) : Plain x.path x.names := by
  cases x with
  | current => exact currentPath_isFile.1
  | commit version => exact (commitPath_isFile version).1
  | manifest content => exact (manifestPath_isFile content).1
  | staged content => exact (stagedPath_isFile content).1
  | manifestList id content => exact (manifestListPath_isFile id content).1

theorem path_eq_iff_names : x.path = y.path ↔ x.names = y.names :=
  ⟨fun h => x.plain.names_eq (h ▸ y.plain), fun h => x.plain.path_eq (h ▸ y.plain)⟩

/-- Paths that lead down to one place are one text, wherever their root is. -/
theorem path_eq_of_components (root : String)
    (h : components (join root x.path) = components (join root y.path)) : x.path = y.path := by
  rw [x.plain.components_join, y.plain.components_join] at h
  have hsteps := List.append_cancel_left h
  exact path_eq_iff_names.2 ((List.map_inj_right fun _ _ he => Step.down.inj he).1 hsteps)

theorem place_eq (h : x.path = y.path) :
    x.family.directory = y.family.directory ∧ x.name = y.name := by
  obtain ⟨hdirectory, hlast⟩ := List.append_inj' (path_eq_iff_names.1 h) rfl
  exact ⟨hdirectory, List.singleton_inj.1 hlast⟩

theorem path_eq_current_iff : x.path = currentPath ↔ x.family = .current := by
  cases x with
  | current => exact iff_of_true rfl rfl
  | commit version => exact iff_of_false (commitPath_ne_currentPath version) (by simp [family])
  | manifest content => exact iff_of_false IsNameOf.manifest.outside_log.1 (by simp [family])
  | staged content => exact iff_of_false IsNameOf.staged.outside_log.1 (by simp [family])
  | manifestList id content =>
    exact iff_of_false (IsNameOf.list id).outside_log.1 (by simp [family])

/-- A path tells the family of its object. -/
theorem family_eq_of_path_eq (h : x.path = y.path) : x.family = y.family := by
  have hcurrent : x.family = .current ↔ y.family = .current := by
    rw [← path_eq_current_iff, ← path_eq_current_iff, h]
  by_cases hx : x.family = .current
  · rw [hx, hcurrent.1 hx]
  · exact Family.eq_of_directory_eq hx (fun hy => hx (hcurrent.2 hy)) (place_eq h).1

/-- The objects are of one family and agree in their version, or in their id and in what their names
keep of the hash. -/
inductive Alike : Object → Object → Prop where
  | current : Alike current current
  | commit (version : UInt64) : Alike (commit version) (commit version)
  | manifest {a b : ByteArray} (h : contentId manifestKind a = contentId manifestKind b) :
      Alike (manifest a) (manifest b)
  | staged {a b : ByteArray} (h : contentId manifestKind a = contentId manifestKind b) :
      Alike (staged a) (staged b)
  | manifestList (id : SnapshotId) {a b : ByteArray}
      (h : contentId manifestListKind a = contentId manifestListKind b) :
      Alike (manifestList id a) (manifestList id b)

theorem alike_of_path_eq (h : x.path = y.path) : x.Alike y := by
  have hfamily := family_eq_of_path_eq h
  have hname := (place_eq h).2
  -- Objects of two families are excluded, and in one family the name is read back.
  cases x with
  | current =>
    cases y with
    | current => exact .current
    | _ => cases hfamily
  | commit version =>
    cases y with
    | commit version' =>
      obtain rfl := commitPath_injective h
      exact .commit version
    | _ => cases hfamily
  | manifest a =>
    cases y with
    | manifest b => exact .manifest (manifestName_contentId hname)
    | _ => cases hfamily
  | staged a =>
    cases y with
    | staged b => exact .staged (manifestName_contentId hname)
    | _ => cases hfamily
  | manifestList id a =>
    cases y with
    | manifestList id' b =>
      obtain ⟨rfl, hcontent⟩ := manifestListName_inj hname
      exact .manifestList id hcontent
    | _ => cases hfamily

/-- Objects share a path exactly if they are alike. -/
theorem path_eq_iff : x.path = y.path ↔ x.Alike y := by
  refine ⟨alike_of_path_eq, fun h => ?_⟩
  cases h with
  | current => rfl
  | commit version => rfl
  | manifest h => simp only [path, manifestPath, h]
  | staged h => simp only [path, stagedPath, h]
  | manifestList id h => simp only [path, manifestListPath, h]

/-- Objects that are alike have contents of one kind and of one name. -/
theorem Alike.contentId_eq {kind kind' : String} {a b : ByteArray} (h : x.Alike y)
    (hx : x.source? = some (kind, a)) (hy : y.source? = some (kind', b)) :
    kind = kind' ∧ contentId kind a = contentId kind b := by
  cases h with
  | current => cases hx
  | commit version => cases hx
  | manifest h => cases hx; cases hy; exact ⟨rfl, h⟩
  | staged h => cases hx; cases hy; exact ⟨rfl, h⟩
  | manifestList id h => cases hx; cases hy; exact ⟨rfl, h⟩

end Object

theorem IsNameOf.exists_object {content : ByteArray} {kind path : String}
    (h : IsNameOf content kind path) :
    ∃ x : Object, x.path = path ∧ x.source? = some (kind, content) := by
  cases h with
  | manifest => exact ⟨.manifest content, rfl, rfl⟩
  | staged => exact ⟨.staged content, rfl, rfl⟩
  | list id => exact ⟨.manifestList id content, rfl, rfl⟩

/-- A path tells the kind of its content and the name made from it. -/
theorem IsNameOf.contentId_eq {a b : ByteArray} {kind kind' path : String}
    (ha : IsNameOf a kind path) (hb : IsNameOf b kind' path) :
    kind = kind' ∧ contentId kind a = contentId kind b := by
  obtain ⟨x, hxpath, hx⟩ := ha.exists_object
  obtain ⟨y, hypath, hy⟩ := hb.exists_object
  exact (Object.alike_of_path_eq (hxpath.trans hypath.symm)).contentId_eq hx hy

/-- The path of a manifest list tells the id of its snapshot. -/
theorem id_eq_of_manifestListPath {id id' : SnapshotId} {a b : ByteArray}
    (h : manifestListPath id a = manifestListPath id' b) : id = id' := by
  have hpath : (Object.manifestList id a).path = (Object.manifestList id' b).path := h
  cases Object.path_eq_iff.1 hpath
  rfl

theorem manifestListPath_ne_manifestPath (id : SnapshotId) (a b : ByteArray) :
    manifestListPath id a ≠ manifestPath b := by
  intro h
  have hpath : (Object.manifestList id a).path = (Object.manifest b).path := h
  cases Object.path_eq_iff.1 hpath

theorem manifestListPath_ne_stagedPath (id : SnapshotId) (a b : ByteArray) :
    manifestListPath id a ≠ stagedPath b := by
  intro h
  have hpath : (Object.manifestList id a).path = (Object.staged b).path := h
  cases Object.path_eq_iff.1 hpath

theorem manifestPath_ne_stagedPath (a b : ByteArray) : manifestPath a ≠ stagedPath b := by
  intro h
  have hpath : (Object.manifest a).path = (Object.staged b).path := h
  cases Object.path_eq_iff.1 hpath

end Layout

end Lakehouse
