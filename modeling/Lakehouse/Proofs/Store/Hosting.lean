import Lakehouse.Proofs.Store.Layout
import Lakehouse.Proofs.Store.Tree
import Lakehouse.Proofs.Success
import Lakehouse.Store.Script

/- Tables in a file tree.

   A tree `Hosts` a location if the way to the location is open and nothing but files
   stands where a table has its files. This is so where a directory is empty
   (`Vacant.hosts`), and stays so under every access. In such a tree the paths of the
   table behave like the cells of a store: a file is created or was there before
   (`create_outcome`), and is replaced (`replace_outcome`), while all others stay as they
   are; a failure changes none of them. Directories that are made on the way do not
   count. Only a path that no access takes keeps a file from being written (`Takes`), and
   where a commit can be created, the current version can be named
   (`takes_current_of_create`). -/
namespace Lakehouse

open Lakehouse.Path Layout

/-- The place of the root directory. -/
def Location.place (root : Location) : Place := destination [] (rootMoves root.path)

/-- Where the file for the current version is. -/
def Location.currentPlace (root : Location) : Place := root.place ++ [logDirectory, "CURRENT"]

namespace Tree

/-- The bytes that are read below the root, if there are any. -/
def content? (t : Tree) (root : Location) (path : String) : Option ByteArray :=
  (t.readBytes (join root.path path)).toOption

/-- The way to the root is open, and no directory stands in the place of a table's
file, nor a file in that of a directory. -/
structure Hosts (t : Tree) (root : Location) : Prop where
  located : t.locate [] (rootMoves root.path) = .ok root.place
  paved : ∀ q ∈ passed [] (rootMoves root.path), q <+: root.place ∨ t.node? q = some .directory
  clear : ∀ q, q <+: root.place → t.isFile q = false
  directories : ∀ d ∈ Layout.directories, t.isFile (root.place ++ d) = false
  files : ∀ names, IsFile names → t.node? (root.place ++ names) ≠ some .directory

/-- The root is a directory in which no table has left anything. -/
structure Vacant (t : Tree) (root : Location) : Prop where
  grounded : t.Grounded
  located : t.follow root.path = .ok root.place
  directory : t.node? root.place = some .directory
  untouched : ∀ d ∈ [logDirectory, metadataDirectory], ∀ names,
    t.node? (root.place ++ d :: names) = none

/-- An empty directory has no table. -/
theorem vacant_empty : Tree.empty.Vacant ⟨"."⟩ := by
  have hplace : (⟨"."⟩ : Location).place = [] := by decide +kernel
  have hbelow : ∀ first rest, Tree.empty.node? (first :: rest) = none := fun _ _ => rfl
  refine ⟨fun p name hnode => ?_, ?_, ?_, fun d _ names => ?_⟩
  · cases p with
    | nil => rfl
    | cons first rest => exact absurd (hbelow first (rest ++ [name])) hnode
  · rw [hplace]
    rfl
  · rw [hplace]
    rfl
  · rw [hplace]
    exact hbelow d names

theorem isFile_eq_true {t : Tree} {p : Place} : t.isFile p = true ↔ ∃ c, t.node? p = some (.file c) := by
  rw [isFile]
  split
  next c h => simp [h]
  next h =>
    constructor
    · intro hfalse
      exact absurd hfalse (by simp)
    · rintro ⟨c, hc⟩
      exact absurd hc (h c)

theorem isFile_eq_false {t : Tree} {p : Place} (h : ∀ c, t.node? p ≠ some (.file c)) :
    t.isFile p = false := by
  rw [Bool.eq_false_iff, ne_eq, isFile_eq_true]
  rintro ⟨c, hc⟩
  exact h c hc

/-- The moves from which every path below a directory begins lead to the directory. -/
theorem locate_rootMoves {t : Tree} {path : String} {p : Place} (h : t.follow path = .ok p) :
    t.locate [] (rootMoves path) = .ok p := by
  obtain ⟨_, -, hlocate⟩ := bind_eq_ok.1 h
  rcases steps_root path with hsteps | hsteps
  · rwa [hsteps] at hlocate
  · rw [hsteps] at hlocate
    obtain ⟨q, hq⟩ := exists_locate_of_append hlocate
    rw [locate_append _ _ _ _ hq, locate, bind_requireDirectory] at hlocate
    rw [hq]
    exact hlocate.2

theorem first_of_isFile {names : List String} (h : IsFile names) :
    ∃ d ∈ [logDirectory, metadataDirectory], ∃ rest, names = d :: rest := by
  have hfirst : ∀ d ∈ Layout.directories, ∃ first ∈ [logDirectory, metadataDirectory], ∃ rest,
      d = first :: rest := by
    simp [Layout.directories]
  obtain ⟨directory, hd, name, rfl⟩ := h.inDirectory
  obtain ⟨first, hf, rest, rfl⟩ := hfirst directory hd
  exact ⟨first, hf, rest ++ [name], rfl⟩

/-- An empty directory hosts a table. -/
theorem Vacant.hosts {t : Tree} {root : Location} (h : t.Vacant root) : t.Hosts root := by
  have hlocated := locate_rootMoves h.located
  refine ⟨hlocated, passed_of_locate h.grounded hlocated, ?_, ?_, ?_⟩
  · intro q hq
    apply isFile_eq_false
    intro c
    rw [h.grounded.above h.directory hq]
    simp
  · intro d hd
    have hnames : ∃ first ∈ [logDirectory, metadataDirectory], ∃ rest, d = first :: rest := by
      simp only [Layout.directories, List.mem_cons, List.not_mem_nil, or_false] at hd
      rcases hd with rfl | rfl | rfl | rfl <;> simp
    obtain ⟨first, hfirst, rest, rfl⟩ := hnames
    apply isFile_eq_false
    intro c
    rw [h.untouched first hfirst rest]
    simp
  · intro names hnames
    obtain ⟨first, hfirst, rest, rfl⟩ := first_of_isFile hnames
    rw [h.untouched first hfirst rest]
    simp

/-! ### Reading -/

variable {t t' : Tree} {root : Location} {path : String} {names : List String}

/-- Once the way to the root is open, a plain path leads below its place. -/
theorem follow_plain (h : t.locate [] (rootMoves root.path) = .ok root.place)
    (hp : Plain path names) :
    t.follow (join root.path path) =
      (checkPath (join root.path path)).map fun _ => root.place ++ names := by
  have hshort : ∀ name ∈ names, isLongName name = false := fun name hname =>
    (hp.isName name hname).short
  rw [follow, hp.steps_join, locate_append _ _ _ _ h, locate_down _ _ hshort]
  cases checkPath (join root.path path) <;> rfl

theorem content?_eq_some (h : t.Hosts root) (hp : Plain path names) {c : ByteArray} :
    t.content? root path = some c ↔
      checkPath (join root.path path) = .ok () ∧ t.node? (root.place ++ names) = some (.file c) := by
  rw [content?, readBytes, read, follow_plain h.located hp]
  cases hc : checkPath (join root.path path) with
  | error e => simp [Except.map, bind, Except.bind, Except.toOption]
  | ok u =>
    simp only [Except.map, bind, Except.bind, true_and]
    split
    next c' hn => simp [Except.toOption, hn]
    next hn => simp [Except.toOption, hn]
    next hn => simp [Except.toOption, hn]

theorem content?_congr (h : t.Hosts root) (h' : t'.Hosts root) (hp : Plain path names)
    (hnode : t'.node? (root.place ++ names) = t.node? (root.place ++ names)) :
    t'.content? root path = t.content? root path := by
  apply Option.ext
  intro c
  rw [content?_eq_some h hp, content?_eq_some h' hp, hnode]

/-- A vacant place has no file of a table. -/
theorem Vacant.content?_eq_none (h : t.Vacant root) (hpath : IsTablePath path) :
    t.content? root path = none := by
  obtain ⟨names, hp, hnames⟩ := hpath
  rw [Option.eq_none_iff_forall_ne_some]
  intro c hc
  have hnode := ((content?_eq_some h.hosts hp).1 hc).2
  obtain ⟨d, hd, rest, rfl⟩ := first_of_isFile hnames
  rw [h.untouched d hd rest] at hnode
  exact absurd hnode (by simp)

theorem readBytes_of_content {c : ByteArray} (h : t.content? root path = some c) :
    t.readBytes (join root.path path) = .ok c := by
  rw [content?] at h
  cases hr : t.readBytes (join root.path path) with
  | error e => rw [hr] at h; exact absurd h (by simp [Except.toOption])
  | ok a => rw [hr] at h; exact congrArg Except.ok (Option.some.inj h)

theorem readBytes_of_no_content (h : t.content? root path = none) :
    ∃ e, t.readBytes (join root.path path) = .error e := by
  rw [content?] at h
  cases hr : t.readBytes (join root.path path) with
  | error e => exact ⟨e, rfl⟩
  | ok a => rw [hr] at h; exact absurd h (by simp [Except.toOption])

/-! ### Changes -/

theorem place_ne_of_isFile (hnames : IsFile names) {q : Place} (hq : q <+: root.place) :
    root.place ++ names ≠ q := by
  rintro rfl
  obtain ⟨directory, -, name, rfl⟩ := hnames.inDirectory
  have hlength := List.IsPrefix.length_le hq
  simp only [List.length_append, List.length_singleton] at hlength
  omega

theorem Hosts.of_change (h : t.Hosts root) (hkeep : t.KeepsDirectories t')
    (hfile : ∀ q, t'.isFile q = true →
      t.isFile q = true ∨ ∃ names, IsFile names ∧ q = root.place ++ names)
    (hdirectory : ∀ names, IsFile names → t'.node? (root.place ++ names) = some .directory →
      t.node? (root.place ++ names) = some .directory) : t'.Hosts root := by
  refine ⟨locate_mono hkeep h.located, ?_, ?_, ?_, ?_⟩
  · intro q hq
    exact (h.paved q hq).imp_right (hkeep q)
  · intro q hq
    rw [Bool.eq_false_iff]
    intro hq'
    rcases hfile q hq' with hold | ⟨names, hnames, rfl⟩
    · rw [h.clear q hq] at hold
      exact absurd hold (by simp)
    · exact place_ne_of_isFile hnames hq rfl
  · intro d hd
    rw [Bool.eq_false_iff]
    intro hd'
    rcases hfile _ hd' with hold | ⟨names, hnames, hplace⟩
    · rw [h.directories d hd] at hold
      exact absurd hold (by simp)
    · rw [List.append_cancel_left hplace] at hd
      exact hnames.notDirectory hd
  · intro names hnames hnode
    exact h.files names hnames (hdirectory names hnames hnode)

/-- Nothing changed but that directories were made, none in the place of a table's
file. -/
def Paves (t t' : Tree) (root : Location) : Prop :=
  ∀ q, t'.node? q = t.node? q ∨
    t.node? q = none ∧ t'.node? q = some .directory ∧
      ∀ names, IsFile names → q ≠ root.place ++ names

/-- The files of the table are the same, and there is no new file. -/
structure SameFiles (t t' : Tree) (root : Location) : Prop where
  contents : ∀ path, IsTablePath path → t'.content? root path = t.content? root path
  nodes : ∀ q c, t'.node? q = some (.file c) → t.node? q = some (.file c)

/-- Whatever is there stays, except for the file at one place. -/
def KeepsBut (p : Place) (t t' : Tree) : Prop :=
  ∀ q n, t.node? q = some n → t'.node? q = some n ∨ q = p ∧ ∃ c, n = .file c

/-- Whatever is there stays. -/
def Keeps (t t' : Tree) : Prop := ∀ q n, t.node? q = some n → t'.node? q = some n

namespace Paves

theorem refl (t : Tree) (root : Location) : t.Paves t root := fun _ => .inl rfl

theorem keepsDirectories (h : t.Paves t' root) : t.KeepsDirectories t' := by
  intro q hq
  rcases h q with hsame | ⟨hnone, -⟩
  · rw [hsame, hq]
  · exact absurd (hnone.symm.trans hq) (by simp)

theorem keeps (h : t.Paves t' root) : t.Keeps t' := by
  intro q n hq
  rcases h q with hsame | ⟨hnone, -⟩
  · rw [hsame, hq]
  · exact absurd (hnone.symm.trans hq) (by simp)

theorem node?_file (h : t.Paves t' root) (hnames : IsFile names) :
    t'.node? (root.place ++ names) = t.node? (root.place ++ names) := by
  rcases h (root.place ++ names) with hsame | ⟨-, -, hne⟩
  · exact hsame
  · exact absurd rfl (hne names hnames)

theorem hosts (h : t.Paves t' root) (ht : t.Hosts root) : t'.Hosts root := by
  refine ht.of_change h.keepsDirectories ?_ ?_
  · intro q hq
    obtain ⟨c, hc⟩ := isFile_eq_true.1 hq
    rcases h q with hsame | ⟨-, hmade, -⟩
    · exact .inl (isFile_eq_true.2 ⟨c, hsame ▸ hc⟩)
    · exact absurd (hmade.symm.trans hc) (by simp)
  · intro names hnames hnode
    rwa [h.node?_file hnames] at hnode

theorem sameFiles (h : t.Paves t' root) (ht : t.Hosts root) : t.SameFiles t' root := by
  constructor
  · intro path hpath
    obtain ⟨names, hp, hnames⟩ := hpath
    exact content?_congr ht (h.hosts ht) hp (h.node?_file hnames)
  · intro q c hq
    rcases h q with hsame | ⟨-, hmade, -⟩
    · rw [← hsame, hq]
    · exact absurd (hmade.symm.trans hq) (by simp)

end Paves

theorem node?_put_of_ne {p q : Place} (n : Node) (h : q ≠ p) : (t.put p n).node? q = t.node? q := by
  by_cases hq : q = []
  · subst hq
    rfl
  · rw [node?_put t p n hq, if_neg h]

theorem node?_put_file (t : Tree) (hnames : IsFile names) (n : Node) :
    (t.put (root.place ++ names) n).node? (root.place ++ names) = some n := by
  have hne : root.place ++ names ≠ [] := by
    obtain ⟨directory, -, name, rfl⟩ := hnames.inDirectory
    simp
  rw [node?_put t _ n hne, if_pos rfl]

theorem keeps_put {p : Place} (n : Node) (h : t.node? p = none) : t.Keeps (t.put p n) := by
  intro q m hq
  have hne : q ≠ p := by
    rintro rfl
    exact absurd (h.symm.trans hq) (by simp)
  rw [node?_put_of_ne _ hne, hq]

theorem keepsBut_put (h : t.Hosts root) (hnames : IsFile names) (c : ByteArray) :
    t.KeepsBut (root.place ++ names) (t.put (root.place ++ names) (.file c)) := by
  intro q n hq
  by_cases he : q = root.place ++ names
  · refine .inr ⟨he, ?_⟩
    cases n with
    | directory => exact absurd (he ▸ hq) (h.files names hnames)
    | file d => exact ⟨d, rfl⟩
  · exact .inl ((node?_put_of_ne _ he).trans hq)

theorem keepsDirectories_put (h : t.Hosts root) (hnames : IsFile names) (c : ByteArray) :
    t.KeepsDirectories (t.put (root.place ++ names) (.file c)) := by
  intro q hq
  have hne : q ≠ root.place ++ names := fun he => h.files names hnames (he ▸ hq)
  rw [node?_put_of_ne _ hne, hq]

/-- A file of the table may be put in its place. -/
theorem Hosts.put (h : t.Hosts root) (hnames : IsFile names) (c : ByteArray) :
    (t.put (root.place ++ names) (.file c)).Hosts root := by
  refine h.of_change (keepsDirectories_put h hnames c) ?_ ?_
  · intro q hq
    by_cases he : q = root.place ++ names
    · exact .inr ⟨names, hnames, he⟩
    · rw [isFile, node?_put_of_ne _ he, ← isFile] at hq
      exact .inl hq
  · intro other hother hnode
    by_cases he : root.place ++ other = root.place ++ names
    · rw [he, node?_put_file t hnames] at hnode
      exact absurd hnode (by simp)
    · rwa [node?_put_of_ne _ he] at hnode

/-- The content of one path is now this; all other files are the same, and there is no other
new file. -/
structure Becomes (t t' : Tree) (root : Location) (path : String) (content : ByteArray) : Prop where
  here : t'.content? root path = some content
  elsewhere : ∀ other, IsTablePath other → other ≠ path →
    t'.content? root other = t.content? root other
  nodes : ∀ q c, t'.node? q = some (.file c) →
    t.node? q = some (.file c) ∨ ∃ names, Plain path names ∧ q = root.place ++ names

theorem becomes_put (h : t.Hosts root) (hp : Plain path names) (hnames : IsFile names)
    (hcheck : checkPath (join root.path path) = .ok ()) (c : ByteArray) :
    t.Becomes (t.put (root.place ++ names) (.file c)) root path c := by
  refine ⟨(content?_eq_some (h.put hnames c) hp).2 ⟨hcheck, node?_put_file t hnames _⟩, ?_, ?_⟩
  · rintro other ⟨names', hp', hnames'⟩ hother
    refine content?_congr h (h.put hnames c) hp' (node?_put_of_ne _ fun he => hother ?_)
    rw [List.append_cancel_left he] at hp'
    exact hp'.path_eq hp
  · intro q d hq
    by_cases he : q = root.place ++ names
    · exact .inr ⟨names, hp, he⟩
    · exact .inl ((node?_put_of_ne _ he).symm.trans hq)

/-! ### Writing -/

/-- The moves to one of the table's directories, as they are made. -/
def directoryMoves (root : Location) (directory : List String) : List Step :=
  (rootMoves root.path).filter (fun s => !s.isStay) ++ directory.map .down

theorem destination_directoryMoves (root : Location) (directory : List String) :
    destination [] (directoryMoves root directory) = root.place ++ directory := by
  rw [directoryMoves, destination_append, destination_withoutStay, destination_down, Location.place]

theorem paves_makeDirectories (h : t.Hosts root) {directory : List String}
    (hd : directory ∈ Layout.directories) :
    t.Paves (t.makeDirectories [] (directoryMoves root directory)).2 root := by
  intro q
  rcases node?_makeDirectories t [] (directoryMoves root directory) q with hsame | ⟨hmem, hnone, hmade⟩
  · exact .inl hsame
  · refine .inr ⟨hnone, hmade, fun names hnames hq => ?_⟩
    rw [directoryMoves, passed_append, passed_withoutStay, destination_withoutStay,
      List.mem_append] at hmem
    rcases hmem with hroot | hbelow
    · rcases h.paved q hroot with habove | hthere
      · exact place_ne_of_isFile hnames habove hq.symm
      · exact absurd (hnone.symm.trans hthere) (by simp)
    · obtain ⟨p, hp, hne, rfl⟩ := mem_passed_down.1 hbelow
      rw [← Location.place] at hq
      obtain rfl := List.append_cancel_left hq
      exact hnames.notDirectory (directories_closed hd hp hne)

/-- No access refuses the path below the root: it is not too long, and no zero is in it. -/
structure Takes (root : Location) (path : String) : Prop where
  parent : checkPath (Path.parent (join root.path path)) = .ok ()
  path : checkPath (join root.path path) = .ok ()

/-- The directories of a table can be made. -/
theorem Hosts.makeDirectories (h : t.Hosts root) {directory : List String}
    (hd : directory ∈ Layout.directories) :
    (t.makeDirectories [] (directoryMoves root directory)).1 = .ok (root.place ++ directory) := by
  rw [← destination_directoryMoves]
  apply makeDirectories_of_clear
  · have hparts : ∀ d ∈ Layout.directories, ∀ n ∈ d, isLongName n = false := by decide
    intro name hname
    rw [directoryMoves, List.mem_append, List.mem_map] at hname
    rcases hname with hroot | ⟨n, hn, hsame⟩
    · exact short_of_locate h.located name (List.mem_filter.1 hroot).1
    · cases hsame
      exact hparts directory hd name hn
  · intro q hq
    rw [directoryMoves, passed_append, passed_withoutStay, destination_withoutStay,
      List.mem_append] at hq
    rcases hq with hroot | hbelow
    · rcases h.paved q hroot with habove | hthere
      · exact h.clear q habove
      · exact isFile_eq_false fun c => by simp [hthere]
    · obtain ⟨p, hp, hne, rfl⟩ := mem_passed_down.1 hbelow
      exact h.directories p (directories_closed hd hp hne)

/-- Where a plain path can be followed, its last name is the place below the directory. -/
theorem placeIn_join {directory : List String} {name : String}
    (hp : Plain path (directory ++ [name])) (hcheck : checkPath (join root.path path) = .ok ⟨⟩)
    (place : Place) : placeIn place (join root.path path) = .ok (some (place ++ [name])) := by
  have hlong := (hp.isName name (by simp)).short
  have hlast : ((rootMoves root.path).filter (fun s => !s.isStay) ++
      (directory ++ [name]).map Step.down).getLast? = some (.down name) := by
    rw [List.map_append, List.map_singleton, ← List.append_assoc, List.getLast?_concat]
  rw [placeIn, hcheck, hp.components_join]
  simp only [hlast, hlong, bind, Except.bind, Bool.false_eq_true, if_false]

/-- Either the whole path is refused, or its place is found below the directory. -/
theorem placeIn_cases {directory : List String} {name : String} (root : Location)
    (hp : Plain path (directory ++ [name])) :
    (∃ e, checkPath (join root.path path) = .error e ∧
      placeIn (root.place ++ directory) (join root.path path) = .error e) ∨
    checkPath (join root.path path) = .ok () ∧
      placeIn (root.place ++ directory) (join root.path path) =
        .ok (some (root.place ++ (directory ++ [name]))) := by
  cases hcheck : checkPath (join root.path path) with
  | error e => exact .inl ⟨e, rfl, by simp only [placeIn, hcheck, bind, Except.bind]⟩
  | ok u =>
    refine .inr ⟨rfl, ?_⟩
    rw [placeIn_join hp hcheck, List.append_assoc]

/-- Unless the path is refused, the write happens at its place. -/
theorem writeBelow_cases (h : t.Hosts root) (directory : List String) {name : String}
    (hp : Plain path (directory ++ [name])) (hd : directory ∈ Layout.directories)
    (write : Tree → Option Place → Ending → Except StorageError Tree) :
    (¬ Takes root path ∧ ∃ p cause t', t.Paves t' root ∧
        t.writeBelow (join root.path path) write = (.error (.fault p cause), t')) ∨
      Takes root path ∧ ∃ t', t.Paves t' root ∧
        t.writeBelow (join root.path path) write =
          match write t' (some (root.place ++ (directory ++ [name]))) .nothing with
          | .error e => (.error e, t')
          | .ok t => (.ok (), t) := by
  have hne : directory ≠ [] := by
    rintro rfl
    exact absurd hd (by decide)
  have hpaves := paves_makeDirectories h hd
  have hmake := h.makeDirectories hd
  simp only [writeBelow, makeDirectory]
  rw [hp.components_parent hne, ← directoryMoves]
  cases hparent : checkPath (parent (join root.path path)) with
  | error e =>
    refine .inl ⟨fun htakes => ?_, _, _, t, Paves.refl t root, rfl⟩
    exact absurd (hparent.symm.trans htakes.parent) (by simp)
  | ok u =>
    rcases hm : t.makeDirectories [] (directoryMoves root directory) with ⟨result, t₁⟩
    rw [hm] at hmake hpaves
    obtain rfl : result = .ok (root.place ++ directory) := hmake
    rw [hp.ending_join]
    dsimp only
    rcases placeIn_cases root hp with ⟨e, hcheck, hplace⟩ | ⟨hcheck, hplace⟩
    · rw [hplace]
      refine .inl ⟨fun htakes => ?_, _, e.cause, _, hpaves, rfl⟩
      exact absurd (hcheck.symm.trans htakes.path) (by simp)
    · rw [hplace]
      exact .inr ⟨⟨hparent, hcheck⟩, t₁, hpaves, rfl⟩

/-- Only under its own path the file for the current version is new. -/
theorem Becomes.node_current {c : ByteArray} (h : t.Becomes t' root path c) (hne : path ≠ currentPath)
    {d : ByteArray} (hnode : t'.node? root.currentPlace = some (.file d)) :
    t.node? root.currentPlace = some (.file d) := by
  rcases h.nodes _ d hnode with hold | ⟨names, hp, hplace⟩
  · exact hold
  · rw [← List.append_cancel_left hplace] at hp
    exact absurd (hp.path_eq currentPath_isFile.1) hne

/-- What comes of the attempt to create a file of the table. -/
inductive Created (t t' : Tree) (root : Location) (path : String) (content : ByteArray) :
    Except StorageError Unit → Prop where
  | done (fresh : t.content? root path = none)
      (free : ∀ names, Plain path names → t.node? (root.place ++ names) = none)
      (now : t.Becomes t' root path content) : Created t t' root path content (.ok ())
  | taken (p : String) (old : ByteArray) (there : t.content? root path = some old)
      (same : t.SameFiles t' root) : Created t t' root path content (.error (.alreadyExists p))
  | failed (p : String) (cause : StorageFault) (refused : ¬ Takes root path)
      (same : t.SameFiles t' root) :
      Created t t' root path content (.error (.fault p cause))

theorem Becomes.of_paves {t₁ : Tree} {c : ByteArray} (hsame : t.SameFiles t₁ root)
    (h : t₁.Becomes t' root path c) : t.Becomes t' root path c :=
  ⟨h.here, fun other hother hne => (h.elsewhere other hother hne).trans (hsame.contents other hother),
    fun q d hq => (h.nodes q d hq).imp_left (hsame.nodes q d)⟩

theorem create_outcome (h : t.Hosts root) (hpath : IsTablePath path) (content : ByteArray) :
    (t.create (join root.path path) content).2.Hosts root ∧
      t.Keeps (t.create (join root.path path) content).2 ∧
      Created t (t.create (join root.path path) content).2 root path content
        (t.create (join root.path path) content).1 := by
  obtain ⟨names, hp, hnames⟩ := hpath
  obtain ⟨directory, hd, name, rfl⟩ := hnames.inDirectory
  rw [create]
  rcases writeBelow_cases h directory hp hd (fun t place ending =>
    (t.createAt place ending content).mapError (.ofTree (join root.path path))) with
    ⟨hrefused, p, cause, t', hpaves, heq⟩ | ⟨htakes, t', hpaves, heq⟩
  · rw [heq]
    exact ⟨hpaves.hosts h, hpaves.keeps, .failed p cause hrefused (hpaves.sameFiles h)⟩
  · rw [heq]
    have ht' := hpaves.hosts h
    -- The directories that were made on the way have changed no file of the table.
    have hsame := (hpaves.sameFiles h).contents _ ⟨_, hp, hnames⟩
    cases hnode : t'.node? (root.place ++ (directory ++ [name])) with
    | none =>
      have hcreate : t'.createAt (some (root.place ++ (directory ++ [name]))) .nothing content =
          .ok (t'.put (root.place ++ (directory ++ [name])) (.file content)) := by
        simp only [createAt, hnode]
      simp only [hcreate, mapError_ok]
      refine ⟨ht'.put hnames content, ?_, .done ?_ ?_ ?_⟩
      · intro q n hq
        exact keeps_put _ hnode q n (hpaves.keeps q n hq)
      · rw [← hsame, Option.eq_none_iff_forall_ne_some]
        intro c hc
        have hfile := ((content?_eq_some ht' hp).1 hc).2
        rw [hnode] at hfile
        exact absurd hfile (by simp)
      · intro names' hp'
        obtain rfl := hp'.names_eq hp
        rw [← hpaves.node?_file hnames, hnode]
      · exact (becomes_put ht' hp hnames htakes.path content).of_paves (hpaves.sameFiles h)
    | some n =>
      cases n with
      | directory => exact absurd hnode (ht'.files _ hnames)
      | file c =>
        have hcreate : t'.createAt (some (root.place ++ (directory ++ [name]))) .nothing content =
            .error .taken := by
          simp only [createAt, hnode]
        simp only [hcreate, mapError_error]
        refine ⟨ht', hpaves.keeps, .taken _ c ?_ (hpaves.sameFiles h)⟩
        rw [← hsame]
        exact (content?_eq_some ht' hp).2 ⟨htakes.path, hnode⟩

/-- What comes of the attempt to replace a file of the table. -/
inductive Replaced (t t' : Tree) (root : Location) (path : String) (content : ByteArray) :
    Except StorageError Unit → Prop where
  | done (now : t.Becomes t' root path content) : Replaced t t' root path content (.ok ())
  | failed (p : String) (cause : StorageFault) (refused : ¬ Takes root path)
      (same : t.SameFiles t' root) :
      Replaced t t' root path content (.error (.fault p cause))

theorem replace_outcome (h : t.Hosts root) (hp : Plain path names) (hnames : IsFile names)
    (content : ByteArray) :
    (t.replace (join root.path path) content).2.Hosts root ∧
      t.KeepsBut (root.place ++ names) (t.replace (join root.path path) content).2 ∧
      Replaced t (t.replace (join root.path path) content).2 root path content
        (t.replace (join root.path path) content).1 := by
  obtain ⟨directory, hd, name, rfl⟩ := hnames.inDirectory
  rw [replace]
  rcases writeBelow_cases h directory hp hd (fun t place ending =>
    (t.replaceAt place ending content).mapError fun e => .fault (join root.path path) e.cause) with
    ⟨hrefused, p, cause, t', hpaves, heq⟩ | ⟨htakes, t', hpaves, heq⟩
  · rw [heq]
    exact ⟨hpaves.hosts h, fun q n hq => .inl (hpaves.keeps q n hq),
      .failed p cause hrefused (hpaves.sameFiles h)⟩
  · rw [heq]
    have ht' := hpaves.hosts h
    have hreplace : t'.replaceAt (some (root.place ++ (directory ++ [name]))) .nothing content =
        .ok (t'.put (root.place ++ (directory ++ [name])) (.file content)) := by
      have hno : t'.isDirectory (root.place ++ (directory ++ [name])) = false := by
        rw [Bool.eq_false_iff, ne_eq, isDirectory_iff]
        exact ht'.files _ hnames
      simp [replaceAt, hno]
    simp only [hreplace, mapError_ok]
    refine ⟨ht'.put hnames content, ?_, .done ?_⟩
    · intro q n hq
      exact keepsBut_put ht' hnames content q n (hpaves.keeps q n hq)
    · exact (becomes_put ht' hp hnames htakes.path content).of_paves (hpaves.sameFiles h)

/-! ### The file for the current version -/

theorem hasZero_append (a b : String) : hasZero (a ++ b) = (hasZero a || hasZero b) := by
  rw [hasZero, hasZero, hasZero, String.toList_append, List.contains_eq_any_beq, List.any_append,
    ← List.contains_eq_any_beq, ← List.contains_eq_any_beq]

theorem checkPath_eq_ok {path : String} :
    checkPath path = .ok () ↔ hasZero path = false ∧ isLong path = false := by
  rw [checkPath]
  cases hasZero path <;> cases isLong path <;> simp

/-- Below a root, a path is as good as any that is longer and has as few zeros. -/
theorem checkPath_join_of_le {root a b : String} (ha : a.toList.head? ≠ some '/')
    (hb : b.toList.head? ≠ some '/') (hsize : a.utf8ByteSize ≤ b.utf8ByteSize)
    (hzero : hasZero a = false) (h : checkPath (join root b) = .ok ()) :
    checkPath (join root a) = .ok () := by
  have hjoin : ∃ front, join root a = front ++ a ∧ join root b = front ++ b := by
    by_cases hroot : root = "" ∨ root.toList.getLast? = some '/'
    · exact ⟨root, by rw [join, if_neg ha, if_pos hroot], by rw [join, if_neg hb, if_pos hroot]⟩
    · exact ⟨root ++ "/", by rw [join, if_neg ha, if_neg hroot],
        by rw [join, if_neg hb, if_neg hroot]⟩
  obtain ⟨front, hfa, hfb⟩ := hjoin
  rw [hfb, checkPath_eq_ok, hasZero_append, isLong, Bool.or_eq_false_iff, decide_eq_false_iff_not,
    String.utf8ByteSize_append] at h
  rw [hfa, checkPath_eq_ok, hasZero_append, isLong, Bool.or_eq_false_iff, decide_eq_false_iff_not,
    String.utf8ByteSize_append]
  exact ⟨⟨h.1.1, hzero⟩, by omega⟩

theorem utf8ByteSize_currentPath_le (v : UInt64) :
    currentPath.utf8ByteSize ≤ (commitPath v).utf8ByteSize := by
  have hname := length_commitName v
  have hsize := length_le_utf8ByteSize (commitPath v).toList
  have hcurrent : currentPath.utf8ByteSize = 21 := by decide
  have hlog : logDirectory.toList.length = 13 := rfl
  rw [String.ofList_toList, toList_commitPath, List.length_append, List.length_cons] at hsize
  omega

theorem parent_current (root : String) (v : UInt64) :
    parent (join root currentPath) = parent (join root (commitPath v)) := by
  have hc := (currentPath_isFile.1).parent_join [logDirectory] (by simp) root
  have hv := ((commitPath_isFile v).1).parent_join [logDirectory] (by simp) root
  rw [← String.toList_inj, ← intercalate_segments (parent (join root currentPath)).toList, hc, ← hv,
    intercalate_segments]

/-- Where a commit can be created, the file for the current version can be replaced. -/
theorem takes_current_of_create (h : t.Hosts root) (v : UInt64) (content : ByteArray)
    (hok : (t.create (join root.path (commitPath v)) content).1 = .ok ()) :
    Takes root currentPath := by
  obtain ⟨hp, -⟩ := commitPath_isFile v
  have hd : [logDirectory] ∈ Layout.directories := by simp [Layout.directories]
  rw [create] at hok
  rcases writeBelow_cases h [logDirectory] hp hd (fun t place ending =>
    (t.createAt place ending content).mapError (.ofTree (join root.path (commitPath v)))) with
    ⟨-, p, cause, t₁, -, heq⟩ | ⟨htakes, -⟩
  · rw [heq] at hok
    exact absurd hok (by simp)
  · refine ⟨?_, ?_⟩
    · rw [parent_current root.path v]
      exact htakes.parent
    · exact checkPath_join_of_le currentPath_isFile.1.head_ne_slash hp.head_ne_slash
        (utf8ByteSize_currentPath_le v) (by decide) htakes.path

end Tree

end Lakehouse
