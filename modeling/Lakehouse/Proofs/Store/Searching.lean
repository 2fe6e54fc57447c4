import Lakehouse.Proofs.Store.Grounding
import Lakehouse.Proofs.Store.Listing

/- Walks in whatever order the entries come.

   What a directory's entries are is the tree's matter; in which order they come is not, and may
   change from one directory to the next. Whatever the orders were, a walk that has come to its end
   has found the same files up to their order (`found_perm`), so that nothing is left of the orders
   when these are sorted (`Search.listing_eq`): every walk gives the listing
   (`list_eq_listing`). A directory on the way is opened by its whole path, which leads to it if it
   can be taken at all (`openBelow_eq`). A walk comes to its end exactly if all paths down from
   the directory can be taken (`Passable`), and otherwise it is refused one that cannot. The path of
   a file that is listed has the components of the directory's path and then the names from there on,
   and it leads to the file (`follow_below`). -/
namespace Lakehouse

open Lakehouse.Path

/-! ### Paths below a directory -/

namespace Path

/-- Empty segments and dots at the beginning are no components. -/
theorem components_withoutIdleStart (text : List Char) :
    ((segments (withoutIdleStart text)).filterMap Step.ofSegment?).filter (fun s => !s.isStay) =
      ((segments text).filterMap Step.ofSegment?).filter fun s => !s.isStay := by
  fun_induction withoutIdleStart text with
  | case1 => rfl
  | case2 => rfl
  | case3 rest ih => rw [segments_slash]; exact ih
  | case4 rest ih =>
    have hdot : segments ('.' :: '/' :: rest) = ['.'] :: segments rest := segments_append ['.'] rest
    rw [hdot]
    exact ih
  | case5 => rfl

/-- Nothing is asked for by what is left out at the beginning. -/
theorem locate_withoutIdleStart {t : Tree} {here p : Place} {text : List Char}
    (h : t.locate here ((segments text).filterMap Step.ofSegment?) = .ok p) :
    t.locate here ((segments (withoutIdleStart text)).filterMap Step.ofSegment?) = .ok p := by
  fun_induction withoutIdleStart text with
  | case1 => exact h
  | case2 => exact (Tree.bind_requireDirectory.1 h).2
  | case3 rest ih => exact ih (by rwa [segments_slash] at h)
  | case4 rest ih =>
    have hdot : segments ('.' :: '/' :: rest) = ['.'] :: segments rest := segments_append ['.'] rest
    rw [hdot] at h
    exact ih (Tree.bind_requireDirectory.1 h).2
  | case5 => exact h

theorem head?_withoutIdleStart (text : List Char) : (withoutIdleStart text).head? ≠ some '/' := by
  fun_induction withoutIdleStart text with
  | case1 => simp
  | case2 => simp
  | case3 rest ih => exact ih
  | case4 rest ih => exact ih
  | case5 text _ _ hslash _ =>
    intro hhead
    obtain ⟨rest, rfl⟩ := List.head?_eq_some_iff.1 hhead
    exact hslash rest rfl

variable {directory : String} {names : List String}

/-- What lies below a directory is joined to the directory's path. -/
theorem below_eq_join (hrel : directory.toList.head? ≠ some '/')
    (h : Plain ("/".intercalate names) names) :
    below directory names =
      join (String.ofList (withoutIdleStart directory.toList)) ("/".intercalate names) := by
  have hempty : String.ofList (withoutIdleStart directory.toList) = "" ↔
      withoutIdleStart directory.toList = [] := by
    rw [← String.toList_inj, String.toList_ofList]
    rfl
  rw [below, join, if_neg h.head_ne_slash, if_neg hrel, String.toList_ofList]
  simp only [hempty]
  split
  · rw [String.append_empty]
  · rfl

theorem head?_below (hrel : directory.toList.head? ≠ some '/')
    (h : Plain ("/".intercalate names) names) :
    (below directory names).toList.head? ≠ some '/' := by
  have hstart := head?_withoutIdleStart directory.toList
  have hmark : "/".toList = ['/'] := rfl
  simp only [below, if_neg hrel, String.toList_append, String.toList_ofList]
  cases hbegin : withoutIdleStart directory.toList with
  | nil => simpa using h.head_ne_slash
  | cons c rest =>
    rw [hbegin] at hstart
    simpa using hstart

theorem segments_below (hrel : directory.toList.head? ≠ some '/')
    (h : Plain ("/".intercalate names) names) :
    segments (below directory names).toList =
      rootSegments (String.ofList (withoutIdleStart directory.toList)) ++ names.map String.toList := by
  rw [below_eq_join hrel h, h.segments_join]

theorem rootMoves_withoutIdleStart (directory : String) :
    rootMoves (String.ofList (withoutIdleStart directory.toList)) =
      (segments (withoutIdleStart directory.toList)).filterMap Step.ofSegment? := by
  rw [← filterMap_segments, String.toList_ofList]

/-- The components of the directory's path come before the names. -/
theorem components_below (hrel : directory.toList.head? ≠ some '/')
    (h : Plain ("/".intercalate names) names) :
    components (below directory names) = components directory ++ names.map .down := by
  rw [below_eq_join hrel h, h.components_join, rootMoves_withoutIdleStart, components_withoutIdleStart]
  rfl

/-- The way to what lies below a directory goes through the directory. -/
theorem steps_below (root : String) (hrel : directory.toList.head? ≠ some '/')
    (h : Plain ("/".intercalate names) names) :
    steps (join root (below directory names)) = rootMoves root ++
      ((segments (withoutIdleStart directory.toList)).filterMap Step.ofSegment? ++
        names.map .down) := by
  have hsegments : segments (join root (below directory names)).toList =
      rootSegments root ++ (rootSegments (String.ofList (withoutIdleStart directory.toList)) ++
        names.map String.toList) := by
    rw [segments_join root (head?_below hrel h), segments_below hrel h]
  have hends : (segments (join root (below directory names)).toList).getLast? =
      some (names.getLast h.names_ne_nil).toList := by
    rw [hsegments, ← List.append_assoc, List.getLast?_append, List.getLast?_map,
      List.getLast?_eq_some_getLast h.names_ne_nil]
    rfl
  have hnil : ¬ (some (names.getLast h.names_ne_nil).toList = some [] ∧
      1 < (segments (join root (below directory names)).toList).length) := by
    rintro ⟨hnil, -⟩
    exact (h.isName _ (List.getLast_mem _)).ne_nil (Option.some.inj hnil)
  simp only [steps, hends, if_neg hnil]
  rw [hsegments, List.filterMap_append, List.filterMap_append, filterMap_names h.isName,
    ← rootMoves_withoutIdleStart]
  rfl

end Path

namespace Tree

variable {t : Tree} {root : Location} {rel path : String} {dir : Place}

/-- A directory has only names that lead down. -/
def Named (t : Tree) : Prop :=
  ∀ p name, t.node? (p ++ [name]) ≠ none → IsName name ∧ '/' ∉ name.toList

theorem Named.put (h : t.Named) {name : String} (hname : IsName name) (hslash : '/' ∉ name.toList)
    (p : Place) (n : Node) : (t.put (p ++ [name]) n).Named := by
  intro q other hq
  rw [node?_put _ _ _ (by simp)] at hq
  split at hq
  next heq =>
    obtain ⟨-, hlast⟩ := List.append_inj' heq rfl
    obtain rfl := List.singleton_inj.1 hlast
    exact ⟨hname, hslash⟩
  next => exact h q other hq

theorem named_empty : empty.Named := by
  intro p name hnode
  have hnone : empty.node? (p ++ [name]) = none := by
    rw [node?, if_neg (by simp)]
    rfl
  exact absurd hnone hnode

/-- The names on the way down to a node are names that lead down. -/
theorem Named.plain (h : t.Named) (hg : t.Grounded) {names : Place} (hne : names ≠ [])
    (hnode : t.node? (dir ++ names) ≠ none) : Plain ("/".intercalate names) names := by
  have hall : ∀ name ∈ names, IsName name ∧ '/' ∉ name.toList := by
    intro name hname
    obtain ⟨above, rest, rfl⟩ := List.append_of_mem hname
    refine h (dir ++ above) name fun hnone => ?_
    -- The node stands below this place or at it.
    have hsplit : dir ++ (above ++ name :: rest) = (dir ++ above ++ [name]) ++ rest := by simp
    rw [hsplit] at hnode
    by_cases hrest : rest = []
    · subst hrest
      rw [List.append_nil] at hnode
      exact hnode hnone
    · have habove := hg.above_node hrest hnode
      rw [hnone] at habove
      exact absurd habove (by simp)
  exact plain_of_intercalate hne String.toList_intercalate (fun name hn => (hall name hn).1)
    fun name hn => (hall name hn).2

/-- Whoever can follow the way to a directory can follow that to what lies below it. -/
theorem follow_below (hrel : rel.toList.head? ≠ some '/')
    (hfollow : t.follow (join root.path rel) = .ok dir) {names : Place}
    (h : Plain ("/".intercalate names) names)
    (hcheck : checkPath (join root.path (below rel names)) = .ok ()) :
    t.follow (join root.path (below rel names)) = .ok (dir ++ names) := by
  have hdirectory := locate_rootMoves hfollow
  rw [← filterMap_segments, segments_join root.path hrel, List.filterMap_append] at hdirectory
  obtain ⟨p, hroot⟩ := exists_locate_of_append hdirectory
  rw [locate_append _ _ _ _ hroot] at hdirectory
  refine follow_eq_ok.2 ⟨hcheck, ?_⟩
  rw [steps_below root.path hrel h, rootMoves, locate_append _ _ _ _ hroot,
    locate_append _ _ _ _ (locate_withoutIdleStart hdirectory)]
  exact locate_down t dir fun name hname => (h.isName name hname).short

/-! ### Directories on the way -/

/-- Every directory from `dir` on has a path that can be taken, if `dir` is opened by `path`. -/
def Passable (t : Tree) (path : String) (dir : Place) : Prop :=
  ∀ names, t.node? (dir ++ names) = some .directory → checkPath (descend path names) = .ok ()

/-- The path of a directory from `dir` on cannot be taken, and the error is what comes of it. -/
def Impassable (t : Tree) (path : String) (dir : Place) (e : StorageError) : Prop :=
  ∃ names reason, t.node? (dir ++ names) = some .directory ∧
    checkPath (descend path names) = .error reason ∧ e = .ofTree (descend path names) reason

/-- The path by which a directory is opened leads to it, if it can be taken. -/
theorem follow_descend (hg : t.Grounded) (hnamed : t.Named) (hfollow : t.follow path = .ok dir)
    {names : Place} (hnode : t.node? (dir ++ names) = some .directory)
    (hcheck : checkPath (descend path names) = .ok ()) :
    t.follow (descend path names) = .ok (dir ++ names) := by
  by_cases hne : names = []
  · subst hne
    rwa [List.append_nil]
  · have hplain := hnamed.plain hg hne (by rw [hnode]; simp)
    rw [descend, if_neg hne] at hcheck ⊢
    refine follow_eq_ok.2 ⟨hcheck, ?_⟩
    rw [hplain.steps_join, locate_append _ _ _ _ (locate_rootMoves hfollow)]
    exact locate_down t dir fun name hname => (hplain.isName name hname).short

/-- All that can keep a directory from being opened is its path. -/
theorem openBelow_eq (hg : t.Grounded) (hnamed : t.Named) (hfollow : t.follow path = .ok dir)
    {names : Place} (hnode : t.node? (dir ++ names) = some .directory) :
    t.openBelow path dir (dir ++ names) =
      (checkPath (descend path names)).mapError (.ofTree (descend path names)) := by
  rw [openBelow, List.drop_left]
  cases hcheck : checkPath (descend path names) with
  | ok _ =>
    rw [openDirectory_eq_ok.2 ⟨follow_descend hg hnamed hfollow hnode hcheck, hnode⟩]
    rfl
  | error reason =>
    simp only [openDirectory, follow, hcheck]
    rfl

/-! ### Walks to their end -/

/-- What is listed of what a walk has found: the ways from the directory to the files, sorted. -/
def Search.listing (s : Search) (dir : Place) : List Place :=
  (s.found.mergeSort fun a b => (compare a b).isLE).map fun p => p.drop dir.length

/-- Sorting forgets the order in which files were found. -/
theorem Search.listing_eq {s s' : Search} (h : s.found.Perm s'.found) (dir : Place) :
    s.listing dir = s'.listing dir := by
  have hsame := mergeSort_places_eq (h.trans (List.mergeSort_perm s'.found _).symm)
    (pairwise_mergeSort_places s'.found)
  rw [Search.listing, hsame, ← Search.listing]

/-- The directories from `dir` on are `dir` and those below it. -/
theorem mem_directoriesFrom {names : Place} (h : t.node? (dir ++ names) = some .directory) :
    dir ++ names ∈ t.directoriesFrom [dir] := by
  rw [directoriesFrom, List.flatMap_singleton, List.singleton_append, List.mem_cons]
  by_cases hne : names = []
  · exact .inl (by rw [hne, List.append_nil])
  · exact .inr (mem_placesBelow.2 ⟨names, _, hne, rfl, h, rfl⟩)

theorem exists_of_mem_directoriesFrom {p : Place} (h : p ∈ t.directoriesFrom [dir]) :
    ∃ names, p = dir ++ names := by
  rw [directoriesFrom, List.flatMap_singleton, List.singleton_append, List.mem_cons] at h
  rcases h with rfl | hbelow
  · exact ⟨[], (List.append_nil _).symm⟩
  · obtain ⟨names, -, -, rfl, -⟩ := mem_placesBelow.1 hbelow
    exact ⟨names, rfl⟩

/-- What is pending on a walk are directories below its first one, and each directory that is pending
no more was opened. -/
structure Search.Proceeds (t : Tree) (path : String) (dir : Place) (s : Search) : Prop where
  directories : ∀ p ∈ s.pending, ∃ names, p = dir ++ names ∧ t.node? p = some .directory
  opened : ∀ p ∈ t.directoriesFrom [dir],
    p ∈ t.directoriesFrom s.pending ∨ t.openBelow path dir p = .ok ()

theorem Search.proceeds_start (hdirectory : t.node? dir = some .directory) :
    Search.Proceeds t path dir ⟨[dir], []⟩ := by
  refine ⟨fun p hp => ?_, fun p hp => .inl hp⟩
  obtain rfl := List.mem_singleton.1 hp
  exact ⟨[], (List.append_nil _).symm, hdirectory⟩

/-- The directories in one that is entered are below the first one too. -/
theorem Search.Proceeds.enters (h : t.Grounded) {s s' : Search} (hs : s.Proceeds t path dir)
    (hstep : t.Enters path dir s s') : s'.Proceeds t path dir := by
  cases hstep with | @mk p pending found entries hopen hentries =>
  have hentered := (List.reverse_perm _).trans (placesIn_perm hentries (· == .directory))
  constructor
  · intro q hq
    rcases List.mem_append.1 hq with hq | hq
    · obtain ⟨name, n, rfl, hnode, hkind⟩ := mem_placesIn.1 (hentered.mem_iff.1 hq)
      obtain ⟨names, rfl, -⟩ := hs.directories p List.mem_cons_self
      obtain rfl := eq_of_beq hkind
      exact ⟨names ++ [name], List.append_assoc _ _ _, hnode⟩
    · exact hs.directories q (List.mem_cons_of_mem p hq)
  · intro q hq
    refine (hs.opened q hq).elim (fun hpending => ?_) .inr
    rcases List.mem_cons.1 ((directoriesFrom_cons h p pending).mem_iff.1 hpending) with rfl | hleft
    · exact .inr hopen
    · exact .inl ((directoriesFrom_perm (hentered.append_right pending)).mem_iff.2 hleft)

theorem Search.Proceeds.of_run (h : t.Grounded) (hdirectory : t.node? dir = some .directory)
    {s : Search} (hrun : Relation.ReflTransGen (t.Enters path dir) ⟨[dir], []⟩ s) :
    s.Proceeds t path dir := by
  induction hrun with
  | refl => exact Search.proceeds_start hdirectory
  | tail _ hstep ih => exact ih.enters h hstep

section

variable (h : t.Grounded) (hnamed : t.Named) (hfollow : t.follow path = .ok dir)
  (hdirectory : t.node? dir = some .directory) {s : Search}
  (hrun : Relation.ReflTransGen (t.Enters path dir) ⟨[dir], []⟩ s)
include h hnamed hfollow hdirectory hrun

/-- A walk that has come to its end has opened every directory. -/
theorem passable_of_run (hdone : s.pending = []) : t.Passable path dir := by
  intro names hnode
  have hopened :=
    (Search.Proceeds.of_run h hdirectory hrun).opened _ (mem_directoriesFrom hnode)
  rw [hdone] at hopened
  rw [← mapError_eq_ok, ← openBelow_eq h hnamed hfollow hnode]
  exact hopened.resolve_left List.not_mem_nil

/-- What a walk is refused is a directory whose path cannot be taken. -/
theorem impassable_of_refused {e : StorageError} (hrefused : t.Refused path dir s e) :
    t.Impassable path dir e := by
  obtain ⟨hdirectories, -⟩ := Search.Proceeds.of_run h hdirectory hrun
  cases hrefused with | mk hopen =>
  obtain ⟨names, rfl, hnode⟩ := hdirectories _ List.mem_cons_self
  rw [openBelow_eq h hnamed hfollow hnode, mapError_eq_error] at hopen
  obtain ⟨reason, hcheck, rfl⟩ := hopen
  exact ⟨names, reason, hnode, hcheck, rfl⟩

end

theorem not_passable_of_impassable {e : StorageError} (h : t.Impassable path dir e) :
    ¬ t.Passable path dir := by
  obtain ⟨names, reason, hnode, hcheck, -⟩ := h
  intro hpassable
  exact absurd (hcheck.symm.trans (hpassable names hnode)) (by simp)

/-- A directory is listed if all paths from there on can be taken, and otherwise the listing fails
at one that cannot. -/
theorem list_cases (h : t.Grounded) (hnamed : t.Named) (hfollow : t.follow path = .ok dir)
    (hdirectory : t.node? dir = some .directory) :
    (∃ s, Relation.ReflTransGen (t.Enters path dir) ⟨[dir], []⟩ s ∧ s.pending = [] ∧
      t.list path = .ok (s.listing dir)) ∨
    ∃ e, t.Impassable path dir e ∧ t.list path = .error e := by
  have harrange : ∀ (dir : Place) (entries : List (Place × Node)), entries.Perm entries :=
    fun _ entries => .refl entries
  have hlist : t.list path = t.filesBelow path (fun _ entries => entries) dir >>= fun found =>
      pure (found.map fun p => p.drop dir.length) := by
    rw [list, openDirectory_eq_ok.2 ⟨hfollow, hdirectory⟩]
    rfl
  rw [hlist, filesBelow]
  cases hwalk : t.walk path dir (fun _ entries => entries) (t.nodes.size + 1) [dir] [] with
  | ok found => exact .inl ⟨_, walk_finishes h harrange (t.directoriesFrom_le dir) hwalk, rfl, rfl⟩
  | error e =>
    obtain ⟨s, hrun, hrefused⟩ := walk_refused harrange hwalk
    exact .inr ⟨e, impassable_of_refused h hnamed hfollow hdirectory hrun hrefused, rfl⟩

/-- Every walk through a directory that has come to its end gives the directory's listing. -/
theorem list_eq_listing (h : t.Grounded) (hnamed : t.Named) (hfollow : t.follow path = .ok dir)
    (hdirectory : t.node? dir = some .directory) {s : Search}
    (hrun : Relation.ReflTransGen (t.Enters path dir) ⟨[dir], []⟩ s) (hdone : s.pending = []) :
    t.list path = .ok (s.listing dir) := by
  obtain ⟨s', hrun', hdone', hlist⟩ | ⟨e, himpassable, -⟩ := list_cases h hnamed hfollow hdirectory
  · rw [hlist, Search.listing_eq ((found_perm h hrun' hdone').trans (found_perm h hrun hdone).symm)]
  · exact absurd (passable_of_run h hnamed hfollow hdirectory hrun hdone)
      (not_passable_of_impassable himpassable)

/-- A directory with a file, and another file in a directory beside it. -/
def nested : Tree :=
  ((((empty.put ["r"] .directory).put ["r", "data"] .directory).put ["r", "data", "day"]
    .directory).put ["r", "data", "day", "b"] (.file .empty)).put ["r", "data", "a"] (.file .empty)

theorem nested_grounded : nested.Grounded :=
  ((((vacant_empty.grounded.put (p := []) rfl (by decide) .directory).put (p := ["r"]) rfl
    (by decide) .directory).put (p := ["r", "data"]) rfl (by decide) .directory).put
      (p := ["r", "data", "day"]) rfl (by decide) (.file .empty)).put (p := ["r", "data"]) rfl
        (by decide) (.file .empty)

theorem nested_named : nested.Named := by
  have hall : ∀ name ∈ ["r", "data", "day", "b", "a"], name.toList ≠ [] ∧ name.toList ≠ ['.'] ∧
      name.toList ≠ ['.', '.'] ∧ isLongName name = false ∧ '/' ∉ name.toList := by decide
  have hput : ∀ {t : Tree} (p : Place) (name : String) (n : Node),
      name ∈ ["r", "data", "day", "b", "a"] → t.Named → (t.put (p ++ [name]) n).Named := by
    intro t p name n hname ht
    obtain ⟨hnil, hdot, hdots, hshort, hslash⟩ := hall name hname
    exact ht.put ⟨hnil, hdot, hdots, hshort⟩ hslash p n
  refine hput ["r", "data"] "a" _ (by simp) (hput ["r", "data", "day"] "b" _ (by simp) ?_)
  refine hput ["r", "data"] "day" _ (by simp) (hput ["r"] "data" _ (by simp) ?_)
  exact hput [] "r" _ (by simp) named_empty

instance (t : Tree) (path : String) (dir : Place) : Decidable (t.Passable path dir) :=
  decidable_of_iff (∀ p ∈ t.directoriesFrom [dir], t.node? p = some .directory →
    checkPath (descend path (p.drop dir.length)) = .ok ()) <| by
      constructor
      · intro hall names hnode
        have hcheck := hall (dir ++ names) (mem_directoriesFrom hnode) hnode
        rwa [List.drop_left] at hcheck
      · intro hpassable p hp hnode
        obtain ⟨names, rfl⟩ := exists_of_mem_directoriesFrom hp
        rw [List.drop_left]
        exact hpassable names hnode

/-- The path with a dot and a slash before it, so many times. -/
def dotted (path : String) : Nat → String
  | 0 => path
  | n + 1 => "./" ++ dotted path n

theorem segments_dotted (path : String) (n : Nat) :
    segments (dotted path n).toList = List.replicate n ['.'] ++ segments path.toList := by
  induction n with
  | zero => rfl
  | succ n ih =>
    rw [dotted, String.toList_append, List.replicate_succ, List.cons_append, ← ih]
    exact segments_append ['.'] _

theorem filterMap_dotted (path : String) (n : Nat) :
    (segments (dotted path n).toList).filterMap Step.ofSegment? =
      List.replicate n .stay ++ (segments path.toList).filterMap Step.ofSegment? := by
  rw [segments_dotted, List.filterMap_append, List.filterMap_replicate]
  rfl

theorem utf8ByteSize_dotted (path : String) (n : Nat) :
    (dotted path n).utf8ByteSize = 2 * n + path.utf8ByteSize := by
  induction n with
  | zero => rw [dotted, Nat.mul_zero, Nat.zero_add]
  | succ n ih =>
    have hdot : "./".utf8ByteSize = 2 := by decide
    rw [dotted, String.utf8ByteSize_append, ih, hdot]
    omega

theorem mem_dotted {c : Char} {path : String} {n : Nat} (h : c ∈ (dotted path n).toList) :
    c = '.' ∨ c = '/' ∨ c ∈ path.toList := by
  induction n with
  | zero => exact .inr (.inr h)
  | succ n ih =>
    rw [dotted, String.toList_append, List.mem_append] at h
    refine h.elim (fun hdot => ?_) ih
    have hmarks : c ∈ ['.', '/'] := hdot
    simp only [List.mem_cons, List.not_mem_nil, or_false] at hmarks
    exact hmarks.elim .inl fun hslash => .inr (.inl hslash)

theorem locate_stays {here : Place} (h : t.node? here = some .directory) (n : Nat)
    (rest : List Step) : t.locate here (List.replicate n .stay ++ rest) = t.locate here rest := by
  induction n with
  | zero => rfl
  | succ n ih =>
    rw [List.replicate_succ, List.cons_append, locate, requireDirectory_eq_ok.2 h]
    exact ih

/-- A directory is reached by its path whether or not the path asks for a directory. -/
theorem follow_of_rootMoves (hcheck : checkPath path = .ok ())
    (hlocate : t.locate [] (rootMoves path) = .ok dir) (hdirectory : t.node? dir = some .directory) :
    t.follow path = .ok dir := by
  refine follow_eq_ok.2 ⟨hcheck, ?_⟩
  rcases steps_root path with hsteps | hsteps
  · rwa [hsteps]
  · rw [hsteps, locate_append _ _ _ _ hlocate, locate, bind_requireDirectory]
    exact ⟨hdirectory, rfl⟩

theorem le_utf8ByteSize_join (root : String) {rel : String} (h : rel.toList.head? ≠ some '/') :
    root.utf8ByteSize + rel.utf8ByteSize ≤ (join root rel).utf8ByteSize := by
  rw [join, if_neg h]
  split
  · exact Nat.le_of_eq String.utf8ByteSize_append.symm
  · rw [String.utf8ByteSize_append, String.utf8ByteSize_append]
    omega

theorem descend_singleton (path name : String) : descend path [name] = join path name := by
  have hone : "/".intercalate [name] = name := by
    rw [← String.toList_inj, String.toList_intercalate]
    simp [List.intercalate]
  rw [descend, if_neg (by simp), hone]

/-- A path that leads to the directory `data` and is nearly too long. -/
def farData : String := dotted "data" 2044

theorem utf8ByteSize_farData : farData.utf8ByteSize = 4092 := utf8ByteSize_dotted "data" 2044

theorem head?_farData : farData.toList.head? ≠ some '/' := by
  rw [farData, dotted, String.toList_append]
  decide

theorem follow_farData : nested.follow (join "r" farData) = .ok ["r", "data"] := by
  have hjoin : join "r" farData = "r/" ++ farData := by
    rw [join, if_neg head?_farData, if_neg (by decide)]
    rfl
  have hzero : hasZero (join "r" farData) = false := by
    rw [hasZero, hjoin, String.toList_append, Bool.eq_false_iff, ne_eq, List.contains_iff_mem,
      List.mem_append]
    rintro (hroot | hfar)
    · exact absurd hroot (by decide)
    · rcases mem_dotted hfar with hdot | hslash | hdata
      · exact absurd hdot (by decide)
      · exact absurd hslash (by decide)
      · exact absurd hdata (by decide)
  have hshort : isLong (join "r" farData) = false := by
    have hroot : "r/".utf8ByteSize = 2 := by decide
    rw [isLong, hjoin, String.utf8ByteSize_append, utf8ByteSize_farData, hroot]
    decide
  have hcheck : checkPath (join "r" farData) = .ok () := by
    rw [checkPath, hzero, hshort]
    rfl
  refine follow_of_rootMoves hcheck ?_ (by decide +kernel)
  have hroot : nested.locate [] (rootMoves "r") = .ok ["r"] := by decide +kernel
  rw [← filterMap_segments, segments_join _ head?_farData, List.filterMap_append, ← rootMoves, farData,
    filterMap_dotted, locate_append _ _ _ _ hroot, locate_stays (by decide +kernel)]
  decide +kernel

theorem not_passable_farData : ¬ nested.Passable (join "r" farData) ["r", "data"] := by
  intro hpassable
  have hcheck := hpassable ["day"] (by decide +kernel)
  have hlong : isLong (descend (join "r" farData) ["day"]) = true := by
    have hbelow := le_utf8ByteSize_join (join "r" farData) (by decide : "day".toList.head? ≠ some '/')
    have hfar := le_utf8ByteSize_join "r" head?_farData
    have hroot : "r".utf8ByteSize = 1 := by decide
    have hday : "day".utf8ByteSize = 3 := by decide
    rw [utf8ByteSize_farData] at hfar
    rw [isLong, descend_singleton]
    exact decide_eq_true (by omega)
  rw [checkPath, hlong] at hcheck
  split at hcheck <;> exact absurd hcheck (by simp)

end Tree

end Lakehouse
