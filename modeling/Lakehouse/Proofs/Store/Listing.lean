import Mathlib.Logic.Relation
import Lakehouse.Proofs.SortedMap
import Lakehouse.Proofs.Store.Tree
import Lakehouse.Proofs.Success

/- What the listing of a directory has.

   A walk enters one directory after the other, in which the entries may come in any order
   (`Enters`), and every file below those that are pending is still to be found. What has been
   found, together with what is to be found, is the same after each step up to its order
   (`Enters.files_perm`): below a directory are its entries, and what is below those that are
   directories (`placesBelow_perm`). Each directory is entered once, so that every walk ends
   (`enters_wellFounded`) and there are steps enough for it: it finds all files, or is refused a
   directory that cannot be opened (`walk_finishes`, `walk_refused`). Sorting forgets the order in
   which entries were met: whatever it was, all files below the directory are listed, once and in
   ascending order (`mem_filesBelow`, `sorted_filesBelow`). -/
namespace Lakehouse.Tree

variable {t : Tree} {path : String} {top dir p : Place} {kind : Node → Bool}
  {arrange : Arrangement}

/-- What has something below it is a directory. -/
theorem Grounded.above_node (h : t.Grounded) {names : Place} (hne : names ≠ [])
    (hnode : t.node? (p ++ names) ≠ none) : t.node? p = some .directory := by
  have hparts := List.dropLast_concat_getLast hne
  rw [← hparts, ← List.append_assoc] at hnode
  exact h.above (h _ _ hnode) (List.prefix_append p names.dropLast)

/-! ### Places below a directory -/

/-- The places below a directory at which there is a node of some kind. -/
def placesBelow (t : Tree) (kind : Node → Bool) (dir : Place) : List Place :=
  (t.nodes.toList.filter fun e => kind e.2 ∧ dir <+: e.1 ∧ e.1 ≠ dir).map Prod.fst

/-- The places of the entries of a directory that are of some kind. -/
def placesIn (t : Tree) (kind : Node → Bool) (dir : Place) : List Place :=
  ((t.children dir).filter fun e => kind e.2).map Prod.fst

theorem mem_nodes {n : Node} (hne : p ≠ []) : (p, n) ∈ t.nodes.toList ↔ t.node? p = some n := by
  rw [SortedMap.mem_toList, node?, if_neg hne]

theorem mem_placesBelow : p ∈ t.placesBelow kind dir ↔
    ∃ names n, names ≠ [] ∧ p = dir ++ names ∧ t.node? p = some n ∧ kind n = true := by
  simp only [placesBelow, List.mem_map, List.mem_filter, decide_eq_true_eq]
  constructor
  · rintro ⟨⟨p, n⟩, ⟨hin, hkind, ⟨names, rfl⟩, hother⟩, rfl⟩
    have hne : names ≠ [] := by
      rintro rfl
      exact hother (List.append_nil _)
    exact ⟨names, n, hne, rfl, (mem_nodes (by simp [hne])).1 hin, hkind⟩
  · rintro ⟨names, n, hne, rfl, hnode, hkind⟩
    refine ⟨(dir ++ names, n), ⟨(mem_nodes (by simp [hne])).2 hnode, hkind, ?_, ?_⟩, rfl⟩
    · exact List.prefix_append dir names
    · simpa using hne

theorem mem_placesIn : p ∈ t.placesIn kind dir ↔
    ∃ name n, p = dir ++ [name] ∧ t.node? p = some n ∧ kind n = true := by
  simp only [placesIn, children, List.mem_map, List.mem_filter, decide_eq_true_eq]
  constructor
  · rintro ⟨⟨p, n⟩, ⟨⟨hin, hne, rfl⟩, hkind⟩, rfl⟩
    exact ⟨p.getLast hne, n, (List.dropLast_concat_getLast hne).symm, (mem_nodes hne).1 hin, hkind⟩
  · rintro ⟨name, n, rfl, hnode, hkind⟩
    refine ⟨(dir ++ [name], n), ⟨⟨(mem_nodes (by simp)).2 hnode, by simp, ?_⟩, hkind⟩, rfl⟩
    exact List.dropLast_concat

theorem nodup_placesBelow : (t.placesBelow kind dir).Nodup :=
  t.nodes.nodup_keys.sublist (List.filter_sublist.map _)

theorem nodup_placesIn : (t.placesIn kind dir).Nodup :=
  t.nodes.nodup_keys.sublist ((List.filter_sublist.trans List.filter_sublist).map _)

/-- Nothing is below two entries of a directory. -/
theorem disjoint_placesBelow {a b : Place} (ha : a ∈ t.placesIn (· == .directory) dir)
    (hb : b ∈ t.placesIn (· == .directory) dir) (hne : a ≠ b) :
    (t.placesBelow kind a).Disjoint (t.placesBelow kind b) := by
  intro p hpa hpb
  obtain ⟨name, -, rfl, -⟩ := mem_placesIn.1 ha
  obtain ⟨other, -, rfl, -⟩ := mem_placesIn.1 hb
  obtain ⟨names, -, -, rfl, -⟩ := mem_placesBelow.1 hpa
  obtain ⟨others, -, -, hsame, -⟩ := mem_placesBelow.1 hpb
  rw [List.append_assoc, List.append_assoc] at hsame
  have hhead := List.append_cancel_left hsame
  exact hne (congrArg (fun first => dir ++ [first]) (List.cons.inj hhead).1)

/-- What is below a directory is in it, or below a directory in it. -/
theorem placesBelow_perm (h : t.Grounded) (kind : Node → Bool) (dir : Place) :
    (t.placesBelow kind dir).Perm (t.placesIn kind dir ++
      (t.placesIn (· == .directory) dir).flatMap (t.placesBelow kind)) := by
  have hnodup : (t.placesIn kind dir ++
      (t.placesIn (· == .directory) dir).flatMap (t.placesBelow kind)).Nodup := by
    rw [List.nodup_append', List.nodup_flatMap]
    refine ⟨nodup_placesIn, ⟨fun _ _ => nodup_placesBelow, ?_⟩, ?_⟩
    · exact (List.nodup_iff_pairwise_ne.1 nodup_placesIn).imp_of_mem
        fun ha hb hne => disjoint_placesBelow ha hb hne
    · -- An entry is one name long, and what is below an entry is longer.
      intro p hin hbelow
      obtain ⟨name, -, rfl, -⟩ := mem_placesIn.1 hin
      obtain ⟨a, ha, hpa⟩ := List.mem_flatMap.1 hbelow
      obtain ⟨other, -, rfl, -⟩ := mem_placesIn.1 ha
      obtain ⟨names, -, hne, hsame, -⟩ := mem_placesBelow.1 hpa
      have hlength := congrArg List.length hsame
      have hpos := List.length_pos_iff.2 hne
      simp only [List.length_append, List.length_singleton] at hlength
      omega
  rw [List.perm_ext_iff_of_nodup nodup_placesBelow hnodup]
  intro p
  rw [List.mem_append, List.mem_flatMap, mem_placesIn]
  constructor
  · intro hp
    obtain ⟨names, n, hne, rfl, hnode, hkind⟩ := mem_placesBelow.1 hp
    obtain ⟨name, more, rfl⟩ := List.exists_cons_of_ne_nil hne
    by_cases hmore : more = []
    · subst hmore
      exact .inl ⟨name, n, rfl, hnode, hkind⟩
    · have hsplit : dir ++ name :: more = (dir ++ [name]) ++ more := by simp
      rw [hsplit] at hnode ⊢
      have habove := h.above_node hmore (by rw [hnode]; exact Option.some_ne_none n)
      exact .inr ⟨dir ++ [name], mem_placesIn.2 ⟨name, _, rfl, habove, rfl⟩,
        mem_placesBelow.2 ⟨more, n, hmore, rfl, hnode, hkind⟩⟩
  · rintro (⟨name, n, rfl, hnode, hkind⟩ | ⟨a, ha, hp⟩)
    · exact mem_placesBelow.2 ⟨[name], n, by simp, rfl, hnode, hkind⟩
    · obtain ⟨name, -, rfl, -⟩ := mem_placesIn.1 ha
      obtain ⟨names, n, hne, rfl, hnode, hkind⟩ := mem_placesBelow.1 hp
      rw [List.append_assoc] at hnode ⊢
      exact mem_placesBelow.2 ⟨[name] ++ names, n, by simp, rfl, hnode, hkind⟩

/-! ### The walk -/

/-- The directories that a walk takes: those that are pending, and all below them. -/
def directoriesFrom (t : Tree) (pending : List Place) : List Place :=
  pending ++ pending.flatMap (t.placesBelow (· == .directory))

/-- When a directory is taken, those in it come to those that are pending. -/
theorem directoriesFrom_cons (h : t.Grounded) (dir : Place) (pending : List Place) :
    (t.directoriesFrom (dir :: pending)).Perm
      (dir :: t.directoriesFrom (t.placesIn (· == .directory) dir ++ pending)) := by
  have hbelow := placesBelow_perm h (· == .directory) dir
  rw [directoriesFrom, directoriesFrom, List.flatMap_cons, List.cons_append, List.flatMap_append]
  generalize t.placesIn (· == .directory) dir = entries at *
  generalize pending.flatMap (t.placesBelow (· == .directory)) = rest
  refine List.Perm.cons dir ?_
  refine (List.Perm.append_left pending (hbelow.append_right rest)).trans ?_
  rw [List.append_assoc, ← List.append_assoc]
  exact List.perm_append_comm.append_right _

/-- The order in which directories are pending does not matter. -/
theorem directoriesFrom_perm {pending pending' : List Place} (h : pending.Perm pending') :
    (t.directoriesFrom pending).Perm (t.directoriesFrom pending') :=
  h.append (h.flatMap_right _)

/-- Where a walk stands: the directories that are pending, the next one first, and the files that
were found. -/
structure Search where
  pending : List Place
  found : List Place

/-- The next directory is opened and entered. Its entries come in any order: the directories among
them are pending from then on, and the files are found. -/
inductive Enters (t : Tree) (path : String) (top : Place) : Search → Search → Prop where
  | mk {dir : Place} {pending found : List Place} {entries : List (Place × Node)}
      (hopen : t.openBelow path top dir = .ok ()) (hentries : entries.Perm (t.children dir)) :
      Enters t path top ⟨dir :: pending, found⟩
        ⟨((entries.filter fun e => e.2 == .directory).map Prod.fst).reverse ++ pending,
          found ++ (entries.filter fun e => e.2 != .directory).map Prod.fst⟩

/-- The next directory cannot be opened, which ends the walk. -/
inductive Refused (t : Tree) (path : String) (top : Place) : Search → StorageError → Prop where
  | mk {dir : Place} {pending found : List Place} {e : StorageError}
      (hopen : t.openBelow path top dir = .error e) : Refused t path top ⟨dir :: pending, found⟩ e

/-- The files that were found, and those that are still to be found. -/
def Search.files (t : Tree) (s : Search) : List Place :=
  s.found ++ s.pending.flatMap (t.placesBelow (· != .directory))

variable {s s' : Search}

theorem placesIn_perm {entries : List (Place × Node)} (hentries : entries.Perm (t.children dir))
    (kind : Node → Bool) :
    ((entries.filter fun e => kind e.2).map Prod.fst).Perm (t.placesIn kind dir) :=
  (hentries.filter _).map _

/-- What is found in a step was to be found below the directory that is entered. -/
theorem Enters.files_perm (h : t.Grounded) (hstep : t.Enters path top s s') :
    (s'.files t).Perm (s.files t) := by
  cases hstep with | @mk dir pending found entries _ hentries =>
  have hdirectories := placesIn_perm hentries (· == .directory)
  have hfiles := placesIn_perm hentries (· != .directory)
  have hpushed := (List.reverse_perm _).trans hdirectories
  simp only [Search.files, List.flatMap_append, List.flatMap_cons, List.append_assoc]
  refine List.Perm.append_left found ?_
  rw [← List.append_assoc]
  refine List.Perm.append_right _ ?_
  refine (hfiles.append (hpushed.flatMap_right _)).trans ?_
  exact (placesBelow_perm h (· != .directory) dir).symm

/-- The directory that is entered is none of those that are left. -/
theorem Enters.length_directoriesFrom (h : t.Grounded) (hstep : t.Enters path top s s') :
    (t.directoriesFrom s.pending).length = (t.directoriesFrom s'.pending).length + 1 := by
  cases hstep with | @mk dir pending found entries _ hentries =>
  have hpushed := (List.reverse_perm _).trans (placesIn_perm hentries (· == .directory))
  have htaken := (directoriesFrom_cons h dir pending).length_eq
  have hsame := (@directoriesFrom_perm t _ _ (hpushed.append_right pending)).length_eq
  rw [List.length_cons] at htaken
  show (t.directoriesFrom (dir :: pending)).length = (t.directoriesFrom (_ ++ pending)).length + 1
  omega

/-- As long as a directory is pending it is entered, whatever is in it, or it cannot be opened. -/
theorem exists_enters_or_refused (t : Tree) (path : String) (top : Place) (hpending : s.pending ≠ []) :
    (∃ s', t.Enters path top s s') ∨ ∃ e, t.Refused path top s e := by
  obtain ⟨pending, found⟩ := s
  obtain ⟨dir, pending, rfl⟩ := List.exists_cons_of_ne_nil hpending
  cases hopen : t.openBelow path top dir with
  | ok _ => exact .inl ⟨_, ⟨hopen, List.Perm.refl _⟩⟩
  | error e => exact .inr ⟨e, ⟨hopen⟩⟩

/-- No walk goes on forever. -/
theorem enters_wellFounded (h : t.Grounded) (path : String) (top : Place) :
    WellFounded fun s' s => t.Enters path top s s' := by
  refine Subrelation.wf (fun {s' s} hstep => ?_)
    (measure fun s : Search => (t.directoriesFrom s.pending).length).wf
  have hlength := Enters.length_directoriesFrom h hstep
  show (t.directoriesFrom s'.pending).length < (t.directoriesFrom s.pending).length
  omega

/-- What has been found at the end of a walk is what was to be found at its beginning. -/
theorem found_perm (h : t.Grounded) (hrun : Relation.ReflTransGen (t.Enters path top) s s')
    (hdone : s'.pending = []) : s'.found.Perm (s.files t) := by
  have hfiles : (s'.files t).Perm (s.files t) := by
    clear hdone
    induction hrun with
    | refl => rfl
    | tail hrun hstep ih => exact (Enters.files_perm h hstep).trans ih
  rwa [Search.files, hdone, List.flatMap_nil, List.append_nil] at hfiles

section

variable {steps : Nat} {pending found files : List Place}
  (h : t.Grounded) (harrange : ∀ dir entries, (arrange dir entries).Perm entries)
include h harrange

/-- With steps enough for all that is pending, a walk that is refused nothing comes to its end. -/
theorem walk_finishes (hsteps : (t.directoriesFrom pending).length ≤ steps)
    (hwalk : t.walk path top arrange steps pending found = .ok files) :
    Relation.ReflTransGen (t.Enters path top) ⟨pending, found⟩ ⟨[], files⟩ := by
  fun_induction walk t path top arrange steps pending found with
  | case1 pending found =>
    cases pending with
    | nil =>
      obtain rfl := Except.ok.inj hwalk
      exact .refl
    | cons dir pending =>
      rw [directoriesFrom, List.cons_append, List.length_cons] at hsteps
      omega
  | case2 steps found =>
    obtain rfl := Except.ok.inj hwalk
    exact .refl
  | case3 steps dir pending found ih =>
    obtain ⟨_, hopen, hwalk⟩ := bind_eq_ok.1 hwalk
    have hstep := @Enters.mk t path top dir pending found _ hopen (harrange dir _)
    rw [Enters.length_directoriesFrom h hstep] at hsteps
    exact .head hstep (ih (Nat.le_of_succ_le_succ hsteps) hwalk)

omit h in
/-- A walk fails where it is refused a directory. -/
theorem walk_refused {e : StorageError}
    (hwalk : t.walk path top arrange steps pending found = .error e) :
    ∃ s, Relation.ReflTransGen (t.Enters path top) ⟨pending, found⟩ s ∧ t.Refused path top s e := by
  fun_induction walk t path top arrange steps pending found with
  | case1 pending found => exact absurd hwalk (by simp)
  | case2 steps found => exact absurd hwalk (by simp)
  | case3 steps dir pending found ih =>
    cases hopen : t.openBelow path top dir with
    | error e' =>
      rw [hopen] at hwalk
      obtain rfl := Except.error.inj hwalk
      exact ⟨_, .refl, ⟨hopen⟩⟩
    | ok _ =>
      rw [hopen] at hwalk
      obtain ⟨s, hrun, hrefused⟩ := ih hwalk
      exact ⟨s, .head ⟨hopen, harrange dir _⟩ hrun, hrefused⟩

end

/-- Each directory of the tree is taken once at most. -/
theorem directoriesFrom_le (t : Tree) (dir : Place) :
    (t.directoriesFrom [dir]).length ≤ t.nodes.size + 1 := by
  rw [directoriesFrom, List.flatMap_singleton, List.singleton_append, List.length_cons, placesBelow,
    List.length_map]
  exact Nat.succ_le_succ (List.length_filter_le _ _)

/-! ### Listings -/

theorem filesBelow_eq_ok {files : List Place} : t.filesBelow path arrange dir = .ok files ↔
    ∃ found, t.walk path dir arrange (t.nodes.size + 1) [dir] [] = .ok found ∧
      found.mergeSort (fun a b => (compare a b).isLE) = files := by
  rw [filesBelow, bind_eq_ok]
  exact exists_congr fun found => and_congr_right fun _ => ⟨Except.ok.inj, congrArg _⟩

theorem filesBelow_perm (h : t.Grounded)
    (harrange : ∀ dir entries, (arrange dir entries).Perm entries) {files : List Place}
    (hfiles : t.filesBelow path arrange dir = .ok files) :
    files.Perm (t.placesBelow (· != .directory) dir) := by
  obtain ⟨found, hwalk, rfl⟩ := filesBelow_eq_ok.1 hfiles
  have hrun := walk_finishes h harrange (t.directoriesFrom_le dir) hwalk
  refine (List.mergeSort_perm _ _).trans ((found_perm h hrun rfl).trans ?_)
  rw [Search.files, List.nil_append, List.flatMap_singleton]

/-- The files below a directory are listed, and nothing else. -/
theorem mem_filesBelow (h : t.Grounded)
    (harrange : ∀ dir entries, (arrange dir entries).Perm entries) {files : List Place}
    (hfiles : t.filesBelow path arrange dir = .ok files) :
    p ∈ files ↔ ∃ names c, names ≠ [] ∧ p = dir ++ names ∧ t.node? p = some (.file c) := by
  rw [(filesBelow_perm h harrange hfiles).mem_iff, mem_placesBelow]
  constructor
  · rintro ⟨names, n, hne, rfl, hnode, hkind⟩
    cases n with
    | file c => exact ⟨names, c, hne, rfl, hnode⟩
    | directory => exact absurd hkind (by decide)
  · rintro ⟨names, c, hne, rfl, hnode⟩
    exact ⟨names, _, hne, rfl, hnode, by simp⟩

theorem pairwise_mergeSort_places (places : List Place) :
    (places.mergeSort fun a b => (compare a b).isLE).Pairwise fun a b => (compare a b).isLE := by
  have htotal : ∀ a b : Place, ((compare a b).isLE || (compare b a).isLE) = true := by
    intro a b
    have hswap : compare b a = (compare a b).swap := Std.OrientedCmp.eq_swap
    rw [hswap]
    cases compare a b <;> rfl
  exact List.pairwise_mergeSort (fun _ _ _ => Std.TransCmp.isLE_trans) htotal _

/-- What places are sorted into is the one ascending order of them. -/
theorem mergeSort_places_eq {places sorted : List Place} (h : places.Perm sorted)
    (hsorted : sorted.Pairwise fun a b => (compare a b).isLE) :
    (places.mergeSort fun a b => (compare a b).isLE) = sorted := by
  refine List.Perm.eq_of_pairwise (fun a b _ _ hab hba => ?_) (pairwise_mergeSort_places _) hsorted
    ((List.mergeSort_perm _ _).trans h)
  exact Std.LawfulEqCmp.eq_of_compare (Std.OrientedCmp.isLE_antisymm hab hba)

/-- They are listed in strictly ascending order, so none of them twice. -/
theorem sorted_filesBelow (h : t.Grounded)
    (harrange : ∀ dir entries, (arrange dir entries).Perm entries) {files : List Place}
    (hfiles : t.filesBelow path arrange dir = .ok files) :
    files.Pairwise fun a b => compare a b = .lt := by
  have hnodup : files.Nodup := (filesBelow_perm h harrange hfiles).nodup_iff.2 nodup_placesBelow
  obtain ⟨found, -, rfl⟩ := filesBelow_eq_ok.1 hfiles
  refine ((pairwise_mergeSort_places _).and hnodup).imp fun {a b} hab => ?_
  cases hcompare : compare a b with
  | lt => rfl
  | eq => exact absurd (Std.LawfulEqOrd.eq_of_compare hcompare) hab.2
  | gt => exact absurd hab.1 (by simp [hcompare])

/-- What lies below one place is ordered as the ways from there. -/
theorem compare_append_left (p : Place) (a b : Place) :
    compare (p ++ a) (p ++ b) = compare a b := by
  induction p with
  | nil => rfl
  | cons name p ih =>
    have hself : compare name name = .eq := Std.ReflCmp.compare_self
    have hcons : compare (name :: (p ++ a)) (name :: (p ++ b)) =
        (compare name name).then (compare (p ++ a) (p ++ b)) := List.compareLex_cons_cons
    rw [List.cons_append, List.cons_append, hcons, hself]
    exact ih

theorem openDirectory_eq_ok : t.openDirectory path = .ok dir ↔
    t.follow path = .ok dir ∧ t.node? dir = some .directory := by
  rw [openDirectory, bind_eq_ok]
  constructor
  · rintro ⟨p, hfollow, hrest⟩
    obtain ⟨_, hrequire, hp⟩ := bind_eq_ok.1 hrest
    obtain rfl := Except.ok.inj hp
    exact ⟨mapError_eq_ok.1 hfollow, requireDirectory_eq_ok.1 (mapError_eq_ok.1 hrequire)⟩
  · rintro ⟨hfollow, hdirectory⟩
    exact ⟨dir, mapError_eq_ok.2 hfollow,
      bind_eq_ok.2 ⟨(), mapError_eq_ok.2 (requireDirectory_eq_ok.2 hdirectory), rfl⟩⟩

theorem list_iff {found : List Place} : t.list path = .ok found ↔
    ∃ dir files, t.follow path = .ok dir ∧ t.node? dir = some .directory ∧
      t.filesBelow path (fun _ entries => entries) dir = .ok files ∧
      found = files.map fun p => p.drop dir.length := by
  rw [list, bind_eq_ok]
  constructor
  · rintro ⟨dir, hopen, hrest⟩
    obtain ⟨files, hfiles, hfound⟩ := bind_eq_ok.1 hrest
    obtain ⟨hfollow, hdirectory⟩ := openDirectory_eq_ok.1 hopen
    exact ⟨dir, files, hfollow, hdirectory, hfiles, (Except.ok.inj hfound).symm⟩
  · rintro ⟨dir, files, hfollow, hdirectory, hfiles, rfl⟩
    exact ⟨dir, openDirectory_eq_ok.2 ⟨hfollow, hdirectory⟩, bind_eq_ok.2 ⟨files, hfiles, rfl⟩⟩

/-- What a walk has found is listed in its ascending order. -/
theorem list_of_walk (hfollow : t.follow path = .ok dir) (hdirectory : t.node? dir = some .directory)
    {found sorted : List Place}
    (hwalk : t.walk path dir (fun _ entries => entries) (t.nodes.size + 1) [dir] [] = .ok found)
    (hperm : found.Perm sorted) (hsorted : sorted.Pairwise fun a b => (compare a b).isLE) :
    t.list path = .ok (sorted.map fun p => p.drop dir.length) :=
  list_iff.2 ⟨dir, sorted, hfollow, hdirectory,
    filesBelow_eq_ok.2 ⟨found, hwalk, mergeSort_places_eq hperm hsorted⟩, rfl⟩

/-- A listing has the way to each file below the directory, in strictly ascending order. -/
theorem list_eq_ok (h : t.Grounded) {found : List Place} (hlist : t.list path = .ok found) :
    ∃ dir, t.follow path = .ok dir ∧ t.node? dir = some .directory ∧
      (found.Pairwise fun a b => compare a b = .lt) ∧
      ∀ names, names ∈ found ↔ ∃ c, t.node? (dir ++ names) = some (.file c) := by
  have harrange : ∀ (dir : Place) (entries : List (Place × Node)), entries.Perm entries :=
    fun _ entries => .refl entries
  obtain ⟨dir, files, hfollow, hdirectory, hfiles, rfl⟩ := list_iff.1 hlist
  have hmem : ∀ p, p ∈ files ↔ _ := fun p => @mem_filesBelow t path dir p _ h harrange _ hfiles
  refine ⟨dir, hfollow, hdirectory, ?_, fun names => ?_⟩
  · rw [List.pairwise_map]
    refine (sorted_filesBelow h harrange hfiles).imp_of_mem fun {a b} ha hb hlt => ?_
    obtain ⟨names, -, -, rfl, -⟩ := (hmem a).1 ha
    obtain ⟨others, -, -, rfl, -⟩ := (hmem b).1 hb
    rwa [List.drop_left, List.drop_left, ← compare_append_left dir]
  · rw [List.mem_map]
    constructor
    · rintro ⟨p, hp, rfl⟩
      obtain ⟨names, c, -, rfl, hnode⟩ := (hmem p).1 hp
      exact ⟨c, by rwa [List.drop_left]⟩
    · rintro ⟨c, hnode⟩
      -- The directory itself is no file, so the way to a file is not empty.
      have hne : names ≠ [] := by
        rintro rfl
        rw [List.append_nil, hdirectory] at hnode
        exact absurd hnode (by simp)
      exact ⟨dir ++ names, (hmem _).2 ⟨names, c, hne, rfl, hnode⟩, List.drop_left⟩

end Lakehouse.Tree
