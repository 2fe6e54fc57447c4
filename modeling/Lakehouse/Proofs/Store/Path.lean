import Lakehouse.Store.Path

/- Segments of joined paths.

   Taking a text apart at its slashes and putting slashes between the parts are
   inverse to each other. So the segments of a path below a root are those of the root
   followed by those of the path. A path is `Plain` with certain names if its segments
   are these names and none of them is a dot or too long: then its moves go down
   through the names, wherever the root leads to, and its parent leads to the place
   above. -/
namespace Lakehouse

theorem segments_ne_nil (text : List Char) : segments text ≠ [] := by
  cases text with
  | nil => simp [segments]
  | cons c rest =>
    rw [segments]
    split
    · simp
    · split <;> simp

theorem segments_cons {c : Char} (hc : c ≠ '/') {rest s : List Char} {more : List (List Char)}
    (h : segments rest = s :: more) : segments (c :: rest) = (c :: s) :: more := by
  rw [segments, if_neg hc, h]

theorem segments_slash (rest : List Char) : segments ('/' :: rest) = [] :: segments rest := by
  rw [segments, if_pos rfl]

theorem segments_append (a b : List Char) :
    segments (a ++ '/' :: b) = segments a ++ segments b := by
  induction a with
  | nil => exact segments_slash b
  | cons c a ih =>
    by_cases hc : c = '/'
    · subst hc
      rw [List.cons_append, segments_slash, segments_slash, ih, List.cons_append]
    · obtain ⟨s, more, ha⟩ := List.exists_cons_of_ne_nil (segments_ne_nil a)
      rw [ha, List.cons_append] at ih
      rw [List.cons_append, segments_cons hc ih, segments_cons hc ha, List.cons_append]

theorem segments_of_not_mem {text : List Char} (h : '/' ∉ text) : segments text = [text] := by
  induction text with
  | nil => rfl
  | cons c text ih =>
    rw [List.mem_cons, not_or] at h
    exact segments_cons (Ne.symm h.1) (ih h.2)

/-- Parts without slashes are the segments of the text in which slashes separate
them. -/
theorem segments_intercalate {parts : List (List Char)} (hne : parts ≠ [])
    (h : ∀ s ∈ parts, '/' ∉ s) : segments (['/'].intercalate parts) = parts := by
  induction parts with
  | nil => exact absurd rfl hne
  | cons s parts ih =>
    cases parts with
    | nil =>
      have hone : ['/'].intercalate [s] = s := by simp [List.intercalate]
      rw [hone, segments_of_not_mem (h s (by simp))]
    | cons s' parts =>
      have hcons : ['/'].intercalate (s :: s' :: parts) =
          s ++ '/' :: ['/'].intercalate (s' :: parts) := by
        simp [List.intercalate]
      rw [hcons, segments_append, segments_of_not_mem (h s (by simp)),
        ih (by simp) fun t ht => h t (by simp [ht])]
      rfl

theorem slash_not_mem_segments (text : List Char) {s : List Char} (h : s ∈ segments text) : '/' ∉ s := by
  induction text generalizing s with
  | nil =>
    obtain rfl : s = [] := by simpa [segments] using h
    simp
  | cons c text ih =>
    by_cases hc : c = '/'
    · subst hc
      rw [segments_slash, List.mem_cons] at h
      rcases h with rfl | h
      · simp
      · exact ih h
    · obtain ⟨s', more, ht⟩ := List.exists_cons_of_ne_nil (segments_ne_nil text)
      rw [segments_cons hc ht, List.mem_cons] at h
      rcases h with rfl | h
      · rw [List.mem_cons, not_or]
        exact ⟨Ne.symm hc, ih (by simp [ht])⟩
      · exact ih (by simp [ht, h])

theorem intercalate_segments (text : List Char) : ['/'].intercalate (segments text) = text := by
  induction text with
  | nil => rfl
  | cons c text ih =>
    obtain ⟨s, more, ht⟩ := List.exists_cons_of_ne_nil (segments_ne_nil text)
    rw [ht] at ih
    by_cases hc : c = '/'
    · subst hc
      rw [segments_slash, ht]
      simpa [List.intercalate] using ih
    · rw [segments_cons hc ht]
      cases more <;> simpa [List.intercalate] using ih

namespace Path

/-- The segments that a path has below a root, without an empty one at its end. -/
def rootSegments (root : String) : List (List Char) :=
  if root = "" ∨ root.toList.getLast? = some '/' then (segments root.toList).dropLast
  else segments root.toList

/-- The moves from which every path below the root begins. -/
def rootMoves (root : String) : List Step := (rootSegments root).filterMap Step.ofSegment?

theorem segments_of_last_slash {text : List Char} (h : text.getLast? = some '/') :
    ∃ start, text = start ++ ['/'] ∧ segments text = segments start ++ [[]] := by
  obtain ⟨start, rfl⟩ := List.getLast?_eq_some_iff.1 h
  exact ⟨start, rfl, segments_append start []⟩

theorem segments_join (root : String) {rel : String} (h : rel.toList.head? ≠ some '/') :
    segments (join root rel).toList = rootSegments root ++ segments rel.toList := by
  rw [join, if_neg h, rootSegments]
  by_cases hroot : root = "" ∨ root.toList.getLast? = some '/'
  · rw [if_pos hroot, if_pos hroot, String.toList_append]
    rcases hroot with rfl | hlast
    · rfl
    · obtain ⟨start, hstart, hsegments⟩ := segments_of_last_slash hlast
      rw [hsegments, List.dropLast_concat, hstart, List.append_assoc, List.singleton_append,
        segments_append]
  · rw [if_neg hroot, if_neg hroot, String.toList_append, String.toList_append]
    have hslash : "/".toList = ['/'] := rfl
    rw [hslash, List.append_assoc, List.singleton_append, segments_append]

theorem filterMap_segments (root : String) :
    (segments root.toList).filterMap Step.ofSegment? = rootMoves root := by
  rw [rootMoves, rootSegments]
  split
  next h =>
    rcases h with rfl | hlast
    · rfl
    · obtain ⟨start, -, hsegments⟩ := segments_of_last_slash hlast
      rw [hsegments, List.dropLast_concat, List.filterMap_append]
      exact List.append_nil _
  next => rfl

/-- The moves of the root itself may end with a wish for a directory. -/
theorem steps_root (root : String) :
    steps root = rootMoves root ∨ steps root = rootMoves root ++ [.stay] := by
  rw [steps, filterMap_segments]
  split
  · exact .inr rfl
  · exact .inl rfl

/-! ### Plain paths -/

/-- A name that leads down to a node. -/
structure IsName (name : String) : Prop where
  ne_nil : name.toList ≠ []
  ne_dot : name.toList ≠ ['.']
  ne_dots : name.toList ≠ ['.', '.']
  short : isLongName name = false

theorem ofSegment?_name {name : String} (h : IsName name) :
    Step.ofSegment? name.toList = some (.down name) := by
  have hname : Step.ofSegment? name.toList = some (.down (String.ofList name.toList)) := by
    unfold Step.ofSegment?
    split
    next heq => exact absurd heq h.ne_nil
    next heq => exact absurd heq h.ne_dot
    next heq => exact absurd heq h.ne_dots
    next => rfl
  rw [hname, String.ofList_toList]

/-- The path leads down through the names. -/
structure Plain (path : String) (names : List String) : Prop where
  segments_eq : segments path.toList = names.map String.toList
  isName : ∀ name ∈ names, IsName name

variable {path : String} {names : List String}

theorem filterMap_names (h : ∀ name ∈ names, IsName name) :
    (names.map String.toList).filterMap Step.ofSegment? = names.map .down := by
  induction names with
  | nil => rfl
  | cons name names ih =>
    rw [List.map_cons, List.filterMap_cons_some (ofSegment?_name (h name (by simp))),
      ih fun n hn => h n (by simp [hn]), List.map_cons]

namespace Plain

theorem names_ne_nil (h : Plain path names) : names ≠ [] := by
  rintro rfl
  exact segments_ne_nil _ h.segments_eq

theorem head_ne_slash (h : Plain path names) : path.toList.head? ≠ some '/' := by
  intro hhead
  obtain ⟨rest, hrest⟩ := List.head?_eq_some_iff.1 hhead
  have hsegments := h.segments_eq
  rw [hrest, segments_slash] at hsegments
  obtain ⟨name, names, rfl⟩ := List.exists_cons_of_ne_nil h.names_ne_nil
  exact (h.isName name (by simp)).ne_nil (List.cons.inj hsegments).1.symm

theorem segments_join (h : Plain path names) (root : String) :
    segments (join root path).toList = rootSegments root ++ names.map String.toList := by
  rw [Path.segments_join root h.head_ne_slash, h.segments_eq]

theorem getLast?_segments (h : Plain path names) (root : String) :
    ∃ name ∈ names, (segments (join root path).toList).getLast? = some name.toList := by
  refine ⟨names.getLast h.names_ne_nil, List.getLast_mem _, ?_⟩
  rw [h.segments_join, List.getLast?_append, List.getLast?_map,
    List.getLast?_eq_some_getLast h.names_ne_nil]
  rfl

theorem steps_join (h : Plain path names) (root : String) :
    steps (join root path) = rootMoves root ++ names.map .down := by
  obtain ⟨name, hname, hlast⟩ := h.getLast?_segments root
  have hnil : ¬ (some name.toList = some [] ∧
      1 < (segments (join root path).toList).length) := by
    rintro ⟨hnil, -⟩
    exact (h.isName name hname).ne_nil (Option.some.inj hnil)
  simp only [steps, hlast, if_neg hnil]
  rw [h.segments_join, List.filterMap_append, filterMap_names h.isName, rootMoves]

theorem components_join (h : Plain path names) (root : String) :
    components (join root path) =
      (rootMoves root).filter (fun s => !s.isStay) ++ names.map .down := by
  rw [components, h.segments_join, List.filterMap_append, filterMap_names h.isName,
    List.filter_append, ← rootMoves]
  congr 1
  rw [List.filter_eq_self]
  intro s hs
  obtain ⟨name, -, rfl⟩ := List.mem_map.1 hs
  rfl

/-- Nothing stands behind the last name. -/
theorem ending_join (h : Plain path names) (root : String) :
    ending (join root path) = .nothing := by
  obtain ⟨name, hname, hlast⟩ := h.getLast?_segments root
  obtain ⟨before, hbefore⟩ := List.getLast?_eq_some_iff.1 hlast
  have hne := (h.isName name hname).ne_nil
  have hdot := (h.isName name hname).ne_dot
  simp only [ending]
  rw [hbefore, List.reverse_append, List.reverse_singleton, List.singleton_append,
    List.dropWhile_cons_of_neg (by simpa using hne)]
  simp [hne, hdot]

theorem dropIdle_append_name {parts : List (List Char)} {name : String} (h : IsName name) :
    dropIdle (parts ++ [name.toList]) = parts ++ [name.toList] := by
  have hne := h.ne_nil
  have hdot := h.ne_dot
  rw [dropIdle, List.reverse_append, List.reverse_singleton, List.singleton_append,
    List.dropWhile_cons_of_neg (by simp [hne, hdot]), ← List.singleton_append,
    List.reverse_append, List.reverse_reverse]
  rfl

/-- The parent of a path with a directory's names before its last name. -/
theorem parent_join (directory : List String) {name : String}
    (h : Plain path (directory ++ [name])) (hne : directory ≠ []) (root : String) :
    segments (parent (join root path)).toList =
      rootSegments root ++ directory.map String.toList := by
  obtain ⟨above, last, rfl⟩ : ∃ above last, directory = above ++ [last] :=
    ⟨_, _, (List.dropLast_concat_getLast hne).symm⟩
  have hlast := h.isName last (by simp)
  have hname := h.isName name (by simp)
  have hparts : dropIdle (dropIdle (segments (join root path).toList)).dropLast =
      rootSegments root ++ (above ++ [last]).map String.toList := by
    rw [h.segments_join, List.map_append, List.map_singleton, ← List.append_assoc,
      dropIdle_append_name hname, List.dropLast_concat, List.map_append,
      List.map_singleton, ← List.append_assoc, dropIdle_append_name hlast]
  have hsome : rootSegments root ++ (above ++ [last]).map String.toList ≠ [] := by simp
  have hslash : ∀ s ∈ rootSegments root ++ (above ++ [last]).map String.toList, '/' ∉ s := by
    intro s hs
    refine slash_not_mem_segments (join root path).toList ?_
    rw [h.segments_join]
    rcases List.mem_append.1 hs with hs | hs
    · exact List.mem_append_left _ hs
    · rw [List.map_append]
      exact List.mem_append_right _ (List.mem_append_left _ hs)
  simp only [parent, hparts]
  rw [if_neg fun hnil => hsome hnil.1, String.toList_ofList, segments_intercalate hsome hslash]

theorem components_parent {directory : List String} {name : String}
    (h : Plain path (directory ++ [name])) (hne : directory ≠ []) (root : String) :
    components (parent (join root path)) =
      (rootMoves root).filter (fun s => !s.isStay) ++ directory.map .down := by
  have hisName : ∀ n ∈ directory, IsName n := fun n hn => h.isName n (by simp [hn])
  rw [components, h.parent_join directory hne, List.filterMap_append, filterMap_names hisName,
    List.filter_append, ← rootMoves]
  congr 1
  rw [List.filter_eq_self]
  intro s hs
  obtain ⟨name, -, rfl⟩ := List.mem_map.1 hs
  rfl

end Plain

end Path

end Lakehouse
