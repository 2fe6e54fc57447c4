import Lakehouse.Store.Tree

/- Moves through a file tree.

   Where moves lead to does not depend on the tree (`destination`); the tree only
   decides whether the way is open. Following moves asks for a directory wherever the
   way goes up, and making directories makes those that the way passes through. So a
   way that is open stays open as long as directories stay (`locate_mono`), and what is
   made on it lies on the way to its end (`passed_of_locate`). Nothing but a long name or
   a file in the way keeps directories from being made (`makeDirectories_of_clear`). -/
namespace Lakehouse

/-- The place that the moves lead to from `here`. -/
def destination (here : Place) : List Step → Place
  | [] => here
  | .down name :: rest => destination (here ++ [name]) rest
  | .up :: rest => destination here.dropLast rest
  | .stay :: rest => destination here rest

/-- The places that the moves go down to. -/
def passed (here : Place) : List Step → List Place
  | [] => []
  | .down name :: rest => (here ++ [name]) :: passed (here ++ [name]) rest
  | .up :: rest => passed here.dropLast rest
  | .stay :: rest => passed here rest

theorem destination_append (here : Place) (a b : List Step) :
    destination here (a ++ b) = destination (destination here a) b := by
  fun_induction destination here a with
  | case1 => rfl
  | case2 here name rest ih => rw [List.cons_append, destination, ih]
  | case3 here rest ih => rw [List.cons_append, destination, ih]
  | case4 here rest ih => rw [List.cons_append, destination, ih]

theorem passed_append (here : Place) (a b : List Step) :
    passed here (a ++ b) = passed here a ++ passed (destination here a) b := by
  fun_induction destination here a with
  | case1 => rfl
  | case2 here name rest ih => rw [List.cons_append, passed, ih, passed, List.cons_append]
  | case3 here rest ih => rw [List.cons_append, passed, ih, passed]
  | case4 here rest ih => rw [List.cons_append, passed, ih, passed]

theorem destination_withoutStay (here : Place) (moves : List Step) :
    destination here (moves.filter fun s => !s.isStay) = destination here moves := by
  fun_induction destination here moves with
  | case1 => rfl
  | case2 here name rest ih => exact ih
  | case3 here rest ih => exact ih
  | case4 here rest ih => exact ih

theorem passed_withoutStay (here : Place) (moves : List Step) :
    passed here (moves.filter fun s => !s.isStay) = passed here moves := by
  fun_induction passed here moves with
  | case1 => rfl
  | case2 here name rest ih => exact congrArg _ ih
  | case3 here rest ih => exact ih
  | case4 here rest ih => exact ih

theorem destination_down (here : Place) (names : List String) :
    destination here (names.map .down) = here ++ names := by
  induction names generalizing here with
  | nil => rw [List.map_nil, destination, List.append_nil]
  | cons name names ih => rw [List.map_cons, destination, ih, List.append_assoc, List.singleton_append]

/-- Going down through names passes the beginnings of the way. -/
theorem mem_passed_down {here : Place} {names : List String} {q : Place} :
    q ∈ passed here (names.map .down) ↔ ∃ p, p <+: names ∧ p ≠ [] ∧ q = here ++ p := by
  induction names generalizing here with
  | nil =>
    simp only [List.map_nil, passed, List.not_mem_nil, false_iff]
    rintro ⟨p, hp, hne, -⟩
    exact hne (List.prefix_nil.1 hp)
  | cons name names ih =>
    rw [List.map_cons, passed, List.mem_cons, ih]
    constructor
    · rintro (rfl | ⟨p, hp, -, rfl⟩)
      · exact ⟨[name], ⟨names, rfl⟩, by simp, rfl⟩
      · refine ⟨name :: p, List.cons_prefix_cons.2 ⟨rfl, hp⟩, by simp, ?_⟩
        rw [List.append_assoc, List.singleton_append]
    · rintro ⟨p, hp, hne, rfl⟩
      obtain ⟨first, p, rfl⟩ := List.exists_cons_of_ne_nil hne
      obtain ⟨rfl, hrest⟩ := List.cons_prefix_cons.1 hp
      cases p with
      | nil => exact .inl rfl
      | cons second p =>
        refine .inr ⟨second :: p, hrest, by simp, ?_⟩
        rw [List.append_assoc, List.singleton_append]

namespace Tree

theorem isDirectory_iff {t : Tree} {p : Place} :
    t.isDirectory p = true ↔ t.node? p = some .directory := by
  rw [isDirectory, beq_iff_eq]

theorem requireDirectory_eq_ok {t : Tree} {p : Place} :
    t.requireDirectory p = .ok () ↔ t.node? p = some .directory := by
  rw [requireDirectory]
  constructor
  · intro h
    split at h
    next hp => exact hp
    next => exact absurd h (by simp)
    next => exact absurd h (by simp)
  · intro h
    rw [h]

/-- Every node lies in a directory. -/
def Grounded (t : Tree) : Prop :=
  ∀ p name, t.node? (p ++ [name]) ≠ none → t.node? p = some .directory

theorem Grounded.above {t : Tree} (h : t.Grounded) {p q : Place} (hq : t.node? q = some .directory)
    (hp : p <+: q) : t.node? p = some .directory := by
  obtain ⟨names, rfl⟩ := hp
  induction names generalizing p with
  | nil => rwa [List.append_nil] at hq
  | cons name names ih =>
    rw [← List.singleton_append, ← List.append_assoc] at hq
    exact h p name (by rw [ih hq]; exact Option.some_ne_none _)

/-! ### Following moves -/

/-- All directories of `t` are directories of `t'`. -/
def KeepsDirectories (t t' : Tree) : Prop :=
  ∀ p, t.node? p = some .directory → t'.node? p = some .directory

theorem bind_requireDirectory {α : Type} {t : Tree} {p : Place} {f : Except TreeFault α} {a : α} :
    (do t.requireDirectory p; f) = .ok a ↔ t.node? p = some .directory ∧ f = .ok a := by
  cases hr : t.requireDirectory p with
  | error e =>
    have hno : t.node? p ≠ some .directory := fun hp => by
      rw [requireDirectory_eq_ok.2 hp] at hr
      exact absurd hr (by simp)
    simp [bind, Except.bind, hno]
  | ok u =>
    have hyes : t.node? p = some .directory := requireDirectory_eq_ok.1 hr
    simp [bind, Except.bind, hyes]

theorem locate_append (t : Tree) (here : Place) (a b : List Step) {p : Place}
    (h : t.locate here a = .ok p) : t.locate here (a ++ b) = t.locate p b := by
  fun_induction locate t here a with
  | case1 => cases h; rfl
  | case2 here name rest hlong =>
    rw [bind_requireDirectory] at h
    exact absurd h.2 (by simp)
  | case3 here name rest hlong ih =>
    rw [List.cons_append, locate, if_neg hlong]
    exact ih h
  | case4 here rest ih =>
    rw [bind_requireDirectory] at h
    rw [List.cons_append, locate, requireDirectory_eq_ok.2 h.1]
    exact ih h.2
  | case5 here rest ih =>
    rw [bind_requireDirectory] at h
    rw [List.cons_append, locate, requireDirectory_eq_ok.2 h.1]
    exact ih h.2

theorem exists_locate_of_append {t : Tree} {here : Place} {a b : List Step} {p : Place}
    (h : t.locate here (a ++ b) = .ok p) : ∃ q, t.locate here a = .ok q := by
  fun_induction locate t here a with
  | case1 here => exact ⟨here, rfl⟩
  | case2 here name rest hlong =>
    rw [List.cons_append, locate, if_pos hlong, bind_requireDirectory] at h
    exact absurd h.2 (by simp)
  | case3 here name rest hlong ih =>
    rw [List.cons_append, locate, if_neg hlong] at h
    exact ih h
  | case4 here rest ih =>
    rw [List.cons_append, locate, bind_requireDirectory] at h
    obtain ⟨q, hq⟩ := ih h.2
    exact ⟨q, bind_requireDirectory.2 ⟨h.1, hq⟩⟩
  | case5 here rest ih =>
    rw [List.cons_append, locate, bind_requireDirectory] at h
    obtain ⟨q, hq⟩ := ih h.2
    exact ⟨q, bind_requireDirectory.2 ⟨h.1, hq⟩⟩

theorem locate_mono {t t' : Tree} (hkeep : t.KeepsDirectories t') {here : Place} {moves : List Step}
    {p : Place} (h : t.locate here moves = .ok p) : t'.locate here moves = .ok p := by
  fun_induction locate t here moves with
  | case1 => exact h
  | case2 here name rest hlong =>
    rw [bind_requireDirectory] at h
    exact absurd h.2 (by simp)
  | case3 here name rest hlong ih =>
    rw [locate, if_neg hlong]
    exact ih h
  | case4 here rest ih =>
    rw [bind_requireDirectory] at h
    rw [locate, bind_requireDirectory]
    exact ⟨hkeep _ h.1, ih h.2⟩
  | case5 here rest ih =>
    rw [bind_requireDirectory] at h
    rw [locate, bind_requireDirectory]
    exact ⟨hkeep _ h.1, ih h.2⟩

theorem locate_eq_destination {t : Tree} {here : Place} {moves : List Step} {p : Place}
    (h : t.locate here moves = .ok p) : p = destination here moves := by
  fun_induction locate t here moves with
  | case1 => cases h; rfl
  | case2 here name rest hlong =>
    rw [bind_requireDirectory] at h
    exact absurd h.2 (by simp)
  | case3 here name rest hlong ih => exact ih h
  | case4 here rest ih => exact ih (bind_requireDirectory.1 h).2
  | case5 here rest ih => exact ih (bind_requireDirectory.1 h).2

/-- A way that is open has no name that is too long. -/
theorem short_of_locate {t : Tree} {here : Place} {moves : List Step} {p : Place}
    (h : t.locate here moves = .ok p) : ∀ name, .down name ∈ moves → Path.isLongName name = false := by
  fun_induction locate t here moves with
  | case1 => simp
  | case2 here name rest hlong =>
    rw [bind_requireDirectory] at h
    exact absurd h.2 (by simp)
  | case3 here name rest hlong ih =>
    intro n hn
    rcases List.mem_cons.1 hn with hn | hn
    · cases hn
      exact Bool.eq_false_iff.2 hlong
    · exact ih h n hn
  | case4 here rest ih =>
    intro n hn
    exact ih (bind_requireDirectory.1 h).2 n (by simpa using hn)
  | case5 here rest ih =>
    intro n hn
    exact ih (bind_requireDirectory.1 h).2 n (by simpa using hn)

/-- Going down needs nothing but names that a directory can take. -/
theorem locate_down (t : Tree) (here : Place) {names : List String}
    (h : ∀ name ∈ names, Path.isLongName name = false) :
    t.locate here (names.map .down) = .ok (here ++ names) := by
  induction names generalizing here with
  | nil => rw [List.map_nil, locate, List.append_nil]
  | cons name names ih =>
    rw [List.map_cons, locate, if_neg (by simp [h name (by simp)]),
      ih _ fun n hn => h n (by simp [hn]), List.append_assoc, List.singleton_append]

theorem start_of_locate {t : Tree} (hg : t.Grounded) {here : Place} {moves : List Step} {p : Place}
    (h : t.locate here moves = .ok p) : here <+: p ∨ t.node? here = some .directory := by
  fun_induction locate t here moves with
  | case1 => cases h; exact .inl (List.prefix_refl _)
  | case2 here name rest hlong =>
    rw [bind_requireDirectory] at h
    exact absurd h.2 (by simp)
  | case3 here name rest hlong ih =>
    rcases ih h with hp | hd
    · exact .inl ((List.prefix_append here [name]).trans hp)
    · exact .inr (hg here name (by rw [hd]; exact Option.some_ne_none _))
  | case4 here rest ih => exact .inr (bind_requireDirectory.1 h).1
  | case5 here rest ih => exact .inr (bind_requireDirectory.1 h).1

/-- A way that is open passes only what lies above its end and directories that it
leaves again. -/
theorem passed_of_locate {t : Tree} (hg : t.Grounded) {here : Place} {moves : List Step} {p : Place}
    (h : t.locate here moves = .ok p) :
    ∀ q ∈ passed here moves, q <+: p ∨ t.node? q = some .directory := by
  fun_induction locate t here moves with
  | case1 => intro q hq; exact absurd hq (by simp [passed])
  | case2 here name rest hlong =>
    rw [bind_requireDirectory] at h
    exact absurd h.2 (by simp)
  | case3 here name rest hlong ih =>
    intro q hq
    rcases List.mem_cons.1 hq with rfl | hq
    · exact start_of_locate hg h
    · exact ih h q hq
  | case4 here rest ih => exact ih (bind_requireDirectory.1 h).2
  | case5 here rest ih => exact ih (bind_requireDirectory.1 h).2

/-! ### Making directories -/

theorem ne_nil_of_mem_passed {here q : Place} {moves : List Step} (h : q ∈ passed here moves) :
    q ≠ [] := by
  fun_induction passed here moves with
  | case1 => exact absurd h (by simp)
  | case2 here name rest ih =>
    rcases List.mem_cons.1 h with rfl | h
    · simp
    · exact ih h
  | case3 here rest ih => exact ih h
  | case4 here rest ih => exact ih h

/-- Nothing changes but that directories are made where there was nothing. -/
theorem node?_makeDirectories (t : Tree) (here : Place) (moves : List Step) (q : Place) :
    (t.makeDirectories here moves).2.node? q = t.node? q ∨
      q ∈ passed here moves ∧ t.node? q = none ∧
        (t.makeDirectories here moves).2.node? q = some .directory := by
  fun_induction makeDirectories t here moves with
  | case1 => exact .inl rfl
  | case2 => exact .inl rfl
  | case3 t here name rest p hlong hnode ih =>
    rcases ih with h | ⟨hmem, h⟩
    · exact .inl h
    · exact .inr ⟨List.mem_cons_of_mem _ hmem, h⟩
  | case4 => exact .inl rfl
  | case5 t here name rest p hlong hnode ih =>
    have hput : ∀ q ≠ [], (t.put p .directory).node? q = if q = p then some .directory else t.node? q :=
      fun q hq => node?_put t p .directory hq
    by_cases hq : q = []
    · subst hq
      exact .inl rfl
    · by_cases hqp : q = p
      · subst hqp
        rcases ih with h | ⟨-, h, -⟩
        · rw [hput _ hq, if_pos rfl] at h
          exact .inr ⟨by simp [passed, p], hnode, h⟩
        · rw [hput _ hq, if_pos rfl] at h
          exact absurd h (by simp)
      · rw [hput _ hq, if_neg hqp] at ih
        rcases ih with h | ⟨hmem, h⟩
        · exact .inl h
        · exact .inr ⟨List.mem_cons_of_mem _ hmem, h⟩
  | case6 t here rest ih => exact ih
  | case7 t here rest ih => exact ih

/-- Only a long name or a file in the way keeps directories from being made. -/
theorem makeDirectories_of_clear {t : Tree} {here : Place} {moves : List Step}
    (hshort : ∀ name, .down name ∈ moves → Path.isLongName name = false)
    (hclear : ∀ q ∈ passed here moves, t.isFile q = false) :
    (t.makeDirectories here moves).1 = .ok (destination here moves) := by
  fun_induction makeDirectories t here moves with
  | case1 => rfl
  | case2 t here name rest hlong => exact absurd hlong (by simp [hshort name (by simp)])
  | case3 t here name rest p hlong hnode ih =>
    exact ih (fun n hn => hshort n (by simp [hn])) fun q hq => hclear q (by simp [passed, p, hq])
  | case4 t here name rest p hlong c hnode =>
    have hfile : t.isFile p = false := hclear p (by simp [passed, p])
    exact absurd hfile (by simp [isFile, hnode])
  | case5 t here name rest p hlong hnode ih =>
    refine ih (fun n hn => hshort n (by simp [hn])) fun q hq => ?_
    have hclear' := hclear q (by simp [passed, p, hq])
    by_cases hqp : q = p
    · subst hqp
      rw [isFile, node?_put _ _ _ (ne_nil_of_mem_passed hq), if_pos rfl]
    · rwa [isFile, node?_put _ _ _ (ne_nil_of_mem_passed hq), if_neg hqp, ← isFile]
  | case6 t here rest ih =>
    exact ih (fun n hn => hshort n (by simp [hn])) fun q hq => hclear q hq
  | case7 t here rest ih =>
    exact ih (fun n hn => hshort n (by simp [hn])) fun q hq => hclear q hq

end Tree

end Lakehouse
