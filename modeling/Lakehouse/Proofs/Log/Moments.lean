import Lakehouse.Inspect.Rows
import Lakehouse.Proofs.Log.Marking
import Mathlib.Data.List.TakeWhile

/- What was current at a time.

   The history of a table has one move for each move among the actions of its log, in their order.
   So the moves that stand before the first one later than a given time are those of the actions
   that stand before it (`movesOf_actionsUntil`). These actions are a log of their own, whose table
   has the target of its last move as its current snapshot. To ask the history for the snapshot as
   of a time is therefore to replay the log up to then (`idAsOf_is_replayed`), also where the clocks
   of the writers stepped back. Where they did not, the last move up to then counts, whatever moves
   came before it and wherever parent links lead now. -/
namespace Lakehouse

open Calendar (Instant)

namespace Calendar

/-- Instants are ordered by their parts from the year down. -/
theorem Instant.le_iff {a b : Instant} : a ≤ b ↔
    a.date.year < b.date.year ∨ a.date.year = b.date.year ∧
      (a.date.month < b.date.month ∨ a.date.month = b.date.month ∧
        (a.date.day < b.date.day ∨ a.date.day = b.date.day ∧
          (a.second < b.second ∨ a.second = b.second ∧ a.nano ≤ b.nano))) := by
  show (Instant.compare a b).isLE = true ↔ _
  simp only [Instant.compare, Date.compare, Ordering.isLE_then_iff_or, Ordering.then_eq_lt,
    Ordering.then_eq_eq, Int.compare_eq_lt, Int.compare_eq_eq, Nat.compare_eq_lt, Nat.compare_eq_eq,
    Nat.isLE_compare]
  omega

theorem Instant.le_trans {a b c : Instant} (hab : a ≤ b) (hbc : b ≤ c) : a ≤ c := by
  rw [Instant.le_iff] at hab hbc ⊢
  omega

end Calendar

/-- The move was made at the time or before. -/
def PointerMove.isUntil (time : Instant) (m : PointerMove) : Bool := m.madeCurrentAt ≤ time

namespace Log

variable {root : Location} {files : Tree} {t : Table} {v : Version} {commits : List Commit}
  {actions : List Action} {moves : List PointerMove} {m : PointerMove} {time : Instant}

/-- The action is no move of the pointer later than the time. -/
def Action.isUntil (time : Instant) (a : Action) : Bool := a.moves?.all (PointerMove.isUntil time)

/-- The actions before the first move that is later than the time. -/
def actionsUntil (time : Instant) (actions : List Action) : List Action :=
  actions.takeWhile (Action.isUntil time)

/-- The clocks by which the moves were made never stepped back. -/
def Steady (moves : List PointerMove) : Prop :=
  moves.Pairwise fun earlier later => earlier.madeCurrentAt ≤ later.madeCurrentAt

/-! ### Moves up to a time -/

/-- Actions that are no moves do not matter to where the moves are cut. -/
theorem movesOf_actionsUntil (time : Instant) (actions : List Action) :
    movesOf (actionsUntil time actions) =
      (movesOf actions).takeWhile (PointerMove.isUntil time) := by
  unfold movesOf actionsUntil
  induction actions with
  | nil => rfl
  | cons a actions ih =>
    cases ha : a.moves? with
    | none =>
      rw [List.takeWhile_cons_of_pos (by simp [Action.isUntil, ha]), List.filterMap_cons_none ha,
        List.filterMap_cons_none ha]
      exact ih
    | some m =>
      rw [List.filterMap_cons_some ha]
      by_cases hm : PointerMove.isUntil time m = true
      · rw [List.takeWhile_cons_of_pos (by simp [Action.isUntil, ha, hm]),
          List.filterMap_cons_some ha, List.takeWhile_cons_of_pos hm, ih]
      · rw [List.takeWhile_cons_of_neg (by simp [Action.isUntil, ha, hm]),
          List.takeWhile_cons_of_neg hm, List.filterMap_nil]

/-- With steady clocks, all moves from the first later one on are later. -/
theorem Steady.later_of_cut (h : Steady moves) :
    ∀ later ∈ moves.dropWhile (PointerMove.isUntil time), later.isUntil time = false := by
  induction moves with
  | nil => intro later hlater; exact absurd hlater List.not_mem_nil
  | cons m moves ih =>
    obtain ⟨hfirst, hrest⟩ := List.pairwise_cons.1 h
    intro later hlater
    by_cases hm : m.isUntil time = true
    · rw [List.dropWhile_cons_of_pos hm] at hlater
      exact ih hrest later hlater
    · -- The cut is here; were a move behind it not later, this one would not be either.
      rw [List.dropWhile_cons_of_neg hm] at hlater
      rw [Bool.eq_false_iff]
      intro huntil
      rcases List.mem_cons.1 hlater with heq | hin
      · exact hm (heq ▸ huntil)
      · apply hm
        show decide (m.madeCurrentAt ≤ time) = true
        exact decide_eq_true (Instant.le_trans (hfirst later hin) (of_decide_eq_true huntil))

/-- With steady clocks, the moves before a move up to a time are up to it as well. -/
theorem Steady.until_of_before {before after : List PointerMove}
    (h : Steady (before ++ m :: after)) (hm : m.isUntil time = true) :
    ∀ earlier ∈ before ++ [m], earlier.isUntil time = true := by
  intro earlier hearlier
  rcases List.mem_append.1 hearlier with hin | hin
  · have hle := (List.pairwise_append.1 h).2.2 earlier hin m List.mem_cons_self
    exact decide_eq_true (Instant.le_trans hle (of_decide_eq_true hm))
  · rw [List.mem_singleton.1 hin]
    exact hm

/-- With steady clocks, the last move before the first later one is the last of all that are not
later. -/
theorem Steady.last_until_iff (h : Steady moves) :
    (moves.takeWhile (PointerMove.isUntil time)).getLast? = some m ↔
      ∃ before after, moves = before ++ m :: after ∧ m.isUntil time = true ∧
        ∀ later ∈ after, later.isUntil time = false := by
  constructor
  · intro hlast
    obtain ⟨before, hbefore⟩ := List.getLast?_eq_some_iff.1 hlast
    have hm : m.isUntil time = true := List.mem_takeWhile_imp (hbefore ▸ List.mem_concat_self)
    refine ⟨before, moves.dropWhile (PointerMove.isUntil time), ?_, hm, h.later_of_cut⟩
    rw [List.append_cons, ← hbefore, List.takeWhile_append_dropWhile]
  · intro hsplit
    obtain ⟨before, after, heq, hm, hafter⟩ := hsplit
    subst heq
    have hnone : after.takeWhile (PointerMove.isUntil time) = [] := by
      rw [List.takeWhile_eq_nil_iff]
      intro hlength
      simp [hafter _ (List.getElem_mem hlength)]
    rw [List.append_cons, List.takeWhile_append_of_pos (h.until_of_before hm), hnone,
      List.append_nil, List.getLast?_concat]

/-! ### Histories and logs -/

/-- What the history of a described table answers is the target of the last move before the first
later one. -/
theorem Describes.idAsOf_eq (h : Describes actions t) (time : Instant) :
    t.idAsOf time =
      match (movesOf (actionsUntil time actions)).getLast? with
      | some m => .ok m.snapshotId
      | none => .error (.noSnapshotAsOf time) := by
  have hcut : (t.history.takeWhile (PointerMove.isUntil time)).map PointerMove.unmarked =
      movesOf (actionsUntil time actions) := by
    rw [movesOf_actionsUntil, ← h.history, List.takeWhile_map]
    rfl
  rw [← hcut, List.getLast?_map]
  show (match (t.history.takeWhile (PointerMove.isUntil time)).getLast? with
    | some m => Except.ok m.snapshotId
    | none => .error (TableError.noSnapshotAsOf time)) = _
  cases (t.history.takeWhile (PointerMove.isUntil time)).getLast? with
  | none => rfl
  | some m => rfl

theorem Describes.idAsOf_eq_ok_iff (h : Describes actions t) (id : SnapshotId) :
    t.idAsOf time = .ok id ↔
      ∃ m, (movesOf (actionsUntil time actions)).getLast? = some m ∧ m.snapshotId = id := by
  rw [h.idAsOf_eq time]
  cases (movesOf (actionsUntil time actions)).getLast? with
  | none => simp
  | some m => simp

theorem Describes.idAsOf_eq_error_iff (h : Describes actions t) :
    t.idAsOf time = .error (.noSnapshotAsOf time) ↔ movesOf (actionsUntil time actions) = [] := by
  rw [h.idAsOf_eq time, ← List.getLast?_eq_none_iff]
  cases (movesOf (actionsUntil time actions)).getLast? with
  | none => simp
  | some m => simp

/-- With steady clocks, the history answers the target of the last move that is not later. -/
theorem Describes.idAsOf_steady (h : Describes actions t) (hsteady : Steady (movesOf actions))
    (id : SnapshotId) : t.idAsOf time = .ok id ↔
      ∃ before m after, movesOf actions = before ++ m :: after ∧ m.snapshotId = id ∧
        m.madeCurrentAt ≤ time ∧ ∀ later ∈ after, ¬ later.madeCurrentAt ≤ time := by
  rw [h.idAsOf_eq_ok_iff id, movesOf_actionsUntil]
  constructor
  · intro hfound
    obtain ⟨m, hm, hid⟩ := hfound
    obtain ⟨before, after, heq, huntil, hafter⟩ := hsteady.last_until_iff.1 hm
    exact ⟨before, m, after, heq, hid, of_decide_eq_true huntil, fun later hlater =>
      of_decide_eq_false (hafter later hlater)⟩
  · intro hsplit
    obtain ⟨before, m, after, heq, hid, hle, hafter⟩ := hsplit
    refine ⟨m, hsteady.last_until_iff.2 ⟨before, after, heq, decide_eq_true hle, ?_⟩, hid⟩
    exact fun later hlater => decide_eq_false (hafter later hlater)

/-- The actions before the first later move make a table of their own. -/
theorem exists_replayed_until (h : WellFormed actions) (time : Instant) (version : Version) :
    ∃ u, (actionsUntil time actions).foldlM (replayAction version) none = .ok (some u) ∧
      Describes (actionsUntil time actions) u := by
  obtain ⟨metadata, hfirst⟩ := h.first
  obtain ⟨rest, hrest⟩ := List.head?_eq_some_iff.1 hfirst
  subst hrest
  obtain ⟨w, hw⟩ := Table.exists_applyAll_iff.2 ((wellFormed_create_cons version).1 h)
  -- The table is created by no move, so whatever the time is, its creation comes before the cut.
  have hcut : actionsUntil time (.create metadata :: rest) =
      .create metadata :: actionsUntil time rest := List.takeWhile_cons_of_pos rfl
  have hsplit : rest = actionsUntil time rest ++ rest.dropWhile (Action.isUntil time) :=
    List.takeWhile_append_dropWhile.symm
  rw [hsplit, Table.applyAll_append] at hw
  obtain ⟨u, hu, -⟩ := bind_eq_ok.1 hw
  refine ⟨u, ?_, ?_⟩
  · rw [hcut, List.foldlM_cons]
    show (actionsUntil time rest).foldlM (replayAction version)
      (some (Table.new version metadata)) = .ok (some u)
    rw [foldlM_replayAction, hu]
    rfl
  · rw [hcut]
    exact describes_of_gains (.of_applyAll hu)

/-- Whatever the log is, as long as it can be read, and whatever the time: the actions before the
first later move of the pointer can be replayed, and the snapshot as of that time is the current one
of the table that they make; there is none if and only if the pointer is not moved by them. If the
clocks were steady, it is the target of the last move that is not later. -/
theorem idAsOf_is_replayed (hread : Script.perform root rebuild files = (.ok t, files))
    (hlogged : Logged root files v commits) (time : Instant) :
    (∃ u, (actionsUntil time (actionsOf commits)).foldlM (replayAction 1) none = .ok (some u) ∧
      ∀ id, t.idAsOf time = .ok id ↔ u.currentId = some id) ∧
    (t.idAsOf time = .error (.noSnapshotAsOf time) ↔
      movesOf (actionsUntil time (actionsOf commits)) = []) ∧
    (Steady (movesOf (actionsOf commits)) → ∀ id, t.idAsOf time = .ok id ↔
      ∃ before m after, movesOf (actionsOf commits) = before ++ m :: after ∧ m.snapshotId = id ∧
        m.madeCurrentAt ≤ time ∧ ∀ later ∈ after, ¬ later.madeCurrentAt ≤ time) := by
  have hdescribes := ((rebuild_iff_wellFormed root files).2 t v commits hread hlogged).2
  have hwell : WellFormed (actionsOf commits) := by
    obtain ⟨-, w, commits', hlogged', htable⟩ := perform_rebuild_iff.1 hread
    obtain ⟨-, rfl⟩ := hlogged.unique hlogged'
    exact exists_tableAfter?_iff.1 ⟨t, htable⟩
  refine ⟨?_, hdescribes.idAsOf_eq_error_iff, fun hsteady id => hdescribes.idAsOf_steady hsteady id⟩
  obtain ⟨u, hu, hlast⟩ := exists_replayed_until hwell time 1
  refine ⟨u, hu, ?_⟩
  intro id
  rw [hdescribes.idAsOf_eq_ok_iff id, hlast.current, Option.map_eq_some_iff]

/-! ### A log with a move back -/

/-- A second of the first minute of 1970. -/
def second (n : Fin 60) : Instant :=
  { (default : Instant) with
    second := n
    second_lt := Nat.lt_trans n.isLt (by decide)
    leap := fun h => absurd h (by decide) }

/-- The second snapshot becomes current, and within the same second the first one again; later on a
third one, of which it is no ancestor. As of a time in between, the first one is current. -/
theorem idAsOf_is_replayed_moveBack :
    let c := creating [.addSnapshot (bare 1 none), .moveCurrent 1 none (second 1),
      .addSnapshot (bare 2 (some 1)), .moveCurrent 2 (some 1) (second 2),
      .moveCurrent 1 none (second 2), .addSnapshot (bare 3 none),
      .moveCurrent 3 (some 1) (second 9)]
    ∃ t, Script.perform ⟨"."⟩ rebuild (oneCommit c) = (.ok t, oneCommit c) ∧
      Logged ⟨"."⟩ (oneCommit c) 1 [c] ∧ Steady (movesOf (actionsOf [c])) ∧
      t.isCurrentAncestor 1 = false ∧ t.idAsOf (second 5) = .ok 1 ∧
      t.idAsOf (second 0) = .error (.noSnapshotAsOf (second 0)) := by
  intro c
  have hlogged : Logged ⟨"."⟩ (oneCommit c) 1 [c] := logged_oneCommit rfl
  have htable : tableAfter? [c] = some ((tableAfter? [c]).get (by decide)) := by decide
  have hread := perform_rebuild_iff.2 ⟨rfl, 1, [c], hlogged, htable⟩
  have hsteady : Steady (movesOf (actionsOf [c])) := by
    unfold Steady
    decide
  obtain ⟨-, -, hlast⟩ := idAsOf_is_replayed hread hlogged (second 5)
  obtain ⟨-, hnone, -⟩ := idAsOf_is_replayed hread hlogged (second 0)
  refine ⟨_, hread, hlogged, hsteady, by decide, ?_, hnone.2 (by decide)⟩
  apply (hlast hsteady 1).2
  exact ⟨[⟨second 1, 1, none, false⟩, ⟨second 2, 2, some 1, false⟩], ⟨second 2, 1, none, false⟩,
    [⟨second 9, 3, some 1, false⟩], rfl, rfl, by decide, by decide⟩

end Log

end Lakehouse
