import Lakehouse.Log.Replay
import Lakehouse.Proofs.Form.Log
import Lakehouse.Proofs.Store.Contract
import Lakehouse.Proofs.Store.Hosting

/- Chains of commits.

   The files of a log form a chain if they are the commits of a list, numbered from 1
   on without a gap, each based on the one before it, and the file for the current
   version names the last of them or the one before (`Chain`). A writer that stops in
   between leaves the latter. Every beginning of the list describes a table, so reading
   the log up to any version gives this table (`perform_rebuildAt`), and the files
   determine the list (`Chain.unique`). -/
namespace Lakehouse

namespace Table

/-- Actions do not look at the version. -/
theorem apply_version (t : Table) (v : Log.Version) (a : Log.Action) :
    apply { t with version := v } a = (t.apply a).map fun t => { t with version := v } := by
  cases a with
  | create m => rfl
  | updateProperties set remove => rfl
  | addSnapshot s =>
    simp only [apply]
    split <;> rfl
  | moveCurrent target parentId madeCurrentAt =>
    simp only [apply]
    split <;> rfl

theorem applyAll_version (t : Table) (v : Log.Version) (actions : List Log.Action) :
    applyAll { t with version := v } actions =
      (t.applyAll actions).map fun t => { t with version := v } := by
  induction actions generalizing t with
  | nil => rfl
  | cons a actions ih =>
    simp only [applyAll, List.foldlM_cons] at ih ⊢
    rw [apply_version]
    cases t.apply a with
    | error e => rfl
    | ok u => exact ih u

end Table

namespace Log

/-! ### The table of a list of commits -/

/-- The commits applied one after the other, each taken for the version it names. -/
def replayed (t : Option Table) (commits : List Commit) : Except Corruption (Option Table) :=
  commits.foldlM (fun t c => replayCommit c.version t c) t

/-- The table that the commits describe, as of the last of them. -/
def tableAfter? (commits : List Commit) : Option Table :=
  match replayed none commits with
  | .ok (some t) => some { t with version := UInt64.ofNat commits.length }
  | _ => none

theorem tableAfter?_eq_some {commits : List Commit} {t : Table} (h : tableAfter? commits = some t) :
    ∃ u, replayed none commits = .ok (some u) ∧
      t = { u with version := UInt64.ofNat commits.length } := by
  rw [tableAfter?] at h
  split at h
  next u hu => exact ⟨u, hu, (Option.some.inj h).symm⟩
  next => exact absurd h (by simp)

theorem pos_of_table {commits : List Commit} {t : Table} (h : tableAfter? commits = some t) :
    0 < commits.length := by
  cases commits with
  | nil => exact absurd h (by simp [tableAfter?, replayed, pure, Except.pure])
  | cons c commits => simp

theorem foldlM_replayAction (version : Version) (t : Table) (actions : List Action) :
    actions.foldlM (replayAction version) (some t) = (t.applyAll actions).map some := by
  induction actions generalizing t with
  | nil => rfl
  | cons a actions ih =>
    simp only [List.foldlM_cons, replayAction, Table.applyAll]
    cases t.apply a with
    | error e => rfl
    | ok u => exact ih u

/-- One more commit changes the table by its actions. -/
theorem tableAfter?_append {commits : List Commit} {t t' : Table} {c : Commit}
    (h : tableAfter? commits = some t) (hc : t.applyAll c.actions = .ok t') :
    tableAfter? (commits ++ [c]) = some { t' with version := UInt64.ofNat (commits.length + 1) } := by
  obtain ⟨u, hu, rfl⟩ := tableAfter?_eq_some h
  rw [Table.applyAll_version] at hc
  cases happly : u.applyAll c.actions with
  | error e => rw [happly] at hc; exact absurd hc (by simp [Except.map])
  | ok u' =>
    rw [happly] at hc
    obtain rfl := Except.ok.inj hc
    have hcommit : replayCommit c.version (some u) c = .ok (some u') := by
      rw [replayCommit, if_pos rfl, foldlM_replayAction, happly]
      rfl
    have hreplayed : replayed none (commits ++ [c]) = .ok (some u') := by
      rw [replayed, List.foldlM_append, ← replayed, hu]
      simp only [bind, Except.bind, List.foldlM_cons, List.foldlM_nil, hcommit]
      rfl
    rw [tableAfter?, hreplayed, List.length_append, List.length_singleton]

/-- The first commit of a log creates the table. -/
theorem tableAfter?_create (base : Version) (now : Calendar.Instant) (metadata : Metadata) :
    tableAfter? [⟨1, base, now, [.create metadata]⟩] = some (.new 1 metadata) := rfl

/-! ### Chains -/

/-- The commit with this version. -/
def commitAt? (commits : List Commit) (version : Version) : Option Commit :=
  if version = 0 then none else commits[version.toNat - 1]?

/-- The files of the log are those of the commits, and the file for the current version
names the version `current`. -/
structure Chain (root : Location) (files : Tree) (commits : List Commit) (current : Nat) : Prop where
  hosts : files.Hosts root
  length_lt : commits.length < UInt64.size
  file : ∀ v, files.content? root (Layout.commitPath v) = (commitAt? commits v).map commitContent
  numbered : ∀ v c, commitAt? commits v = some c → c.version = v ∧ c.base + 1 = v
  pointer : files.content? root Layout.currentPath =
    if current = 0 then none else some (currentContent (UInt64.ofNat current))
  unnamed : current = 0 → ∀ c, files.node? root.currentPlace ≠ some (.file c)
  named : current = commits.length ∨ current + 1 = commits.length
  replays : ∀ n, 0 < n → n ≤ commits.length → ∃ t, tableAfter? (commits.take n) = some t

theorem commitAt?_ofNat {commits : List Commit} {n : Nat} (hn : n < commits.length)
    (hlt : commits.length < UInt64.size) :
    commitAt? commits (UInt64.ofNat (n + 1)) = commits[n]? := by
  have htoNat : (UInt64.ofNat (n + 1)).toNat = n + 1 :=
    UInt64.toNat_ofNat_of_lt' (by omega)
  have hne : UInt64.ofNat (n + 1) ≠ 0 := by
    intro h
    have hzero := congrArg UInt64.toNat h
    rw [htoNat] at hzero
    exact absurd hzero (by simp)
  rw [commitAt?, if_neg hne, htoNat, Nat.add_sub_cancel]

theorem commitAt?_eq_some {commits : List Commit} {v : Version} {c : Commit}
    (h : commitAt? commits v = some c) : v ≠ 0 ∧ commits[v.toNat - 1]? = some c := by
  rw [commitAt?] at h
  split at h
  · exact absurd h (by simp)
  next hv => exact ⟨hv, h⟩

theorem toNat_ne_zero {v : Version} (h : v ≠ 0) : 0 < v.toNat := by
  rw [Nat.pos_iff_ne_zero]
  intro hzero
  exact h (UInt64.toNat_inj.1 hzero)

theorem commitAt?_isSome {commits : List Commit} {v : Version} :
    (commitAt? commits v).isSome ↔ 0 < v.toNat ∧ v.toNat ≤ commits.length := by
  rw [commitAt?]
  split
  next h => simp [h]
  next h =>
    have hv := toNat_ne_zero h
    rw [isSome_getElem?]
    omega

/-- Where there is no table, there are no commits. -/
theorem Chain.of_vacant (h : files.Vacant root) : Chain root files [] 0 := by
  have hnone : ∀ v, commitAt? [] v = none := by simp [commitAt?]
  refine ⟨h.hosts, by decide, fun v => ?_, fun v c hc => ?_, ?_, fun _ c hc => ?_, .inl rfl,
    fun n hpos hn => ?_⟩
  · rw [h.content?_eq_none (Layout.isTablePath_commit v), hnone]
    rfl
  · rw [hnone] at hc
    exact absurd hc (by simp)
  · exact h.content?_eq_none Layout.isTablePath_current
  · rw [Location.currentPlace, h.untouched Layout.logDirectory (by simp)] at hc
    exact absurd hc (by simp)
  · exact absurd hpos (by simpa using hn)

/-- A commit file is there exactly for the versions of the chain. -/
theorem Chain.commit_isSome {root : Location} {files : Tree} {commits : List Commit} {current : Nat}
    (h : Chain root files commits current) (v : Version) :
    (files.content? root (Layout.commitPath v)).isSome ↔ 0 < v.toNat ∧ v.toNat ≤ commits.length := by
  rw [h.file, Option.isSome_map, commitAt?_isSome]

theorem currentContent_injective {v w : Version} (h : currentContent v = currentContent w) : v = w := by
  have hv := fromUTF8?_toUTF8 (versionText v ++ "\n")
  rw [show (versionText v ++ "\n").toUTF8 = (versionText w ++ "\n").toUTF8 from h,
    fromUTF8?_toUTF8] at hv
  have hv' := parseCurrent_line v
  rw [← Option.some.inj hv, parseCurrent_line] at hv'
  exact (Except.ok.inj hv').symm

/-- The files tell which commits they hold and which of them is current. -/
theorem Chain.unique {root : Location} {files : Tree} {commits commits' : List Commit}
    {current current' : Nat} (h : Chain root files commits current)
    (h' : Chain root files commits' current') : commits = commits' ∧ current = current' := by
  have hlength : commits.length = commits'.length := by
    -- The last commit of either chain is in the other, so neither is longer.
    have hone : ∀ {l l' : List Commit} {n n' : Nat}, Chain root files l n → Chain root files l' n' →
        l.length ≤ l'.length := by
      intro l l' n n' hl hl'
      by_cases hempty : l.length = 0
      · omega
      · have hlt := hl.length_lt
        have htoNat : (UInt64.ofNat l.length).toNat = l.length := UInt64.toNat_ofNat_of_lt' hlt
        have hsome := (hl.commit_isSome (UInt64.ofNat l.length)).2 (by omega)
        have := (hl'.commit_isSome _).1 hsome
        omega
    exact Nat.le_antisymm (hone h h') (hone h' h)
  refine ⟨List.ext_getElem hlength fun n hn hn' => ?_, ?_⟩
  · have hfile := (h.file (UInt64.ofNat (n + 1))).symm.trans (h'.file (UInt64.ofNat (n + 1)))
    rw [commitAt?_ofNat hn h.length_lt, commitAt?_ofNat hn' h'.length_lt,
      List.getElem?_eq_getElem hn, List.getElem?_eq_getElem hn'] at hfile
    exact commitContent_injective (Option.some.inj hfile)
  · have hpointer := h.pointer.symm.trans h'.pointer
    have hlt : current < UInt64.size := by have := h.named; have := h.length_lt; omega
    have hlt' : current' < UInt64.size := by have := h'.named; have := h'.length_lt; omega
    split at hpointer <;> split at hpointer
    · omega
    · exact absurd hpointer (by simp)
    · exact absurd hpointer (by simp)
    · have hsame := currentContent_injective (Option.some.inj hpointer)
      rw [← UInt64.toNat_ofNat_of_lt' hlt, hsame, UInt64.toNat_ofNat_of_lt' hlt']

/-- Nothing is read of a log but its files. -/
theorem Chain.of_same {root : Location} {files files' : Tree} {commits : List Commit} {current : Nat}
    (h : Chain root files commits current) (hosts : files'.Hosts root)
    (hcommits : ∀ v, files'.content? root (Layout.commitPath v) =
      files.content? root (Layout.commitPath v))
    (hcurrent : files'.content? root Layout.currentPath =
      files.content? root Layout.currentPath)
    (hnode : ∀ c, files'.node? root.currentPlace = some (.file c) →
      files.node? root.currentPlace = some (.file c)) : Chain root files' commits current :=
  { h with
    hosts := hosts
    file := fun v => (hcommits v).trans (h.file v)
    pointer := hcurrent.trans h.pointer
    unnamed := fun hzero c hc => h.unnamed hzero c (hnode c hc) }

end Log

end Lakehouse
