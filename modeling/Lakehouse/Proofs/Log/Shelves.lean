import Lakehouse.Proofs.Form.Files
import Lakehouse.Proofs.Log.Reading
import Lakehouse.Proofs.Store.Growth
import Lakehouse.Table.Session

/- What stands on the shelves of a table.

   Under a name that is made from content of some kind there is, if anything, content of this
   kind: a manifest, or a list whose manifests can all be read (`Tree.Shelf`). This does not say
   that it is the content from which the name was made. It is enough for a snapshot to stay
   readable: each snapshot that is registered has its list on a shelf (`Log.Shelved`). As the
   file for the current version is no manifest and no list, whatever was read from a shelf is
   read again however the files grow (`Chain.content_grows`). -/
namespace Lakehouse

open Log

variable {asked : Request → Prop} {root : Location} {files files' : Tree} {commits : List Commit}
  {current : Nat} {α : Type}

/-! ### The file for the current version is no record -/

theorem Json.decode_readNumber (r : RecordOf α) (negative : Bool) (text : List Symbol) :
    r.decode (readNumber negative text).1 = .error .malformed := by
  simp only [readNumber]
  split
  · rfl
  · split
    · rfl
    · split <;> rfl

theorem RecordOf.run_digit (r : RecordOf α) {c : Char} (rest : List Symbol)
    (hc : Text.isDigit c = true) : r.decode.run (some c :: rest) = .error .malformed := by
  have hvalue : (Json.read (some c :: rest)).value =
      (Json.readNumber false (some c :: rest)).1 := by
    rw [Json.read, Json.readValue_digit hc]
    split
    next h => rw [h]
    next h => rw [h]
  rw [Decoder.run]
  simp only [hvalue, Json.decode_readNumber]

/-- Values of this kind are written as records. -/
def Decoder.IsRecord (decode : Decoder α) : Prop := ∃ r : RecordOf α, decode = r.decode

theorem Form.isRecord_manifest : Form.readManifest.IsRecord := ⟨_, rfl⟩

theorem Form.isRecord_manifestList : Form.readManifestList.IsRecord := ⟨_, rfl⟩

theorem Decoder.IsRecord.run_currentContent {decode : Decoder α} (h : decode.IsRecord) (v : Version)
    (a : α) : decode.run (symbolsOfBytes (currentContent v)) ≠ .ok a := by
  obtain ⟨r, rfl⟩ := h
  obtain ⟨c, rest, hdecimal, hc⟩ := Text.decimal_eq_cons v.toNat
  have hsymbols : symbolsOfBytes (currentContent v) = some c :: (rest ++ ['\n']).map some := by
    rw [currentContent, symbolsOfBytes, fromUTF8?_toUTF8]
    simp [symbolsOfText, versionText, hdecimal]
  rw [hsymbols, r.run_digit _ hc]
  simp

theorem Log.Chain.node_current (h : Chain root files commits current) (hpos : 0 < current) :
    files.node? root.currentPlace = some (.file (currentContent (UInt64.ofNat current))) :=
  ((Tree.content?_eq_some h.hosts Layout.currentPath_isFile.1).1 (h.pointer_pos hpos)).2

/-- What is read as a record is not the file for the current version. -/
theorem Log.Chain.node_current_ne (h : Chain root files commits current) {decode : Decoder α}
    (hdecode : decode.IsRecord) {c : ByteArray} {a : α}
    (hrun : decode.run (symbolsOfBytes c) = .ok a) :
    files.node? root.currentPlace ≠ some (.file c) := by
  by_cases hzero : current = 0
  · exact h.unnamed hzero c
  · intro hnode
    rw [h.node_current (by omega), Option.some.injEq, Node.file.injEq] at hnode
    exact hdecode.run_currentContent _ _ (hnode ▸ hrun)

/-- Content that is read as a record stays, whatever its path. -/
theorem Log.Chain.content_grows (h : Chain root files commits current) {decode : Decoder α}
    (hdecode : decode.IsRecord) (hgrows : files.Grows asked root files') {path : String}
    {c : ByteArray} {a : α} (hcontent : files.content? root path = some c)
    (hrun : decode.run (symbolsOfBytes c) = .ok a) : files'.content? root path = some c := by
  have hread := hgrows.readBytes (Tree.readBytes_of_content hcontent) (h.node_current_ne hdecode hrun)
  rw [Tree.content?, hread]
  rfl

/-! ### What can be read -/

namespace Tree

/-- A manifest can be read at the path. -/
def HasManifest (files : Tree) (root : Location) (path : String) : Prop :=
  ∃ c m, files.content? root path = some c ∧ Form.readManifest.run (symbolsOfBytes c) = .ok m

/-- A list of manifests can be read at the path, and so can all of its manifests. -/
def HasList (files : Tree) (root : Location) (path : String) : Prop :=
  ∃ c l, files.content? root path = some c ∧ Form.readManifestList.run (symbolsOfBytes c) = .ok l ∧
    ∀ r ∈ l.manifests, files.HasManifest root r.path

/-- What can be read under a name made for content of a kind. -/
inductive Shelf (files : Tree) (root : Location) (path : String) : (kind : String) → Prop where
  | manifest (there : files.HasManifest root path) : Shelf files root path Layout.manifestKind
  | list (there : files.HasList root path) : Shelf files root path Layout.manifestListKind

theorem HasManifest.grows {path : String} (h : files.HasManifest root path)
    (hchain : Chain root files commits current) (hgrows : files.Grows asked root files') :
    files'.HasManifest root path := by
  obtain ⟨c, m, hcontent, hrun⟩ := h
  exact ⟨c, m, hchain.content_grows Form.isRecord_manifest hgrows hcontent hrun, hrun⟩

theorem HasList.grows {path : String} (h : files.HasList root path)
    (hchain : Chain root files commits current) (hgrows : files.Grows asked root files') :
    files'.HasList root path := by
  obtain ⟨c, l, hcontent, hrun, hall⟩ := h
  refine ⟨c, l, hchain.content_grows Form.isRecord_manifestList hgrows hcontent hrun, hrun, ?_⟩
  intro r hr
  exact (hall r hr).grows hchain hgrows

theorem Shelf.grows {path kind : String} (h : files.Shelf root path kind)
    (hchain : Chain root files commits current) (hgrows : files.Grows asked root files') :
    files'.Shelf root path kind := by
  cases h with
  | manifest there => exact .manifest (there.grows hchain hgrows)
  | list there => exact .list (there.grows hchain hgrows)

theorem Shelf.hasManifest {path : String} (h : files.Shelf root path Layout.manifestKind) :
    files.HasManifest root path := by
  generalize hkind : Layout.manifestKind = kind at h
  cases h with
  | manifest there => exact there
  | list there => exact absurd hkind (by decide)

theorem Shelf.hasList {path : String} (h : files.Shelf root path Layout.manifestListKind) :
    files.HasList root path := by
  generalize hkind : Layout.manifestListKind = kind at h
  cases h with
  | manifest there => exact absurd hkind (by decide)
  | list there => exact there

theorem hasManifest_of_content {path : String} {m : Manifest}
    (h : files.content? root path = some (FileM.manifestContent m)) : files.HasManifest root path :=
  ⟨_, m, h, (Carries.manifest m).run_bytes⟩

theorem hasList_of_content {path : String} {l : ManifestList}
    (h : files.content? root path = some (FileM.manifestListContent l))
    (hall : ∀ r ∈ l.manifests, files.HasManifest root r.path) : files.HasList root path :=
  ⟨_, l, h, (Carries.manifestList l).run_bytes, hall⟩

end Tree

/-- Each snapshot of the table has its list and its manifests. -/
def Table.IsStored (root : Location) (files : Tree) (t : Table) : Prop :=
  ∀ id s, t.snapshots.find? id = some s → files.HasList root s.manifestList

namespace Log

/-- All names stand for content of their kind, and the table of all commits is stored. -/
structure Shelved (root : Location) (files : Tree) : Prop where
  shelf : ∀ content kind path, Layout.IsNameOf content kind path →
    (files.content? root path).isSome → files.Shelf root path kind
  registered : ∀ commits current t, Chain root files commits current →
    tableAfter? commits = some t → t.IsStored root files

namespace Shelved

theorem of_vacant (h : files.Vacant root) : Shelved root files := by
  constructor
  · intro content kind path hname hsome
    rw [h.content?_eq_none hname.isTablePath] at hsome
    exact absurd hsome (by simp)
  · intro commits current t hchain ht
    obtain ⟨rfl, -⟩ := hchain.unique (Chain.of_vacant h)
    exact absurd ht (by simp [tableAfter?, replayed, pure, Except.pure])

/-- What has to be shown when files grow: new files stand where they should, and if there is
a new commit, its table is stored. -/
theorem of_grows (h : Shelved root files) (hchain : Chain root files commits current)
    (hgrows : files.Grows asked root files') {commits' : List Commit} {current' : Nat}
    (hchain' : Chain root files' commits' current')
    (hshelf : ∀ content kind path, Layout.IsNameOf content kind path →
      files.content? root path = none → (files'.content? root path).isSome →
      files'.Shelf root path kind)
    (hregistered : ∀ t, tableAfter? commits' = some t → t.IsStored root files) :
    Shelved root files' := by
  constructor
  · intro content kind path hname hsome
    cases hold : files.content? root path with
    | none => exact hshelf content kind path hname hold hsome
    | some c =>
      have hshelved := h.shelf content kind path hname (by rw [hold]; rfl)
      exact hshelved.grows hchain hgrows
  · intro l n t hl ht id s hs
    obtain ⟨rfl, -⟩ := hl.unique hchain'
    exact (hregistered t ht id s hs).grows hchain hgrows

/-- Nothing is new on the shelves, and there is no new commit. -/
theorem of_same (h : Shelved root files) (hchain : Chain root files commits current)
    (hgrows : files.Grows asked root files') {current' : Nat}
    (hchain' : Chain root files' commits current')
    (hsame : ∀ content kind path, Layout.IsNameOf content kind path →
      files'.content? root path = files.content? root path) : Shelved root files' := by
  apply h.of_grows hchain hgrows hchain'
  · intro content kind path hname hnone hsome
    rw [hsame content kind path hname, hnone] at hsome
    exact absurd hsome (by simp)
  · exact fun t => h.registered commits current t hchain

/-- A file is new on a shelf. -/
theorem of_shelved (h : Shelved root files) (hchain : Chain root files commits current)
    (hgrows : files.Grows asked root files') (hchain' : Chain root files' commits current)
    {content : ByteArray} {kind path : String} (hname : Layout.IsNameOf content kind path)
    (hwrite : files.Becomes files' root path content) (hshelf : files'.Shelf root path kind) :
    Shelved root files' := by
  apply h.of_grows hchain hgrows hchain'
  · intro content' kind' path' hname' hnone hsome
    by_cases hpath : path' = path
    · subst hpath
      rwa [(hname'.contentId_eq hname).1]
    · rw [hwrite.elsewhere path' hname'.isTablePath hpath, hnone] at hsome
      exact absurd hsome (by simp)
  · exact fun t => h.registered commits current t hchain

/-- A commit is new, of which the table is stored. -/
theorem of_committed (h : Shelved root files) (hchain : Chain root files commits current)
    (hgrows : files.Grows asked root files') {commits' : List Commit} {current' : Nat}
    (hchain' : Chain root files' commits' current') {v : Version} {content : ByteArray}
    (hwrite : files.Becomes files' root (Layout.commitPath v) content)
    (hregistered : ∀ t, tableAfter? commits' = some t → t.IsStored root files) :
    Shelved root files' := by
  apply h.of_grows hchain hgrows hchain' _ hregistered
  intro content' kind path hname hnone hsome
  rw [hwrite.elsewhere path hname.isTablePath (hname.outside_log.2 v), hnone] at hsome
  exact absurd hsome (by simp)

/-- Another version is current. -/
theorem of_current (h : Shelved root files) (hchain : Chain root files commits current)
    (hgrows : files.Grows asked root files') {current' : Nat}
    (hchain' : Chain root files' commits current') {content : ByteArray}
    (hwrite : files.Becomes files' root Layout.currentPath content) : Shelved root files' := by
  apply h.of_same hchain hgrows hchain'
  intro content' kind path hname
  exact hwrite.elsewhere path hname.isTablePath hname.outside_log.1

end Shelved

end Log

end Lakehouse
