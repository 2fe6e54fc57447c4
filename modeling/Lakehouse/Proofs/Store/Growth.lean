import Lakehouse.Proofs.Store.Objects
import Lakehouse.Proofs.Store.Persistence

/- How the files of a table grow.

   Apart from the file for the current version, nothing is changed once it is there, and
   a file of the table that is new was asked for as the file of a commit or under a name
   made from its content (`Tree.Grows`). So what was read before is read again, whatever
   its path (`Grows.readBytes`). If the contents that were asked for can be told apart by
   their names, a file has the one content that was ever meant for its path
   (`Filed.content`). -/
namespace Lakehouse

open Layout

/-- The request creates the file of a commit, or stores content under a name made from it. -/
inductive Request.IsCreation : Request → Prop where
  | commit (version : UInt64) (content : ByteArray) :
      IsCreation (.create (commitPath version) content)
  | named {content : ByteArray} {kind path : String} (h : IsNameOf content kind path) :
      IsCreation (.create path content)

/-- What is created is a file of the table, other than the one for the current version. -/
theorem Request.IsCreation.isTablePath {path : String} {c : ByteArray}
    (h : IsCreation (.create path c)) : IsTablePath path ∧ path ≠ currentPath := by
  cases h with
  | commit version => exact ⟨isTablePath_commit version, commitPath_ne_currentPath version⟩
  | named hname => exact ⟨hname.isTablePath, hname.outside_log.1⟩

/-- Under no name are different contents asked to be stored. -/
def Unambiguous (asked : Request → Prop) : Prop :=
  ∀ kind path a b, asked (.create path a) → asked (.create path b) → IsNameOf a kind path →
    IsNameOf b kind path → a = b

namespace Tree

/-- A file at the place was created under some path, where nothing was before. -/
def NewAt (root : Location) (t t' : Tree) (place : Place) : Prop :=
  t.node? place = none ∧ ∃ path names c, Path.Plain path names ∧ place = root.place ++ names ∧
    Request.IsCreation (.create path c) ∧ (t'.content? root path).isSome

/-- Whatever is there stays as it is, and new files were asked for. -/
structure Grows (asked : Request → Prop) (root : Location) (t t' : Tree) : Prop where
  nodes : t.KeepsBut root.currentPlace t'
  made : ∀ q c, t'.node? q = some (.file c) →
    t.node? q = some (.file c) ∨ q = root.currentPlace ∨ NewAt root t t' q
  kept : ∀ path c, IsTablePath path → path ≠ currentPath →
    t.content? root path = some c → t'.content? root path = some c
  fresh : ∀ path c, IsTablePath path → path ≠ currentPath → t'.content? root path = some c →
    t.content? root path = some c ∨
      asked (.create path c) ∧ Request.IsCreation (.create path c)

variable {asked : Request → Prop} {root : Location} {t t' t'' : Tree}

namespace Grows

theorem of_same (hkeep : t.KeepsBut root.currentPlace t') (h : t.SameFiles t' root) :
    Grows asked root t t' := by
  refine ⟨hkeep, fun q c hq => .inl (h.nodes q c hq), fun path c hpath _ hc => ?_,
    fun path c hpath _ hc => .inl ?_⟩
  · rw [h.contents path hpath, hc]
  · rw [← h.contents path hpath, hc]

theorem refl (asked : Request → Prop) (root : Location) (t : Tree) : Grows asked root t t :=
  of_same (fun _ _ h => .inl h) ⟨fun _ _ => rfl, fun _ _ h => h⟩

theorem trans (h : Grows asked root t t') (h' : Grows asked root t' t'') :
    Grows asked root t t'' := by
  refine ⟨fun q n hq => ?_, fun q c hq => ?_, fun path c hpath hne hc => ?_,
    fun path c hpath hne hc => ?_⟩
  · rcases h.nodes q n hq with hq' | hcurrent
    · exact h'.nodes q n hq'
    · exact .inr hcurrent
  · rcases h'.made q c hq with hq' | hcurrent | ⟨hnone, hnew⟩
    · rcases h.made q c hq' with hold | hcurrent | ⟨hnone, path, names, d, hp, hplace, hcreation, hsome⟩
      · exact .inl hold
      · exact .inr (.inl hcurrent)
      · obtain ⟨e, he⟩ := Option.isSome_iff_exists.1 hsome
        have hpath := hcreation.isTablePath
        refine .inr (.inr ⟨hnone, path, names, d, hp, hplace, hcreation, ?_⟩)
        exact Option.isSome_iff_exists.2 ⟨e, h'.kept path e hpath.1 hpath.2 he⟩
    · exact .inr (.inl hcurrent)
    · by_cases hcurrent : q = root.currentPlace
      · exact .inr (.inl hcurrent)
      · -- What was there before would still have been there.
        refine .inr (.inr ⟨Option.eq_none_iff_forall_ne_some.2 fun n hn => ?_, hnew⟩)
        rcases h.nodes q n hn with hn' | ⟨he, -⟩
        · exact absurd (hnone.symm.trans hn') (by simp)
        · exact hcurrent he
  · exact h'.kept path c hpath hne (h.kept path c hpath hne hc)
  · rcases h'.fresh path c hpath hne hc with hbefore | hasked
    · exact h.fresh path c hpath hne hbefore
    · exact .inr hasked

/-- A file that was not there is created. -/
theorem of_created {path : String} {c : ByteArray} (hkeep : t.Keeps t')
    (hfresh : t.content? root path = none)
    (hfree : ∀ names, Path.Plain path names → t.node? (root.place ++ names) = none)
    (hnow : t.Becomes t' root path c) (hasked : asked (.create path c))
    (hcreation : Request.IsCreation (.create path c)) : Grows asked root t t' := by
  refine ⟨fun q n hq => .inl (hkeep q n hq), fun q d hq => ?_, fun other d hother _ hd => ?_,
    fun other d hother _ hd => ?_⟩
  · rcases hnow.nodes q d hq with hold | ⟨names, hp, rfl⟩
    · exact .inl hold
    · exact .inr (.inr ⟨hfree names hp, path, names, c, hp, rfl, hcreation, by rw [hnow.here]; rfl⟩)
  · have hne : other ≠ path := by
      rintro rfl
      rw [hfresh] at hd
      exact absurd hd (by simp)
    rw [hnow.elsewhere other hother hne, hd]
  · by_cases he : other = path
    · subst he
      obtain rfl : c = d := Option.some.inj (hnow.here.symm.trans hd)
      exact .inr ⟨hasked, hcreation⟩
    · exact .inl ((hnow.elsewhere other hother he).symm.trans hd)

/-- The file for the current version may change. -/
theorem of_current {c : ByteArray} (hkeep : t.KeepsBut root.currentPlace t')
    (hnow : t.Becomes t' root currentPath c) :
    Grows asked root t t' := by
  refine ⟨hkeep, fun q d hq => ?_, fun path d hpath hne hd => ?_, fun path d hpath hne hd => .inl ?_⟩
  · rcases hnow.nodes q d hq with hold | ⟨names, hp, rfl⟩
    · exact .inl hold
    · rw [hp.names_eq currentPath_isFile.1]
      exact .inr (.inl rfl)
  · rw [hnow.elsewhere path hpath hne, hd]
  · rw [← hnow.elsewhere path hpath hne, hd]

theorem keepsDirectories (h : Grows asked root t t') : t.KeepsDirectories t' :=
  h.nodes.keepsDirectories

/-- A path leads where it did before. -/
theorem follow (h : Grows asked root t t') {path : String} {place : Place}
    (hfollow : t.follow path = .ok place) : t'.follow path = .ok place :=
  follow_mono h.keepsDirectories hfollow

/-- What was read before is read again, unless it names the current version. -/
theorem readBytes (h : Grows asked root t t') {path : String} {c : ByteArray}
    (hread : t.readBytes path = .ok c) (hother : t.node? root.currentPlace ≠ some (.file c)) :
    t'.readBytes path = .ok c := by
  obtain ⟨p, hfollow, hnode⟩ := readBytes_eq_ok.1 hread
  refine readBytes_eq_ok.2 ⟨p, h.follow hfollow, ?_⟩
  rcases h.nodes p _ hnode with hkept | ⟨rfl, -⟩
  · exact hkept
  · exact absurd hnode hother

/-- Where a path leads from which something was read, this was read. -/
theorem node_of_follow (h : Grows asked root t t') {path : String} {c : ByteArray} {place : Place}
    (hcontent : t.content? root path = some c)
    (hfollow : t'.follow (Path.join root.path path) = .ok place) :
    t.node? place = some (.file c) := by
  obtain ⟨p, hp, hnode⟩ := readBytes_eq_ok.1 (readBytes_of_content hcontent)
  have hsame := (h.follow hp).symm.trans hfollow
  rw [← Except.ok.inj hsame, hnode]

end Grows

/-- Every content beside the log was asked for under a name made from it. -/
def Supplied (asked : Request → Prop) (root : Location) (t : Tree) : Prop :=
  ∀ path c, IsTablePath path → path ≠ currentPath → t.content? root path = some c →
    asked (.create path c) ∧ Request.IsCreation (.create path c)

theorem Supplied.grows (h : t.Supplied asked root) (hgrows : Grows asked root t t') :
    t'.Supplied asked root := by
  intro path c hpath hne hc
  rcases hgrows.fresh path c hpath hne hc with hbefore | hasked
  · exact h path c hpath hne hbefore
  · exact hasked

/-- The content was asked for under a name made from it, and this name is taken. -/
structure Filed (asked : Request → Prop) (root : Location) (t : Tree) (content : ByteArray)
    (path : String) : Prop where
  named : ∃ kind, IsNameOf content kind path
  asked : asked (.create path content)
  there : (t.content? root path).isSome

theorem Filed.grows {content : ByteArray} {path : String} (h : t.Filed asked root content path)
    (hgrows : Grows asked root t t') : t'.Filed asked root content path := by
  obtain ⟨kind, hname⟩ := h.named
  obtain ⟨c, hc⟩ := Option.isSome_iff_exists.1 h.there
  exact ⟨h.named, h.asked, Option.isSome_iff_exists.2
    ⟨c, hgrows.kept path c hname.isTablePath hname.outside_log.1 hc⟩⟩

/-- Whatever is found under the name made from some content that was asked for is this
content. -/
theorem Filed.content {content : ByteArray} {path : String} (h : t.Filed asked root content path)
    (hsupplied : t.Supplied asked root) (hclear : Unambiguous asked) :
    t.content? root path = some content := by
  obtain ⟨kind, hname⟩ := h.named
  obtain ⟨c, hc⟩ := Option.isSome_iff_exists.1 h.there
  obtain ⟨hasked, hcreation⟩ := hsupplied path c hname.isTablePath hname.outside_log.1 hc
  cases hcreation with
  | commit version => exact absurd rfl (hname.outside_log.2 version)
  | named hname' =>
    obtain ⟨rfl, -⟩ := hname'.contentId_eq hname
    rw [hc, hclear _ path c content hasked h.asked hname' hname]

end Tree

end Lakehouse
