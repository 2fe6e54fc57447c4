import Lakehouse.Parquet.Metrics
import Lakehouse.Proofs.Schema
import Lakehouse.Proofs.Store.Path
import Lakehouse.Proofs.Success
import Lakehouse.Proofs.Text.Numerals
import Mathlib.Data.List.TakeWhile

/- Values in paths.

   A directory named `column=value` gives a value for a column, and the last one on the way to a
   file counts (`GivesLast`). The name of the column ends at the first equals sign, so a value may
   have such signs, but the name of a column that is found has none (`splitName_eq_some_iff`).
   Dots, repeated slashes and directories with other names are passed over (`pairs_directoryNames`),
   and a datum is read back from its own text (`Datum.read?_display`). So a path with the values of
   all source columns, in whatever order, gives the tuple of these values, and any other path
   fails for the first column of the spec without a value, or with a text that is no value of its
   type (`paths_give_their_values`). -/
namespace Lakehouse

theorem Datum.read?_display (d : Datum) : Datum.read? d.type d.display = some d := by
  cases d with
  | boolean b => cases b <;> rfl
  | int i =>
    show (Text.readInt32 (String.ofList (Text.signedDecimal i.toInt)).toList).toOption.map Datum.int = _
    rw [String.toList_ofList, Text.readInt32_signedDecimal]
    rfl
  | long i =>
    show (Text.readInt64 (String.ofList (Text.signedDecimal i.toInt)).toList).toOption.map Datum.long = _
    rw [String.toList_ofList, Text.readInt64_signedDecimal]
    rfl
  | string s => rfl

namespace PartitionSpec

variable {schema : Schema} {columns : List String} {spec : PartitionSpec}

/-- The fields of a spec by columns have these columns as their sources, one by one. -/
theorem identity_sources (h : identity schema columns = .ok spec) :
    List.Forall₂ (fun name p => ∃ source, schema.byName? name = some source ∧
      p.sourceId = source.id) columns spec.fields := by
  have hfields : ∀ (columns : List String) index fields,
      identityFields schema index columns = .ok fields →
      List.Forall₂ (fun name p => ∃ source, schema.byName? name = some source ∧
        p.sourceId = source.id) columns fields := by
    intro columns
    induction columns with
    | nil =>
      intro index fields hok
      obtain rfl := Except.ok.inj hok
      exact .nil
    | cons name columns ih =>
      intro index fields hok
      obtain ⟨p, hp, hok⟩ := bind_eq_ok.1 hok
      obtain ⟨rest, hrest, hok⟩ := bind_eq_ok.1 hok
      obtain rfl := Except.ok.inj hok
      refine .cons ?_ (ih _ _ hrest)
      rw [identityField] at hp
      split at hp
      next source hsource =>
        obtain rfl := Except.ok.inj hp
        exact ⟨source, hsource, rfl⟩
      next => exact absurd hp (by simp)
  obtain ⟨fields, hok, rfl⟩ := map_eq_ok.1 h
  exact hfields columns 0 fields hok

end PartitionSpec

/-! ### Files below directories -/

/-- The path leads through the directories to the file. Directories may be empty, as between two
slashes, and they may be dots. -/
structure Path.LeadsTo (path : String) (directories : List String) (file : String) : Prop where
  path_eq : path = "/".intercalate (directories ++ [file])
  noSlash : ∀ name ∈ directories ++ [file], '/' ∉ name.toList
  ne_empty : file ≠ ""
  ne_dot : file ≠ "."

namespace Path

/-- Empty names and dots lead nowhere. -/
def nameOf? (directory : String) : Option String :=
  match Step.ofSegment? directory.toList with
  | some (.down name) => some name
  | _ => none

theorem nameOf?_eq_some {directory name : String} (h : nameOf? directory = some name) :
    name = directory := by
  rw [nameOf?] at h
  split at h
  next heq =>
    obtain rfl := Option.some.inj h
    unfold Step.ofSegment? at heq
    split at heq
    next => exact absurd heq (by simp)
    next => exact absurd heq (by simp)
    next => exact absurd heq (by simp)
    next =>
      obtain rfl := Step.down.inj (Option.some.inj heq)
      exact String.ofList_toList
  next => exact absurd h (by simp)

/-- The directories on the way to a file that have names. -/
theorem LeadsTo.directoryNames_eq {path : String} {directories : List String} {file : String}
    (h : LeadsTo path directories file) :
    directoryNames path = directories.filterMap nameOf? := by
  have hsegments : segments path.toList = (directories ++ [file]).map String.toList := by
    rw [h.path_eq, String.toList_intercalate]
    apply segments_intercalate
    · simp
    · intro s hs
      obtain ⟨name, hname, rfl⟩ := List.mem_map.1 hs
      exact h.noSlash name hname
  -- The name of the file is the last component, as it is neither empty nor a dot.
  obtain ⟨step, hstep, hfile⟩ : ∃ step, Step.ofSegment? file.toList = some step ∧
      [step].filter (fun s => !s.isStay) = [step] := by
    unfold Step.ofSegment?
    split
    next heq => exact absurd (String.toList_inj.1 heq) h.ne_empty
    next heq => exact absurd (String.toList_inj.1 heq) h.ne_dot
    next => exact ⟨_, rfl, rfl⟩
    next => exact ⟨_, rfl, rfl⟩
  rw [directoryNames, components, hsegments, List.map_append, List.filterMap_append,
    List.filter_append, List.map_singleton, List.filterMap_cons_some hstep, List.filterMap_nil,
    hfile, List.dropLast_concat, List.filterMap_filter,
    List.filterMap_filterMap, List.filterMap_map]
  refine List.filterMap_congr fun directory _ => ?_
  rw [Function.comp_apply, nameOf?]
  cases Step.ofSegment? directory.toList with
  | none => rfl
  | some step => cases step <;> rfl

end Path

namespace Parquet

/-- The directory gives a value for the column. -/
def Gives (directory column text : String) : Prop := directory = column ++ "=" ++ text

/-- The last of the directories with a value for the column gives this one. -/
def GivesLast (directories : List String) (column text : String) : Prop :=
  ∃ before directory after, directories = before ++ directory :: after ∧
    Gives directory column text ∧ ∀ d ∈ after, ∀ other, ¬ Gives d column other

theorem splitName_eq_some_iff {directory column text : String} :
    splitName directory = some (column, text) ↔
      '=' ∉ column.toList ∧ Gives directory column text := by
  have hmark : "=".toList = ['='] := rfl
  have hparts := List.takeWhile_append_dropWhile (p := (· ≠ '=')) (l := directory.toList)
  rw [Gives, splitName, ← String.toList_inj, String.toList_append, String.toList_append, hmark]
  constructor
  · intro h
    split at h
    next => exact absurd h (by simp)
    next c value hvalue =>
      -- What is dropped begins with the first equals sign, and what is taken has none.
      obtain ⟨rfl, rfl⟩ := Prod.mk.inj (Option.some.inj h)
      rw [hvalue] at hparts
      obtain rfl : c = '=' := by
        have hhead := List.head?_dropWhile_not (fun c => decide (c ≠ '=')) directory.toList
        rw [hvalue] at hhead
        simpa using hhead
      rw [String.toList_ofList, String.toList_ofList]
      refine ⟨fun hmem => ?_, ?_⟩
      · simpa using List.mem_takeWhile_imp hmem
      · rw [List.append_assoc, List.singleton_append]
        exact hparts.symm
  · intro h
    obtain ⟨hname, heq⟩ := h
    have hall : ∀ c ∈ column.toList, decide (c ≠ '=') = true := by
      intro c hc
      rw [decide_eq_true_eq]
      rintro rfl
      exact hname hc
    rw [heq, List.append_assoc, List.dropWhile_append_of_pos hall,
      List.takeWhile_append_of_pos hall, List.singleton_append,
      List.dropWhile_cons_of_neg (by simp), List.takeWhile_cons_of_neg (by simp)]
    simp only [List.append_nil, String.ofList_toList]

/-- Only directories with names give values. -/
theorem pairs_directoryNames {path file : String} {directories : List String}
    (h : Path.LeadsTo path directories file) :
    (Path.directoryNames path).filterMap splitName = directories.filterMap splitName := by
  rw [h.directoryNames_eq, List.filterMap_filterMap]
  refine List.filterMap_congr fun directory _ => ?_
  cases hname : Path.nameOf? directory with
  | some name =>
    rw [Path.nameOf?_eq_some hname]
    rfl
  | none =>
    -- Without a name there is no equals sign.
    rw [Path.nameOf?] at hname
    split at hname
    next => exact absurd hname (by simp)
    next hnot =>
      unfold Step.ofSegment? at hnot
      split at hnot
      next heq => simp [splitName, heq]
      next heq => simp [splitName, heq]
      next heq => simp [splitName, heq]
      next => exact absurd rfl (hnot _)

variable {path file column text : String} {directories columns : List String} {schema : Schema}
  {spec : PartitionSpec} {source : Field}

/-- What the last directory gives is looked up. -/
theorem valueText?_eq_some_iff (hcolumn : '=' ∉ column.toList) :
    valueText? directories column = some text ↔ GivesLast directories column text := by
  rw [valueText?, List.lookup_eq_some_iff]
  constructor
  · intro h
    -- The pairs are looked up from the last one back, so those passed over are of later directories.
    obtain ⟨later, earlier, hpairs, hlater⟩ := h
    rw [List.reverse_eq_iff, List.reverse_append, List.reverse_cons, List.append_assoc,
      List.singleton_append] at hpairs
    obtain ⟨before, rest, rfl, -, hrest⟩ := List.filterMap_eq_append_iff.1 hpairs
    obtain ⟨between, directory, after, rfl, -, hsplit, hafter⟩ := List.filterMap_eq_cons_iff.1 hrest
    refine ⟨before ++ between, directory, after, (List.append_assoc _ _ _).symm,
      (splitName_eq_some_iff.1 hsplit).2, fun d hd other hgives => ?_⟩
    have hmem : (column, other) ∈ later := by
      rw [← List.mem_reverse, ← hafter]
      exact List.mem_filterMap.2 ⟨d, hd, splitName_eq_some_iff.2 ⟨hcolumn, hgives⟩⟩
    exact absurd (hlater _ hmem) (by simp)
  · intro h
    obtain ⟨before, directory, after, rfl, hgives, hlast⟩ := h
    refine ⟨(after.filterMap splitName).reverse, (before.filterMap splitName).reverse, ?_, ?_⟩
    · rw [List.filterMap_append,
        List.filterMap_cons_some (splitName_eq_some_iff.2 ⟨hcolumn, hgives⟩), List.reverse_append,
        List.reverse_cons, List.append_assoc, List.singleton_append]
    · intro pair hpair
      obtain ⟨d, hd, hpair⟩ := List.mem_filterMap.1 (List.mem_reverse.1 hpair)
      rw [bne_iff_ne]
      rintro rfl
      exact hlast d hd pair.2 (splitName_eq_some_iff.1 hpair).2

theorem valueText?_eq_none (h : ∀ d ∈ directories, ∀ text, ¬ Gives d column text) :
    valueText? directories column = none := by
  rw [valueText?, List.lookup_eq_none_iff]
  intro pair hpair
  obtain ⟨d, hd, hpair⟩ := List.mem_filterMap.1 (List.mem_reverse.1 hpair)
  rw [bne_iff_ne]
  rintro rfl
  exact h d hd pair.2 (splitName_eq_some_iff.1 hpair).2

/-! ### Slots -/

/-- The text of a slot in the name of a directory. -/
def slotText : Option Datum → String
  | none => nullMarker
  | some d => d.display

/-- The slot of a type with a text. -/
def readSlot? (type : ColumnType) (text : String) : Option (Option Datum) :=
  if text = nullMarker then some none else (Datum.read? type text).map some

/-- The slot can be written for a column of the type. -/
def Writable (type : ColumnType) (slot : Option Datum) : Prop :=
  ∀ d, slot = some d → d.type = type ∧ d ≠ .string nullMarker

/-- Only a string can have the text of a null. -/
theorem display_ne_nullMarker {d : Datum} (h : d ≠ .string nullMarker) : d.display ≠ nullMarker := by
  intro heq
  have hread := d.read?_display
  rw [heq] at hread
  -- The marker is neither a number nor a truth value.
  have hnone : ∀ type, type ≠ .string → Datum.read? type nullMarker = none := by
    intro type htype
    cases type with
    | string => exact absurd rfl htype
    | _ => decide
  cases d with
  | string s => exact h (congrArg _ heq)
  | _ =>
    rw [hnone _ (by simp [Datum.type])] at hread
    exact absurd hread (by simp)

/-- A slot is read from its text. -/
theorem readSlot?_slotText {type : ColumnType} {slot : Option Datum} (h : Writable type slot) :
    readSlot? type (slotText slot) = some slot := by
  cases slot with
  | none => exact if_pos rfl
  | some d =>
    obtain ⟨rfl, hne⟩ := h d rfl
    rw [slotText, readSlot?, if_neg (display_ne_nullMarker hne), d.read?_display]
    rfl

/-- The slot for a column of the schema, as the last directory gives it. -/
def columnSlot (path : String) (schema : Schema) (column : String) :
    Except ImportError (Option Datum) :=
  match schema.byName? column with
  | none => .error (.missingPartitionValue path column)
  | some source =>
    match valueText? (Path.directoryNames path) column with
    | none => .error (.missingPartitionValue path column)
    | some text =>
      match readSlot? source.type text with
      | none => .error (.invalidPartitionValue path column text)
      | some slot => .ok slot

/-- A spec by columns has the slots of these columns. -/
theorem partitionFromPath_identity (h : PartitionSpec.identity schema columns = .ok spec) :
    partitionFromPath path schema spec = columns.mapM (columnSlot path schema) := by
  refine (mapM_congr_forall₂ ((PartitionSpec.identity_sources h).imp ?_)).symm
  intro column p hsource
  obtain ⟨source, hsource, hp⟩ := hsource
  obtain ⟨hmem, rfl⟩ := Schema.byName?_eq_some_iff.1 hsource
  simp only [columnSlot, slotFromPath, hsource, hp, Schema.byId?_of_mem hmem]
  cases valueText? (Path.directoryNames path) source.name with
  | none => rfl
  | some text =>
    by_cases hnull : text = nullMarker
    · simp only [readSlot?, if_pos hnull]
    · simp only [readSlot?, if_neg hnull]
      cases Datum.read? source.type text <;> rfl

section

variable (h : Path.LeadsTo path directories file) (hcolumn : '=' ∉ column.toList)

include h

theorem valueText?_leadsTo : valueText? (Path.directoryNames path) column =
    valueText? directories column := by
  rw [valueText?, valueText?, pairs_directoryNames h]

theorem columnSlot_missing (hnone : ∀ d ∈ directories, ∀ text, ¬ Gives d column text) :
    columnSlot path schema column = .error (.missingPartitionValue path column) := by
  rw [columnSlot]
  split
  next => rfl
  next => rw [valueText?_leadsTo h, valueText?_eq_none hnone]

include hcolumn

theorem columnSlot_invalid (hsource : schema.byName? column = some source)
    (hlast : GivesLast directories column text) (hread : readSlot? source.type text = none) :
    columnSlot path schema column = .error (.invalidPartitionValue path column text) := by
  simp only [columnSlot, hsource, valueText?_leadsTo h, (valueText?_eq_some_iff hcolumn).2 hlast, hread]

theorem columnSlot_ok {slot : Option Datum} (hsource : schema.byName? column = some source)
    (hlast : GivesLast directories column text) (hread : readSlot? source.type text = some slot) :
    columnSlot path schema column = .ok slot := by
  simp only [columnSlot, hsource, valueText?_leadsTo h, (valueText?_eq_some_iff hcolumn).2 hlast, hread]

end

/-- The directories give a value of its type for the column. -/
def HasSlot (schema : Schema) (directories : List String) (column : String) : Prop :=
  ∃ source text slot, schema.byName? column = some source ∧ GivesLast directories column text ∧
    readSlot? source.type text = some slot

/-- If the last directory for each source column of a spec has the text of a value of the column,
or that of a null, then the path gives the tuple of these values, whatever else is on the way.
Otherwise the first column decides, in the order of the spec, for which there is no directory or
one with another text. -/
theorem paths_give_their_values (hspec : PartitionSpec.identity schema columns = .ok spec)
    (hcolumns : ∀ column ∈ columns, '=' ∉ column.toList)
    (h : Path.LeadsTo path directories file) :
    (∀ slots : String → Option Datum,
      (∀ column ∈ columns, ∀ source, schema.byName? column = some source →
        Writable source.type (slots column)) →
      (∀ column ∈ columns, GivesLast directories column (slotText (slots column))) →
      partitionFromPath path schema spec = .ok (columns.map slots)) ∧
    (∀ before column after, columns = before ++ column :: after →
      (∀ b ∈ before, HasSlot schema directories b) →
      (∀ d ∈ directories, ∀ text, ¬ Gives d column text) →
      partitionFromPath path schema spec = .error (.missingPartitionValue path column)) ∧
    ∀ before column after source text, columns = before ++ column :: after →
      (∀ b ∈ before, HasSlot schema directories b) → schema.byName? column = some source →
      GivesLast directories column text → readSlot? source.type text = none →
      partitionFromPath path schema spec = .error (.invalidPartitionValue path column text) := by
  have hslots : ∀ b ∈ columns, HasSlot schema directories b →
      ∃ slot, columnSlot path schema b = .ok slot := by
    intro b hb hslot
    obtain ⟨source, text, slot, hsource, hlast, hread⟩ := hslot
    exact ⟨slot, columnSlot_ok h (hcolumns b hb) hsource hlast hread⟩
  rw [partitionFromPath_identity hspec]
  refine ⟨?_, ?_, ?_⟩
  · intro slots hwritable hlast
    apply mapM_eq_ok
    intro column hcolumn
    -- A column of a spec is in the schema, so it has a type.
    obtain ⟨p, -, source, hsource, -⟩ :=
      exists_of_forall₂ (PartitionSpec.identity_sources hspec) hcolumn
    exact columnSlot_ok h (hcolumns column hcolumn) hsource (hlast column hcolumn)
      (readSlot?_slotText (hwritable column hcolumn source hsource))
  · intro before column after heq hbefore hnone
    subst heq
    refine mapM_eq_error (fun b hb => hslots b (by simp [hb]) (hbefore b hb)) ?_
    exact columnSlot_missing h hnone
  · intro before column after source text heq hbefore hsource hlast hread
    subst heq
    refine mapM_eq_error (fun b hb => hslots b (by simp [hb]) (hbefore b hb)) ?_
    exact columnSlot_invalid h (hcolumns column (by simp)) hsource hlast hread

/-- Sales with their number and the name of the shop. -/
def sales : Schema :=
  ⟨[⟨1, "id", .int, true⟩, ⟨2, "shop", .string, false⟩, ⟨3, "paid", .boolean, false⟩],
    by simp [Field.Distinct]⟩

def salesByAll : PartitionSpec :=
  ⟨0, [⟨1, 1000, "id"⟩, ⟨2, 1001, "shop"⟩, ⟨3, 1002, "paid"⟩]⟩

theorem paths_give_their_values_sales :
    PartitionSpec.identity sales ["id", "shop", "paid"] = .ok salesByAll ∧
    (∀ column ∈ ["id", "shop", "paid"], '=' ∉ column.toList) ∧
    Path.LeadsTo "./shop=a=b//id=7/paid=__HIVE_DEFAULT_PARTITION__/id=-5/../part-0"
      [".", "shop=a=b", "", "id=7", "paid=__HIVE_DEFAULT_PARTITION__", "id=-5", ".."] "part-0" ∧
    partitionFromPath "./shop=a=b//id=7/paid=__HIVE_DEFAULT_PARTITION__/id=-5/../part-0" sales
      salesByAll = .ok [some (.int (-5)), some (.string "a=b"), none] ∧
    Path.LeadsTo "shop=a/id=five/part-0" ["shop=a", "id=five"] "part-0" ∧
    partitionFromPath "shop=a/id=five/part-0" sales salesByAll =
      .error (.invalidPartitionValue "shop=a/id=five/part-0" "id" "five") ∧
    Path.LeadsTo "shop=a/part-0" ["shop=a"] "part-0" ∧
    partitionFromPath "shop=a/part-0" sales salesByAll =
      .error (.missingPartitionValue "shop=a/part-0" "id") := by
  have hspec : PartitionSpec.identity sales ["id", "shop", "paid"] = .ok salesByAll := rfl
  have hcolumns : ∀ column ∈ ["id", "shop", "paid"], '=' ∉ column.toList := by decide
  have hmixed : Path.LeadsTo "./shop=a=b//id=7/paid=__HIVE_DEFAULT_PARTITION__/id=-5/../part-0"
      [".", "shop=a=b", "", "id=7", "paid=__HIVE_DEFAULT_PARTITION__", "id=-5", ".."] "part-0" :=
    ⟨by decide, by decide, by decide, by decide⟩
  have hfive : Path.LeadsTo "shop=a/id=five/part-0" ["shop=a", "id=five"] "part-0" :=
    ⟨by decide, by decide, by decide, by decide⟩
  have hnone : Path.LeadsTo "shop=a/part-0" ["shop=a"] "part-0" :=
    ⟨by decide, by decide, by decide, by decide⟩
  refine ⟨hspec, hcolumns, hmixed, ?_, hfive, ?_, hnone, ?_⟩
  · refine (paths_give_their_values hspec hcolumns hmixed).1 (fun column =>
      if column = "id" then some (.int (-5)) else if column = "shop" then some (.string "a=b")
      else none) ?_ ?_
    · intro column hcolumn source hsource d hd
      obtain ⟨hmem, rfl⟩ := Schema.byName?_eq_some_iff.1 hsource
      rcases List.mem_cons.1 hmem with rfl | hmem
      · obtain rfl := Option.some.inj hd
        exact ⟨rfl, by simp⟩
      · rcases List.mem_cons.1 hmem with rfl | hmem
        · obtain rfl := Option.some.inj hd
          exact ⟨rfl, by decide⟩
        · obtain rfl := List.mem_singleton.1 hmem
          exact absurd hd (by simp)
    · intro column hcolumn
      refine (valueText?_eq_some_iff (hcolumns column hcolumn)).1 ?_
      revert column
      decide +kernel
  · refine (paths_give_their_values hspec hcolumns hfive).2.2 [] "id" ["shop", "paid"]
      ⟨1, "id", .int, true⟩ "five" rfl (by simp) rfl ?_ (by decide)
    exact (valueText?_eq_some_iff (by decide)).1 (by decide)
  · refine (paths_give_their_values hspec hcolumns hnone).2.1 [] "id" ["shop", "paid"] rfl
      (by simp) ?_
    intro d hd text hgives
    obtain rfl := List.mem_singleton.1 hd
    exact absurd (splitName_eq_some_iff.2 ⟨by decide, hgives⟩) (by simp [splitName])

end Parquet

end Lakehouse
