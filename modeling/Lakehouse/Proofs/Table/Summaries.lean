import Lakehouse.Proofs.Counting
import Lakehouse.Proofs.Filter.Evidence

/- What the record of a manifest says of its entries.

   A record is made in one walk over the entries (`summarize_eq_foldl`): each entry is counted with
   its rows under its own status, and each slot of it is covered by the summary of the slot. What a
   summary says of the values that it covers (`SlotSummary.Tells`) is that some were missing, and
   which are outermost; there is only one summary that says so (`Tells.unique`), and the summaries
   of two lists of values are joined to the summary of both (`Tells.join`). So the order of the
   entries does not matter, and the record of entries that stand one behind the other is joined from
   the records of its parts (`summaries_are_tight`). -/
namespace Lakehouse

variable {values others : List (Option Datum)} {entries : List ManifestEntry}

/-! ### Outermost values -/

/-- The value that stands before all others there are; without any there is none. -/
structure Outermost (before : Datum → Datum → Prop) (values : List (Option Datum))
    (bound : Option Datum) : Prop where
  absent : bound = none ↔ ∀ v, some v ∉ values
  occurs : ∀ b, bound = some b → some b ∈ values
  bounds : ∀ b, bound = some b → ∀ v, some v ∈ values → before b v

namespace Outermost

variable {before : Datum → Datum → Prop} {bound bound' : Option Datum}

theorem single {v : Option Datum} (hself : ∀ d, before d d) : Outermost before [v] v := by
  refine ⟨?_, fun b hb => List.mem_singleton.2 hb.symm, fun b hb d hd => ?_⟩
  · cases v with
    | none => simp
    | some b => simp
  · obtain rfl := List.mem_singleton.1 hd
    exact Option.some.inj hb ▸ hself d

/-- Where the same values occur, the same one is outermost. -/
theorem unique (hboth : ∀ a b, before a b → before b a → a = b) (h : Outermost before values bound)
    (h' : Outermost before others bound') (hsame : ∀ v, some v ∈ values ↔ some v ∈ others) :
    bound = bound' := by
  cases bound with
  | none =>
    have hnone := h.absent.1 rfl
    exact (h'.absent.2 fun v hv => hnone v ((hsame v).2 hv)).symm
  | some b =>
    have hb := h.occurs b rfl
    cases bound' with
    | none => exact absurd ((hsame b).1 hb) (h'.absent.1 rfl b)
    | some b' =>
      have hb' := h'.occurs b' rfl
      have hfirst := h.bounds b rfl b' ((hsame b').2 hb')
      have hsecond := h'.bounds b' rfl b ((hsame b).1 hb)
      exact congrArg some (hboth b b' hfirst hsecond)

/-- Of two outermost values, one is outermost among the values of both. -/
theorem merge {pick : Datum → Datum → Datum}
    (hpick : ∀ a b, (pick a b = a ∧ before a b) ∨ (pick a b = b ∧ before b a))
    (htrans : ∀ a b c, before a b → before b c → before a c)
    (h : Outermost before values bound) (h' : Outermost before others bound') :
    Outermost before (values ++ others) (bound.merge pick bound') := by
  cases bound with
  | none =>
    have hnone := h.absent.1 rfl
    rw [Option.merge_none_left]
    refine ⟨?_, fun b hb => List.mem_append_right _ (h'.occurs b hb), fun b hb v hv => ?_⟩
    · rw [h'.absent]
      simp [hnone]
    · exact h'.bounds b hb v ((List.mem_append.1 hv).resolve_left (hnone v))
  | some a =>
    cases bound' with
    | none =>
      have hnone := h'.absent.1 rfl
      rw [Option.merge_none_right]
      refine ⟨?_, fun b hb => List.mem_append_left _ (h.occurs b hb), fun b hb v hv => ?_⟩
      · rw [h.absent]
        simp [hnone]
      · exact h.bounds b hb v ((List.mem_append.1 hv).resolve_right (hnone v))
    | some b =>
      have ha := List.mem_append_left others (h.occurs a rfl)
      have hb := List.mem_append_right values (h'.occurs b rfl)
      rw [Option.merge_some_some]
      refine ⟨iff_of_false (Option.some_ne_none _) fun hnone => hnone a ha, ?_, ?_⟩
      · rintro c hc
        obtain rfl := Option.some.inj hc
        rcases hpick a b with ⟨hpicked, -⟩ | ⟨hpicked, -⟩ <;> rwa [hpicked]
      · rintro c hc v hv
        obtain rfl := Option.some.inj hc
        have hleft : some v ∈ values → before a v := h.bounds a rfl v
        have hright : some v ∈ others → before b v := h'.bounds b rfl v
        -- What is picked is before the other, and so before all that the other is before.
        rcases hpick a b with ⟨hpicked, hbefore⟩ | ⟨hpicked, hbefore⟩ <;> rw [hpicked]
        · exact (List.mem_append.1 hv).elim hleft fun hin => htrans a b v hbefore (hright hin)
        · exact (List.mem_append.1 hv).elim (fun hin => htrans b a v hbefore (hleft hin)) hright

end Outermost

/-! ### Summaries of slots -/

namespace SlotSummary

variable {s s' : SlotSummary} {v : Option Datum}

/-- The summary says of the values of a slot whether one is missing, and which are outermost. -/
structure Tells (values : List (Option Datum)) (s : SlotSummary) : Prop where
  containsNull : s.containsNull = true ↔ none ∈ values
  lower : Outermost (· ≤ ·) values s.lower
  upper : Outermost (fun b v => v ≤ b) values s.upper

/-- The summary of what two summaries tell of. -/
def join (s s' : SlotSummary) : SlotSummary where
  containsNull := s.containsNull || s'.containsNull
  lower := s.lower.merge (fun b => lesser (some b)) s'.lower
  upper := s.upper.merge (fun b => greater (some b)) s'.upper

/-- To cover a slot is to join its own summary. -/
theorem cover_eq_join (s : SlotSummary) (v : Option Datum) : s.cover v = s.join ⟨v.isNone, v, v⟩ := by
  obtain ⟨containsNull, lower, upper⟩ := s
  cases v with
  | none => simp [cover, join]
  | some d =>
    simp only [cover, join, Option.isNone_some, Bool.or_false]
    cases lower <;> cases upper <;> rfl

namespace Tells

theorem empty : Tells [] .empty := by
  refine ⟨by simp [SlotSummary.empty], ?_, ?_⟩ <;>
    exact ⟨by simp [SlotSummary.empty], by simp [SlotSummary.empty], by simp⟩

theorem single (v : Option Datum) : Tells [v] ⟨v.isNone, v, v⟩ := by
  refine ⟨?_, .single Std.le_refl, .single Std.le_refl⟩
  cases v <;> simp

theorem join (h : s.Tells values) (h' : s'.Tells others) : (s.join s').Tells (values ++ others) := by
  have hlesser : ∀ a b : Datum, (lesser (some a) b = a ∧ a ≤ b) ∨ (lesser (some a) b = b ∧ b ≤ a) := by
    intro a b
    simp only [lesser]
    grind
  have hgreater : ∀ a b : Datum,
      (greater (some a) b = a ∧ b ≤ a) ∨ (greater (some a) b = b ∧ a ≤ b) := by
    intro a b
    simp only [greater]
    grind
  refine ⟨?_, ?_, ?_⟩
  · rw [SlotSummary.join, Bool.or_eq_true, h.containsNull, h'.containsNull, List.mem_append]
  · exact h.lower.merge hlesser (fun _ _ _ => Std.le_trans) h'.lower
  · exact h.upper.merge hgreater (fun _ _ _ hab hbc => Std.le_trans hbc hab) h'.upper

/-- There is one summary of the values that occur. -/
theorem unique (h : s.Tells values) (h' : s'.Tells others) (hsame : ∀ v, v ∈ values ↔ v ∈ others) :
    s = s' := by
  have hnull : s.containsNull = s'.containsNull := by
    rw [Bool.eq_iff_iff, h.containsNull, h'.containsNull, hsame]
  have hlower : s.lower = s'.lower :=
    h.lower.unique (fun _ _ => Std.le_antisymm) h'.lower fun v => hsame (some v)
  have hupper : s.upper = s'.upper :=
    h.upper.unique (fun _ _ hab hba => Std.le_antisymm hba hab) h'.upper fun v => hsame (some v)
  obtain ⟨containsNull, lower, upper⟩ := s
  obtain ⟨containsNull', lower', upper'⟩ := s'
  simp_all

end Tells

/-- The values that entries have in a slot. -/
def valuesOf (entries : List ManifestEntry) (slot : Nat) : List (Option Datum) :=
  entries.map fun e => e.file.partition.value? slot

theorem ofEntries_concat (e : ManifestEntry) (slot : Nat) : ofEntries (entries ++ [e]) slot =
    (ofEntries entries slot).cover (e.file.partition.value? slot) := List.foldl_concat ..

/-- The summary of a slot tells of the values that the entries have in it. -/
theorem tells_ofEntries (entries : List ManifestEntry) (slot : Nat) :
    (ofEntries entries slot).Tells (valuesOf entries slot) := by
  -- The walk has covered what it has passed; so the induction is on the last entry.
  induction entries using List.reverseRecOn with
  | nil => exact .empty
  | append_singleton entries e ih =>
    rw [ofEntries_concat, cover_eq_join, valuesOf, List.map_append, List.map_singleton]
    exact ih.join (.single _)

theorem ofEntries_perm {entries others : List ManifestEntry} (h : entries.Perm others) (slot : Nat) :
    ofEntries entries slot = ofEntries others slot :=
  (tells_ofEntries entries slot).unique (tells_ofEntries others slot) fun _ => (h.map _).mem_iff

theorem ofEntries_append (entries more : List ManifestEntry) (slot : Nat) :
    ofEntries (entries ++ more) slot = (ofEntries entries slot).join (ofEntries more slot) := by
  have hboth := (tells_ofEntries entries slot).join (tells_ofEntries more slot)
  refine (tells_ofEntries (entries ++ more) slot).unique hboth fun v => ?_
  rw [valuesOf, List.map_append]
  rfl

end SlotSummary

/-! ### Tallies -/

namespace Tally

variable {status : EntryStatus}

/-- The tally after one more file. -/
def count (t : Tally) (f : DataFile) : Tally := ⟨t.files + 1, t.rows + f.recordCount⟩

/-- The tally of what two tallies count. -/
def join (t t' : Tally) : Tally := ⟨t.files + t'.files, t.rows + t'.rows⟩

theorem ofEntries_append (status : EntryStatus) (entries more : List ManifestEntry) :
    ofEntries status (entries ++ more) = (ofEntries status entries).join (ofEntries status more) := by
  have hfiles : ∀ entries : List ManifestEntry, (ofEntries status entries).files =
      UInt32.ofNat (entries.filter (·.status = status)).length := fun _ => rfl
  have hrows : ∀ entries : List ManifestEntry, (ofEntries status entries).rows = UInt64.ofNat
      (DataFile.rows ((entries.filter (·.status = status)).map (·.file))) := by
    intro entries
    rw [← UInt64.toNat_inj, toNat_ofEntries_rows, UInt64.toNat_ofNat']
  have hjoin : ∀ t t' : Tally, t.files = t'.files → t.rows = t'.rows → t = t' := by
    rintro ⟨_, _⟩ ⟨_, _⟩ rfl rfl
    rfl
  refine hjoin _ _ ?_ ?_
  · rw [join, hfiles, hfiles, hfiles, List.filter_append, List.length_append, UInt32.ofNat_add]
  · rw [join, hrows, hrows, hrows, List.filter_append, List.map_append, DataFile.rows_append,
      UInt64.ofNat_add]

theorem ofEntries_concat (e : ManifestEntry) : ofEntries status (entries ++ [e]) =
    if e.status = status then (ofEntries status entries).count e.file
    else ofEntries status entries := by
  rw [ofEntries_append]
  split
  next h => simp [ofEntries, join, count, h, DataFile.totalRecords]
  next h => simp [ofEntries, join, h, DataFile.totalRecords]

theorem ofEntries_perm {others : List ManifestEntry} (h : entries.Perm others) :
    ofEntries status entries = ofEntries status others := by
  have hcounted := h.filter (·.status = status)
  have hfiles := hcounted.length_eq
  have hrows := DataFile.rows_perm (hcounted.map (·.file))
  have htotal : ∀ files files' : List DataFile, DataFile.rows files = DataFile.rows files' →
      DataFile.totalRecords files = DataFile.totalRecords files' := by
    intro files files' hsame
    rw [← UInt64.toNat_inj, DataFile.toNat_totalRecords, DataFile.toNat_totalRecords, hsame]
  rw [ofEntries, ofEntries, hfiles, htotal _ _ hrows]

end Tally

/-! ### Records -/

namespace ManifestRecord

variable {r : ManifestRecord} {path : String} {length : UInt64} {specId : Int32}
  {spec : PartitionSpec} {id : SnapshotId}

/-- The entries of one status, as the record counts them. -/
def tally (r : ManifestRecord) : EntryStatus → Tally
  | .added => r.added
  | .existing => r.existing
  | .deleted => r.deleted

/-- The record of a manifest without entries. -/
def blank (path : String) (length : UInt64) (specId : Int32) (spec : PartitionSpec)
    (id : SnapshotId) : ManifestRecord :=
  ⟨path, length, specId, id, ⟨0, 0⟩, ⟨0, 0⟩, ⟨0, 0⟩, List.replicate spec.fields.length .empty⟩

/-- The record after one more entry is counted under its status. -/
def count (r : ManifestRecord) (e : ManifestEntry) : ManifestRecord :=
  match e.status with
  | .added => { r with added := r.added.count e.file }
  | .existing => { r with existing := r.existing.count e.file }
  | .deleted => { r with deleted := r.deleted.count e.file }

/-- The record after one more entry is counted, and its slots are covered. -/
def takeIn (r : ManifestRecord) (e : ManifestEntry) : ManifestRecord :=
  { r.count e with slots := r.slots.mapIdx fun i s => s.cover (e.file.partition.value? i) }

/-- The record of the entries of two records. -/
def join (r r' : ManifestRecord) : ManifestRecord where
  path := r.path
  length := r.length
  specId := r.specId
  addedSnapshotId := r.addedSnapshotId
  added := r.added.join r'.added
  existing := r.existing.join r'.existing
  deleted := r.deleted.join r'.deleted
  slots := List.zipWith SlotSummary.join r.slots r'.slots

/-- The record counts the entries and their rows under their status, and has a summary for each
slot of the spec, which tells of the values in the slot. -/
structure SumsUp (spec : PartitionSpec) (entries : List ManifestEntry) (r : ManifestRecord) :
    Prop where
  files : ∀ status, (r.tally status).files.toNat = (entries.filter (·.status = status)).length
  rows : ∀ status, (r.tally status).rows.toNat =
    DataFile.rows ((entries.filter (·.status = status)).map (·.file))
  width : r.slots.length = spec.fields.length
  slots : ∀ (i : Nat) (s : SlotSummary), r.slots[i]? = some s →
    s.Tells (SlotSummary.valuesOf entries i)

theorem tally_summarize (status : EntryStatus) :
    (summarize path length ⟨specId, entries⟩ spec id).tally status = .ofEntries status entries := by
  cases status <;> rfl

theorem slots_summarize : (summarize path length ⟨specId, entries⟩ spec id).slots =
    (List.range spec.fields.length).map (SlotSummary.ofEntries entries) := rfl

/-- One entry behind the others is taken in by their record. -/
theorem summarize_concat (e : ManifestEntry) :
    summarize path length ⟨specId, entries ++ [e]⟩ spec id =
      (summarize path length ⟨specId, entries⟩ spec id).takeIn e := by
  have hslots : (List.range spec.fields.length).map (SlotSummary.ofEntries (entries ++ [e])) =
      ((List.range spec.fields.length).map (SlotSummary.ofEntries entries)).mapIdx
        fun i s => s.cover (e.file.partition.value? i) := by
    refine List.ext_getElem (by simp) fun i hi _ => ?_
    simp [SlotSummary.ofEntries_concat]
  obtain ⟨status, sid, f⟩ := e
  simp only [summarize, hslots, Tally.ofEntries_concat]
  cases status <;> rfl

/-- The record is made in one walk over the entries. -/
theorem summarize_eq_foldl : summarize path length ⟨specId, entries⟩ spec id =
    entries.foldl takeIn (blank path length specId spec id) := by
  induction entries using List.reverseRecOn with
  | nil =>
    have hslots : (List.range spec.fields.length).map (SlotSummary.ofEntries []) =
        List.replicate spec.fields.length .empty := by
      refine (List.map_const' ..).trans ?_
      rw [List.length_range]
      rfl
    simp only [summarize, hslots]
    rfl
  | append_singleton entries e ih => rw [summarize_concat, ih, List.foldl_concat]

theorem summarize_perm {others : List ManifestEntry} (h : entries.Perm others) :
    summarize path length ⟨specId, entries⟩ spec id =
      summarize path length ⟨specId, others⟩ spec id := by
  have hslots : SlotSummary.ofEntries entries = SlotSummary.ofEntries others :=
    funext fun slot => SlotSummary.ofEntries_perm h slot
  simp only [summarize, hslots, Tally.ofEntries_perm h]

theorem summarize_append (entries more : List ManifestEntry) :
    summarize path length ⟨specId, entries ++ more⟩ spec id =
      (summarize path length ⟨specId, entries⟩ spec id).join
        (summarize path length ⟨specId, more⟩ spec id) := by
  have hslots : (List.range spec.fields.length).map (SlotSummary.ofEntries (entries ++ more)) =
      List.zipWith SlotSummary.join
        ((List.range spec.fields.length).map (SlotSummary.ofEntries entries))
        ((List.range spec.fields.length).map (SlotSummary.ofEntries more)) := by
    refine List.ext_getElem (by simp) fun i hi _ => ?_
    simp [SlotSummary.ofEntries_append]
  simp only [summarize, hslots, Tally.ofEntries_append]
  rfl

theorem sumsUp_summarize (path : String) (length : UInt64) (specId : Int32) (spec : PartitionSpec)
    (id : SnapshotId)
    (hcount : entries.length < 2 ^ 32)
    (hrows : DataFile.rows (entries.map (·.file)) < 2 ^ 64) :
    (summarize path length ⟨specId, entries⟩ spec id).SumsUp spec entries := by
  refine ⟨fun status => ?_, fun status => ?_, ?_, fun i s hs => ?_⟩
  · rw [tally_summarize, Tally.toNat_ofEntries_files, List.length_map, Nat.mod_eq_of_lt]
    exact Nat.lt_of_le_of_lt (List.length_filter_le _ _) hcount
  · rw [tally_summarize, Tally.toNat_ofEntries_rows, Nat.mod_eq_of_lt]
    refine Nat.lt_of_le_of_lt ?_ hrows
    exact List.Sublist.sum_le_sum ((List.filter_sublist.map _).map _) fun _ _ => Nat.zero_le _
  · rw [slots_summarize, List.length_map, List.length_range]
  · rw [slots_summarize, List.getElem?_map] at hs
    obtain ⟨j, hj, rfl⟩ := Option.map_eq_some_iff.1 hs
    obtain ⟨_, rfl⟩ := List.getElem?_eq_some_iff.1 hj
    rw [List.getElem_range]
    exact SlotSummary.tells_ofEntries entries i

/-- Of entries whose number and rows fit the counters: the record counts each entry and its rows
under exactly its status, and its summaries tell of the slots of the entries whether a value is
missing and which values are outermost. It is made in one walk over the entries. Their order does
not matter, and the record of two lists of entries one behind the other is joined from their
records, of which the counts add up. -/
theorem summaries_are_tight (path : String) (length : UInt64) (specId : Int32)
    (spec : PartitionSpec) (id : SnapshotId) (entries : List ManifestEntry)
    (hcount : entries.length < 2 ^ 32) (hrows : DataFile.rows (entries.map (·.file)) < 2 ^ 64) :
    (summarize path length ⟨specId, entries⟩ spec id).SumsUp spec entries ∧
    summarize path length ⟨specId, entries⟩ spec id =
      entries.foldl takeIn (blank path length specId spec id) ∧
    (∀ others, entries.Perm others → summarize path length ⟨specId, others⟩ spec id =
      summarize path length ⟨specId, entries⟩ spec id) ∧
    ∀ first second, entries = first ++ second →
      summarize path length ⟨specId, entries⟩ spec id =
        (summarize path length ⟨specId, first⟩ spec id).join
          (summarize path length ⟨specId, second⟩ spec id) ∧
      ∀ status,
        ((summarize path length ⟨specId, entries⟩ spec id).tally status).files.toNat =
          ((summarize path length ⟨specId, first⟩ spec id).tally status).files.toNat +
            ((summarize path length ⟨specId, second⟩ spec id).tally status).files.toNat ∧
        ((summarize path length ⟨specId, entries⟩ spec id).tally status).rows.toNat =
          ((summarize path length ⟨specId, first⟩ spec id).tally status).rows.toNat +
            ((summarize path length ⟨specId, second⟩ spec id).tally status).rows.toNat := by
  have hall := sumsUp_summarize path length specId spec id hcount hrows
  refine ⟨hall, summarize_eq_foldl, fun others hperm => (summarize_perm hperm).symm, ?_⟩
  rintro first second rfl
  rw [List.length_append] at hcount
  rw [List.map_append, DataFile.rows_append] at hrows
  have hfirst := @sumsUp_summarize first path length specId spec id (by omega) (by omega)
  have hsecond := @sumsUp_summarize second path length specId spec id (by omega) (by omega)
  refine ⟨summarize_append first second, fun status => ⟨?_, ?_⟩⟩
  · rw [hall.files, hfirst.files, hsecond.files, List.filter_append, List.length_append]
  · rw [hall.rows, hfirst.rows, hsecond.rows, List.filter_append, List.map_append,
      DataFile.rows_append]

/-- The entries of a manifest with one slot: a file was added, one was found, and one without a value
was taken out. -/
def slotEntries : List ManifestEntry :=
  [⟨.added, some 2, .withoutMetrics "c.parquet" [some (.int 3)] 30 100⟩,
    ⟨.existing, some 1, .withoutMetrics "a.parquet" [some (.int 1)] 10 100⟩,
    ⟨.deleted, some 2, .withoutMetrics "b.parquet" [none] 20 100⟩]

theorem summaries_are_tight_slotEntries : slotEntries.length < 2 ^ 32 ∧
    DataFile.rows (slotEntries.map (·.file)) < 2 ^ 64 ∧
    (summarize "m.json" 500 ⟨0, slotEntries⟩ ⟨0, [⟨1, 1000, "id"⟩]⟩ 2).SumsUp
      ⟨0, [⟨1, 1000, "id"⟩]⟩ slotEntries ∧
    (summarize "m.json" 500 ⟨0, slotEntries⟩ ⟨0, [⟨1, 1000, "id"⟩]⟩ 2).slots =
      [⟨true, some (.int 1), some (.int 3)⟩] := by
  have hcount : slotEntries.length < 2 ^ 32 := by decide
  have hrows : DataFile.rows (slotEntries.map (·.file)) < 2 ^ 64 := by decide
  have htight := summaries_are_tight "m.json" 500 0 ⟨0, [⟨1, 1000, "id"⟩]⟩ 2 slotEntries hcount hrows
  exact ⟨hcount, hrows, htight.1, rfl⟩

end ManifestRecord

end Lakehouse
