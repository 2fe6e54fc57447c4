import Lakehouse.Parquet.Footer
import Lakehouse.Proofs.Success
import Lakehouse.Schema

/- Footers as they are read.

   A group of rows is read with one chunk for each leaf of the tree of columns, maybe more than
   once, and what a chunk knows of its bounds are values of the type that the leaf has
   (`Footer.ofFile?_leaves`). So a column that stands in one group stands in all of them, and its
   bounds have one type, unless two columns go by the same name (`Footer.Regular`). What is shown of
   a reader here is what all that it delivers has in common (`Delivers`), whatever the bytes are. -/
namespace Lakehouse.Parquet

open Thrift

variable {α β σ : Type}

/-! ### What readers deliver -/

/-- All that the reader delivers has the property. -/
def Delivers (read : ByteReader α) (p : α → Prop) : Prop :=
  ∀ bytes a rest, read bytes = some (a, rest) → p a

namespace Delivers

variable {read : ByteReader α} {p q : α → Prop}

theorem mono (h : Delivers read p) (hpq : ∀ a, p a → q a) : Delivers read q :=
  fun bytes a rest hread => hpq a (h bytes a rest hread)

theorem any (read : ByteReader α) : Delivers read fun _ => True := fun _ _ _ _ => trivial

theorem pure {a : α} (h : p a) : Delivers (Pure.pure a) p := by
  intro bytes b rest hread
  obtain ⟨rfl, -⟩ := Prod.mk.inj (Option.some.inj hread)
  exact h

theorem bind {next : α → ByteReader β} {r : β → Prop} (h : Delivers read p)
    (hnext : ∀ a, p a → Delivers (next a) r) : Delivers (read >>= next) r := by
  intro bytes b rest hread
  obtain ⟨⟨a, between⟩, hfirst, hread⟩ := Option.bind_eq_some_iff.1 hread
  exact hnext a (h bytes a between hfirst) between b rest hread

theorem ofOption (result : Option α) : Delivers (liftM result) fun a => result = some a := by
  intro bytes a rest hread
  obtain ⟨b, rfl, hread⟩ := Option.bind_eq_some_iff.1 hread
  obtain ⟨rfl, -⟩ := Prod.mk.inj (Option.some.inj hread)
  rfl

theorem check (condition : Prop) [Decidable condition] :
    Delivers (guard condition) fun _ => condition := by
  intro bytes a rest hread
  by_cases h : condition
  · exact h
  · rw [guard, if_neg h] at hread
    exact nomatch hread

theorem past (read : ByteReader α) {kept : β} {r : β → Prop} (h : r kept) :
    Delivers (past read kept) r :=
  (any read).bind fun _ _ => pure h

theorem readTimes (h : Delivers read p) (count : Nat) :
    Delivers (readTimes read count) fun l => ∀ a ∈ l, p a := by
  induction count with
  | zero => exact pure (by simp)
  | succ count ih =>
    refine h.bind fun a ha => ih.bind fun l hl => pure ?_
    exact List.forall_mem_cons.2 ⟨ha, hl⟩

theorem mapM {l : List α} {f : α → ByteReader β} {related : α → β → Prop}
    (h : ∀ a, Delivers (f a) (related a)) : Delivers (l.mapM f) (List.Forall₂ related l) := by
  induction l with
  | nil =>
    rw [List.mapM_nil]
    exact pure .nil
  | cons a l ih =>
    rw [List.mapM_cons]
    exact (h a).bind fun b hb => ih.bind fun bs hbs => pure (.cons hb hbs)

/-- What each field keeps is so at the end. -/
theorem foldFields {I : σ → Prop} {step : σ → Thrift.Field → ByteReader σ}
    (hstep : ∀ s field, I s → Delivers (step s field) I) (steps : Nat) (previous : Int) {s : σ}
    (hs : I s) : Delivers (foldFields step steps previous s) I := by
  induction steps generalizing previous s with
  -- Without steps left nothing is delivered.
  | zero => exact fun _ _ _ hread => nomatch hread
  | succ steps ih =>
    rw [Thrift.foldFields]
    refine (any _).bind fun field _ => ?_
    cases field with
    | none => exact pure hs
    | some field => exact (hstep s field hs).bind fun next hnext => ih field.number hnext

/-- What the known fields of a record keep, and the numbers of the others, is so at the end. -/
theorem readNumbered {I : σ → List Int → Prop} {start : σ}
    {known : σ → Thrift.Field → Option (ByteReader σ)} (hstart : I start [])
    (hknown : ∀ s numbers field step, I s numbers → known s field = some step →
      Delivers step fun next => I next (field.number :: numbers))
    (hunknown : ∀ s numbers field, I s numbers → known s field = none →
      I s (field.number :: numbers)) :
    Delivers (readNumbered start known) fun result => I result.1 result.2 := by
  intro bytes result rest hread
  refine foldFields (I := fun s => I s.1 s.2) (fun s field hs => ?_) _ _ hstart bytes result rest
    hread
  obtain ⟨s, numbers⟩ := s
  dsimp only
  cases hstep : known s field with
  | some step => exact (hknown s numbers field step hs hstep).bind fun next hnext => pure hnext
  | none => exact (any _).bind fun _ _ => pure (hunknown s numbers field hs hstep)

/-- The numbers that are required are among those of the fields. -/
theorem readRecord {required : List Int} {I : σ → List Int → Prop} {start : σ}
    {known : σ → Thrift.Field → Option (ByteReader σ)} (hstart : I start [])
    (hknown : ∀ s numbers field step, I s numbers → known s field = some step →
      Delivers step fun next => I next (field.number :: numbers))
    (hunknown : ∀ s numbers field, I s numbers → known s field = none →
      I s (field.number :: numbers)) :
    Delivers (readRecord required start known) fun s =>
      ∃ numbers, I s numbers ∧ ∀ n ∈ required, n ∈ numbers := by
  refine (readNumbered hstart hknown hunknown).bind fun result hresult => ?_
  refine (check _).bind fun _ hrequired => pure ⟨result.2, hresult, fun n hn => ?_⟩
  exact List.contains_iff_mem.1 (List.all_eq_true.1 hrequired n hn)

end Delivers

/-! ### Chunks -/

/-- The type of the literals of a stored type that has some. -/
def PhysicalType.literals : PhysicalType → ColumnType
  | .boolean => .boolean
  | .int32 => .int
  | .int64 => .long
  | _ => .string

theorem Footer.type_of_literal? {type : PhysicalType} {bytes : List UInt8} {d : Datum}
    (h : literal? type bytes = some d) : d.type = type.literals := by
  cases type with
  | boolean =>
    obtain rfl := Option.some.inj h
    rfl
  | int32 =>
    obtain rfl := Option.some.inj h
    rfl
  | int64 =>
    obtain rfl := Option.some.inj h
    rfl
  | byteArray =>
    obtain ⟨s, -, rfl⟩ := Option.map_eq_some_iff.1 h
    rfl
  | _ => exact nomatch h

/-- The bytes are those of a literal. Not all bytes are those of a text, and some stored types have no
literals. -/
def Footer.HasLiteral : PhysicalType → List UInt8 → Prop
  | .boolean, _ => True
  | .int32, _ => True
  | .int64, _ => True
  | .byteArray, bytes => ∃ text, String.fromUTF8? ⟨bytes.toArray⟩ = some text
  | _, _ => False

theorem Footer.literal?_isSome {type : PhysicalType} {bytes : List UInt8} :
    (∃ d, literal? type bytes = some d) ↔ HasLiteral type bytes := by
  cases type with
  | boolean => exact ⟨fun _ => trivial, fun _ => ⟨_, rfl⟩⟩
  | int32 => exact ⟨fun _ => trivial, fun _ => ⟨_, rfl⟩⟩
  | int64 => exact ⟨fun _ => trivial, fun _ => ⟨_, rfl⟩⟩
  | byteArray =>
    constructor
    · intro h
      obtain ⟨d, hd⟩ := h
      obtain ⟨text, htext, -⟩ := Option.map_eq_some_iff.1 hd
      exact ⟨text, htext⟩
    · intro h
      obtain ⟨text, htext⟩ := h
      exact ⟨.string text, Option.map_eq_some_iff.2 ⟨text, htext, rfl⟩⟩
  | _ => exact ⟨fun h => (nomatch h), fun h => (nomatch h)⟩

/-- The bounds are values of the type. -/
def Statistics.HasType (type : ColumnType) (s : Statistics) : Prop :=
  ∀ b, s.bounds = some b → b.1.type = type ∧ b.2.type = type

/-- The bounds that statistics have are the literals of both bounds in the file. -/
theorem Footer.RawStatistics.bounds_iff {type : PhysicalType} {raw : RawStatistics} {s : Statistics}
    (h : raw.statistics? type = some s) (b : Datum × Datum) : s.bounds = some b ↔
      ∃ lower upper, raw.bounds = (some lower, some upper) ∧ literal? type lower = some b.1 ∧
        literal? type upper = some b.2 := by
  obtain ⟨-, -, h⟩ := Option.bind_eq_some_iff.1 h
  obtain rfl := Option.some.inj h
  constructor
  · intro hb
    obtain ⟨lowerBytes, hlowerBytes, hb⟩ := Option.bind_eq_some_iff.1 hb
    obtain ⟨lower, hlower, hb⟩ := Option.bind_eq_some_iff.1 hb
    obtain ⟨upperBytes, hupperBytes, hb⟩ := Option.bind_eq_some_iff.1 hb
    obtain ⟨upper, hupper, hb⟩ := Option.bind_eq_some_iff.1 hb
    obtain rfl := Option.some.inj hb
    exact ⟨lowerBytes, upperBytes, Prod.ext hlowerBytes hupperBytes, hlower, hupper⟩
  · intro hb
    obtain ⟨lower, upper, hboth, hlower, hupper⟩ := hb
    show (raw.bounds.1.bind fun l => (literal? type l).bind fun low => raw.bounds.2.bind fun u =>
      (literal? type u).bind fun high => some (low, high)) = some b
    rw [hboth, Option.bind_some, hlower, Option.bind_some, Option.bind_some, hupper]
    rfl

/-- There are bounds if both are in the file, and are the bytes of literals. -/
theorem Footer.RawStatistics.bounds_isSome {type : PhysicalType} {raw : RawStatistics}
    {s : Statistics} (h : raw.statistics? type = some s) : (∃ b, s.bounds = some b) ↔
      ∃ lower upper, raw.bounds = (some lower, some upper) ∧ HasLiteral type lower ∧
        HasLiteral type upper := by
  simp only [bounds_iff h, ← literal?_isSome]
  constructor
  · intro hb
    obtain ⟨b, lower, upper, hboth, hlower, hupper⟩ := hb
    exact ⟨lower, upper, hboth, ⟨b.1, hlower⟩, ⟨b.2, hupper⟩⟩
  · intro hb
    obtain ⟨lower, upper, hboth, ⟨low, hlow⟩, ⟨high, hhigh⟩⟩ := hb
    exact ⟨(low, high), lower, upper, hboth, hlow, hhigh⟩

theorem Footer.RawStatistics.hasType {type : PhysicalType} {raw : RawStatistics} {s : Statistics}
    (h : raw.statistics? type = some s) : s.HasType type.literals := by
  intro b hb
  obtain ⟨lower, upper, -, hlower, hupper⟩ := (bounds_iff h b).1 hb
  exact ⟨type_of_literal? hlower, type_of_literal? hupper⟩

/-- The chunk is one of the leaf. -/
structure ColumnChunk.OfLeaf (leaf : Leaf) (c : ColumnChunk) : Prop where
  path : c.path = leaf.path
  typed : ∀ s, c.statistics = some s → s.HasType leaf.type.literals

namespace Footer

theorem delivers_readValues {leaf : Leaf} {chunk : ColumnChunk} (h : chunk.OfLeaf leaf) :
    Delivers (readValues leaf.type chunk) fun result => result.1.OfLeaf leaf := by
  refine Delivers.readNumbered (I := fun (c : ColumnChunk) _ => c.OfLeaf leaf) h ?_
    (fun _ _ _ hc _ => hc)
  intro c numbers field step hc hstep
  split at hstep
  case h_4 =>
    obtain rfl := Option.some.inj hstep
    exact (Delivers.any _).bind fun _ _ => .pure ⟨hc.path, hc.typed⟩
  case h_6 =>
    obtain rfl := Option.some.inj hstep
    exact (Delivers.any _).bind fun _ _ => .pure ⟨hc.path, hc.typed⟩
  case h_10 =>
    obtain rfl := Option.some.inj hstep
    refine (Delivers.any _).bind fun raw _ => (Delivers.ofOption _).bind fun s hs =>
      .pure ⟨hc.path, fun s' hs' => ?_⟩
    obtain rfl := Option.some.inj hs'
    exact RawStatistics.hasType hs
  case h_16 => exact nomatch hstep
  -- What else is said of the values leaves the chunk as it is.
  all_goals
    obtain rfl := Option.some.inj hstep
    exact .past _ hc

theorem delivers_readChunk (leaf : Leaf) : Delivers (readChunk leaf) (ColumnChunk.OfLeaf leaf) := by
  have hstart : ColumnChunk.OfLeaf leaf ⟨leaf.path, 0, 0, none⟩ := ⟨rfl, fun _ hs => nomatch hs⟩
  refine Delivers.bind (Delivers.readRecord (I := fun result _ => result.1.OfLeaf leaf) hstart ?_
    (fun _ _ _ hc _ => hc)) fun result hresult => ?_
  · intro result numbers field step hc hstep
    obtain ⟨chunk, known⟩ := result
    dsimp only at hstep
    split at hstep
    case h_3 =>
      obtain rfl := Option.some.inj hstep
      exact delivers_readValues hc
    case h_8 => exact nomatch hstep
    all_goals
      obtain rfl := Option.some.inj hstep
      exact .past _ hc
  · obtain ⟨-, hc, -⟩ := hresult
    exact (Delivers.check _).bind fun _ _ => .pure hc

/-! ### Groups of rows -/

/-- The group has one chunk for each leaf, in order, once or more. -/
def IsGroup (leaves : List Leaf) (group : List ColumnChunk) : Prop :=
  ∃ blocks : List (List ColumnChunk), blocks ≠ [] ∧ group = blocks.flatten ∧
    ∀ block ∈ blocks, List.Forall₂ ColumnChunk.OfLeaf leaves block

theorem delivers_readChunks (leaves : List Leaf) :
    Delivers (readChunks leaves) (List.Forall₂ ColumnChunk.OfLeaf leaves) :=
  (Delivers.any _).bind fun _ _ => (Delivers.check _).bind fun _ _ => .mapM delivers_readChunk

/-- What has been read of a group, the field with its chunks being the first. -/
def IsPart (leaves : List Leaf) (chunks : List ColumnChunk) (numbers : List Int) : Prop :=
  ∃ blocks : List (List ColumnChunk), chunks = blocks.flatten ∧ (1 ∈ numbers → blocks ≠ []) ∧
    ∀ block ∈ blocks, List.Forall₂ ColumnChunk.OfLeaf leaves block

theorem IsPart.other {leaves : List Leaf} {chunks : List ColumnChunk} {numbers : List Int}
    (h : IsPart leaves chunks numbers) {number : Int} (hnumber : number ≠ 1) :
    IsPart leaves chunks (number :: numbers) := by
  obtain ⟨blocks, hchunks, hne, hblocks⟩ := h
  refine ⟨blocks, hchunks, fun hmem => hne ?_, hblocks⟩
  exact (List.mem_cons.1 hmem).resolve_left (Ne.symm hnumber)

theorem IsPart.chunks {leaves : List Leaf} {chunks block : List ColumnChunk} {numbers : List Int}
    (h : IsPart leaves chunks numbers) (hblock : List.Forall₂ ColumnChunk.OfLeaf leaves block)
    (number : Int) : IsPart leaves (chunks ++ block) (number :: numbers) := by
  obtain ⟨blocks, rfl, -, hblocks⟩ := h
  refine ⟨blocks ++ [block], by simp, by simp, ?_⟩
  rw [List.forall_mem_append]
  exact ⟨hblocks, by simpa using hblock⟩

theorem delivers_readGroup (leaves : List Leaf) :
    Delivers (readGroup leaves) fun result => IsGroup leaves result.1 := by
  have hstart : IsPart leaves [] [] := ⟨[], rfl, fun h => absurd h List.not_mem_nil, by simp⟩
  refine (Delivers.readRecord (I := fun result numbers => IsPart leaves result.1 numbers) hstart ?_
    ?_).mono ?_
  · intro result numbers field step hpart hstep
    obtain ⟨chunks, placed⟩ := result
    dsimp only at hpart hstep
    split at hstep
    case h_1 =>
      obtain rfl := Option.some.inj hstep
      exact (delivers_readChunks leaves).bind fun block hblock => .pure (hpart.chunks hblock _)
    case h_7 => exact nomatch hstep
    all_goals
      obtain rfl := Option.some.inj hstep
      exact .past _ (hpart.other (by omega))
  · intro result numbers field hpart hunknown
    -- The first field is known whatever its kind is, so an unknown field has another number.
    refine hpart.other fun hnumber => ?_
    simp [hnumber] at hunknown
  · intro result hresult
    obtain ⟨numbers, ⟨blocks, hchunks, hne, hblocks⟩, hrequired⟩ := hresult
    exact ⟨blocks, hne (hrequired 1 (by simp)), hchunks, hblocks⟩

theorem delivers_readGroups (leaves : List Leaf) :
    Delivers (readGroups leaves) fun groups => ∀ group ∈ groups, IsGroup leaves group := by
  refine (Delivers.any _).bind fun start _ => (Delivers.check _).bind fun _ _ => ?_
  refine (Delivers.readTimes (delivers_readGroup leaves) _).bind fun groups hgroups => ?_
  refine (Delivers.check _).bind fun _ _ => .pure fun group hgroup => ?_
  obtain ⟨result, hresult, rfl⟩ := List.mem_map.1 hgroup
  exact hgroups result hresult

/-- What has been read of a footer: the groups come after the tree. -/
def Progress.IsSound (p : Progress) : Prop :=
  match p.leaves with
  | none => p.footer.rowGroups = []
  | some leaves => ∀ group ∈ p.footer.rowGroups, IsGroup leaves group

theorem delivers_read : Delivers read fun footer =>
    ∃ leaves, ∀ group ∈ footer.rowGroups, IsGroup leaves group := by
  have hstart : Progress.IsSound {} := rfl
  refine (Delivers.readRecord (I := fun p _ => Progress.IsSound p) hstart ?_
    (fun _ _ _ hp _ => hp)).bind fun p hp => ?_
  · intro p numbers field step hp hstep
    split at hstep
    case h_2 =>
      split at hstep
      next => exact nomatch hstep
      next hnone =>
        obtain rfl := Option.some.inj hstep
        have hleaves : p.leaves = none := by simpa using hnone
        rw [Progress.IsSound, hleaves] at hp
        -- There are no groups yet.
        refine (Delivers.any _).bind fun elements _ => (Delivers.any _).bind fun leaves _ => .pure ?_
        intro group hgroup
        rw [hp] at hgroup
        exact absurd hgroup List.not_mem_nil
    case h_3 =>
      obtain rfl := Option.some.inj hstep
      exact (Delivers.any _).bind fun _ _ => .pure hp
    case h_4 =>
      obtain rfl := Option.some.inj hstep
      refine (Delivers.ofOption _).bind fun leaves hleaves => ?_
      refine (delivers_readGroups leaves).bind fun groups hgroups => .pure ?_
      rw [Progress.IsSound]
      dsimp only
      rw [hleaves]
      exact hgroups
    case h_7 =>
      obtain rfl := Option.some.inj hstep
      exact (Delivers.any _).bind fun _ _ => .pure hp
    case h_8 => exact nomatch hstep
    all_goals
      obtain rfl := Option.some.inj hstep
      exact .past _ hp
  · obtain ⟨numbers, hp, -⟩ := hp
    refine (Delivers.check _).bind fun _ _ => .pure ?_
    rw [Progress.IsSound] at hp
    split at hp
    next => exact ⟨[], by simp [hp]⟩
    next leaves _ => exact ⟨leaves, hp⟩

/-- The groups of rows of a file have one chunk for each leaf. -/
theorem ofFile?_leaves {bytes : ByteArray} {footer : Footer} (h : ofFile? bytes = some footer) :
    ∃ leaves, ∀ group ∈ footer.rowGroups, IsGroup leaves group := by
  rw [ofFile?] at h
  split at h
  next =>
    obtain ⟨⟨_, rest⟩, hread, rfl⟩ := Option.map_eq_some_iff.1 h
    exact delivers_read _ _ rest hread
  next => exact nomatch h

end Footer

/-! ### Columns of a file -/

/-- The chunk of a column at the top of the tree in a group of rows. -/
def chunk? (group : List ColumnChunk) (name : String) : Option ColumnChunk :=
  group.find? fun c => c.path = [name]

theorem chunk?_isSome_iff {group : List ColumnChunk} {name : String} :
    (chunk? group name).isSome ↔ ∃ c ∈ group, c.path = [name] := by
  simp [chunk?]

theorem mem_of_chunk? {group : List ColumnChunk} {name : String} {c : ColumnChunk}
    (h : chunk? group name = some c) : c ∈ group ∧ c.path = [name] :=
  ⟨List.mem_of_find?_eq_some h, by simpa using List.find?_some h⟩

namespace Footer

variable {footer : Footer} {schema : Schema} {leaves : List Leaf} {group block : List ColumnChunk}
  {name : String}

/-- No group of rows has two chunks at the top for the same column of the schema. -/
def Once (footer : Footer) (schema : Schema) : Prop :=
  ∀ group ∈ footer.rowGroups, ∀ field ∈ schema.fields,
    (group.filter fun c => c.path = [field.name]).length ≤ 1

/-- A column that is in one group of rows is in all of them, and all its bounds have one type. -/
structure Regular (footer : Footer) (schema : Schema) : Prop where
  everywhere : ∀ field ∈ schema.fields, ∀ group ∈ footer.rowGroups, ∀ other ∈ footer.rowGroups,
    (chunk? group field.name).isSome → (chunk? other field.name).isSome
  oneType : ∀ field ∈ schema.fields, ∃ type, ∀ group ∈ footer.rowGroups, ∀ c,
    chunk? group field.name = some c → ∀ s, c.statistics = some s → s.HasType type

theorem IsGroup.chunk?_isSome (h : IsGroup leaves group) :
    (chunk? group name).isSome ↔ ∃ leaf ∈ leaves, leaf.path = [name] := by
  obtain ⟨blocks, hne, rfl, hblocks⟩ := h
  rw [chunk?_isSome_iff]
  constructor
  · intro hc
    obtain ⟨c, hc, hpath⟩ := hc
    obtain ⟨block, hblock, hc⟩ := List.mem_flatten.1 hc
    obtain ⟨leaf, hleaf, hof⟩ := exists_of_forall₂ (hblocks block hblock).flip hc
    exact ⟨leaf, hleaf, hof.path.symm.trans hpath⟩
  · intro hleaf
    obtain ⟨leaf, hleaf, hpath⟩ := hleaf
    obtain ⟨block, hblock⟩ := List.exists_mem_of_ne_nil blocks hne
    obtain ⟨c, hc, hof⟩ := exists_of_forall₂ (hblocks block hblock) hleaf
    exact ⟨c, List.mem_flatten.2 ⟨block, hblock, hc⟩, hof.path.trans hpath⟩

/-- Of a column there are as many chunks in a block as leaves in the tree. -/
theorem length_filter_block (h : List.Forall₂ ColumnChunk.OfLeaf leaves block) :
    (block.filter fun c => c.path = [name]).length =
      (leaves.filter fun l => l.path = [name]).length := by
  induction h with
  | nil => rfl
  | cons hone _ ih => simp only [List.filter_cons, hone.path]; split <;> simp [ih]

/-- If no two chunks of a group are of the same column, no two leaves are. -/
theorem leaf_unique (h : IsGroup leaves group)
    (honce : (group.filter fun c => c.path = [name]).length ≤ 1) {leaf other : Leaf}
    (hleaf : leaf ∈ leaves) (hpath : leaf.path = [name]) (hother : other ∈ leaves)
    (hpath' : other.path = [name]) : leaf = other := by
  obtain ⟨blocks, hne, rfl, hblocks⟩ := h
  obtain ⟨block, hblock⟩ := List.exists_mem_of_ne_nil blocks hne
  -- One block has a chunk for each leaf of the column, so there cannot be two leaves.
  have hsub := ((List.sublist_flatten_of_mem hblock).filter fun c => decide (c.path = [name])).length_le
  rw [length_filter_block (hblocks block hblock)] at hsub
  have hmem : leaf ∈ leaves.filter fun l => l.path = [name] :=
    List.mem_filter.2 ⟨hleaf, decide_eq_true hpath⟩
  have hmem' : other ∈ leaves.filter fun l => l.path = [name] :=
    List.mem_filter.2 ⟨hother, decide_eq_true hpath'⟩
  obtain ⟨only, honly⟩ := List.length_eq_one_iff.1
    (Nat.le_antisymm (Nat.le_trans hsub honce) (List.length_pos_of_mem hmem))
  rw [honly, List.mem_singleton] at hmem hmem'
  rw [hmem, hmem']

theorem regular_of_leaves (h : ∀ group ∈ footer.rowGroups, IsGroup leaves group)
    (honce : footer.Once schema) : footer.Regular schema := by
  refine ⟨fun field _ group hgroup other hother hsome => ?_, fun field hfield => ?_⟩
  · rw [(h other hother).chunk?_isSome]
    exact (h group hgroup).chunk?_isSome.1 hsome
  · cases hfind : leaves.find? fun l => l.path = [field.name] with
    | none =>
      -- No group has a chunk of the column.
      refine ⟨.string, fun group hgroup c hc => ?_⟩
      obtain ⟨leaf, hleaf, hpath⟩ :=
        (h group hgroup).chunk?_isSome.1 (Option.isSome_iff_exists.2 ⟨c, hc⟩)
      have hnot := List.find?_eq_none.1 hfind leaf hleaf
      exact absurd hpath (by simpa using hnot)
    | some leaf =>
      have hleaf := List.mem_of_find?_eq_some hfind
      have hpath : leaf.path = [field.name] := by simpa using List.find?_some hfind
      refine ⟨leaf.type.literals, fun group hgroup c hc s hs => ?_⟩
      obtain ⟨hmem, hcpath⟩ := mem_of_chunk? hc
      obtain ⟨blocks, -, hflatten, hblocks⟩ := h group hgroup
      rw [hflatten] at hmem
      obtain ⟨block, hblock, hmem⟩ := List.mem_flatten.1 hmem
      obtain ⟨other, hother, hof⟩ := exists_of_forall₂ (hblocks block hblock).flip hmem
      have hsame := leaf_unique (h group hgroup) (honce group hgroup field hfield) hleaf hpath hother
        (hof.path.symm.trans hcpath)
      rw [hsame]
      exact hof.typed s hs

/-- The footer of a file is regular, if no two of its columns go by the name of the same column of
the schema. -/
theorem regular_of_file {bytes : ByteArray} (h : ofFile? bytes = some footer)
    (honce : footer.Once schema) : footer.Regular schema := by
  obtain ⟨leaves, hleaves⟩ := ofFile?_leaves h
  exact regular_of_leaves hleaves honce

end Footer

end Lakehouse.Parquet
