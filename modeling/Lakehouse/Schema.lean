import Lakehouse.Datum

/- Table schemas.

   A schema is a list of fields in which no id and no name occurs twice; columns
   are looked up by either. `Schema.ofFields` builds a schema or reports the first
   clash: fields are compared with those before them, from the first on, ids
   before names. -/
namespace Lakehouse

abbrev FieldId := Int32

/-- A column of a table. -/
structure Field where
  id : FieldId
  name : String
  type : ColumnType
  required : Bool
  deriving DecidableEq, Repr, Inhabited

/-- Why fields do not form a schema, or a schema does not carry a partitioning. -/
inductive SchemaError where
  | duplicateFieldId (id : FieldId)
  | duplicateFieldName (name : String)
  | unknownSourceColumn (name : String)
  deriving DecidableEq, Repr

def SchemaError.message : SchemaError → String
  | .duplicateFieldId id => s!"Duplicate field id {(Datum.int id).display} in schema"
  | .duplicateFieldName name => s!"Duplicate field name {Text.quoted name} in schema"
  | .unknownSourceColumn name =>
    s!"Partition source column {Text.quoted name} not found in schema"

/-- Neither the ids nor the names of two fields agree. -/
def Field.Distinct (a b : Field) : Prop := a.id ≠ b.id ∧ a.name ≠ b.name

/-- The first clash of `f` with one of the fields before it. -/
def Field.clash? (f : Field) : List Field → Option SchemaError
  | [] => none
  | e :: rest =>
    if e.id = f.id then some (.duplicateFieldId f.id)
    else if e.name = f.name then some (.duplicateFieldName f.name)
    else f.clash? rest

/-- The first clash of one of the given fields with a field before it. -/
def firstClash? (earlier : List Field) : List Field → Option SchemaError
  | [] => none
  | f :: rest =>
    match f.clash? earlier with
    | some e => some e
    | none => firstClash? (earlier ++ [f]) rest

theorem Field.distinct_of_clash?_eq_none {f : Field} {earlier : List Field}
    (h : f.clash? earlier = none) : ∀ e ∈ earlier, e.Distinct f := by
  induction earlier with
  | nil => simp
  | cons e rest ih =>
    simp only [Field.clash?] at h
    split at h
    · simp at h
    next hid =>
      split at h
      · simp at h
      next hname =>
        intro x hx
        rcases List.mem_cons.1 hx with rfl | hx
        · exact ⟨hid, hname⟩
        · exact ih h x hx

theorem pairwise_of_firstClash?_eq_none {earlier fields : List Field}
    (hp : earlier.Pairwise Field.Distinct) (h : firstClash? earlier fields = none) :
    (earlier ++ fields).Pairwise Field.Distinct := by
  induction fields generalizing earlier with
  | nil => simpa using hp
  | cons f rest ih =>
    simp only [firstClash?] at h
    split at h
    · simp at h
    next hf =>
      have hp' : (earlier ++ [f]).Pairwise Field.Distinct := by
        rw [List.pairwise_append]
        refine ⟨hp, by simp, fun a ha b hb => ?_⟩
        obtain rfl := List.mem_singleton.1 hb
        exact Field.distinct_of_clash?_eq_none hf a ha
      simpa using ih hp' h

/-- The columns of a table. -/
structure Schema where
  fields : List Field
  distinct : fields.Pairwise Field.Distinct
  deriving DecidableEq

namespace Schema

instance : Inhabited Schema := ⟨⟨[], .nil⟩⟩

/-- The schema with these fields, unless two of them clash. -/
def ofFields (fields : List Field) : Except SchemaError Schema :=
  match h : firstClash? [] fields with
  | some e => .error e
  | none => .ok ⟨fields, pairwise_of_firstClash?_eq_none .nil h⟩

def byName? (s : Schema) (name : String) : Option Field :=
  s.fields.find? fun f => f.name = name

def byId? (s : Schema) (id : FieldId) : Option Field :=
  s.fields.find? fun f => f.id = id

end Schema

end Lakehouse
