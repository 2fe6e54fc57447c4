import Lakehouse.Schema
import Mathlib.Data.List.Nodup

/- Looking columns up.

   As neither ids nor names occur twice in a schema, the field that is found by one of them is the
   only one that has it. -/
namespace Lakehouse.Schema

variable {schema : Schema} {id : FieldId} {name : String} {field f g : Field}

/-- No two fields have the same id. -/
theorem eq_of_id_eq (hf : f ∈ schema.fields) (hg : g ∈ schema.fields) (h : f.id = g.id) : f = g :=
  List.inj_on_of_nodup_map (List.pairwise_map.2 (schema.distinct.imp And.left)) hf hg h

/-- No two fields have the same name. -/
theorem eq_of_name_eq (hf : f ∈ schema.fields) (hg : g ∈ schema.fields) (h : f.name = g.name) :
    f = g :=
  List.inj_on_of_nodup_map (List.pairwise_map.2 (schema.distinct.imp And.right)) hf hg h

/-- A field is found by its id. -/
theorem byId?_of_mem (h : field ∈ schema.fields) : schema.byId? field.id = some field := by
  have hsome : (schema.byId? field.id).isSome := List.find?_isSome.2 ⟨field, h, by simp⟩
  obtain ⟨found, hfound⟩ := Option.isSome_iff_exists.1 hsome
  rw [hfound, eq_of_id_eq (List.mem_of_find?_eq_some hfound) h
    (by simpa using List.find?_some hfound)]

/-- The field that is found by a name is the one that has it. -/
theorem byName?_eq_some_iff :
    schema.byName? name = some field ↔ field ∈ schema.fields ∧ field.name = name := by
  refine ⟨fun h => ⟨List.mem_of_find?_eq_some h, by simpa using List.find?_some h⟩, ?_⟩
  rintro ⟨hmem, rfl⟩
  have hsome : (schema.byName? field.name).isSome := List.find?_isSome.2 ⟨field, hmem, by simp⟩
  obtain ⟨found, hfound⟩ := Option.isSome_iff_exists.1 hsome
  rw [hfound, eq_of_name_eq (List.mem_of_find?_eq_some hfound) hmem
    (by simpa using List.find?_some hfound)]

theorem byName?_eq_none_iff :
    schema.byName? name = none ↔ ∀ field ∈ schema.fields, field.name ≠ name := by
  simp [byName?]

end Lakehouse.Schema
