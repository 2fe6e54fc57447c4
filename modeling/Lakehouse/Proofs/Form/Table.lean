import Lakehouse.Proofs.Calendar.Rendering
import Lakehouse.Proofs.Json.Decoding

/- Table metadata through their forms and back.

   For every form there is one lemma, that what is written stands for the value. A
   record is taken field by field, in the order in which it is written; a schema is
   written without a check, and passes the one made on reading, since no two of its
   fields clash. -/
namespace Lakehouse

theorem Field.clash?_eq_none {f : Field} {earlier : List Field}
    (h : ∀ e ∈ earlier, e.Distinct f) : f.clash? earlier = none := by
  induction earlier with
  | nil => rfl
  | cons e earlier ih =>
    obtain ⟨hid, hname⟩ := h e (by simp)
    rw [Field.clash?, if_neg hid, if_neg hname]
    exact ih fun d hd => h d (by simp [hd])

theorem firstClash?_eq_none {earlier fields : List Field}
    (h : (earlier ++ fields).Pairwise Field.Distinct) : firstClash? earlier fields = none := by
  induction fields generalizing earlier with
  | nil => rfl
  | cons f rest ih =>
    have hf : f.clash? earlier = none :=
      Field.clash?_eq_none fun e he => (List.pairwise_append.1 h).2.2 e he f (by simp)
    rw [firstClash?, hf]
    exact ih (by rwa [List.append_assoc, List.singleton_append])

/-- The fields of a schema make this schema again. -/
theorem Schema.ofFields_fields (s : Schema) : Schema.ofFields s.fields = .ok s := by
  have hclash : firstClash? [] s.fields = none := firstClash?_eq_none s.distinct
  rw [Schema.ofFields]
  split
  next e he => exact absurd (he.symm.trans hclash) (by simp)
  next => rfl

namespace Carries

open RecordOf (Holds)

theorem instant (t : Calendar.Instant) : Carries Decoder.instant (Form.instant t) t := by
  refine ⟨(text t.render).regular, ?_⟩
  rw [Decoder.instant, Form.instant, (text t.render).decodes]
  simp only [bind, Except.bind]
  rw [Calendar.read?_render]
  rfl

theorem columnType (t : ColumnType) : Carries Form.readColumnType (Form.columnType t) t := by
  apply named
  cases t <;> rfl

theorem datum (d : Datum) : Carries Form.readDatum (Form.datum d) d := by
  cases d with
  | boolean b => exact tagged rfl ((bool b).map Datum.boolean)
  | int i => exact tagged rfl ((int32 i).map Datum.int)
  | long l => exact tagged rfl ((int64 l).map Datum.long)
  | string s => exact tagged rfl ((text s).map Datum.string)

theorem datum_ne_null (d : Datum) : Form.datum d ≠ .null := by
  cases d <;> exact Json.noConfusion

theorem slot (v : Option Datum) :
    Carries (Decoder.option Form.readDatum) (Form.option Form.datum v) v :=
  option datum datum_ne_null

theorem partitionTuple (t : PartitionTuple) :
    Carries Form.readPartitionTuple (Form.partitionTuple t) t :=
  list fun v _ => slot v

theorem field (f : Field) : Carries Form.readField (Form.field f) f := by
  refine RecordOf.carries_all ?_ (by decide) rfl
  refine Holds.seq (Holds.seq (Holds.seq (Holds.map ?_ Field.mk) ?_) ?_) ?_
  · exact Holds.present rfl (int32 f.id)
  · exact Holds.present rfl (text f.name)
  · exact Holds.present rfl (columnType f.type)
  · exact Holds.present rfl (bool f.required)

/-- The fields are checked when all of them are read, and do not clash. -/
theorem schema (s : Schema) : Carries Form.readSchema (Form.schema s) s := by
  have hfields : Carries (RecordOf.field "fields" (.list Form.readField)).decode (Form.schema s)
      s.fields := by
    refine RecordOf.carries_all ?_ (by decide) rfl
    exact Holds.present rfl (list fun f _ => field f)
  refine ⟨hfields.regular, ?_⟩
  rw [Form.readSchema, hfields.decodes]
  simp only [bind, Except.bind]
  rw [Schema.ofFields_fields]
  rfl

theorem partitionField (f : PartitionField) :
    Carries Form.readPartitionField (Form.partitionField f) f := by
  refine RecordOf.carries_all ?_ (by decide) rfl
  refine Holds.seq (f := fun _ => f) (a := ()) (Holds.seq (Holds.seq (Holds.map ?_ _) ?_) ?_) ?_
  · exact Holds.present rfl (int32 f.sourceId)
  · exact Holds.present rfl (int32 f.fieldId)
  · exact Holds.present rfl (text f.name)
  · exact Holds.present rfl (named rfl)

theorem partitionSpec (s : PartitionSpec) :
    Carries Form.readPartitionSpec (Form.partitionSpec s) s := by
  refine RecordOf.carries_all ?_ (by decide) rfl
  refine Holds.seq (Holds.map ?_ PartitionSpec.mk) ?_
  · exact Holds.present rfl (int32 s.specId)
  · exact Holds.present rfl (list fun f _ => partitionField f)

theorem metadata (m : Metadata) : Carries Form.readMetadata (Form.metadata m) m := by
  refine RecordOf.carries_all ?_ (by decide) rfl
  refine Holds.seq (Holds.seq (Holds.seq (Holds.seq (Holds.map ?_ Metadata.mk) ?_) ?_) ?_) ?_
  · exact Holds.present rfl (schema m.schema)
  · exact Holds.present rfl (partitionSpec m.spec)
  · exact Holds.present rfl (textMap m.properties)
  · exact Holds.present rfl (instant m.createdAt)
  · exact Holds.present rfl (uint32 m.formatVersion)

end Carries

end Lakehouse
