import Lakehouse.SortedMap
import Mathlib.Data.List.Nodup

/- Maps made from lists, and the greatest key.

   A map made from a list of bindings looks up the last binding of a key
   (`find?_insertAll`); if no key is bound twice, its bindings are those of the list,
   whatever their order (`find?_ofList_iff`). Entries in the order of a map give the
   map again. No key is greater than the last one. -/
namespace Lakehouse.SortedMap

variable {κ α : Type} [Ord κ]

theorem contains_iff {m : SortedMap κ α} {k : κ} : m.contains k = true ↔ ∃ a, m.find? k = some a := by
  rw [contains, Option.isSome_iff_exists]

theorem lastKey?_eq_none {m : SortedMap κ α} (h : m.lastKey? = none) : m = empty := by
  rw [lastKey?, List.getLast?_eq_none_iff, keys, List.map_eq_nil_iff] at h
  exact ext_entries h

theorem insertAll_cons [Std.TransOrd κ] (m : SortedMap κ α) (e : κ × α) (l : List (κ × α)) :
    m.insertAll (e :: l) = (m.insert e.1 e.2).insertAll l := rfl

theorem ofList_eq_insertAll [Std.TransOrd κ] (l : List (κ × α)) :
    ofList l = (empty : SortedMap κ α).insertAll l := rfl

variable [Std.TransOrd κ] [Std.LawfulEqOrd κ]

theorem find?_insert_self (m : SortedMap κ α) (k : κ) (a : α) : (m.insert k a).find? k = some a := by
  rw [find?_insert, if_pos Std.ReflCmp.compare_self]

theorem find?_insert_of_ne (m : SortedMap κ α) {k k' : κ} (a : α) (h : k' ≠ k) :
    (m.insert k a).find? k' = m.find? k' := by
  rw [find?_insert, if_neg fun e => h (Std.LawfulEqCmp.eq_of_compare e)]

theorem find?_insert_eq [DecidableEq κ] (m : SortedMap κ α) (k k' : κ) (a : α) :
    (m.insert k a).find? k' = if k' = k then some a else m.find? k' := by
  split
  next h => rw [h, find?_insert_self]
  next h => exact find?_insert_of_ne m a h

/-- What is found has just been inserted, or was there before under another key. -/
theorem find?_insert_cases {m : SortedMap κ α} {k k' : κ} {a b : α}
    (h : (m.insert k a).find? k' = some b) : k' = k ∧ b = a ∨ k' ≠ k ∧ m.find? k' = some b := by
  by_cases hk : k' = k
  · rw [hk, find?_insert_self] at h
    exact .inl ⟨hk, (Option.some.inj h).symm⟩
  · rw [find?_insert_of_ne m a hk] at h
    exact .inr ⟨hk, h⟩

theorem contains_insert [DecidableEq κ] (m : SortedMap κ α) (k k' : κ) (a : α) :
    (m.insert k a).contains k' = (decide (k' = k) || m.contains k') := by
  by_cases h : k' = k
  · subst h
    simp [contains, find?_insert_self]
  · simp [contains, find?_insert_of_ne _ _ h, h]

/-! ### Maps from lists -/

/-- A key that is not among the bindings keeps its value. -/
theorem find?_insertAll_of_not_mem {m : SortedMap κ α} {l : List (κ × α)} {k : κ}
    (h : ∀ a, (k, a) ∉ l) : (m.insertAll l).find? k = m.find? k := by
  induction l generalizing m with
  | nil => rfl
  | cons e l ih =>
    have hne : k ≠ e.1 := fun hk => h e.2 (by simp [hk])
    rw [insertAll_cons, ih fun a ha => h a (by simp [ha]), find?_insert_of_ne _ _ hne]

/-- Of the bindings of one key the last one counts. -/
theorem find?_insertAll (m : SortedMap κ α) (l before after : List (κ × α)) (k : κ) (a : α)
    (hl : l = before ++ (k, a) :: after) (h : ∀ a, (k, a) ∉ after) :
    (m.insertAll l).find? k = some a := by
  subst hl
  induction before generalizing m with
  | nil =>
    rw [List.nil_append, insertAll_cons, find?_insertAll_of_not_mem h, find?_insert_self]
  | cons e before ih => rw [List.cons_append, insertAll_cons, ih]

/-- If no key is bound twice, the order of the bindings does not matter. -/
theorem find?_insertAll_of_mem {m : SortedMap κ α} {l : List (κ × α)} {k : κ} {a : α}
    (hnodup : (l.map Prod.fst).Nodup) (h : (k, a) ∈ l) : (m.insertAll l).find? k = some a := by
  obtain ⟨before, after, rfl⟩ := List.append_of_mem h
  refine find?_insertAll m _ before after k a rfl fun b hb => ?_
  rw [List.map_append, List.map_cons, List.nodup_append, List.nodup_cons] at hnodup
  exact hnodup.2.1.1 (List.mem_map.2 ⟨(k, b), hb, rfl⟩)

theorem find?_ofList_iff {l : List (κ × α)} {k : κ} {a : α} (hnodup : (l.map Prod.fst).Nodup) :
    (ofList l).find? k = some a ↔ (k, a) ∈ l := by
  refine ⟨fun h => ?_, find?_insertAll_of_mem hnodup⟩
  by_cases hk : ∃ b, (k, b) ∈ l
  · obtain ⟨b, hb⟩ := hk
    rw [ofList_eq_insertAll, find?_insertAll_of_mem hnodup hb] at h
    rwa [← Option.some.inj h]
  · rw [ofList_eq_insertAll, find?_insertAll_of_not_mem fun a ha => hk ⟨a, ha⟩, find?_empty] at h
    exact absurd h (by simp)

/-- The keys of a map made from a list are those of the list. -/
theorem contains_ofList {l : List (κ × α)} {k : κ} :
    (ofList l).contains k = true ↔ ∃ a, (k, a) ∈ l := by
  have hkeep : ∀ (l : List (κ × α)) (m : SortedMap κ α),
      (m.insertAll l).contains k = true ↔ m.contains k = true ∨ ∃ a, (k, a) ∈ l := by
    intro l
    induction l with
    | nil => intro m; simp [insertAll]
    | cons e l ih =>
      intro m
      rw [insertAll_cons, ih]
      by_cases hk : k = e.1
      · subst hk
        have hin : (m.insert e.1 e.2).contains e.1 = true := by
          rw [contains, find?_insert_self]; rfl
        exact ⟨fun _ => .inr ⟨e.2, by simp⟩, fun _ => .inl hin⟩
      · have hsame : (m.insert e.1 e.2).contains k = m.contains k := by
          rw [contains, find?_insert_of_ne _ _ hk, contains]
        have hmem : ∀ a, (k, a) ∈ e :: l ↔ (k, a) ∈ l := by
          intro a
          rw [List.mem_cons, or_iff_right fun he => hk (by rw [← he])]
        simp only [hsame, hmem]
  rw [ofList_eq_insertAll, hkeep]
  simp [contains]

theorem mem_keys {m : SortedMap κ α} {k : κ} : k ∈ m.keys ↔ m.contains k = true := by
  rw [contains_iff, keys, List.mem_map]
  constructor
  · rintro ⟨⟨k, a⟩, he, rfl⟩
    exact ⟨a, mem_toList.1 he⟩
  · rintro ⟨a, ha⟩
    exact ⟨(k, a), mem_toList.2 ha, rfl⟩

omit [Std.TransOrd κ] in
/-- No key has two entries. -/
theorem nodup_keys (m : SortedMap κ α) : (m.toList.map Prod.fst).Nodup := by
  rw [List.nodup_iff_pairwise_ne, List.pairwise_map]
  refine m.sorted.imp fun {a b} hlt heq => ?_
  have hself : compare b.1 b.1 = .eq := Std.ReflCmp.compare_self
  rw [heq, hself] at hlt
  exact absurd hlt (by decide)

/-- Maps that bind the same keys list them alike. -/
theorem keys_congr {β : Type} {m : SortedMap κ α} {n : SortedMap κ β}
    (h : ∀ k, m.contains k = n.contains k) : m.keys = n.keys := by
  have hsorted : m.keys.Pairwise fun a b => compare a b = .lt := List.pairwise_map.2 m.sorted
  have hsorted' : n.keys.Pairwise fun a b => compare a b = .lt := List.pairwise_map.2 n.sorted
  have hmem : ∀ k, k ∈ m.keys ↔ k ∈ n.keys := by
    intro k
    rw [mem_keys, mem_keys, h]
  have hperm := (List.perm_ext_iff_of_nodup m.nodup_keys n.nodup_keys).2 hmem
  refine hperm.eq_of_pairwise (fun a b _ _ hab hba => ?_) hsorted hsorted'
  have hself : compare a a = .eq := Std.ReflCmp.compare_self
  rw [Std.TransCmp.lt_trans hab hba] at hself
  exact absurd hself (by decide)

/-- The entries of a map, bound in their order, give the map. -/
theorem ofList_toList (m : SortedMap κ α) : ofList m.toList = m := by
  apply ext_find?
  intro k
  ext a
  rw [find?_ofList_iff m.nodup_keys, mem_toList]

/-- Bindings of different keys are the entries of the map made from them. -/
theorem perm_toList_ofList {l : List (κ × α)} (hnodup : (l.map Prod.fst).Nodup) :
    l.Perm (ofList l).toList := by
  rw [List.perm_ext_iff_of_nodup hnodup.of_map (nodup_keys _).of_map]
  rintro ⟨k, a⟩
  rw [mem_toList, find?_ofList_iff hnodup]

/-! ### The greatest key -/

theorem contains_lastKey? {m : SortedMap κ α} {last : κ} (h : m.lastKey? = some last) :
    m.contains last = true :=
  mem_keys.1 (List.mem_of_getLast? h)

theorem le_lastKey? {m : SortedMap κ α} {k last : κ} (hk : m.contains k = true)
    (hlast : m.lastKey? = some last) : (compare k last).isLE = true := by
  have hmem : k ∈ m.keys := mem_keys.2 hk
  obtain ⟨before, hbefore⟩ := List.getLast?_eq_some_iff.1 hlast
  have hsorted : m.keys.Pairwise fun a b => compare a b = .lt := List.pairwise_map.2 m.sorted
  rw [hbefore] at hmem hsorted
  rcases List.mem_append.1 hmem with h | h
  · rw [(List.pairwise_append.1 hsorted).2.2 k h last (by simp)]
    rfl
  · obtain rfl := List.mem_singleton.1 h
    exact Std.ReflCmp.isLE_rfl

end Lakehouse.SortedMap
