/- Maps with their entries in ascending order of the keys.

   The entries of a map are a list without repeated keys, sorted by the order of
   the key type, so two maps with the same bindings are equal, and walking over a
   map always meets the keys in ascending order. Look-up is described by
   `find?_empty`, `find?_insert`, `find?_erase` and `find?_filter`; `mem_toList`
   says that the entries are the bindings, and `ext_find?` that nothing but look-up
   distinguishes two maps. -/
namespace Lakehouse

/-- A finite map, listed in ascending order of its keys. -/
structure SortedMap (κ : Type) (α : Type) [Ord κ] where
  entries : List (κ × α)
  sorted : entries.Pairwise fun a b => compare a.1 b.1 = .lt
  deriving DecidableEq

namespace SortedMap

variable {κ α β : Type} [Ord κ]

/-- The value at a key of a list of entries. -/
def lookup (k : κ) : List (κ × α) → Option α
  | [] => none
  | (k', a) :: rest => if compare k k' = .eq then some a else lookup k rest

/-- Puts an entry in its place, instead of one with the same key. -/
def place (k : κ) (a : α) : List (κ × α) → List (κ × α)
  | [] => [(k, a)]
  | (k', a') :: rest =>
    match compare k k' with
    | .lt => (k, a) :: (k', a') :: rest
    | .eq => (k, a) :: rest
    | .gt => (k', a') :: place k a rest

theorem mem_place {k : κ} {a : α} {e : κ × α} {l : List (κ × α)} (h : e ∈ place k a l) :
    e = (k, a) ∨ e ∈ l := by
  induction l with
  | nil => simpa [place] using h
  | cons hd tl ih =>
    obtain ⟨k', a'⟩ := hd
    simp only [place] at h
    split at h <;> grind

theorem sorted_place [Std.TransOrd κ] (k : κ) (a : α) {l : List (κ × α)}
    (h : l.Pairwise fun a b => compare a.1 b.1 = .lt) :
    (place k a l).Pairwise fun a b => compare a.1 b.1 = .lt := by
  induction l with
  | nil => simp [place]
  | cons hd tl ih =>
    obtain ⟨k', a'⟩ := hd
    obtain ⟨hlt, htl⟩ := List.pairwise_cons.1 h
    simp only [place]
    split
    next hk =>
      refine List.pairwise_cons.2 ⟨fun e he => ?_, h⟩
      rcases List.mem_cons.1 he with rfl | he
      · exact hk
      · exact Std.TransCmp.lt_trans hk (hlt e he)
    next hk =>
      exact List.pairwise_cons.2 ⟨fun e he => Std.TransCmp.lt_of_eq_of_lt hk (hlt e he), htl⟩
    next hk =>
      refine List.pairwise_cons.2 ⟨fun e he => ?_, ih htl⟩
      rcases mem_place he with rfl | he
      · exact Std.OrientedCmp.lt_of_gt hk
      · exact hlt e he

def empty : SortedMap κ α := ⟨[], .nil⟩

instance : Inhabited (SortedMap κ α) := ⟨empty⟩

/-- The value bound to a key. -/
def find? (m : SortedMap κ α) (k : κ) : Option α := lookup k m.entries

def contains (m : SortedMap κ α) (k : κ) : Bool := (m.find? k).isSome

/-- Binds a key to a value, instead of its earlier one. -/
def insert [Std.TransOrd κ] (m : SortedMap κ α) (k : κ) (a : α) : SortedMap κ α :=
  ⟨place k a m.entries, sorted_place k a m.sorted⟩

def erase (m : SortedMap κ α) (k : κ) : SortedMap κ α :=
  ⟨m.entries.filter fun e => compare k e.1 != .eq, m.sorted.filter _⟩

/-- The map with the given bindings; of several for one key the last counts. -/
def ofList [Std.TransOrd κ] (l : List (κ × α)) : SortedMap κ α :=
  l.foldl (fun m e => m.insert e.1 e.2) empty

/-- Adds all bindings of `l`, each instead of an earlier one for its key. -/
def insertAll [Std.TransOrd κ] (m : SortedMap κ α) (l : List (κ × α)) : SortedMap κ α :=
  l.foldl (fun m e => m.insert e.1 e.2) m

def toList (m : SortedMap κ α) : List (κ × α) := m.entries

/-- The keys in ascending order. -/
def keys (m : SortedMap κ α) : List κ := m.entries.map Prod.fst

/-- The values in the order of their keys. -/
def values (m : SortedMap κ α) : List α := m.entries.map Prod.snd

def size (m : SortedMap κ α) : Nat := m.entries.length

def isEmpty (m : SortedMap κ α) : Bool := m.entries.isEmpty

/-- The greatest key. -/
def lastKey? (m : SortedMap κ α) : Option κ := m.keys.getLast?

/-- The entries that satisfy `p`. -/
def filter (m : SortedMap κ α) (p : κ → α → Bool) : SortedMap κ α :=
  ⟨m.entries.filter fun e => p e.1 e.2, m.sorted.filter _⟩

@[simp] theorem find?_empty (k : κ) : (empty : SortedMap κ α).find? k = none := rfl

theorem lookup_place [Std.TransOrd κ] (k k' : κ) (a : α) (l : List (κ × α)) :
    lookup k' (place k a l) = if compare k' k = .eq then some a else lookup k' l := by
  induction l with
  | nil => rfl
  | cons hd tl ih =>
    obtain ⟨k₁, a₁⟩ := hd
    simp only [place]
    split
    next => simp [lookup]
    next hk =>
      simp only [lookup]
      by_cases h : compare k' k = .eq
      · simp [h]
      · have h₁ : compare k' k₁ ≠ .eq := fun e =>
          h (Std.TransCmp.eq_trans e (Std.OrientedCmp.eq_comm.1 hk))
        simp [h, h₁]
    next hk =>
      simp only [lookup, ih]
      by_cases h : compare k' k₁ = .eq
      · have h₁ : compare k' k ≠ .eq := fun e => by
          have := Std.TransCmp.eq_trans (Std.OrientedCmp.eq_comm.1 e) h
          simp [this] at hk
        simp [h, h₁]
      · simp [h]

theorem find?_insert [Std.TransOrd κ] (m : SortedMap κ α) (k k' : κ) (a : α) :
    (m.insert k a).find? k' = if compare k' k = .eq then some a else m.find? k' :=
  lookup_place k k' a m.entries

theorem lookup_filter_ne [Std.TransOrd κ] (k k' : κ) (l : List (κ × α)) :
    lookup k' (l.filter fun e => compare k e.1 != .eq) =
      if compare k' k = .eq then none else lookup k' l := by
  induction l with
  | nil => simp [lookup]
  | cons hd tl ih =>
    obtain ⟨k₁, a₁⟩ := hd
    by_cases h₁ : compare k k₁ = .eq
    · simp only [List.filter, h₁, bne_self_eq_false, ih, lookup]
      by_cases h : compare k' k = .eq
      · simp [h]
      · have h₂ : compare k' k₁ ≠ .eq := fun e =>
          h (Std.TransCmp.eq_trans e (Std.OrientedCmp.eq_comm.1 h₁))
        simp [h, h₂]
    · have hb : (compare k k₁ != .eq) = true := by simpa using h₁
      simp only [List.filter, hb, lookup, ih]
      by_cases h : compare k' k = .eq
      · have h₂ : compare k' k₁ ≠ .eq := fun e =>
          h₁ (Std.TransCmp.eq_trans (Std.OrientedCmp.eq_comm.1 h) e)
        simp [h, h₂]
      · simp [h]

theorem find?_erase [Std.TransOrd κ] (m : SortedMap κ α) (k k' : κ) :
    (m.erase k).find? k' = if compare k' k = .eq then none else m.find? k' :=
  lookup_filter_ne k k' m.entries

theorem ext_entries {m n : SortedMap κ α} (h : m.entries = n.entries) : m = n := by
  cases m; cases n; cases h; rfl

theorem lookup_eq_none {k : κ} {l : List (κ × α)} (h : ∀ e ∈ l, compare k e.1 = .lt) :
    lookup k l = none := by
  induction l with
  | nil => rfl
  | cons hd tl ih =>
    have hk : compare k hd.1 ≠ .eq := by simp [h hd (by simp)]
    simp [lookup, hk, ih fun e he => h e (by simp [he])]

theorem lookup_cons_of_lt [Std.TransOrd κ] {k k' : κ} {a : α} {l : List (κ × α)}
    (hk : compare k k' = .lt) (h : ∀ e ∈ l, compare k' e.1 = .lt) :
    lookup k ((k', a) :: l) = none :=
  lookup_eq_none fun e he => by
    rcases List.mem_cons.1 he with rfl | he
    · exact hk
    · exact Std.TransCmp.lt_trans hk (h e he)

theorem entries_ext [Std.TransOrd κ] [Std.LawfulEqOrd κ] {l₁ l₂ : List (κ × α)}
    (h₁ : l₁.Pairwise fun a b => compare a.1 b.1 = .lt)
    (h₂ : l₂.Pairwise fun a b => compare a.1 b.1 = .lt)
    (h : ∀ k, lookup k l₁ = lookup k l₂) : l₁ = l₂ := by
  induction l₁ generalizing l₂ with
  | nil =>
    cases l₂ with
    | nil => rfl
    | cons hd tl => simpa [lookup] using h hd.1
  | cons hd tl ih =>
    obtain ⟨k, a⟩ := hd
    obtain ⟨hlt, htl⟩ := List.pairwise_cons.1 h₁
    cases l₂ with
    | nil => simpa [lookup] using h k
    | cons hd' tl' =>
      obtain ⟨k', a'⟩ := hd'
      obtain ⟨hlt', htl'⟩ := List.pairwise_cons.1 h₂
      have hk := h k
      have hk' := h k'
      -- If one first key is smaller, the other list does not have it.
      rcases hc : compare k k' with _ | _ | _
      · rw [lookup_cons_of_lt hc hlt'] at hk
        simp [lookup] at hk
      · obtain rfl := Std.LawfulEqCmp.eq_of_compare hc
        obtain rfl : a = a' := by simpa [lookup] using hk
        congr 1
        refine ih htl htl' fun x => ?_
        by_cases hx : compare x k = .eq
        · obtain rfl := Std.LawfulEqCmp.eq_of_compare hx
          rw [lookup_eq_none hlt, lookup_eq_none hlt']
        · simpa [lookup, hx] using h x
      · rw [lookup_cons_of_lt (Std.OrientedCmp.lt_of_gt hc) hlt] at hk'
        simp [lookup] at hk'

theorem lookup_eq_some_iff [Std.TransOrd κ] [Std.LawfulEqOrd κ] {k : κ} {a : α}
    {l : List (κ × α)} (h : l.Pairwise fun a b => compare a.1 b.1 = .lt) :
    lookup k l = some a ↔ (k, a) ∈ l := by
  induction l with
  | nil => simp [lookup]
  | cons hd tl ih =>
    obtain ⟨k', a'⟩ := hd
    obtain ⟨hlt, htl⟩ := List.pairwise_cons.1 h
    by_cases hk : compare k k' = .eq
    · obtain rfl := Std.LawfulEqCmp.eq_of_compare hk
      -- The key does not occur again behind the first entry.
      have habsent : (k, a) ∉ tl := fun he => by simpa using hlt _ he
      simp [lookup, habsent, eq_comm]
    · have hne : k ≠ k' := fun e => hk (e ▸ Std.ReflCmp.compare_self)
      simp [lookup, hk, hne, ih htl]

/-- The entries are the bindings. -/
theorem mem_toList [Std.TransOrd κ] [Std.LawfulEqOrd κ] {m : SortedMap κ α} {k : κ} {a : α} :
    (k, a) ∈ m.toList ↔ m.find? k = some a :=
  (lookup_eq_some_iff m.sorted).symm

theorem find?_filter [Std.TransOrd κ] [Std.LawfulEqOrd κ] (m : SortedMap κ α)
    (p : κ → α → Bool) (k : κ) : (m.filter p).find? k = (m.find? k).filter (p k) := by
  ext a
  rw [← mem_toList, Option.filter_eq_some_iff, ← mem_toList]
  exact List.mem_filter

/-- Maps with the same bindings are equal. -/
theorem ext_find? [Std.TransOrd κ] [Std.LawfulEqOrd κ] {m n : SortedMap κ α}
    (h : ∀ k, m.find? k = n.find? k) : m = n :=
  ext_entries (entries_ext m.sorted n.sorted h)

end SortedMap

end Lakehouse
