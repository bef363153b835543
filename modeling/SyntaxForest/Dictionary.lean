/-!
# Dictionaries: finite maps from text

A dictionary keeps its entries sorted by key, each key at most once. So there is one list
of entries per finite map: equality of dictionaries is equality of maps, and the keys are
listed in increasing order without sorting. `get?_insert` and `get?_erase` say what an
update does to the map.
-/

namespace SyntaxForest

/-- Keys strictly increase along the list. -/
def KeysSorted {α : Type} (es : List (String × α)) : Prop :=
  es.Pairwise fun a b => a.1 < b.1

/-- A finite map from text to `α`. -/
structure Dictionary (α : Type) where
  entries : List (String × α) := []
  sorted : KeysSorted entries := by exact .nil

namespace Dictionary

variable {α : Type}

/-- The map without entries. -/
def empty : Dictionary α := {}

instance : Inhabited (Dictionary α) := ⟨empty⟩

theorem eq_of_entries_eq {d e : Dictionary α} (h : d.entries = e.entries) : d = e := by
  cases d; cases e; simp_all

instance [DecidableEq α] : DecidableEq (Dictionary α) := fun d e =>
  decidable_of_iff (d.entries = e.entries) ⟨eq_of_entries_eq, fun h => h ▸ rfl⟩

/-! ## Insertion into sorted entries -/

/-- The entries with `v` under `k`, in place of what was there. -/
def insertSorted (k : String) (v : α) : List (String × α) → List (String × α)
  | [] => [(k, v)]
  | e :: es =>
    if k < e.1 then (k, v) :: e :: es
    else if k = e.1 then (k, v) :: es
    else e :: insertSorted k v es

theorem mem_insertSorted {k : String} {v : α} {e : String × α} {es : List (String × α)}
    (h : e ∈ insertSorted k v es) : e = (k, v) ∨ e ∈ es := by
  induction es with
  | nil => simpa [insertSorted] using h
  | cons x xs ih =>
    simp only [insertSorted] at h
    split at h
    · simpa using h
    · split at h
      · simp only [List.mem_cons] at h ⊢
        exact h.imp_right .inr
      · simp only [List.mem_cons] at h ⊢
        rcases h with h | h
        · exact .inr (.inl h)
        · exact (ih h).imp_right .inr

theorem keysSorted_insertSorted {k : String} {v : α} {es : List (String × α)}
    (h : KeysSorted es) : KeysSorted (insertSorted k v es) := by
  induction es with
  | nil => simp [insertSorted, KeysSorted]
  | cons x xs ih =>
    have hx := List.pairwise_cons.1 h
    simp only [insertSorted]
    split
    · next hk =>
      -- the new key stands before all others
      refine List.pairwise_cons.2 ⟨fun e he => ?_, h⟩
      rcases List.mem_cons.1 he with rfl | he
      · exact hk
      · exact String.lt_trans hk (hx.1 e he)
    · split
      · next _ hk =>
        exact List.pairwise_cons.2 ⟨fun e he => by simpa [hk] using hx.1 e he, hx.2⟩
      · next hlt hne =>
        refine List.pairwise_cons.2 ⟨fun e he => ?_, ih hx.2⟩
        rcases mem_insertSorted he with rfl | he
        · show x.1 < k
          grind
        · exact hx.1 e he

/-! ## Operations -/

/-- The value under a key. -/
def get? (d : Dictionary α) (k : String) : Option α :=
  (d.entries.find? fun e => e.1 == k).map (·.2)

/-- The map with `v` under `k`, in place of what was there. -/
def insert (d : Dictionary α) (k : String) (v : α) : Dictionary α where
  entries := insertSorted k v d.entries
  sorted := keysSorted_insertSorted d.sorted

/-- The map without `k`. -/
def erase (d : Dictionary α) (k : String) : Dictionary α where
  entries := d.entries.filter fun e => e.1 != k
  sorted := d.sorted.filter _

/-- Whether there is a value under `k`. -/
def contains (d : Dictionary α) (k : String) : Bool := (d.get? k).isSome

/-- The number of keys. -/
def size (d : Dictionary α) : Nat := d.entries.length

/-- The keys in increasing order. -/
def keys (d : Dictionary α) : List String := d.entries.map (·.1)

/-- The values in the order of their keys. -/
def values (d : Dictionary α) : List α := d.entries.map (·.2)

/-! ## Laws -/

@[simp] theorem get?_empty (k : String) : (empty : Dictionary α).get? k = none := rfl

theorem find?_insertSorted (k k' : String) (v : α) (es : List (String × α)) :
    ((insertSorted k v es).find? fun e => e.1 == k').map (·.2) =
      if k = k' then some v else (es.find? fun e => e.1 == k').map (·.2) := by
  induction es with
  | nil => by_cases h : k = k' <;> simp [insertSorted, h]
  | cons x xs ih =>
    simp only [insertSorted]
    split
    · by_cases h : k = k' <;> simp [h]
    · split
      · next _ hk =>
        by_cases h : k = k'
        · simp [h]
        · have hx : x.1 ≠ k' := fun e => h (hk.trans e)
          simp [h, hx]
      · next hlt hne =>
        by_cases hx : x.1 = k'
        · have h : k ≠ k' := fun e => hne (e.trans hx.symm)
          simp [hx, h]
        · simpa [List.find?_cons, hx] using ih

/-- Reading after writing: the written key has the written value, the others keep theirs. -/
theorem get?_insert (d : Dictionary α) (k k' : String) (v : α) :
    (d.insert k v).get? k' = if k = k' then some v else d.get? k' :=
  find?_insertSorted k k' v d.entries

/-- Reading after erasing: the key is gone, the others keep their values. -/
theorem get?_erase (d : Dictionary α) (k k' : String) :
    (d.erase k).get? k' = if k = k' then none else d.get? k' := by
  unfold get? erase
  simp only
  induction d.entries with
  | nil => simp
  | cons x xs ih =>
    by_cases hx : x.1 = k
    · by_cases h : k = k'
      · simp [hx, h]
      · have : x.1 ≠ k' := fun e => h (hx.symm.trans e)
        simpa [List.filter_cons, hx, h, List.find?_cons, this] using ih
    · by_cases h : x.1 = k'
      · have : k ≠ k' := fun e => hx (h.trans e.symm)
        simp [h, this, Ne.symm this]
      · simpa [List.filter_cons, hx, List.find?_cons, h] using ih

/-- A value that is found is one of the values listed. -/
theorem mem_values_of_get? {d : Dictionary α} {k : String} {v : α} (h : d.get? k = some v) :
    v ∈ d.values := by
  simp only [get?, Option.map_eq_some_iff] at h
  obtain ⟨e, he, rfl⟩ := h
  exact List.mem_map_of_mem (List.mem_of_find?_eq_some he)

end Dictionary

end SyntaxForest
