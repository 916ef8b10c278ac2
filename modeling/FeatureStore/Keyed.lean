-- SUMMARY: Finite maps with text keys as association lists in ascending key order.

/-!
# Keyed lists

A keyed list is an association list whose keys ascend strictly. Text is ordered
by code points, which is also the order of its UTF-8 bytes. The members of a JSON
object and the records of a table are keyed lists: their order is visible, in
printed bodies and in reads, and it is this one.

`find?` is the view of a keyed list. The lemmas say what each operation does to it.
-/

namespace FeatureStore

/-- An association list, ascending by key where it is built by `insert` and `erase`. -/
abbrev Keyed (α : Type) := List (String × α)

namespace Keyed

variable {α : Type}

def find? (key : String) : Keyed α → Option α
  | [] => none
  | (k, v) :: rest => if k = key then some v else find? key rest

/-- Put a value under a key, in place of any other. -/
def insert (key : String) (value : α) : Keyed α → Keyed α
  | [] => [(key, value)]
  | (k, v) :: rest =>
    if key < k then (key, value) :: (k, v) :: rest
    else if k = key then (key, value) :: rest
    else (k, v) :: insert key value rest

def erase (key : String) : Keyed α → Keyed α
  | [] => []
  | (k, v) :: rest => if k = key then erase key rest else (k, v) :: erase key rest

/-- Insert pairs one after the other, so the last value of a repeated key stays. -/
def ofList (pairs : List (String × α)) : Keyed α :=
  pairs.foldl (fun map pair => map.insert pair.1 pair.2) []

/-- The keys ascend strictly. -/
def Ascending (map : Keyed α) : Prop := map.Pairwise (fun a b => a.1 < b.1)

/-! ## The view of each operation -/

@[simp] theorem find?_nil (key : String) : find? key ([] : Keyed α) = none := rfl

theorem find?_insert (key other : String) (value : α) (map : Keyed α) :
    find? other (insert key value map) = if key = other then some value else find? other map := by
  induction map with
  | nil => simp [insert, find?]
  | cons entry rest ih =>
    obtain ⟨k, v⟩ := entry
    by_cases hlt : key < k
    · simp [insert, hlt, find?]
    · by_cases heq : k = key
      · subst heq
        by_cases ho : k = other <;> simp [insert, find?, ho]
      · by_cases ho : k = other
        · subst ho
          simp [insert, hlt, heq, find?, Ne.symm heq]
        · simp [insert, hlt, heq, find?, ho, ih]

@[simp] theorem find?_insert_self (key : String) (value : α) (map : Keyed α) :
    find? key (insert key value map) = some value := by
  simp [find?_insert]

theorem find?_erase (key other : String) (map : Keyed α) :
    find? other (erase key map) = if key = other then none else find? other map := by
  induction map with
  | nil => simp [erase]
  | cons entry rest ih =>
    obtain ⟨k, v⟩ := entry
    by_cases heq : k = key
    · subst heq
      by_cases ho : k = other <;> simp_all [erase, find?]
    · by_cases ho : k = other
      · subst ho
        simp [erase, heq, find?, Ne.symm heq]
      · simp [erase, heq, find?, ho, ih]

/-! ## Ascending keys -/

/-- Keys that are not in order and differ are in the other order. -/
theorem lt_of_not_lt_of_ne {a b : String} (h : ¬ a < b) (hne : b ≠ a) : b < a :=
  Classical.byContradiction fun hb =>
    hne (String.le_antisymm (String.not_lt.mp h) (String.not_lt.mp hb))

theorem mem_insert {key : String} {value : α} {map : Keyed α} {entry : String × α}
    (h : entry ∈ insert key value map) : entry = (key, value) ∨ entry ∈ map := by
  induction map with
  | nil => simpa [insert] using h
  | cons head rest ih =>
    obtain ⟨k, v⟩ := head
    by_cases hlt : key < k
    · simpa [insert, hlt] using h
    · by_cases heq : k = key
      · subst heq
        rw [insert, if_neg hlt, if_pos rfl] at h
        rcases List.mem_cons.mp h with h | h
        · exact Or.inl h
        · exact Or.inr (List.mem_cons_of_mem _ h)
      · rw [insert, if_neg hlt, if_neg heq] at h
        rcases List.mem_cons.mp h with h | h
        · exact Or.inr (h ▸ List.mem_cons_self)
        · exact (ih h).imp_right (List.mem_cons_of_mem _)

theorem ascending_insert {map : Keyed α} (h : map.Ascending) (key : String) (value : α) :
    (insert key value map).Ascending := by
  induction map with
  | nil => simp [insert, Ascending]
  | cons head rest ih =>
    obtain ⟨k, v⟩ := head
    obtain ⟨hhead, hrest⟩ := List.pairwise_cons.mp h
    by_cases hlt : key < k
    · rw [insert, if_pos hlt]
      refine List.pairwise_cons.mpr ⟨fun entry hmem => ?_, h⟩
      rcases List.mem_cons.mp hmem with rfl | hmem
      · exact hlt
      · exact String.lt_trans hlt (hhead entry hmem)
    · by_cases heq : k = key
      · subst heq
        rw [insert, if_neg hlt, if_pos rfl]
        exact List.pairwise_cons.mpr ⟨hhead, hrest⟩
      · rw [insert, if_neg hlt, if_neg heq]
        refine List.pairwise_cons.mpr ⟨fun entry hmem => ?_, ih hrest⟩
        rcases mem_insert hmem with rfl | hmem
        · exact lt_of_not_lt_of_ne hlt heq
        · exact hhead entry hmem

theorem erase_sublist (key : String) (map : Keyed α) : (erase key map).Sublist map := by
  induction map with
  | nil => exact List.Sublist.refl _
  | cons head rest ih =>
    obtain ⟨k, v⟩ := head
    by_cases heq : k = key
    · simpa [erase, heq] using ih.cons (key, v)
    · simpa [erase, heq] using ih.cons_cons (k, v)

theorem ascending_erase {map : Keyed α} (h : map.Ascending) (key : String) :
    (erase key map).Ascending :=
  h.sublist (erase_sublist key map)

/-- A key above all others is put at the end. -/
theorem insert_of_lt {key : String} {value : α} {map : Keyed α}
    (h : ∀ entry ∈ map, entry.1 < key) : insert key value map = map ++ [(key, value)] := by
  induction map with
  | nil => rfl
  | cons head rest ih =>
    have hlt : head.1 < key := h head List.mem_cons_self
    have hne : head.1 ≠ key := fun heq => String.lt_irrefl key (heq ▸ hlt)
    rw [insert, if_neg (String.lt_asymm hlt), if_neg hne,
      ih (fun entry hmem => h entry (List.mem_cons_of_mem head hmem)), List.cons_append]

/-- Pairs in ascending order are the list that they are inserted into. -/
theorem ofList_of_ascending {pairs : Keyed α} (h : pairs.Ascending) : ofList pairs = pairs := by
  have hfold : ∀ before : Keyed α, Ascending (before ++ pairs) →
      pairs.foldl (fun map pair => map.insert pair.1 pair.2) before = before ++ pairs := by
    clear h
    induction pairs with
    | nil => simp
    | cons pair rest ih =>
      intro before hall
      have hlast : insert pair.1 pair.2 before = before ++ [pair] :=
        insert_of_lt fun entry hmem =>
          (List.pairwise_append.mp hall).2.2 entry hmem pair List.mem_cons_self
      have hrest := ih (before ++ [pair]) (by simpa using hall)
      simp only [List.foldl_cons, hlast, hrest, List.append_assoc, List.singleton_append]
  exact hfold [] h

end Keyed

/-! ## Dictionaries -/

/-- A keyed list that is known to ascend. -/
structure Dictionary (α : Type) where
  entries : Keyed α
  ascending : entries.Ascending

namespace Dictionary

variable {α : Type}

def empty : Dictionary α := ⟨[], List.Pairwise.nil⟩

instance : Inhabited (Dictionary α) := ⟨empty⟩

def find? (key : String) (d : Dictionary α) : Option α := d.entries.find? key

/-- Put a value under a key, in place of any other. -/
def insert (key : String) (value : α) (d : Dictionary α) : Dictionary α :=
  ⟨d.entries.insert key value, Keyed.ascending_insert d.ascending key value⟩

def erase (key : String) (d : Dictionary α) : Dictionary α :=
  ⟨d.entries.erase key, Keyed.ascending_erase d.ascending key⟩

@[simp] theorem find?_empty (key : String) : (empty : Dictionary α).find? key = none := rfl

theorem find?_insert (key other : String) (value : α) (d : Dictionary α) :
    (d.insert key value).find? other = if key = other then some value else d.find? other :=
  Keyed.find?_insert key other value d.entries

theorem find?_erase (key other : String) (d : Dictionary α) :
    (d.erase key).find? other = if key = other then none else d.find? other :=
  Keyed.find?_erase key other d.entries

end Dictionary

end FeatureStore
